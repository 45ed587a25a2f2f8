import SemOS.Bogatyri.ExchangeServed

/-!
# The steps of the exchange

Every step keeps what the processes hold: `step_agreed` for one step, from a lemma for each call,
and `reachable_agreed` for every reachable state.
-/

namespace SemOS.Bogatyri.Exchange

open Function
open Qsort (Sorts)

variable {n : ℕ} {qsort : (Int32 → Int32 → Int32) → List Int32 → List Int32} {system : Pids n}
  {s t : State n} {order : List (Fin n)} {w : Fin n}

theorem side_setVars_zero (s : State n) (v : Vars) (w : Fin n) :
    (s.setVars 0 v).side w = s.side w := by
  simp [State.side, State.setVars]

/-- Going on without new values of the variables. -/
theorem goto_eq_setVars (s : State n) (w : Fin n) (c : Worker) :
    s.goto w c = (s.goto w c).setVars w.succ (s.vars w.succ) := by
  simp [State.goto, State.setVars]

theorem sent_congr (hside : t.side w = s.side w)
    (hsent : t.coordinator.sent w = s.coordinator.sent w) : t.sent w = s.sent w := by
  have hreply : t.reply w = s.reply w := congrArg Side.reply hside
  rw [State.sent, State.sent, hreply, hsent]

/-- A step that is about the worker `w`. -/
theorem Agreed.serve {order' : List (Fin n)} (h : Agreed qsort system order s) (w : Fin n)
    (hnodup : order'.Nodup) (hholds : t.coordinator.Holds qsort system order' (t.vars 0))
    (hothers : ∀ w', w' ≠ w → t.side w' = s.side w' ∧ (w' ∈ order' ↔ w' ∈ order) ∧
      t.coordinator.sent w' = s.coordinator.sent w')
    (hside : Served qsort system w (w ∈ order') (t.sent w) (t.side w)) :
    Agreed qsort system order' t := by
  refine ⟨hnodup, hholds, fun w' => ?_⟩
  by_cases hw : w' = w
  · subst hw
    exact hside
  · obtain ⟨hsame, hmem, hsent⟩ := hothers w' hw
    have hserved := (h.served w').congr hmem (sent_congr hsame hsent)
    rwa [← hsame] at hserved

/-- A step of a worker. -/
theorem Agreed.work (h : Agreed qsort system order s) (w : Fin n)
    (hco : t.coordinator = s.coordinator) (hvars : t.vars 0 = s.vars 0)
    (hothers : ∀ w', w' ≠ w → t.side w' = s.side w') (hsent : t.sent w = s.sent w)
    (hside : Served qsort system w (w ∈ order) (s.sent w) (t.side w)) :
    Agreed qsort system order t := by
  refine h.serve w h.nodup (by rw [hco, hvars]; exact h.holds) (fun w' hw => ?_) (by rwa [hsent])
  exact ⟨hothers w' hw, Iff.rfl, by rw [hco]⟩

/-- A worker goes on without a value. -/
theorem Agreed.goto (h : Agreed qsort system order s) {c : Worker} {v : Vars}
    (hc : c.isConnecting = false) (hgot : c.got = (s.worker w).got)
    (hv : v = c.vars qsort system w) :
    Agreed qsort system order ((s.goto w c).setVars w.succ v) := by
  refine h.work w rfl ?_ (fun w' hne => ?_) rfl ?_
  · simp [State.goto, State.setVars, (Fin.succ_ne_zero w).symm]
  · simp [State.side, State.goto, State.setVars, hne]
  · simpa [State.side, State.goto, State.setVars] using (h.served w).goto hc hgot hv

/-- A step of the coordinator alone. -/
theorem Agreed.coordinate (h : Agreed qsort system order s)
    (hholds : t.coordinator.Holds qsort system order (t.vars 0))
    (hothers : ∀ w, t.side w = s.side w ∧ t.sent w = s.sent w) :
    Agreed qsort system order t := by
  refine ⟨h.nodup, hholds, fun w => ?_⟩
  rw [(hothers w).1]
  exact (h.served w).congr Iff.rfl (hothers w).2

/-- A step of the coordinator that sends nothing. -/
theorem Agreed.proceed (h : Agreed qsort system order s) {c : Coordinator n}
    (hholds : c.Holds qsort system order (s.vars 0))
    (hsent : ∀ w, c.sent w = s.coordinator.sent w) :
    Agreed qsort system order { s with coordinator := c } :=
  h.coordinate hholds fun w => ⟨rfl, sent_congr (w := w) rfl (hsent w)⟩

/-- The coordinator changes its variables. -/
theorem Agreed.compute (h : Agreed qsort system order s) {c : Coordinator n} {v : Vars}
    (hholds : c.Holds qsort system order v) (hsent : c.sent = s.coordinator.sent) :
    Agreed qsort system order { s.setVars 0 v with coordinator := c } := by
  refine h.coordinate ?_ fun w => ⟨side_setVars_zero s v w,
    sent_congr (side_setVars_zero s v w) (by rw [hsent])⟩
  simpa [State.setVars] using hholds

/-- The coordinator accepts a connection. -/
theorem Agreed.accept (h : Agreed qsort system order s) {i : ℕ} {client : Fin n}
    (hc : s.coordinator = .accepting i) (hp : s.pending client = true) :
    Agreed qsort system (order ++ [client])
      { s with coordinator := .receiving i client, pending := update s.pending client false } := by
  have hholds := h.holds
  have hs := h.served client
  rw [hc] at hholds
  obtain ⟨rfl, hv⟩ := hholds
  have hnew : client ∉ order := fun hmem => by
    have := hs.once hmem
    rw [State.side, hp] at this
    cases this
  refine h.serve client ?_ ⟨order, rfl, rfl, hv⟩ (fun w hw => ?_) ?_
  · exact h.nodup.append (List.nodup_singleton _) (by simpa using hnew)
  · exact ⟨by simp [State.side, hw], by simp [hw], by rw [hc]; rfl⟩
  · have hcome := hs.come hp
    simpa [State.side, State.sent, hc, Coordinator.sent] using hcome

/-- The coordinator receives a number. -/
theorem Agreed.number (h : Agreed qsort system order s) {i : ℕ} {client : Fin n} {pid : Int32}
    (hc : s.coordinator = .receiving i client) (hr : s.request client = some pid) :
    Agreed qsort system order
      { s.setVars 0 ((s.vars 0).add pid) with
        coordinator := .accepting (i + 1), request := update s.request client none } := by
  have hholds := h.holds
  have hs := h.served client
  rw [hc] at hholds
  obtain ⟨earlier, rfl, rfl, hv⟩ := hholds
  obtain rfl := hs.request pid hr
  have hlt : earlier.length < n := by
    have := length_le h.nodup
    rw [List.length_append, List.length_singleton] at this
    omega
  refine h.serve client h.nodup ⟨by simp, ?_⟩ (fun w hw => ?_) ?_
  · simp [State.setVars, hv, add_gathered hlt]
  · exact ⟨by simp [State.side, State.setVars, hw], Iff.rfl, by rw [hc]; rfl⟩
  · have hnumber := hs.number
    simpa [State.side, State.sent, State.setVars, hc, Coordinator.sent] using hnumber

/-- The coordinator sends a worker its next value. -/
theorem Agreed.send (h : Agreed qsort system order s) {k : Fin n} {c : Coordinator n} {m : ℕ}
    {value : Value} (hholds : c.Holds qsort system order (s.vars 0))
    (hothers : ∀ w, w ≠ k → c.sent w = s.coordinator.sent w)
    (hm : s.coordinator.sent k = some m) (hm' : c.sent k = some (m + 1))
    (hvalue : (values qsort system)[m]? = some value) :
    Agreed qsort system order
      { s with
        coordinator := c, reply := update s.reply k ((s.reply k).map (· ++ [value])) } := by
  refine h.serve k h.nodup hholds (fun w hne => ⟨?_, Iff.rfl, hothers w hne⟩) ?_
  · simp [State.side, hne]
  · have hs := h.served k
    cases hr : s.reply k with
    | none => simpa [State.side, State.sent, hr] using hs
    | some l =>
      have hsent : s.sent k = some m := by rw [State.sent, hr, Option.bind_some, hm]
      rw [hsent] at hs
      simpa [State.side, State.sent, hr, hm'] using hs.append hvalue

/-- The coordinator connects to a worker. -/
theorem Agreed.connect (h : Agreed qsort system order s) {k : Fin n} {attempt : ℕ}
    (hc : s.coordinator = .connecting k attempt) (hw : s.worker k = .accepting) :
    Agreed qsort system order
      { s with coordinator := .sendingCount k, reply := update s.reply k (some []) } := by
  have hholds := h.holds
  rw [hc] at hholds
  refine h.serve k h.nodup hholds (fun w hne => ⟨?_, Iff.rfl, ?_⟩) ?_
  · simp [State.side, hne]
  · simp [hc, Coordinator.sent, hne]
  · simpa [State.side, State.sent, Coordinator.sent] using (h.served k).reached hw

/-- A worker to which the coordinator has not come yet has no connection from it. -/
theorem Agreed.reply_eq_none (h : Agreed qsort system order s)
    (hw : s.coordinator.sent w = none) : s.reply w = none := by
  have hreply := (h.served w).reply
  have hsent : s.sent w = none := by simp [State.sent, hw]
  rw [hsent] at hreply
  exact hreply

theorem lt_succ_iff_of_ne {k : Fin n} (h : w ≠ k) : (w : ℕ) < k + 1 ↔ w < k := by
  have := Fin.val_ne_of_ne h
  rw [Fin.lt_def]
  omega

/-- The coordinator passes over a worker. -/
theorem Agreed.skip (h : Agreed qsort system order s) {k : Fin n} {attempt : ℕ}
    (hc : s.coordinator = .connecting k attempt) :
    Agreed qsort system order { s with coordinator := .connecting (k + 1) 0 } := by
  have hholds := h.holds
  rw [hc] at hholds
  refine h.coordinate hholds fun w => ⟨rfl, ?_⟩
  by_cases hw : w = k
  · -- it has no connection
    subst hw
    have hnone := h.reply_eq_none (w := w) (by simp [hc, Coordinator.sent])
    simp [State.sent, hnone]
  · exact sent_congr rfl (by simp [hc, Coordinator.sent, lt_succ_iff_of_ne hw])

/-- At the end of the loop over the workers, the coordinator has left all of them behind. -/
theorem Agreed.sent_of_last (h : Agreed qsort system order s) {k attempt : ℕ}
    (hc : s.coordinator = .connecting k attempt) (hk : ¬ k + 1 < (s.vars 0).pidsCount)
    (w : Fin n) : s.coordinator.sent w = some 2 := by
  have hholds := h.holds
  rw [hc] at hholds
  have hv : s.vars 0 = final qsort system 0 := hholds.2
  have hlt : (w : ℕ) < k := by
    rw [hv] at hk
    simp only [final] at hk
    omega
  simp [hc, Coordinator.sent, hlt]

/-- The coordinator leaves the loop over the workers. -/
theorem Agreed.done (h : Agreed qsort system order s) {k attempt : ℕ}
    (hc : s.coordinator = .connecting k attempt) (hk : ¬ k + 1 < (s.vars 0).pidsCount) :
    Agreed qsort system order { s with coordinator := .exchanged } := by
  have hholds := h.holds
  rw [hc] at hholds
  exact h.proceed hholds fun w => (h.sent_of_last hc hk w).symm

/-- The coordinator sends how many numbers there are. -/
theorem Agreed.sendCount (h : Agreed qsort system order s) {k : Fin n}
    (hc : s.coordinator = .sendingCount k) :
    Agreed qsort system order
      { s with
        coordinator := .sendingPids k
        reply := update s.reply k ((s.reply k).map (· ++ [.count (s.vars 0).pidsCount])) } := by
  have hholds := h.holds
  rw [hc] at hholds
  have hv : s.vars 0 = final qsort system 0 := hholds.2
  refine h.send (m := 0) hholds (fun w hne => ?_) ?_ ?_ ?_
  · simp [hc, Coordinator.sent, hne]
  · simp [hc, Coordinator.sent]
  · simp [Coordinator.sent]
  · rw [hv]
    rfl

/-- The coordinator sends the numbers. -/
theorem Agreed.sendPids (hq : Sorts qsort) (h : Agreed qsort system order s) {k : Fin n}
    (hc : s.coordinator = .sendingPids k) :
    Agreed qsort system order
      { s with
        coordinator := .connecting (k + 1) 0
        reply := update s.reply k
          ((s.reply k).map (· ++ [.pids ((s.vars 0).allPids.take (s.vars 0).pidsCount)])) } := by
  have hholds := h.holds
  rw [hc] at hholds
  have hv : s.vars 0 = final qsort system 0 := hholds.2
  refine h.send (m := 1) hholds (fun w hne => ?_) ?_ ?_ ?_
  · simp [hc, Coordinator.sent, hne, lt_succ_iff_of_ne hne]
  · simp [hc, Coordinator.sent]
  · simp [Coordinator.sent]
  · rw [hv]
    simp only [final, take_sortedPids hq, values]
    rfl

/-- Where a worker is tells its variables. -/
theorem Agreed.workerVars (h : Agreed qsort system order s) {c : Worker} (hw : s.worker w = c) :
    s.vars w.succ = c.vars qsort system w := by
  subst hw
  exact (h.served w).vars

/-- A worker receives a value. -/
theorem Agreed.receive (h : Agreed qsort system order s) {c : Worker} {v : Vars} {value : Value}
    {l : List Value} (hr : s.reply w = some (value :: l))
    (hside : Served qsort system w (w ∈ order) (s.sent w)
      { s.side w with control := c, vars := v, reply := some l }) :
    Agreed qsort system order
      { (s.goto w c).setVars w.succ v with reply := update s.reply w (some l) } := by
  refine h.work w rfl ?_ (fun w' hne => ?_) ?_ ?_
  · simp [State.goto, State.setVars, (Fin.succ_ne_zero w).symm]
  · simp [State.side, State.goto, State.setVars, hne]
  · simp [State.sent, State.goto, State.setVars, hr]
  · simpa [State.side, State.goto, State.setVars] using hside

/-- A worker tries again to connect, or gives up. -/
theorem Agreed.attempt (h : Agreed qsort system order s) {attempt : ℕ}
    (hw : s.worker w = .connecting attempt) {c : Worker} (hgot : c.got = 0)
    (hvars : c.vars qsort system w = initialVars n) :
    Agreed qsort system order (s.goto w c) := by
  refine h.work w rfl rfl (fun w' hne => ?_) rfl ?_
  · simp [State.side, State.goto, hne]
  · simpa [State.side, State.goto] using (h.served w).attempt hw hgot hvars

/-- **A step keeps what the processes hold.** The workers that have come are those that had, and
whoever the coordinator accepts. -/
theorem step_agreed (hq : Sorts qsort) (h : Agreed qsort system order s) {l : Label n}
    (hm : Moves qsort system s l t) :
    ∃ order', Agreed qsort system order' t ∧ ∀ w ∈ order', w ∈ order ∨ s.pending w = true := by
  have hholds := h.holds
  have same : Agreed qsort system order t → ∃ order', Agreed qsort system order' t ∧
      ∀ w ∈ order', w ∈ order ∨ s.pending w = true := fun ht => ⟨order, ht, fun _ => Or.inl⟩
  cases hm with
  | listen hc =>
    rw [hc] at hholds
    obtain ⟨rfl, hv⟩ := hholds
    exact same (h.compute ⟨rfl, by rw [hv, add_initialVars]⟩ (by rw [hc]; rfl))
  | @accept i client hc hi hp =>
    refine ⟨_, h.accept hc hp, fun w hw => ?_⟩
    obtain hw | hw := List.mem_append.1 hw
    · exact Or.inl hw
    · rw [List.mem_singleton.1 hw]
      exact Or.inr hp
  | leave hc hi =>
    rw [hc] at hholds
    obtain ⟨rfl, hv⟩ := hholds
    have hle := length_le h.nodup
    exact same (h.proceed ⟨by omega, hv⟩ fun w => by rw [hc]; rfl)
  | number hc hr => exact same (h.number hc hr)
  | sort hc =>
    rw [hc] at hholds
    obtain ⟨hlen, hv⟩ := hholds
    refine same (h.compute ⟨hlen, ?_⟩ (by rw [hc]; funext w; simp [Coordinator.sent]))
    rw [hv, sort_gathered hq h.nodup hlen, search_sorted hq]
  | connect hc ha hw => exact same (h.connect hc hw)
  | @retry k attempt hc ha =>
    rw [hc] at hholds
    exact same (h.proceed (c := .connecting k (attempt + 1)) hholds fun w => by rw [hc]; rfl)
  | skip hc hk ha => exact same (h.skip hc)
  | done hc hk => exact same (h.done hc hk)
  | sendCount hc => exact same (h.sendCount hc)
  | sendPids hc => exact same (h.sendPids hq hc)
  | start hc =>
    rw [hc] at hholds
    obtain ⟨hlen, hv⟩ := hholds
    exact same (h.compute ⟨hlen, by rw [hv]⟩ (by rw [hc]; rfl))
  | @workerConnect w attempt hw ha =>
    refine same (h.work w rfl rfl (fun w' hne => ?_) rfl ?_)
    · simp [State.side, State.goto, hne]
    · simpa [State.side, State.goto] using (h.served w).connect hw
  | workerRetry hw ha => exact same (h.attempt hw rfl rfl)
  | workerGivesUp hw ha => exact same (h.attempt hw rfl rfl)
  | @workerSend w hw =>
    refine same (h.work w rfl rfl (fun w' hne => ?_) rfl ?_)
    · simp [State.side, State.goto, hne]
    · simpa [State.side, State.goto] using (h.served w).send hw
  | workerListen hw =>
    rw [goto_eq_setVars, h.workerVars hw] at same ⊢
    exact same (h.goto rfl (by rw [hw]; rfl) rfl)
  | workerAccept hw hr =>
    rw [goto_eq_setVars, h.workerVars hw] at same ⊢
    exact same (h.goto rfl (by rw [hw]; rfl) rfl)
  | @workerCount w c l hw hr => exact same (h.receive hr ((h.served w).receiveCount hw hr))
  | @workerPids w l rest hw hr => exact same (h.receive hr ((h.served w).receivePids hq hw hr))
  | workerSearch hw =>
    rw [h.workerVars hw] at same ⊢
    exact same (h.goto rfl (by rw [hw]; rfl) (search_sorted hq _))
  | workerStart hw =>
    rw [h.workerVars hw] at same ⊢
    exact same (h.goto rfl (by rw [hw]; rfl) rfl)

theorem agreed_initial : Agreed qsort system [] (initial n) := by
  refine ⟨List.nodup_nil, ⟨rfl, rfl⟩, fun w => ?_⟩
  exact ⟨fun h => (nomatch h), fun h => by simp [State.side, initial] at h,
    fun pid h => (nomatch h), rfl, rfl, fun m h => (nomatch h)⟩

theorem reachable_agreed (hq : Sorts qsort) (h : (machine qsort system).Reachable s) :
    ∃ order, Agreed qsort system order s := by
  refine h.invariant (I := fun s => ∃ order, Agreed qsort system order s) (fun s hs => ?_)
    fun l s t hs ht => ?_
  · cases hs
    exact ⟨[], agreed_initial⟩
  · obtain ⟨order, hs⟩ := hs
    obtain ⟨order', ht, -⟩ := step_agreed hq hs (step_moves ht)
    exact ⟨order', ht⟩

end SemOS.Bogatyri.Exchange
