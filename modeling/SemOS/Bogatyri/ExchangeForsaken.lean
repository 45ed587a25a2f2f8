import SemOS.Bogatyri.ExchangeSteady

/-!
# Giving up in the exchange

A worker that has given up never comes, so that the coordinator waits for it for ever (`Lost`). One
that the coordinator has passed over waits for the coordinator for ever (`Skipped`).

* `forsaken_of_givesUp`: who gives up leaves a worker behind.
* `step_forsaken`: that is for ever.
-/

namespace SemOS.Bogatyri.Exchange

open Function
open Qsort (Sorts)

variable {n : ℕ} {qsort : (Int32 → Int32 → Int32) → List Int32 → List Int32} {system : Pids n}
  {s t : State n} {order : List (Fin n)} {w : Fin n} {l : Label n}

/-- All processes have set `active`. -/
def State.AllStarted (s : State n) : Prop :=
  s.coordinator = .started ∧ ∀ w, s.worker w = .started

/-- A worker is past its `accept`. -/
def Worker.Answered : Worker → Prop
  | .connecting _ | .sending | .binding | .accepting => False
  | _ => True

/-- The workers past their `accept` have a connection. -/
def Connected (s : State n) : Prop := ∀ w, (s.worker w).Answered → s.reply w ≠ none

/-- A worker that has gone on without having connected. -/
structure Lost (qsort : (Int32 → Int32 → Int32) → List Int32 → List Int32) (system : Pids n)
    (s : State n) (w : Fin n) : Prop where
  absent : ∃ order, Agreed qsort system order s ∧ w ∉ order
  pending : s.pending w = false
  control : (s.worker w).isConnecting = false

/-- A worker that the coordinator has passed over. -/
structure Skipped (s : State n) (w : Fin n) : Prop where
  behind : s.coordinator.sent w = some 2
  reply : s.reply w = none
  control : ¬ (s.worker w).Answered

/-- A worker that never starts, or for which the coordinator waits for ever. -/
def Forsaken (qsort : (Int32 → Int32 → Int32) → List Int32 → List Int32) (system : Pids n)
    (s : State n) (w : Fin n) : Prop :=
  Lost qsort system s w ∨ Skipped s w

/-- A worker that goes on, and has a connection if it is past its `accept`. -/
theorem connected_update (h : Connected s) {c : Worker} (hc : c.Answered → s.reply w ≠ none)
    (v : Fin n) (hv : (update s.worker w c v).Answered) : s.reply v ≠ none := by
  by_cases hvw : v = w
  · subst hvw
    exact hc (by simpa using hv)
  · exact h v (by simpa [hvw] using hv)

theorem step_connected (h : Connected s) (hm : Moves qsort system s l t) : Connected t := by
  cases hm with
  | workerConnect | workerRetry | workerGivesUp | workerSend | workerListen =>
    exact connected_update h False.elim
  | workerAccept hw hr => exact connected_update h fun _ => Option.isSome_iff_ne_none.1 hr
  | workerCount hw hr =>
    exact fun v hv => reply_update_ne_none (fun _ => by simp) v
      (connected_update h (fun _ => by simp [hr]) v hv)
  | workerPids hw hr =>
    exact fun v hv => reply_update_ne_none (fun _ => by simp) v
      (connected_update h (fun _ => by simp [hr]) v hv)
  | workerSearch hw => exact connected_update h fun _ => h _ (by rw [hw]; trivial)
  | workerStart hw => exact connected_update h fun _ => h _ (by rw [hw]; trivial)
  | connect => exact fun v hv => reply_update_ne_none (fun _ => by simp) v (h v hv)
  | sendCount hc =>
    exact fun v hv => reply_update_ne_none (fun hr => by simpa using hr) v (h v hv)
  | sendPids hc =>
    exact fun v hv => reply_update_ne_none (fun hr => by simpa using hr) v (h v hv)
  | _ => exact h

/-- A worker that has gone on does not come back to its `connect`. -/
theorem isConnecting_update (h : (s.worker w).isConnecting = false) {v : Fin n} {c : Worker}
    (hc : c.isConnecting = true → (s.worker v).isConnecting = true) :
    (update s.worker v c w).isConnecting = false := by
  by_cases hwv : w = v
  · subst hwv
    rw [update_self]
    by_contra htrue
    rw [Bool.not_eq_false] at htrue
    rw [hc htrue] at h
    cases h
  · rwa [update_of_ne hwv]

/-- Whoever has gone on without having connected does not come. -/
theorem Lost.move (hq : Sorts qsort) (h : Lost qsort system s w)
    (hm : Moves qsort system s l t) : Lost qsort system t w := by
  obtain ⟨⟨order, ha, hw⟩, hp, hc⟩ := h
  obtain ⟨order', ha', hsub⟩ := step_agreed hq ha hm
  have habsent : w ∉ order' := by
    intro hmem
    obtain hmem | hpend := hsub w hmem
    · exact hw hmem
    · rw [hp] at hpend
      cases hpend
  refine ⟨⟨order', ha', habsent⟩, ?_, ?_⟩
  · cases hm with
    | @accept i client hc' hi hp' =>
      by_cases hwc : w = client
      · subst hwc
        simp
      · simpa [hwc] using hp
    | @workerConnect v attempt hv hlt =>
      have hwv : w ≠ v := by
        rintro rfl
        rw [hv] at hc
        cases hc
      simpa [State.goto, hwv] using hp
    | _ => exact hp
  · cases hm with
    | workerRetry hv hlt => exact isConnecting_update hc fun _ => by rw [hv]; rfl
    | workerConnect | workerGivesUp | workerSend | workerListen | workerAccept | workerCount
    | workerPids | workerSearch | workerStart => exact isConnecting_update hc fun h => by cases h
    | _ => exact hc

/-- A worker without a connection stays before its `accept`. -/
theorem Skipped.worker (h : Skipped s w) {v : Fin n} {c : Worker}
    (hc : c.Answered → (s.worker v).Answered ∨ s.reply v ≠ none) :
    ¬ (update s.worker v c w).Answered := by
  intro hw
  by_cases hwv : w = v
  · subst hwv
    rw [update_self] at hw
    obtain hans | hreply := hc hw
    · exact h.control hans
    · exact hreply h.reply
  · rw [update_of_ne hwv] at hw
    exact h.control hw

theorem lt_of_sent {k : Fin n} {m : ℕ} (hm : m ≠ 2)
    (h : (if w < k then some 2 else if w = k then some m else none) = some 2) : w < k := by
  by_contra hlt
  rw [if_neg hlt] at h
  split_ifs at h with heq
  exact hm (Option.some.inj h)

/-- The coordinator does not come back to a worker that it has passed over. -/
theorem Skipped.coordinate (h : Skipped s w) {c : Coordinator n}
    {k : Fin n} {r : Option (List Value)} (hk : s.coordinator.sent k ≠ some 2)
    (hsent : s.coordinator.sent w = some 2 → c.sent w = some 2) :
    Skipped { s with coordinator := c, reply := update s.reply k r } w := by
  have hwk : w ≠ k := by
    rintro rfl
    exact hk h.behind
  refine ⟨hsent h.behind, ?_, h.control⟩
  simpa [hwk] using h.reply

/-- Another worker receives a value. -/
theorem Skipped.receive (h : Skipped s w) {v : Fin n} {c : Worker} {vars : Fin (n + 1) → Vars}
    {value : Value} {values : List Value} (hr : s.reply v = some (value :: values))
    (hc : c.Answered → (s.worker v).Answered) :
    Skipped { s with
      worker := update s.worker v c, vars := vars, reply := update s.reply v (some values) } w := by
  have hwv : w ≠ v := by
    rintro rfl
    rw [h.reply] at hr
    cases hr
  refine ⟨h.behind, ?_, h.worker fun hw => Or.inl (hc hw)⟩
  simpa [hwv] using h.reply

theorem Skipped.move (h : Skipped s w) (hm : Moves qsort system s l t) : Skipped t w := by
  have hsent := h.behind
  cases hm with
  | listen hc | accept hc | leave hc | number hc | sort hc =>
    rw [hc] at hsent
    simp [Coordinator.sent] at hsent
  | @connect k attempt hc ha hw =>
    refine h.coordinate (by simp [hc, Coordinator.sent]) fun _ => ?_
    have hlt : w < k := by simpa [hc, Coordinator.sent] using hsent
    simp [Coordinator.sent, hlt]
  | @retry k attempt hc ha =>
    rw [hc] at hsent
    exact ⟨hsent, h.reply, h.control⟩
  | @skip k attempt hc hk ha =>
    have hlt : w < k := by simpa [hc, Coordinator.sent] using hsent
    refine ⟨?_, h.reply, h.control⟩
    simp [Coordinator.sent, Nat.lt_succ_of_lt hlt]
  | done => exact ⟨rfl, h.reply, h.control⟩
  | @sendCount k hc =>
    refine h.coordinate (by simp [hc, Coordinator.sent]) fun _ => ?_
    have hlt : w < k := lt_of_sent (m := 0) (by decide) (by rwa [hc] at hsent)
    simp [Coordinator.sent, hlt]
  | @sendPids k hc =>
    refine h.coordinate (by simp [hc, Coordinator.sent]) fun _ => ?_
    have hlt : w < k := lt_of_sent (m := 1) (by decide) (by rwa [hc] at hsent)
    simp [Coordinator.sent, Nat.lt_succ_of_lt hlt]
  | start => exact ⟨rfl, h.reply, h.control⟩
  | workerConnect | workerRetry | workerGivesUp | workerSend | workerListen =>
    exact ⟨hsent, h.reply, h.worker False.elim⟩
  | workerAccept hw hr =>
    exact ⟨hsent, h.reply, h.worker fun _ => Or.inr (Option.isSome_iff_ne_none.1 hr)⟩
  | workerCount hw hr => exact h.receive hr fun _ => by rw [hw]; trivial
  | workerPids hw hr => exact h.receive hr fun _ => by rw [hw]; trivial
  | workerSearch hw =>
    exact ⟨hsent, h.reply, h.worker fun _ => Or.inl (by rw [hw]; trivial)⟩
  | workerStart hw =>
    exact ⟨hsent, h.reply, h.worker fun _ => Or.inl (by rw [hw]; trivial)⟩

/-- **Giving up is for ever.** -/
theorem step_forsaken (hq : Sorts qsort) (h : Forsaken qsort system s w)
    (hm : Moves qsort system s l t) : Forsaken qsort system t w := by
  obtain h | h := h
  · exact Or.inl (h.move hq hm)
  · exact Or.inr (h.move hm)

/-- Who gives up leaves a worker behind. -/
theorem forsaken_of_givesUp (ha : Agreed qsort system order s) (h : Connected s)
    (hm : Moves qsort system s l t) (hl : givesUp l s = true) :
    ∃ w, Forsaken qsort system t w := by
  cases hm with
  | @skip k attempt hc hk hlt =>
    have hreply := ha.reply_eq_none (w := k) (by simp [hc, Coordinator.sent])
    exact ⟨k, Or.inr ⟨by simp [Coordinator.sent], hreply, fun hw => h k hw hreply⟩⟩
  | @workerGivesUp w attempt hw hlt =>
    obtain ⟨hnew, hp⟩ := not_or.1 ((ha.served w).not_came hw)
    refine ⟨w, Or.inl ⟨⟨order, ha.attempt hw rfl rfl, hnew⟩, ?_, ?_⟩⟩
    · exact Bool.eq_false_of_not_eq_true hp
    · simp [State.goto, Worker.isConnecting]
  | accept => cases hl
  | listen hc | leave hc | number hc | sort hc | sendCount hc | sendPids hc | start hc =>
    simp [givesUp, hc] at hl
  | connect hc hlt | retry hc hlt =>
    simp only [givesUp, hc, hlt, not_true_eq_false, and_false, decide_false] at hl
    cases hl
  | done hc hk =>
    simp only [givesUp, hc, hk, false_and, decide_false] at hl
    cases hl
  | workerConnect hw hlt | workerRetry hw hlt =>
    simp only [givesUp, hw, hlt, not_true_eq_false, decide_false] at hl
    cases hl
  | workerSend hw | workerListen hw | workerAccept hw | workerCount hw | workerPids hw
  | workerSearch hw | workerStart hw => simp [givesUp, hw] at hl

/-- A process that waits for ever has not started. -/
theorem Forsaken.not_allStarted (h : Forsaken qsort system s w) : ¬ s.AllStarted := by
  rintro ⟨hc, hw⟩
  obtain h | h := h
  · obtain ⟨order, ha, hmem⟩ := h.absent
    have hholds := ha.holds
    rw [hc] at hholds
    exact hmem ((perm_finRange ha.nodup hholds.1).mem_iff.2 (List.mem_finRange w))
  · exact h.control (by rw [hw w]; trivial)

end SemOS.Bogatyri.Exchange
