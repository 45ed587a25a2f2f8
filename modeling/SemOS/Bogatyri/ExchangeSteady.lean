import SemOS.Bogatyri.ExchangeAgreed
import SemOS.Foundations.Processes

/-!
# The waits of the exchange

The coordinator waits for workers in its `accept` and its `recv`, and every worker for the
coordinator in its `accept` and its `recv`. A process that gives up its attempts to `connect` leaves
the other side waiting for ever (`givesUp`). `Steady` says what keeps the waits from becoming a
circle while nobody has given up: as many workers have not come as the coordinator still accepts,
whoever has come sends its number, and the coordinator has connected to all workers that it has left
behind. `step_steady` is its step.
-/

namespace SemOS.Bogatyri.Exchange

open Function

variable {n : ℕ} {qsort : (Int32 → Int32 → Int32) → List Int32 → List Int32} {system : Pids n}
  {s t : State n} {order : List (Fin n)} {w : Fin n} {l : Label n}

/-- The process is at the end of its attempts to connect. -/
def givesUp (l : Label n) (s : State n) : Bool :=
  match l with
  | .accept _ => false
  | .coordinator =>
    match s.coordinator with
    | .connecting k attempt =>
      decide (k + 1 < (s.vars (coordinatorIndex n)).pidsCount ∧ ¬ attempt < 5)
    | _ => false
  | .worker w =>
    match s.worker w with
    | .connecting attempt => decide (¬ attempt < 10)
    | _ => false

/-- Whether the coordinator has not accepted a worker, as a number. -/
def fresh (c : Worker) (pending : Bool) : ℕ :=
  if c.isConnecting = true ∨ pending = true then 1 else 0

/-- The number of workers that the coordinator has not accepted. -/
def State.fresh (s : State n) : ℕ := ∑ w, Exchange.fresh (s.worker w) (s.pending w)

/-- How many workers the coordinator has not accepted where it is. -/
def Coordinator.Awaits (m : ℕ) : Coordinator n → Prop
  | .starting => m = n
  | .accepting i => m + i = n + 1
  | .receiving i _ => m + i = n
  | _ => True

/-- What keeps the waits of the processes for each other apart. -/
structure Steady (s : State n) : Prop where
  fresh : s.coordinator.Awaits s.fresh
  asked : ∀ w, (s.pending w = true ∨ ∃ i, s.coordinator = .receiving i w) →
    s.worker w = .sending ∨ s.request w ≠ none
  reached : ∀ w, s.coordinator.sent w ≠ none → s.reply w ≠ none

theorem fresh_update_pending (h : s.pending w = true) (hw : (s.worker w).isConnecting = false) :
    (∑ v, fresh (s.worker v) (update s.pending w false v)) + 1 = s.fresh := by
  have := Processes.sum_update (fun v => fresh (s.worker v)) s.pending w false
  rw [h] at this
  simpa [State.fresh, fresh, hw] using this

/-- A worker goes on, and tries to connect if it has before. -/
theorem fresh_goto {c : Worker} (hc : c.isConnecting = (s.worker w).isConnecting) :
    (∑ v, fresh (update s.worker w c v) (s.pending v)) = s.fresh := by
  have := Processes.sum_update (fun v k => fresh k (s.pending v)) s.worker w c
  have hsame : fresh c (s.pending w) = fresh (s.worker w) (s.pending w) := by
    rw [fresh, fresh, hc]
  rw [hsame] at this
  exact Nat.add_right_cancel this

theorem fresh_connect (hw : (s.worker w).isConnecting = true) :
    (∑ v, fresh (update s.worker w .sending v) (update s.pending w true v)) = s.fresh := by
  refine Finset.sum_congr rfl fun v _ => ?_
  by_cases hv : v = w
  · subst hv
    simp [fresh, hw]
  · simp [hv]

/-- A step of the coordinator other than to a `recv`. -/
theorem Steady.coordinate (h : Steady s) {c : Coordinator n} {vars : Fin (n + 1) → Vars}
    {reply : Fin n → Option (List Value)} (hfresh : c.Awaits s.fresh)
    (hrecv : ∀ i w, c ≠ .receiving i w) (hreached : ∀ w, c.sent w ≠ none → reply w ≠ none) :
    Steady { s with coordinator := c, vars := vars, reply := reply } := by
  refine ⟨hfresh, fun w hw => h.asked w (Or.inl ?_), hreached⟩
  exact hw.resolve_right fun ⟨i, hi⟩ => hrecv i w hi

/-- The coordinator connects to a worker, or sends it a value. -/
theorem Steady.serve (h : Steady s) {c : Coordinator n} {k : Fin n} {l : Option (List Value)}
    (hfresh : c.Awaits s.fresh) (hrecv : ∀ i w, c ≠ .receiving i w)
    (hsent : ∀ w, w ≠ k → c.sent w = s.coordinator.sent w) (hl : l ≠ none) :
    Steady { s with coordinator := c, reply := update s.reply k l } := by
  refine h.coordinate hfresh hrecv fun w hw => ?_
  by_cases hwk : w = k
  · subst hwk
    rwa [update_self]
  · rw [hsent w hwk] at hw
    rw [update_of_ne hwk]
    exact h.reached w hw

/-- The coordinator accepts a connection. -/
theorem Steady.accept (ha : Agreed qsort system order s) (h : Steady s) {i : ℕ} {client : Fin n}
    (hc : s.coordinator = .accepting i) (hp : s.pending client = true) :
    Steady { s with
      coordinator := .receiving i client, pending := update s.pending client false } := by
  have hn : s.fresh + i = n + 1 := by
    have hfresh := h.fresh
    rwa [hc] at hfresh
  have hone := fresh_update_pending hp ((ha.served client).connected (Or.inr hp))
  refine ⟨?_, fun w hw => ?_, fun w hw => absurd rfl hw⟩
  · show (∑ v, Exchange.fresh (s.worker v) (update s.pending client false v)) + i = n
    omega
  · by_cases hwc : w = client
    · subst hwc
      exact h.asked w (Or.inl hp)
    · refine h.asked w (Or.inl ?_)
      obtain hw | ⟨j, hj⟩ := hw
      · simpa [hwc] using hw
      · injection hj with _ hj
        exact absurd hj.symm hwc

/-- The coordinator receives a number. -/
theorem Steady.number (ha : Agreed qsort system order s) (h : Steady s) {i : ℕ} {client : Fin n}
    {vars : Fin (n + 1) → Vars} (hc : s.coordinator = .receiving i client) :
    Steady { s with
      coordinator := .accepting (i + 1), vars := vars,
      request := update s.request client none } := by
  have hn : s.fresh + i = n := by
    have hfresh := h.fresh
    rwa [hc] at hfresh
  have hholds := ha.holds
  rw [hc] at hholds
  obtain ⟨earlier, rfl, -⟩ := hholds
  have hp : s.pending client = false := (ha.served client).once (by simp)
  refine ⟨?_, fun w hw => ?_, fun w hw => absurd rfl hw⟩
  · show s.fresh + (i + 1) = n + 1
    omega
  · have hpend : s.pending w = true := hw.resolve_right (by simp)
    have hwc : w ≠ client := by
      rintro rfl
      rw [hp] at hpend
      cases hpend
    simpa [hwc] using h.asked w (Or.inl hpend)

/-- A step of a worker after its `send`, or to another attempt to connect. -/
theorem Steady.work (h : Steady s) {c : Worker} {vars : Fin (n + 1) → Vars}
    {reply : Fin n → Option (List Value)} (hw : s.worker w ≠ .sending)
    (hc : c.isConnecting = (s.worker w).isConnecting)
    (hreply : ∀ v, s.reply v ≠ none → reply v ≠ none) :
    Steady { s with worker := update s.worker w c, vars := vars, reply := reply } := by
  refine ⟨?_, fun v hv => ?_, fun v hv => hreply v (h.reached v hv)⟩
  · have hfresh := h.fresh
    rwa [← fresh_goto hc] at hfresh
  · by_cases hvw : v = w
    · subst hvw
      exact Or.inr ((h.asked v hv).resolve_left hw)
    · simpa [hvw] using h.asked v hv

/-- A worker connects. -/
theorem Steady.connect (h : Steady s) (hw : (s.worker w).isConnecting = true) :
    Steady { s.goto w .sending with pending := update s.pending w true } := by
  refine ⟨?_, fun v hv => ?_, h.reached⟩
  · have hfresh := h.fresh
    rwa [← fresh_connect hw] at hfresh
  · by_cases hvw : v = w
    · subst hvw
      exact Or.inl (by simp [State.goto])
    · simpa [State.goto, hvw] using h.asked v (by simpa [State.goto, hvw] using hv)

/-- A worker sends its number. -/
theorem Steady.send (h : Steady s) (hw : s.worker w = .sending) {pid : Int32} :
    Steady { s.goto w .binding with request := update s.request w (some pid) } := by
  refine ⟨?_, fun v hv => ?_, h.reached⟩
  · have hfresh := h.fresh
    rwa [← fresh_goto (w := w) (c := .binding) (by rw [hw]; rfl)] at hfresh
  · by_cases hvw : v = w
    · subst hvw
      exact Or.inr (by simp)
    · simpa [State.goto, hvw] using h.asked v hv

/-- A value sent to a worker, or received by it, leaves its connection. -/
theorem reply_update_ne_none {l : Option (List Value)} (hl : s.reply w ≠ none → l ≠ none)
    (v : Fin n) (hv : s.reply v ≠ none) : update s.reply w l v ≠ none := by
  by_cases hvw : v = w
  · subst hvw
    rw [update_self]
    exact hl hv
  · rwa [update_of_ne hvw]

/-- **A step that does not give up keeps the waits apart.** -/
theorem step_steady (ha : Agreed qsort system order s) (h : Steady s)
    (hm : Moves qsort system s l t) (hl : givesUp l s = false) : Steady t := by
  have hfresh := h.fresh
  have hreached := h.reached
  cases hm with
  | listen hc =>
    rw [hc] at hfresh
    have hn : s.fresh = n := hfresh
    exact h.coordinate (c := .accepting 1) (congrArg (· + 1) hn) (by simp)
      fun w hw => absurd rfl hw
  | accept hc hi hp => exact h.accept ha hc hp
  | leave hc hi =>
    exact h.coordinate (c := .sorting) trivial (by simp) fun w hw => absurd rfl hw
  | number hc hr => exact h.number ha hc
  | sort hc =>
    refine h.coordinate (c := .connecting 0 0) trivial (by simp) fun w hw => ?_
    simp [Coordinator.sent] at hw
  | @connect k attempt hc hk hw =>
    refine h.serve (c := .sendingCount k) trivial (by simp) (fun w hne => ?_) (by simp)
    simp [hc, Coordinator.sent, hne]
  | @retry k attempt hc hk =>
    refine h.coordinate (c := .connecting k (attempt + 1)) trivial (by simp) fun w hw => ?_
    exact hreached w (by rw [hc]; exact hw)
  | skip hc hk hk' =>
    rw [givesUp] at hl
    simp only [hc, hk, hk', not_false_eq_true, and_self, decide_true] at hl
    cases hl
  | done hc hk =>
    refine h.coordinate (c := .exchanged) trivial (by simp) fun w hw => hreached w ?_
    rw [ha.sent_of_last hc hk w]
    simp
  | @sendCount k hc =>
    have hreply := hreached k (by simp [hc, Coordinator.sent])
    refine h.serve (c := .sendingPids k) trivial (by simp) (fun w hne => ?_) (by simpa using hreply)
    simp [hc, Coordinator.sent, hne]
  | @sendPids k hc =>
    have hreply := hreached k (by simp [hc, Coordinator.sent])
    refine h.serve (c := .connecting (k + 1) 0) trivial (by simp) (fun w hne => ?_)
      (by simpa using hreply)
    simp [hc, Coordinator.sent, hne, lt_succ_iff_of_ne hne]
  | start hc =>
    refine h.coordinate (c := .started) trivial (by simp) fun w hw => hreached w ?_
    rw [hc]
    simp [Coordinator.sent]
  | workerConnect hw hk => exact h.connect (by rw [hw]; rfl)
  | workerRetry hw hk =>
    exact h.work (by simp [hw]) (by rw [hw]; rfl) fun _ => id
  | workerGivesUp hw hk =>
    rw [givesUp] at hl
    simp only [hw, hk, not_false_eq_true, decide_true] at hl
    cases hl
  | workerSend hw => exact h.send hw
  | workerListen hw => exact h.work (by simp [hw]) (by rw [hw]; rfl) fun _ => id
  | workerAccept hw hr => exact h.work (by simp [hw]) (by rw [hw]; rfl) fun _ => id
  | workerCount hw hr =>
    exact h.work (by simp [hw]) (by rw [hw]; rfl) (reply_update_ne_none fun _ => by simp)
  | workerPids hw hr =>
    exact h.work (by simp [hw]) (by rw [hw]; rfl) (reply_update_ne_none fun _ => by simp)
  | workerSearch hw => exact h.work (by simp [hw]) (by rw [hw]; rfl) fun _ => id
  | workerStart hw => exact h.work (by simp [hw]) (by rw [hw]; rfl) fun _ => id

end SemOS.Bogatyri.Exchange
