import SemOS.Bogatyri.ExchangeForsaken
import SemOS.Bogatyri.ExchangeRank

/-!
# Progress of the exchange

* `allStarted_of_stuck`: while nobody has given up, somebody can move before the end.
* **`exchange_terminates`**: no run has more than `26 n + 5` steps, and a run that can go no further
  has all processes started exactly if none has given up in it.
-/

namespace SemOS.Bogatyri.Exchange

open Function
open Qsort (Sorts insertionSort sorts_insertionSort)

variable {n : ℕ} {qsort : (Int32 → Int32 → Int32) → List Int32 → List Int32} {system : Pids n}
  {s t : State n} {order : List (Fin n)} {w : Fin n} {l : Label n}

/-! ## Somebody can move -/

/-- A worker that cannot move waits for the coordinator, or is done. -/
theorem workerStep_eq_none (h : workerStep system w s = none) :
    (s.worker w = .accepting ∧ s.reply w = none) ∨
      (s.worker w = .receivingCount ∧ ∀ c l, s.reply w ≠ some (.count c :: l)) ∨
      (s.worker w = .receivingPids ∧ ∀ pids l, s.reply w ≠ some (.pids pids :: l)) ∨
      s.worker w = .started := by
  rw [workerStep] at h
  split at h
  · split_ifs at h
  · cases h
  · cases h
  · rename_i hw
    split_ifs at h with hr
    exact Or.inl ⟨hw, by simpa using hr⟩
  · rename_i hw
    split at h
    · cases h
    · rename_i hne
      exact Or.inr (Or.inl ⟨hw, fun c l hr => hne c l hr⟩)
  · rename_i hw
    split at h
    · cases h
    · rename_i hne
      exact Or.inr (Or.inr (Or.inl ⟨hw, fun pids l hr => hne pids l hr⟩))
  · cases h
  · cases h
  · rename_i hw
    exact Or.inr (Or.inr (Or.inr hw))

/-- Once the coordinator has sent everything, a worker can go on to its end. -/
theorem started_of_stuck (ha : Agreed qsort system order s)
    (hsent : s.sent w = some 2) (hstuck : workerStep system w s = none) :
    s.worker w = .started := by
  have hreply := (ha.served w).reply
  rw [hsent] at hreply
  obtain ⟨hw, hr⟩ | ⟨hw, hr⟩ | ⟨hw, hr⟩ | hw := workerStep_eq_none hstuck
  · rw [show (s.side w).reply = none from hr] at hreply
    cases hreply
  · refine absurd ?_ (hr (n + 1) [.pids (sortedPids qsort system)])
    rw [show (s.side w).control = .receivingCount from hw] at hreply
    exact hreply
  · refine absurd ?_ (hr (sortedPids qsort system) [])
    rw [show (s.side w).control = .receivingPids from hw] at hreply
    exact hreply
  · exact hw

/-- **Nobody waits in a circle.** -/
theorem allStarted_of_stuck (ha : Agreed qsort system order s) (h : Steady s)
    (hstuck : ∀ l, step qsort system l s = none) : s.AllStarted := by
  have hworker : ∀ w, workerStep system w s = none := fun w => hstuck (.worker w)
  have haccept : ∀ w, acceptStep w s = none := fun w => hstuck (.accept w)
  have hco : coordinatorStep qsort system s = none := hstuck .coordinator
  have hfresh := h.fresh
  have hholds := ha.holds
  rw [coordinatorStep] at hco
  cases hc : s.coordinator with
  | starting | sorting | sendingCount | sendingPids | exchanged => simp [hc] at hco
  | started =>
    refine ⟨hc, fun w => started_of_stuck ha ?_ (hworker w)⟩
    obtain ⟨l, hl⟩ := Option.ne_none_iff_exists'.1 (h.reached w (by simp [hc, Coordinator.sent]))
    rw [State.sent, hl, hc]
    rfl
  | accepting i =>
    exfalso
    simp only [hc] at hco
    split_ifs at hco with hi
    rw [hc] at hfresh
    have hn : s.fresh + i = n + 1 := hfresh
    -- some worker has not been accepted
    obtain ⟨w, -, hw⟩ := Finset.exists_ne_zero_of_sum_ne_zero (show s.fresh ≠ 0 by omega)
    by_cases hp : s.pending w = true
    · have := haccept w
      simp [acceptStep, hc, hi, hp] at this
    · have hconnect : (s.worker w).isConnecting = true := by
        by_contra hne
        simp [fresh, hne, hp] at hw
      obtain ⟨hacc, -⟩ | ⟨hacc, -⟩ | ⟨hacc, -⟩ | hacc := workerStep_eq_none (hworker w)
      all_goals
        rw [hacc] at hconnect
        cases hconnect
  | receiving i client =>
    simp only [hc, Option.map_eq_none_iff] at hco
    obtain hw | hr := h.asked client (Or.inr ⟨i, hc⟩)
    · have := hworker client
      simp [workerStep, hw] at this
    · exact absurd hco hr
  | connecting k attempt =>
    exfalso
    rw [hc] at hholds
    have hv : s.vars 0 = final qsort system (coordinatorIndex n) := hholds.2
    simp only [hc] at hco
    split_ifs at hco with hk hlt hw
    rw [hv] at hk
    have : k + 1 < n + 1 := hk
    omega

/-! ## Every run ends -/

/-- What the coordinator has to do at most. -/
def Coordinator.toDo (n : ℕ) : Coordinator n → ℕ
  | .starting => 9 * n + 5
  | .accepting i => 7 * n + 4 + 2 * (n + 1 - i)
  | .receiving i _ => 7 * n + 3 + 2 * (n + 1 - i)
  | .sorting => 7 * n + 3
  | .connecting k attempt => 7 * (n - k) - min attempt 5 + 2
  | .sendingCount k => 7 * (n - k) - 3
  | .sendingPids k => 7 * (n - k) - 4
  | .exchanged => 1
  | .started => 0

/-- What a worker has to do at most. -/
def Worker.toDo : Worker → ℕ
  | .connecting attempt => 7 + (10 - attempt)
  | .sending => 7
  | .binding => 6
  | .accepting => 5
  | .receivingCount => 4
  | .receivingPids => 3
  | .searching => 2
  | .exchanged => 1
  | .started => 0

def State.toDo (s : State n) : ℕ := s.coordinator.toDo n + ∑ w, (s.worker w).toDo

theorem toDo_goto {c : Worker} (h : c.toDo < (s.worker w).toDo) :
    (s.goto w c).toDo < s.toDo := by
  have := Processes.sum_update (fun _ : Fin n => Worker.toDo) s.worker w c
  simp only [State.toDo, State.goto]
  omega

theorem toDo_lt (ha : Agreed qsort system order s) (hm : Moves qsort system s l t) :
    t.toDo < s.toDo := by
  have hholds := ha.holds
  -- a step of the coordinator leaves the workers where they are
  have hco : ∀ {c : Coordinator n}, c.toDo n < s.coordinator.toDo n →
      c.toDo n + ∑ w, (s.worker w).toDo < s.toDo := fun h => Nat.add_lt_add_right h _
  cases hm with
  | listen hc => exact hco (c := .accepting 1) (by rw [hc]; simp only [Coordinator.toDo]; omega)
  | @accept i client hc hi hp =>
    exact hco (c := .receiving i client) (by rw [hc]; simp only [Coordinator.toDo]; omega)
  | leave hc hi => exact hco (c := .sorting) (by rw [hc]; simp only [Coordinator.toDo]; omega)
  | @number i client pid hc hr =>
    rw [hc] at hholds
    obtain ⟨earlier, horder, hlen, -⟩ := hholds
    have hle := length_le ha.nodup
    rw [horder, List.length_append, List.length_singleton] at hle
    exact hco (c := .accepting (i + 1)) (by rw [hc]; simp only [Coordinator.toDo]; omega)
  | sort hc => exact hco (c := .connecting 0 0) (by rw [hc]; simp only [Coordinator.toDo]; omega)
  | @connect k attempt hc hlt hw =>
    have := k.isLt
    exact hco (c := .sendingCount k) (by rw [hc]; simp only [Coordinator.toDo]; omega)
  | @retry k attempt hc hlt =>
    have := k.isLt
    exact hco (c := .connecting k (attempt + 1))
      (by rw [hc]; simp only [Coordinator.toDo]; omega)
  | @skip k attempt hc hk hlt =>
    have := k.isLt
    exact hco (c := .connecting (k + 1) 0) (by rw [hc]; simp only [Coordinator.toDo]; omega)
  | done hc hk => exact hco (c := .exchanged) (by rw [hc]; simp only [Coordinator.toDo]; omega)
  | @sendCount k hc =>
    have := k.isLt
    exact hco (c := .sendingPids k) (by rw [hc]; simp only [Coordinator.toDo]; omega)
  | @sendPids k hc =>
    have := k.isLt
    exact hco (c := .connecting (k + 1) 0) (by rw [hc]; simp only [Coordinator.toDo]; omega)
  | start hc => exact hco (c := .started) (by rw [hc]; simp only [Coordinator.toDo]; omega)
  | @workerConnect w attempt hw =>
    exact toDo_goto (w := w) (c := .sending) (by rw [hw]; simp only [Worker.toDo]; omega)
  | @workerRetry w attempt hw =>
    have hlt : (Worker.connecting (attempt + 1)).toDo < (s.worker w).toDo := by
      rw [hw]
      simp only [Worker.toDo]
      omega
    exact toDo_goto hlt
  | @workerGivesUp w attempt hw =>
    exact toDo_goto (w := w) (c := .binding) (by rw [hw]; simp only [Worker.toDo]; omega)
  | @workerSend w hw => exact toDo_goto (w := w) (c := .binding) (by rw [hw]; decide)
  | @workerListen w hw => exact toDo_goto (w := w) (c := .accepting) (by rw [hw]; decide)
  | @workerAccept w hw => exact toDo_goto (w := w) (c := .receivingCount) (by rw [hw]; decide)
  | @workerCount w c l hw => exact toDo_goto (w := w) (c := .receivingPids) (by rw [hw]; decide)
  | @workerPids w l values hw => exact toDo_goto (w := w) (c := .searching) (by rw [hw]; decide)
  | @workerSearch w hw => exact toDo_goto (w := w) (c := .exchanged) (by rw [hw]; decide)
  | @workerStart w hw => exact toDo_goto (w := w) (c := .started) (by rw [hw]; decide)

theorem toDo_initial (n : ℕ) : (initial n).toDo = 26 * n + 5 := by
  simp [State.toDo, initial, Coordinator.toDo, Worker.toDo]
  omega

/-- What holds of a run in which nobody has given up. -/
structure Patient (qsort : (Int32 → Int32 → Int32) → List Int32 → List Int32) (system : Pids n)
    (s : State n) : Prop where
  agreed : ∃ order, Agreed qsort system order s
  steady : Steady s
  connected : Connected s

theorem patient_initial : Patient qsort system (initial n) := by
  refine ⟨⟨[], agreed_initial⟩, ⟨?_, fun w hw => ?_, fun w hw => absurd rfl hw⟩,
    fun w hw => hw.elim⟩
  · simp [Coordinator.Awaits, State.fresh, fresh, initial, Worker.isConnecting]
  · simp [initial] at hw

theorem step_patient (hq : Sorts qsort) (h : Patient qsort system s)
    (hm : Moves qsort system s l t) (hl : givesUp l s = false) : Patient qsort system t := by
  obtain ⟨⟨order, ha⟩, hs, hc⟩ := h
  obtain ⟨order', ha', -⟩ := step_agreed hq ha hm
  exact ⟨⟨order', ha'⟩, step_steady ha hs hm hl, step_connected hc hm⟩

/-- **The exchange ends, and ends well unless somebody gives up.** No run takes more than `26 n + 5`
steps, in whatever order the workers come. Where a run can go no further, all processes have started
exactly if no process has come to the end of its attempts to connect in it. -/
theorem exchange_terminates (hq : Sorts qsort) (system : Pids n) :
    ∀ ls s, (machine qsort system).run ls (initial n) = some s →
      ls.length ≤ 26 * n + 5 ∧
      ((∀ l, step qsort system l s = none) →
        (s.AllStarted ↔
          (machine qsort system).Along (fun l s => givesUp l s = false) ls (initial n))) := by
  intro ls s hrun
  constructor
  · have hle := Machine.length_le_of_run (M := machine qsort system)
      (I := fun s => ∃ order, Agreed qsort system order s) State.toDo
      (fun l s t hs ht => by
        obtain ⟨order, ha⟩ := hs
        obtain ⟨order', ha', -⟩ := step_agreed hq ha (step_moves ht)
        exact ⟨⟨order', ha'⟩, toDo_lt ha (step_moves ht)⟩) hrun
      ⟨[], agreed_initial⟩
    rwa [toDo_initial] at hle
  · intro hstuck
    obtain ⟨halong, h⟩ | ⟨halong, w, h⟩ := Machine.along_or_of_run
      (P := fun l s => givesUp l s = false) (I := Patient qsort system)
      (B := fun s => ∃ w, Forsaken qsort system s w)
      (fun l s t hs hl ht => step_patient hq hs (step_moves ht) hl)
      (fun l s t hs hl ht => by
        obtain ⟨order, ha⟩ := hs.agreed
        exact forsaken_of_givesUp ha hs.connected (step_moves ht)
          (Bool.eq_true_of_not_eq_false hl))
      (fun l s t hs ht => by
        obtain ⟨w, hw⟩ := hs
        exact ⟨w, step_forsaken hq hw (step_moves ht)⟩) hrun patient_initial
    · obtain ⟨order, ha⟩ := h.agreed
      exact iff_of_true (allStarted_of_stuck ha h.steady hstuck) halong
    · exact iff_of_false h.not_allStarted halong

/-- Processes that have started do nothing more. -/
theorem step_of_allStarted (h : s.AllStarted) (l : Label n) : step qsort system l s = none := by
  obtain ⟨hc, hw⟩ := h
  cases l with
  | accept client => simp [step, acceptStep, hc]
  | coordinator => simp [step, coordinatorStep, hc]
  | worker w => simp [step, workerStep, hw w]

/-- The two processes come to their end, and have not given up. -/
theorem two_terminate :
    ∃ s, (machine insertionSort twoPids).run twoSchedule (initial 1) = some s ∧ s.AllStarted ∧
      twoSchedule.length ≤ 31 ∧
      (machine insertionSort twoPids).Along (fun l s => givesUp l s = false) twoSchedule
        (initial 1) := by
  obtain ⟨s, hs⟩ : ∃ s, (machine insertionSort twoPids).run twoSchedule (initial 1) = some s :=
    Option.isSome_iff_exists.1 (by decide +kernel)
  have hend : ((machine insertionSort twoPids).run twoSchedule (initial 1)).map
      (fun s => (s.coordinator, s.worker 0)) = some (.started, .started) := by
    decide +kernel
  rw [hs] at hend
  obtain ⟨hc, hw⟩ := Prod.mk.inj (Option.some.inj hend)
  have hall : s.AllStarted := ⟨hc, fun w => by rwa [Subsingleton.elim w 0]⟩
  obtain ⟨hle, hiff⟩ := exchange_terminates sorts_insertionSort twoPids twoSchedule s hs
  exact ⟨s, hs, hall, hle, (hiff (step_of_allStarted hall)).1 hall⟩

end SemOS.Bogatyri.Exchange
