import SemOS.Foundations.Processes
import SemOS.Relay.SysV

/-!
# The order of the System V race

A runner waits for a message of the type of its own ready message, and may take that one back: it
then starts before the judge has counted anybody. While no runner does so, the race goes through
the phases of `Phase`.

* `step_phase` keeps them, along the steps that meet `counted`.
* `sysV_order_iff`: a run keeps the order of the race exactly when no runner takes its own ready
  message.
-/

namespace SemOS.Relay.SysV

open Function

variable {N k q number : ℕ} {l : Label N} {i : Fin N} {s t : State N}

/-! ## The calls on the queue -/

@[simp] theorem msgrcv_nil (mtype : ℕ) : msgrcv mtype [] = none := rfl

@[simp] theorem msgrcv_zero_cons (m : Msg) (queue : List Msg) :
    msgrcv 0 (m :: queue) = some (m, queue) := rfl

theorem msgrcv_singleton (m : Msg) {mtype : ℕ} (h : mtype ≠ 0) :
    msgrcv mtype [m] = if m.mtype = mtype then some (m, []) else none := by
  rw [msgrcv, MessageQueue.receive_singleton]
  simp [h]

/-- A message received by type is one of that type. -/
theorem mtype_of_msgrcv {mtype : ℕ} {m : Msg} {queue queue' : List Msg} (hne : mtype ≠ 0)
    (h : msgrcv mtype queue = some (m, queue')) : m ∈ queue ∧ m.mtype = mtype := by
  refine ⟨MessageQueue.mem_of_receive h, ?_⟩
  simpa [hne] using MessageQueue.receive_pred h

/-! ## Phases -/

/-- What a runner has sent and not received. -/
def Runner.credit : Runner → ℕ
  | .waiting | .finished => 1
  | .created | .started _ => 0

/-- How often the ready message of runner `n` is in the queue. -/
def State.pendingReady (s : State N) (n : ℕ) : ℕ := s.queue.count ⟨n, n⟩

theorem ready_beq (m n : ℕ) : ((⟨m, m⟩ : Msg) == ⟨n, n⟩) = decide (n = m) := by
  rw [Bool.eq_iff_iff, beq_iff_eq, decide_eq_true_eq, Msg.mk.injEq, and_self, eq_comm]

/-- Up to the start message: nobody has started, and the queue holds ready messages only. -/
structure Counting (k : ℕ) (s : State N) : Prop where
  runner : ∀ i, s.runner i = .created ∨ s.runner i = .waiting
  queue : ∀ m ∈ s.queue, m.mtype = m.number
  balance : s.queue.length + k = ∑ i, (s.runner i).credit
  gathering : Gathering N k s.ReadySent s.pendingReady s.output

/-- The phases of a race. -/
inductive Phase (s : State N) : Prop
  /-- The judge counts, and nobody has started. -/
  | counting {k number : ℕ} (hj : s.judge = judgeLoop N k number) (h : Counting k s)
  /-- The start message or a baton is on its way to runner `q + 1`, or to the judge. -/
  | passing {q number : ℕ} (hj : s.judge = .awaiting) (hq : q ≤ N)
      (hqueue : s.queue = [⟨q + 1, number⟩])
      (hr : ∀ i : Fin N, s.runner i = if (i : ℕ) < q then .finished else .waiting)
      (h : Racing N q s.output) (hlast : .lastFinished ∉ s.output)
  /-- Runner `q + 1` has it. -/
  | holding {q number : ℕ} (hj : s.judge = .awaiting) (hq : q < N) (hqueue : s.queue = [])
      (hr : ∀ i : Fin N, s.runner i =
        if (i : ℕ) < q then .finished else if (i : ℕ) = q then .started number else .waiting)
      (h : Racing N (q + 1) s.output) (hlast : .lastFinished ∉ s.output)
  /-- The judge has the last baton. -/
  | ended (hj : s.judge = .finished) (hqueue : s.queue = []) (hr : ∀ i, s.runner i = .finished)
      (h : Racing N N s.output)

theorem initial_phase (N : ℕ) : Phase (initial N) := by
  refine .counting rfl ⟨fun _ => .inl rfl, ?_, ?_, (Gathering.init N).move ?_ ?_⟩
  all_goals simp [initial, State.ReadySent, State.pendingReady, Runner.credit]

/-- A runner that has been counted waits, and its ready message is gone. -/
theorem Counting.of_mem_judged (h : Counting k s) (hi : (i : ℕ) + 1 ∈ judged s.output) :
    s.runner i = .waiting ∧ ⟨i + 1, i + 1⟩ ∉ s.queue := by
  obtain ⟨⟨i', heq, hne⟩, hpend⟩ := h.gathering.of_mem_judged hi
  obtain rfl : i' = i := Fin.ext (Nat.succ_injective heq)
  exact ⟨(h.runner i').resolve_left hne, List.count_eq_zero.1 hpend⟩

/-- A message that is waited for is a ready message. -/
theorem Counting.eq_of_mem (h : Counting k s) {m : Msg} (hm : m ∈ s.queue) :
    m = ⟨m.number, m.number⟩ := by
  cases m with
  | mk mtype number =>
    obtain rfl : mtype = number := h.queue _ hm
    rfl

/-- With `N` messages counted the queue is empty. -/
theorem Counting.queue_eq_nil (h : Counting k s) (hk : N ≤ k) : s.queue = [] := by
  apply List.eq_nil_iff_forall_not_mem.2
  intro m hm
  have := List.count_eq_zero.1 (h.gathering.pending_eq_zero hk m.number)
  rw [← h.eq_of_mem hm] at this
  exact this hm

/-! ## One step -/

/-- The judge counts a message. -/
theorem Counting.judge_counts {m : Msg} {queue' : List Msg} (h : Counting k s)
    (hq : s.queue = m :: queue') (judge : Judge) :
    Counting (k + 1) { s with
      judge := judge, queue := queue', output := s.output ++ [.judgeReady m.number] } := by
  refine ⟨h.runner, fun m' hm => h.queue m' (by simp [hq, hm]), ?_, h.gathering.judge fun n => ?_⟩
  · have := h.balance
    rw [hq, List.length_cons] at this
    simp only at this ⊢
    omega
  · obtain ⟨mtype, number⟩ := m
    obtain rfl : mtype = number := h.queue ⟨mtype, number⟩ (by simp [hq])
    simp only [State.pendingReady, hq, List.count_cons, ready_beq, decide_eq_true_eq]

/-- A runner sends its ready message. -/
theorem Counting.send (h : Counting k s) (hc : s.runner i = .created) :
    Counting k { s with
      runner := update s.runner i .waiting
      queue := s.queue ++ [⟨i + 1, i + 1⟩]
      output := s.output ++ [.ready (i + 1)] } := by
  refine ⟨fun j => ?_, fun m hm => ?_, ?_, h.gathering.send ⟨Nat.le_add_left _ _, i.2⟩ ?_ ?_ ?_⟩
  · simp only [update_apply]
    split_ifs
    · exact .inr rfl
    · exact h.runner j
  · obtain hm | hm := List.mem_append.1 hm
    · exact h.queue m hm
    · rw [List.mem_singleton.1 hm]
  · have := h.balance
    have hsum := Processes.sum_update (fun _ => Runner.credit) s.runner i .waiting
    rw [hc] at hsum
    change _ + 0 = _ + 1 at hsum
    simp only [List.length_append, List.length_singleton]
    omega
  · rintro ⟨i', heq, hne⟩
    obtain rfl : i' = i := Fin.ext (Nat.succ_injective heq)
    exact hne hc
  · intro n
    unfold State.ReadySent
    simp only [update_apply]
    constructor
    · rintro ⟨j, rfl, hne⟩
      split_ifs at hne with hj
      · exact .inr (by rw [hj])
      · exact .inl ⟨j, rfl, hne⟩
    · rintro (⟨j, rfl, hne⟩ | rfl)
      · refine ⟨j, rfl, ?_⟩
        split_ifs
        · simp
        · exact hne
      · exact ⟨i, rfl, by simp⟩
  · intro n
    simp only [State.pendingReady, List.count_append, List.count_singleton, ready_beq,
      decide_eq_true_eq]

/-- The judge counts a ready message, or starts the race after the last one. -/
theorem judge_counting {k number : ℕ} (hj : s.judge = judgeLoop N k number) (h : Counting k s)
    (hl : step .judge s = some t) : Phase t := by
  by_cases hlt : k < N
  · simp only [step, hj, judgeLoop, if_pos hlt] at hl
    obtain ⟨⟨m, queue'⟩, hq, rfl⟩ := Option.map_eq_some_iff.1 hl
    cases hqueue : s.queue with
    | nil => simp [hqueue] at hq
    | cons m' queue =>
      rw [hqueue, msgrcv_zero_cons, Option.some.injEq, Prod.mk.injEq] at hq
      obtain ⟨rfl, rfl⟩ := hq
      exact .counting rfl (h.judge_counts hqueue _)
  · simp only [step, hj, judgeLoop, if_neg hlt, Option.some.injEq] at hl
    subst hl
    have hN : N ≤ k := not_lt.1 hlt
    have hqueue : s.queue ++ [⟨1, number⟩] = [⟨0 + 1, number⟩] := by
      rw [h.queue_eq_nil hN]
      rfl
    refine .passing rfl (Nat.zero_le _) hqueue (fun i => ?_) (h.gathering.racing hN) ?_
    · exact (h.of_mem_judged (h.gathering.mem_judged hN (Nat.le_add_left _ _) i.2)).1
    · simpa using h.gathering.last

/-- While the judge counts, a runner sends its ready message. -/
theorem runner_counting {k number : ℕ} {i : Fin N} (hj : s.judge = judgeLoop N k number)
    (h : Counting k s) (hP : counted (.runner i) s = true) (hl : step (.runner i) s = some t) :
    Phase t := by
  obtain hc | hc := h.runner i
  · simp only [step, hc, Option.some.injEq] at hl
    subst hl
    exact .counting hj (h.send hc)
  · -- its own ready message is gone, and there is no other of its type
    have hi : (i : ℕ) + 1 ∈ judged s.output := by simpa [counted, hc] using hP
    simp only [step, hc] at hl
    obtain ⟨⟨m, queue'⟩, hq, rfl⟩ := Option.map_eq_some_iff.1 hl
    obtain ⟨hmem, htype⟩ := mtype_of_msgrcv (Nat.succ_ne_zero _) hq
    have hm : m = ⟨i + 1, i + 1⟩ := by
      rw [h.eq_of_mem hmem, ← h.queue m hmem, htype]
    exact absurd (hm ▸ hmem) (h.of_mem_judged hi).2

/-- The runner that the message is for takes it, or the judge takes the last one. -/
theorem step_passing {q number : ℕ} (hj : s.judge = .awaiting)
    (hqueue : s.queue = [⟨q + 1, number⟩])
    (hr : ∀ i : Fin N, s.runner i = if (i : ℕ) < q then .finished else .waiting)
    (h : Racing N q s.output) (hlast : .lastFinished ∉ s.output) (hl : step l s = some t) :
    Phase t := by
  cases l with
  | judge =>
    simp only [step, hj, hqueue, msgrcv_singleton _ (Nat.succ_ne_zero _)] at hl
    split_ifs at hl with hq
    · obtain rfl := Option.some.inj hl
      obtain rfl : q = N := Nat.succ_injective hq
      exact .ended rfl rfl (fun i => (hr i).trans (if_pos i.2)) (h.append rfl (by simp))
    · cases hl
  | runner i =>
    have hi := hr i
    split_ifs at hi with hlt
    · simp [step, hi] at hl
    · simp only [step, hi, hqueue, msgrcv_singleton _ (Nat.succ_ne_zero _)] at hl
      split_ifs at hl with hq
      · obtain rfl := Option.some.inj hl
        obtain rfl : q = i := Nat.succ_injective hq
        have hrunner : ∀ j : Fin N, update s.runner i (.started number) j =
            if (j : ℕ) < i then .finished else if (j : ℕ) = i then .started number
              else .waiting := by
          intro j
          simp only [update_apply, hr j, Fin.ext_iff]
          split_ifs <;> first | rfl | omega
        exact .holding hj i.2 rfl hrunner h.start_next (by simpa using hlast)
      · cases hl

/-- The runner that has the baton hands it on. -/
theorem step_holding {q number : ℕ} (hj : s.judge = .awaiting) (hqN : q < N) (hqueue : s.queue = [])
    (hr : ∀ i : Fin N, s.runner i =
      if (i : ℕ) < q then .finished else if (i : ℕ) = q then .started number else .waiting)
    (h : Racing N (q + 1) s.output) (hlast : .lastFinished ∉ s.output) (hl : step l s = some t) :
    Phase t := by
  cases l with
  | judge => simp [step, hj, hqueue] at hl
  | runner i =>
    have hi := hr i
    split_ifs at hi with hlt heq
    · simp [step, hi] at hl
    · simp only [step, hi, hqueue, Option.some.injEq] at hl
      subst hl
      have hqueue : [⟨(i : ℕ) + 1 + 1, number⟩] = [(⟨q + 1 + 1, number⟩ : Msg)] := by rw [heq]
      refine .passing hj hqN hqueue (fun j => ?_) (h.append rfl (by simp)) (by simpa using hlast)
      simp only [update_apply, hr j, Fin.ext_iff]
      split_ifs <;> first | rfl | omega
    · simp [step, hi, hqueue] at hl

/-- Every step of a race that meets `counted` keeps its phases. -/
theorem step_phase (h : Phase s) (hP : counted l s = true) (hl : step l s = some t) : Phase t := by
  cases h with
  | counting hj h =>
    cases l with
    | judge => exact judge_counting hj h hl
    | runner i => exact runner_counting hj h hP hl
  | passing hj hqN hqueue hr h hlast => exact step_passing hj hqueue hr h hlast hl
  | holding hj hqN hqueue hr h hlast => exact step_holding hj hqN hqueue hr h hlast hl
  | ended hj hqueue hr h =>
    cases l with
    | judge => simp [step, hj] at hl
    | runner i => simp [step, hr i] at hl

/-! ## Order -/

/-- Every phase is in order. -/
theorem Phase.inOrder (hN : 0 < N) (h : Phase s) : s.InOrder := by
  cases h with
  | counting hj h => exact InOrder.of_silent h.gathering.start h.gathering.last
  | passing hj hq hqueue hr h hlast =>
    refine InOrder.of_started (fun j h1 hj => ⟨⟨j - 1, by omega⟩, by simp only; omega, ?_⟩)
      h.counted (.inl hj) h.start fun hmem => absurd hmem hlast
    rw [hr]
    split_ifs <;> simp
  | holding hj hq hqueue hr h hlast =>
    refine InOrder.of_started (fun j h1 hj => ⟨⟨j - 1, by omega⟩, by simp only; omega, ?_⟩)
      h.counted (.inl hj) h.start fun hmem => absurd hmem hlast
    rw [hr]
    split_ifs <;> simp
  | ended hj hqueue hr h =>
    exact InOrder.of_started (fun j h1 hj => ⟨⟨j - 1, by omega⟩, by simp only; omega,
      by simp [hr]⟩) h.counted (.inr hj) h.start fun _ => ⟨hN, le_refl N⟩

/-- A runner that takes its own ready message starts before the judge has counted it. -/
theorem counted_of_inOrder (hl : step l s = some t) (ht : t.InOrder) : counted l s = true := by
  cases l with
  | judge => rfl
  | runner i =>
    by_cases hc : s.runner i = .waiting
    · simp only [step, hc] at hl
      obtain ⟨⟨m, queue'⟩, hq, rfl⟩ := Option.map_eq_some_iff.1 hl
      have hmem := ht.counted (i + 1) (by simp) (i + 1) (Nat.le_add_left _ _) i.2
      have hjudged : judged (s.output ++ [.start (i + 1)]) = judged s.output :=
        (judged_append ..).trans (List.append_nil _)
      rw [hjudged] at hmem
      simpa [counted, hc] using hmem
    · simp [counted, hc]

/-- **Order.** A run keeps the order of the race exactly when every runner that receives has been
counted, that is, when none takes its own ready message. -/
theorem sysV_order_iff (N : ℕ) (hN : 0 < N) (ls : List (Label N)) :
    (machine N).Throughout State.InOrder ls (initial N) ↔
      (machine N).Along (fun l s => counted l s = true) ls (initial N) := by
  refine Machine.throughout_iff_along (fun l s t h hP hl => step_phase h hP hl) ?_ ls
    (initial_phase N) ((initial_phase N).inOrder hN)
  intro l s t h _ hl
  exact ⟨counted_of_inOrder hl, fun hP => (step_phase h hP hl).inOrder hN⟩

/-- Three pieces of a race of one runner: it is ready, the judge counts it and gives the start. -/
theorem order_kept_start : (machine 1).Throughout State.InOrder
    [.runner 0, .judge, .judge, .runner 0, .runner 0, .judge] (initial 1) := by
  apply (sysV_order_iff 1 (by decide) _).2
  decide

/-- One runner takes back its own ready message, and starts with nobody counted. -/
theorem sysV_own_ready_starts : ¬ ∀ N : ℕ, 0 < N → ∀ s, (machine N).Reachable s → s.InOrder := by
  intro h
  have hrun : (machine 1).run [.runner 0, .runner 0] (initial 1) = some _ := rfl
  have := (h 1 (by decide) _ (Machine.reachable_of_run rfl hrun)).counted 1 (by decide) 1
    (by decide) (by decide)
  revert this
  decide

end SemOS.Relay.SysV
