import Mathlib.Data.List.MinMax
import SemOS.Foundations.Processes
import SemOS.Relay.Posix

/-!
# The order of the POSIX race

The processes of the race take each other's messages out of the queue and put them back, so that a
message is in the queue or held by one of them. A runner that meets its own ready message in the
queue takes it for the baton. While none does, the race goes through the phases of `Phase`
(`step_phase`), and `posix_order_iff` says that exactly such runs keep the order of the race.
-/

namespace SemOS.Relay.Posix

open Function

variable {N k q : ℕ} {l : Label N} {i : Fin N} {s t : State N}

/-! ## The calls on the queue -/

@[simp] theorem mqReceive_nil : mqReceive [] = none := rfl

@[simp] theorem mqReceive_singleton (prio : ℕ) : mqReceive [prio] = some (prio, []) := by
  simp [mqReceive, MessageQueue.receive]

theorem mqReceive_perm {prio : ℕ} {queue queue' : List ℕ}
    (h : mqReceive queue = some (prio, queue')) : queue.Perm (prio :: queue') := by
  obtain ⟨m, -, h⟩ := Option.bind_eq_some_iff.1 h
  exact MessageQueue.receive_perm h

theorem count_mqReceive {prio : ℕ} {queue queue' : List ℕ}
    (h : mqReceive queue = some (prio, queue')) (n : ℕ) :
    queue.count n = queue'.count n + if n = prio then 1 else 0 := by
  rw [(mqReceive_perm h).count_eq, List.count_cons]
  simp only [beq_iff_eq, eq_comm (a := n)]

@[simp] theorem mqSend_nil (prio : ℕ) : mqSend prio [] = some [prio] := rfl

theorem count_mqSend {prio : ℕ} {queue queue' : List ℕ} (h : mqSend prio queue = some queue')
    (n : ℕ) : queue'.count n = queue.count n + if n = prio then 1 else 0 := by
  rw [(MessageQueue.send_eq_some.1 h).2, List.count_append, List.count_singleton]
  simp only [beq_iff_eq, eq_comm (a := n)]

/-! ## Phases -/

/-- Whether a runner holds a message of priority `n` that it is to send back. -/
def Runner.holds (n : ℕ) : Runner → ℕ
  | .resending prio => if n = prio then 1 else 0
  | _ => 0

/-- How many messages of priority `n` are in the queue or held by a runner. -/
def State.pending (s : State N) (n : ℕ) : ℕ := s.queue.count n + ∑ i, (s.runner i).holds n

/-- Up to the start message: nobody has started. -/
structure Counting (k : ℕ) (s : State N) : Prop where
  runner : ∀ i, s.runner i ≠ .started ∧ s.runner i ≠ .finished
  gathering : Gathering N k s.ReadySent s.pending s.output

/-- The runners before `q` have finished, and all others receive. -/
def baseline (q : ℕ) (i : Fin N) : Runner := if (i : ℕ) < q then .finished else .receiving

/-- The phases of a race. -/
inductive Phase (s : State N) : Prop
  /-- The judge counts, and nobody has started. -/
  | counting {k : ℕ} (hj : s.judge = judgeLoop N k) (h : Counting k s)
  /-- The start message or a baton, for runner `q + 1` or for the judge, is in the queue. -/
  | passing {q : ℕ} (hj : s.judge = .receiving) (hq : q ≤ N) (hqueue : s.queue = [q + 1])
      (hr : s.runner = baseline q) (h : Racing N q s.output) (hlast : .lastFinished ∉ s.output)
  /-- The judge has it, and is to send it back. -/
  | judgeHolds {q : ℕ} (hj : s.judge = .resending (q + 1)) (hq : q ≤ N) (hqueue : s.queue = [])
      (hr : s.runner = baseline q) (h : Racing N q s.output) (hlast : .lastFinished ∉ s.output)
  /-- A later runner has it, and is to send it back. -/
  | runnerHolds {q : ℕ} {j : Fin N} (hj : s.judge = .receiving) (hq : q < j)
      (hqueue : s.queue = []) (hr : s.runner = update (baseline q) j (.resending (q + 1)))
      (h : Racing N q s.output) (hlast : .lastFinished ∉ s.output)
  /-- Runner `q + 1` has it. -/
  | holding {q : Fin N} (hj : s.judge = .receiving) (hqueue : s.queue = [])
      (hr : s.runner = update (baseline q) q .started)
      (h : Racing N (q + 1) s.output) (hlast : .lastFinished ∉ s.output)
  /-- The judge has the last baton. -/
  | ended (hj : s.judge = .finished) (hr : ∀ i, s.runner i = .finished) (h : Racing N N s.output)

theorem initial_phase (N : ℕ) : Phase (initial N) := by
  refine .counting rfl ⟨fun _ => ⟨by simp [initial], by simp [initial]⟩,
    (Gathering.init N).move ?_ ?_⟩
  all_goals simp [initial, State.ReadySent, State.pending, Runner.holds]

@[simp] theorem baseline_of_lt (h : (i : ℕ) < q) : baseline q i = .finished := if_pos h

@[simp] theorem baseline_of_le (h : q ≤ i) : baseline q i = .receiving := if_neg (not_lt.2 h)

theorem baseline_ne_created (q : ℕ) (i : Fin N) : baseline q i ≠ .created := by
  unfold baseline
  split_ifs <;> simp

/-- A runner that sent a message back receives again. -/
theorem update_baseline_receiving {j : Fin N} (h : q ≤ j) :
    update (baseline q) j .receiving = baseline q := by
  rw [← baseline_of_le h, update_eq_self]

/-- The next runner has finished. -/
theorem update_baseline_finished (q : Fin N) :
    update (baseline q) q .finished = baseline (q + 1) := by
  funext j
  simp only [update_apply, baseline, Fin.ext_iff]
  split_ifs <;> first | rfl | omega

/-! ## While the judge counts -/

/-- A step of runner `i` to `c`. -/
theorem readySent_update {c : Runner} (ht : t.runner = update s.runner i c) (hc : c ≠ .created)
    (n : ℕ) : t.ReadySent n ↔ s.ReadySent n ∨ n = i + 1 := by
  unfold State.ReadySent
  simp only [ht, update_apply]
  constructor
  · rintro ⟨j, rfl, hne⟩
    split_ifs at hne with hj
    · exact .inr (by rw [hj])
    · exact .inl ⟨j, rfl, hne⟩
  · rintro (⟨j, rfl, hne⟩ | rfl)
    · refine ⟨j, rfl, ?_⟩
      split_ifs
      · exact hc
      · exact hne
    · exact ⟨i, rfl, by simpa using hc⟩

theorem readySent_update_of_ne {c : Runner} (ht : t.runner = update s.runner i c)
    (hc : c ≠ .created) (hi : s.runner i ≠ .created) (n : ℕ) :
    t.ReadySent n ↔ s.ReadySent n := by
  rw [readySent_update ht hc]
  refine ⟨fun h => h.elim id ?_, .inl⟩
  rintro rfl
  exact ⟨i, rfl, hi⟩

theorem pending_update {c : Runner} (ht : t.runner = update s.runner i c) (n : ℕ) :
    t.pending n + s.queue.count n + (s.runner i).holds n =
      s.pending n + t.queue.count n + c.holds n := by
  have := Processes.sum_update (fun _ => Runner.holds n) s.runner i c
  rw [State.pending, State.pending, ht]
  omega

theorem Counting.runner_update {c : Runner} (h : Counting k s) (hc : c ≠ .started)
    (hf : c ≠ .finished) (j : Fin N) :
    update s.runner i c j ≠ .started ∧ update s.runner i c j ≠ .finished := by
  rw [update_apply]
  split_ifs
  · exact ⟨hc, hf⟩
  · exact h.runner j

/-- The judge counts a message. -/
theorem Counting.judge_counts {prio : ℕ} {queue' : List ℕ} (h : Counting k s)
    (hq : mqReceive s.queue = some (prio, queue')) (judge : Judge) :
    Counting (k + 1) { s with
      judge := judge, queue := queue', output := s.output ++ [.judgeReady prio] } := by
  refine ⟨h.runner, h.gathering.judge fun n => ?_⟩
  have := count_mqReceive hq n
  simp only [State.pending]
  omega

/-- A runner sends its ready message. -/
theorem Counting.send {queue' : List ℕ} (h : Counting k s) (hc : s.runner i = .created)
    (hq : mqSend (i + 1) s.queue = some queue') :
    Counting k { s with
      runner := update s.runner i .receiving
      queue := queue'
      output := s.output ++ [.ready (i + 1)] } := by
  refine ⟨h.runner_update (by simp) (by simp), h.gathering.send ⟨Nat.le_add_left _ _, i.2⟩ ?_
    (readySent_update rfl (by simp)) fun n => ?_⟩
  · rintro ⟨i', heq, hne⟩
    obtain rfl : i' = i := Fin.ext (Nat.succ_injective heq)
    exact hne hc
  · have hcount := count_mqSend hq n
    have := pending_update (s := s) (t := { s with
      runner := update s.runner i .receiving
      queue := queue'
      output := s.output ++ [.ready (i + 1)] }) rfl n
    rw [hc] at this
    simp only [Runner.holds] at this ⊢
    omega

/-- A runner takes a message that is not for it. -/
theorem Counting.take {prio : ℕ} {queue' : List ℕ} (h : Counting k s)
    (hc : s.runner i = .receiving) (hq : mqReceive s.queue = some (prio, queue')) :
    Counting k { s with runner := update s.runner i (.resending prio), queue := queue' } := by
  refine ⟨h.runner_update (by simp) (by simp), h.gathering.move
    (readySent_update_of_ne rfl (by simp) (by simp [hc])) fun n => ?_⟩
  have hcount := count_mqReceive hq n
  have := pending_update (s := s) (t := { s with
    runner := update s.runner i (.resending prio), queue := queue' }) rfl n
  rw [hc] at this
  simp only [Runner.holds] at this ⊢
  omega

/-- It sends it back. -/
theorem Counting.giveBack {prio : ℕ} {queue' : List ℕ} (h : Counting k s)
    (hc : s.runner i = .resending prio) (hq : mqSend prio s.queue = some queue') :
    Counting k { s with runner := update s.runner i .receiving, queue := queue' } := by
  refine ⟨h.runner_update (by simp) (by simp), h.gathering.move
    (readySent_update_of_ne rfl (by simp) (by simp [hc])) fun n => ?_⟩
  have hcount := count_mqSend hq n
  have := pending_update (s := s) (t := { s with
    runner := update s.runner i .receiving, queue := queue' }) rfl n
  rw [hc] at this
  simp only [Runner.holds] at this ⊢
  omega

/-- With `N` messages counted, the queue is empty and no runner holds anything. -/
theorem Counting.done (h : Counting k s) (hk : N ≤ k) :
    s.queue = [] ∧ s.runner = baseline 0 := by
  have hpend : ∀ n, s.queue.count n = 0 ∧ ∀ i, (s.runner i).holds n = 0 := by
    intro n
    have hzero : s.queue.count n + ∑ i, (s.runner i).holds n = 0 :=
      h.gathering.pending_eq_zero hk n
    refine ⟨by omega, fun i => ?_⟩
    have := Processes.le_sum (fun i => (s.runner i).holds n) i
    omega
  constructor
  · apply List.eq_nil_iff_forall_not_mem.2
    intro n
    exact List.count_eq_zero.1 (hpend n).1
  · funext i
    obtain ⟨⟨i', heq, hne⟩, -⟩ := h.gathering.of_mem_judged
      (h.gathering.mem_judged hk (Nat.le_add_left 1 i) i.2)
    obtain rfl : i' = i := Fin.ext (Nat.succ_injective heq)
    have hrun := h.runner i'
    rw [baseline_of_le (Nat.zero_le _)]
    cases hc : s.runner i' with
    | created => exact absurd hc hne
    | receiving => rfl
    | resending prio =>
      have := (hpend prio).2 i'
      simp [hc, Runner.holds] at this
    | started => exact absurd hc hrun.1
    | finished => exact absurd hc hrun.2

/-- The judge counts a message, or has counted all and starts the race. -/
theorem Counting.judge_step (hj : s.judge = judgeLoop N k) (h : Counting k s)
    (hl : step .judge s = some t) : Phase t := by
  by_cases hlt : k < N
  · simp only [step, hj, judgeLoop, if_pos hlt] at hl
    obtain ⟨⟨prio, queue'⟩, hq, rfl⟩ := Option.map_eq_some_iff.1 hl
    exact .counting rfl (h.judge_counts hq _)
  · obtain ⟨hqueue, hr⟩ := h.done (not_lt.1 hlt)
    simp only [step, hj, judgeLoop, if_neg hlt, hqueue, mqSend_nil, Option.map_some,
      Option.some.injEq] at hl
    subst hl
    exact .passing rfl (Nat.zero_le _) rfl hr (h.gathering.racing (not_lt.1 hlt))
      (by simpa using h.gathering.last)

/-- A runner steps while the judge counts. -/
theorem Counting.runner_step (hj : s.judge = judgeLoop N k) (h : Counting k s)
    (hP : counted (.runner i) s = true) (hl : step (.runner i) s = some t) : Phase t := by
  cases hc : s.runner i with
  | created =>
    simp only [step, hc] at hl
    obtain ⟨queue', hq, rfl⟩ := Option.map_eq_some_iff.1 hl
    exact .counting hj (h.send hc hq)
  | receiving =>
    simp only [step, hc] at hl
    obtain ⟨⟨prio, queue'⟩, hq, rfl⟩ := Option.map_eq_some_iff.1 hl
    -- its own ready message is not pending
    have hne : prio ≠ i + 1 := by
      rintro rfl
      have hi : (i : ℕ) + 1 ∈ judged s.output := by simpa [counted, hc, hq] using hP
      have hzero : s.queue.count ((i : ℕ) + 1) + ∑ j, (s.runner j).holds (i + 1) = 0 :=
        (h.gathering.of_mem_judged hi).2
      have := count_mqReceive hq (i + 1)
      rw [if_pos rfl] at this
      omega
    simp only [runnerReceives, if_neg hne]
    exact .counting hj (h.take hc hq)
  | resending prio =>
    simp only [step, hc] at hl
    obtain ⟨queue', hq, rfl⟩ := Option.map_eq_some_iff.1 hl
    exact .counting hj (h.giveBack hc hq)
  | started => exact absurd hc (h.runner i).1
  | finished => exact absurd hc (h.runner i).2

/-! ## Once the race is on -/

/-- With an empty queue a runner that has finished or receives cannot move. -/
theorem runner_eq_none (hqueue : s.queue = []) (hi : s.runner i = baseline q i) :
    step (.runner i) s = none := by
  unfold baseline at hi
  split_ifs at hi <;> simp [step, hi, hqueue]

/-- While runner `j` holds the only message, no other runner can move. -/
theorem eq_of_holding {j : Fin N} {r : Runner} (hqueue : s.queue = [])
    (hr : s.runner = update (baseline q) j r) (hl : step (.runner i) s = some t) : i = j := by
  by_contra hij
  rw [runner_eq_none hqueue ((congrFun hr i).trans (update_of_ne hij ..))] at hl
  cases hl

/-- A runner meets the message for runner `q + 1`. -/
theorem passing_runner (hj : s.judge = .receiving) (hqueue : s.queue = [q + 1])
    (hr : s.runner = baseline q) (h : Racing N q s.output) (hlast : .lastFinished ∉ s.output)
    (hl : step (.runner i) s = some t) : Phase t := by
  have hi : s.runner i = baseline q i := congrFun hr i
  obtain hlt | hle := Nat.lt_or_ge (i : ℕ) q
  · rw [baseline_of_lt hlt] at hi
    simp [step, hi] at hl
  · rw [baseline_of_le hle] at hi
    simp only [step, hi, hqueue, mqReceive_singleton, Option.map_some, Option.some.injEq,
      runnerReceives] at hl
    subst hl
    split_ifs with hqi
    · obtain rfl : q = i := Nat.succ_injective hqi
      exact .holding hj rfl (by simp only [hr]) h.start_next (by simpa using hlast)
    · exact .runnerHolds hj (lt_of_le_of_ne hle fun heq => hqi (congrArg (· + 1) heq)) rfl
        (by simp only [hr]) h hlast

/-- Every step of a race that meets `counted` keeps its phases. -/
theorem step_phase (h : Phase s) (hP : counted l s = true) (hl : step l s = some t) : Phase t := by
  cases h with
  | @counting k hj h =>
    cases l with
    | judge => exact h.judge_step hj hl
    | runner i => exact h.runner_step hj hP hl
  | @passing q hj hq hqueue hr h hlast =>
    cases l with
    | judge =>
      simp only [step, hj, hqueue, mqReceive_singleton, Option.map_some, Option.some.injEq,
        judgeReceives] at hl
      subst hl
      split_ifs with hqN
      · obtain rfl : q = N := Nat.succ_injective hqN
        exact .ended rfl (fun i => by simp only [hr, baseline_of_lt i.2]) (h.append rfl (by simp))
      · exact .judgeHolds rfl hq rfl hr h hlast
    | runner i => exact passing_runner hj hqueue hr h hlast hl
  | @judgeHolds q hj hq hqueue hr h hlast =>
    cases l with
    | judge =>
      simp only [step, hj, hqueue, mqSend_nil, Option.map_some, Option.some.injEq] at hl
      subst hl
      exact .passing rfl hq rfl hr h hlast
    | runner i =>
      rw [runner_eq_none hqueue (congrFun hr i)] at hl
      cases hl
  | @runnerHolds q j hj hq hqueue hr h hlast =>
    cases l with
    | judge => simp [step, hj, hqueue] at hl
    | runner i =>
      obtain rfl := eq_of_holding hqueue hr hl
      have hi : s.runner i = .resending (q + 1) := (congrFun hr i).trans (update_self ..)
      simp only [step, hi, hqueue, mqSend_nil, Option.map_some, Option.some.injEq] at hl
      subst hl
      refine .passing hj (hq.trans i.2).le rfl ?_ h hlast
      simp only [hr, update_idem]
      exact update_baseline_receiving hq.le
  | @holding q hj hqueue hr h hlast =>
    cases l with
    | judge => simp [step, hj, hqueue] at hl
    | runner i =>
      obtain rfl := eq_of_holding hqueue hr hl
      have hi : s.runner i = .started := (congrFun hr i).trans (update_self ..)
      simp only [step, hi, hqueue, mqSend_nil, Option.map_some, Option.some.injEq] at hl
      subst hl
      refine .passing hj i.2 rfl ?_ (h.append rfl (by simp)) (by simpa using hlast)
      simp only [hr, update_idem]
      exact update_baseline_finished i
  | ended hj hr h =>
    cases l with
    | judge => simp [step, hj] at hl
    | runner i => simp [step, hr i] at hl

/-! ## Order -/

/-- A race that is on is in order. -/
theorem inOrder_of_racing {p : ℕ} (hsent : ∀ i, s.runner i ≠ .created) (hstart : s.StartSent)
    (h : Racing N p s.output) (hlast : .lastFinished ∈ s.output → 1 ≤ N ∧ N ≤ p) : s.InOrder := by
  refine ⟨InOrder.of_started (fun j h1 hj => ⟨⟨j - 1, by omega⟩, by simp only; omega, hsent _⟩)
    h.counted hstart h.start hlast, h.distinct, fun k hk => ?_⟩
  obtain hj | ⟨prio, hj⟩ | hj := hstart <;> rw [hj] at hk <;> cases hk

/-- Every phase is in order. -/
theorem Phase.inOrder (hN : 0 < N) (h : Phase s) : s.InOrder := by
  cases h with
  | counting hj h =>
    exact ⟨InOrder.of_silent h.gathering.start h.gathering.last,
      List.nodup_iff_count_le_one.2 h.gathering.count_le, fun _ _ => h.gathering.finish⟩
  | passing hj hq hqueue hr h hlast =>
    refine inOrder_of_racing (fun i => ?_) (.inl hj) h fun hmem => absurd hmem hlast
    rw [hr]
    exact baseline_ne_created _ _
  | judgeHolds hj hq hqueue hr h hlast =>
    refine inOrder_of_racing (fun i => ?_) (.inr (.inl ⟨_, hj⟩)) h fun hmem => absurd hmem hlast
    rw [hr]
    exact baseline_ne_created _ _
  | runnerHolds hj hq hqueue hr h hlast =>
    refine inOrder_of_racing (fun i => ?_) (.inl hj) h fun hmem => absurd hmem hlast
    rw [hr, update_apply]
    split_ifs
    · simp
    · exact baseline_ne_created _ _
  | holding hj hqueue hr h hlast =>
    refine inOrder_of_racing (fun i => ?_) (.inl hj) h fun hmem => absurd hmem hlast
    rw [hr, update_apply]
    split_ifs
    · simp
    · exact baseline_ne_created _ _
  | ended hj hr h =>
    exact inOrder_of_racing (fun i => by simp [hr i]) (.inr (.inr hj)) h fun _ => ⟨hN, le_refl N⟩

/-- A runner that takes its own ready message starts before the judge has counted it. -/
theorem counted_of_inOrder (hl : step l s = some t) (ht : t.InOrder) : counted l s = true := by
  cases l with
  | judge => rfl
  | runner i =>
    by_cases hc : s.runner i = .receiving
    · simp only [step, hc] at hl
      obtain ⟨⟨prio, queue'⟩, hq, rfl⟩ := Option.map_eq_some_iff.1 hl
      by_cases hprio : prio = i + 1
      · have hmem := ht.order.counted (i + 1) (by simp [runnerReceives, hprio]) (i + 1)
          (Nat.le_add_left _ _) i.2
        have hjudged : judged (s.output ++ [.start (i + 1)]) = judged s.output :=
          (judged_append ..).trans (List.append_nil _)
        simp only [runnerReceives, if_pos hprio, hjudged] at hmem
        simp [counted, hmem]
      · simp [counted, hq, hprio]
    · simp [counted, hc]

/-- **Order.** A run keeps the order of the race exactly when every runner that receives a message
of its own priority has been counted, that is, when none takes its own ready message. -/
theorem posix_order_iff (N : ℕ) (hN : 0 < N) (ls : List (Label N)) :
    (machine N).Throughout State.InOrder ls (initial N) ↔
      (machine N).Along (fun l s => counted l s = true) ls (initial N) := by
  refine Machine.throughout_iff_along (fun l s t h hP hl => step_phase h hP hl) ?_ ls
    (initial_phase N) ((initial_phase N).inOrder hN)
  intro l s t h _ hl
  exact ⟨counted_of_inOrder hl, fun hP => (step_phase h hP hl).inOrder hN⟩

/-- Two runners: the first takes the ready message of the second and sends it back. -/
theorem order_kept_resent : (machine 2).Throughout State.InOrder
    [.runner 0, .runner 1, .runner 0, .runner 0, .judge, .judge, .judge, .runner 0]
    (initial 2) := by
  apply (posix_order_iff 2 (by decide) _).2
  decide

/-- One runner takes back its own ready message, and starts with nobody counted. -/
theorem posix_own_ready_starts : ¬ ∀ N : ℕ, 0 < N → ∀ s, (machine N).Reachable s → s.InOrder := by
  intro h
  have hrun : (machine 1).run [.runner 0, .runner 0] (initial 1) = some _ := rfl
  have := (h 1 (by decide) _ (Machine.reachable_of_run rfl hrun)).order.counted 1 (by decide) 1
    (by decide) (by decide)
  revert this
  decide

end SemOS.Relay.Posix
