import SemOS.Relay.SysVOrder

/-!
# Progress of the System V race

Whether the race comes to its end. Along the phases of a race somebody can always move
(`Phase.progress`). A runner that takes back its own ready message breaks the chain for good: its
baton fills a place in the judge's count, and the start message stops at the first such runner, so
that the judge never gets the last baton (`Broken`, `step_broken`). `progress_iff` puts the two
together.
-/

namespace SemOS.Relay.SysV

open Function

variable {N : ℕ} {l : Label N} {s t : State N}

/-! ## Races without a wrong receive -/

/-- While the judge counts in vain, some runner has not sent its ready message. -/
theorem Counting.exists_created {k : ℕ} (h : Counting k s) (hk : k < N) (hq : s.queue = []) :
    ∃ i, s.runner i = .created := by
  obtain ⟨n, h1, hN, hnot⟩ := h.gathering.exists_unsent hk fun n => by
    rw [State.pendingReady, hq, List.count_nil]
  by_contra hne
  exact hnot ⟨⟨n - 1, by omega⟩, by simp only; omega, fun hc => hne ⟨_, hc⟩⟩

/-- In every phase of a race somebody can move. -/
theorem Phase.progress (h : Phase s) : s.Progress := by
  intro hnot
  cases h with
  | @counting k number hj h =>
    by_cases hlt : k < N
    · cases hq : s.queue with
      | nil =>
        obtain ⟨i, hi⟩ := h.exists_created hlt hq
        exact ⟨.runner i, _, by simp only [step, hi]; rfl⟩
      | cons m queue =>
        exact ⟨.judge, _, by
          simp only [step, hj, judgeLoop, if_pos hlt, hq, msgrcv_zero_cons]; rfl⟩
    · exact ⟨.judge, _, by simp only [step, hj, judgeLoop, if_neg hlt]; rfl⟩
  | @passing q number hj hqN hqueue hr h hlast =>
    obtain hlt | rfl := Nat.lt_or_eq_of_le hqN
    · have hi := hr ⟨q, hlt⟩
      simp only [lt_irrefl, if_false] at hi
      exact ⟨.runner ⟨q, hlt⟩, _, by
        simp only [step, hi, hqueue, msgrcv_singleton _ (Nat.succ_ne_zero q), if_true]; rfl⟩
    · exact ⟨.judge, _, by
        simp only [step, hj, hqueue, msgrcv_singleton _ (Nat.succ_ne_zero q), if_true]; rfl⟩
  | @holding q number hj hq hqueue hr h hlast =>
    have hi := hr ⟨q, hq⟩
    simp only [lt_irrefl, if_false, if_true] at hi
    exact ⟨.runner ⟨q, hq⟩, _, by simp only [step, hi]; rfl⟩
  | ended hj hqueue hr h => exact absurd ⟨hj, hr⟩ hnot

/-! ## Races with one -/

/-- A runner that has received. -/
def Runner.Received : Runner → Prop
  | .started _ | .finished => True
  | .created | .waiting => False

/-- Every runner waits or has finished. -/
def Settled (s : State N) (i : Fin N) : Prop := s.runner i = .waiting ∨ s.runner i = .finished

/-- The states behind a wrong receive: the judge never gets to its end. -/
inductive Broken (s : State N) : Prop
  /-- The judge still counts; what is sent and not received makes up its count. -/
  | counting {k number : ℕ} (hj : s.judge = .counting k number) (hk : k < N)
      (hb : s.queue.length + k = ∑ i, (s.runner i).credit) (he : ∃ e, (s.runner e).Received)
  /-- It has counted all there is, a baton included. -/
  | starting {number : ℕ} (hj : s.judge = .starting number) (hq : s.queue = [])
      (hr : ∀ i, Settled s i) (he : ∃ e, s.runner e = .finished)
  /-- The start message has got as far as runner `q + 1`, and one from there on is past its
  receive. -/
  | passing {q number : ℕ} (hj : s.judge = .awaiting) (hq : s.queue = [⟨q + 1, number⟩])
      (hr : ∀ i, Settled s i) (he : ∃ e : Fin N, q ≤ e ∧ s.runner e = .finished)
  /-- Runner `q + 1` has it, and one beyond is past its receive. -/
  | holding {q number : ℕ} (hj : s.judge = .awaiting) (hq : s.queue = [])
      (hr : ∀ i : Fin N, if (i : ℕ) = q then s.runner i = .started number else Settled s i)
      (he : ∃ e : Fin N, q < e ∧ s.runner e = .finished)

theorem Broken.judge_ne (h : Broken s) : s.judge ≠ .finished := by
  cases h with
  | counting hj | starting hj | passing hj | holding hj => simp [hj]

theorem Runner.credit_le (c : Runner) : c.credit ≤ 1 := by
  cases c <;> simp [Runner.credit]

/-- When the judge has its count, nothing is left in the queue, and nobody is between a receive and
a send. -/
theorem settled_of_balance {n : ℕ} (hb : n + N = ∑ i, (s.runner i).credit) :
    n = 0 ∧ ∀ i, Settled s i := by
  have hle : ∑ i, (s.runner i).credit ≤ ∑ _i : Fin N, 1 :=
    Finset.sum_le_sum fun i _ => Runner.credit_le _
  have hN : ∑ _i : Fin N, 1 = N := by simp
  refine ⟨by omega, fun i => ?_⟩
  have hone : (s.runner i).credit = 1 :=
    (Finset.sum_eq_sum_iff_of_le fun i _ => Runner.credit_le _).1 (by omega) i (Finset.mem_univ i)
  unfold Settled
  cases hc : s.runner i <;> simp [hc, Runner.credit] at hone ⊢

/-- A runner moves on while the judge counts: the queue grows by what its credit grows. -/
theorem Broken.of_runner {k number : ℕ} {i : Fin N} {c : Runner} (hj : t.judge = .counting k number)
    (hk : k < N) (hb : s.queue.length + k = ∑ i, (s.runner i).credit)
    (ht : t.runner = update s.runner i c)
    (hq : t.queue.length + (s.runner i).credit = s.queue.length + c.credit)
    (he : ∃ e, (t.runner e).Received) : Broken t := by
  have hsum := Processes.sum_update (fun _ => Runner.credit) s.runner i c
  rw [← ht] at hsum
  exact .counting hj hk (by omega) he

/-- A runner that receives before it is counted breaks the race. -/
theorem Phase.broken (h : Phase s) (hP : counted l s = false) (hl : step l s = some t) :
    Broken t := by
  cases l with
  | judge => cases hP
  | runner i =>
    obtain ⟨hc, hi⟩ : s.runner i = .waiting ∧ (i : ℕ) + 1 ∉ judged s.output := by
      simpa [counted] using hP
    cases h with
    | @counting k number hj h =>
      have hlt : k < N := by
        by_contra hge
        exact hi (h.gathering.mem_judged (not_lt.1 hge) (Nat.le_add_left _ _) i.2)
      simp only [step, hc] at hl
      obtain ⟨⟨m, queue'⟩, hq, rfl⟩ := Option.map_eq_some_iff.1 hl
      refine .of_runner (hj.trans (if_pos hlt)) hlt h.balance rfl ?_ ⟨i, ?_⟩
      · rw [hc]
        exact (MessageQueue.length_receive hq).symm
      · simp [Runner.Received]
    | passing hj hq hqueue hr h hlast => exact absurd (h.counted _ (Nat.le_add_left _ _) i.2) hi
    | holding hj hq hqueue hr h hlast => exact absurd (h.counted _ (Nat.le_add_left _ _) i.2) hi
    | ended hj hqueue hr h => exact absurd (h.counted _ (Nat.le_add_left _ _) i.2) hi

/-! A broken race stays so, in each of its phases. -/

theorem step_broken_counting {k number : ℕ} (hj : s.judge = .counting k number) (hk : k < N)
    (hb : s.queue.length + k = ∑ i, (s.runner i).credit) (he : ∃ e, (s.runner e).Received)
    (hl : step l s = some t) : Broken t := by
  obtain ⟨e, he⟩ := he
  cases l with
  | judge =>
    simp only [step, hj] at hl
    obtain ⟨⟨m, queue'⟩, hq, rfl⟩ := Option.map_eq_some_iff.1 hl
    have hlen := MessageQueue.length_receive hq
    by_cases hlt : k + 1 < N
    · exact .counting (if_pos hlt) hlt (by simp only; omega) ⟨e, he⟩
    · obtain ⟨hnil, hr⟩ := settled_of_balance (n := queue'.length) (s := s) (by omega)
      refine .starting (if_neg hlt) (List.length_eq_zero_iff.1 hnil) hr ⟨e, ?_⟩
      obtain hw | hf := hr e
      · rw [hw] at he
        exact he.elim
      · exact hf
  | runner i =>
    cases hc : s.runner i with
    | created =>
      simp only [step, hc, Option.some.injEq] at hl
      subst hl
      have hne : e ≠ i := by
        rintro rfl
        rw [hc] at he
        exact he
      refine .of_runner hj hk hb rfl ?_ ⟨e, by simpa only [update_of_ne hne] using he⟩
      simp [hc, Runner.credit]
    | waiting =>
      simp only [step, hc] at hl
      obtain ⟨⟨m, queue'⟩, hq, rfl⟩ := Option.map_eq_some_iff.1 hl
      refine .of_runner hj hk hb rfl ?_ ⟨i, by simp [Runner.Received]⟩
      rw [hc]
      exact (MessageQueue.length_receive hq).symm
    | started number =>
      simp only [step, hc, Option.some.injEq] at hl
      subst hl
      refine .of_runner hj hk hb rfl ?_ ⟨i, by simp [Runner.Received]⟩
      simp [hc, Runner.credit]
    | finished => simp [step, hc] at hl

theorem step_broken_starting {number : ℕ} (hj : s.judge = .starting number) (hq : s.queue = [])
    (hr : ∀ i, Settled s i) (he : ∃ e, s.runner e = .finished) (hl : step l s = some t) :
    Broken t := by
  obtain ⟨e, he⟩ := he
  cases l with
  | judge =>
    simp only [step, hj, Option.some.injEq] at hl
    subst hl
    have hqueue : s.queue ++ [⟨1, number⟩] = [⟨0 + 1, number⟩] := by
      rw [hq]
      rfl
    exact .passing rfl hqueue hr ⟨e, Nat.zero_le _, he⟩
  | runner i => obtain hi | hi := hr i <;> simp [step, hi, hq] at hl

theorem step_broken_passing {q number : ℕ} (hj : s.judge = .awaiting)
    (hq : s.queue = [⟨q + 1, number⟩]) (hr : ∀ i, Settled s i)
    (he : ∃ e : Fin N, q ≤ e ∧ s.runner e = .finished) (hl : step l s = some t) : Broken t := by
  obtain ⟨e, hqe, he⟩ := he
  cases l with
  | judge =>
    have hne : q + 1 ≠ N + 1 := by
      have := e.2
      omega
    simp only [step, hj, hq, msgrcv_singleton _ (Nat.succ_ne_zero N), if_neg hne] at hl
    cases hl
  | runner i =>
    obtain hi | hi := hr i
    · simp only [step, hi, hq, msgrcv_singleton _ (Nat.succ_ne_zero _)] at hl
      split_ifs at hl with hqi
      · obtain rfl := Option.some.inj hl
        obtain rfl : q = i := Nat.succ_injective hqi
        have hne : e ≠ i := by
          rintro rfl
          rw [hi] at he
          cases he
        have hrunner : ∀ j : Fin N, if (j : ℕ) = i then
            update s.runner i (.started number) j = .started number else
            update s.runner i (.started number) j = .waiting ∨
              update s.runner i (.started number) j = .finished := by
          intro j
          split_ifs with hji
          · rw [Fin.ext hji, update_self]
          · rw [update_of_ne fun h => hji (congrArg Fin.val h)]
            exact hr j
        refine .holding hj rfl hrunner ⟨e, ?_, ?_⟩
        · exact lt_of_le_of_ne hqe fun h => hne (Fin.ext h.symm)
        · simp only [update_of_ne hne]
          exact he
      · cases hl
    · simp [step, hi] at hl

theorem step_broken_holding {q number : ℕ} (hj : s.judge = .awaiting) (hq : s.queue = [])
    (hr : ∀ i : Fin N, if (i : ℕ) = q then s.runner i = .started number else Settled s i)
    (he : ∃ e : Fin N, q < e ∧ s.runner e = .finished) (hl : step l s = some t) : Broken t := by
  obtain ⟨e, hqe, he⟩ := he
  cases l with
  | judge => simp [step, hj, hq] at hl
  | runner i =>
    have hi := hr i
    split_ifs at hi with hiq
    · simp only [step, hi, hq, Option.some.injEq] at hl
      subst hl
      have hqueue : [] ++ [⟨(i : ℕ) + 1 + 1, number⟩] = [(⟨q + 1 + 1, number⟩ : Msg)] := by
        rw [hiq]
        rfl
      have hne : e ≠ i := by
        rintro rfl
        omega
      refine .passing hj hqueue (fun j => ?_) ⟨e, hqe, by simp only [update_of_ne hne, he]⟩
      unfold Settled
      simp only [update_apply]
      have hj := hr j
      split_ifs with hji
      · exact .inr rfl
      · rw [if_neg fun h => hji (Fin.ext (h.trans hiq.symm))] at hj
        exact hj
    · obtain hi | hi := hi <;> simp [step, hi, hq] at hl

theorem step_broken (h : Broken s) (hl : step l s = some t) : Broken t := by
  cases h with
  | counting hj hk hb he => exact step_broken_counting hj hk hb he hl
  | starting hj hq hr he => exact step_broken_starting hj hq hr he hl
  | passing hj hq hr he => exact step_broken_passing hj hq hr he hl
  | holding hj hq hr he => exact step_broken_holding hj hq hr he hl

/-! ## Complete runs -/

/-- A run from a phase of the race takes only counted steps, or ends broken. -/
theorem along_or_broken {ls : List (Label N)} (h : Phase s) (hrun : (machine N).run ls s = some t) :
    (machine N).Along (fun l s => counted l s = true) ls s ∨ Broken t := by
  induction ls generalizing s with
  | nil => exact .inl trivial
  | cons l ls ih =>
    obtain ⟨u, hu, hrun⟩ := Option.bind_eq_some_iff.1 hrun
    have hstep : step l s = some u := hu
    cases hP : counted l s with
    | true =>
      obtain hls | hb := ih (step_phase h hP hstep) hrun
      · refine .inl fun v hv => ?_
        obtain rfl : u = v := Option.some.inj (hu.symm.trans hv)
        exact ⟨hP, hls⟩
      · exact .inr hb
    | false =>
      right
      exact Machine.Leads.invariant (Machine.leads_of_run hrun) (h.broken hP hstep)
        fun _ _ _ h hl => step_broken h hl

/-- **Progress.** Along a run in which every runner that receives has been counted, that is, none
takes its own ready message, somebody can always move until all have returned; and a run that goes
on until nothing moves has this property only if it is such a run. -/
theorem progress_iff (N : ℕ) :
    (∀ ls, (machine N).Along (fun l s => counted l s = true) ls (initial N) →
      (machine N).Throughout State.Progress ls (initial N)) ∧
    ∀ ls s, (machine N).run ls (initial N) = some s → (machine N).Stuck s →
      ((machine N).Throughout State.Progress ls (initial N) ↔
        (machine N).Along (fun l s => counted l s = true) ls (initial N)) := by
  have henough : ∀ ls, (machine N).Along (fun l s => counted l s = true) ls (initial N) →
      (machine N).Throughout State.Progress ls (initial N) := fun ls hls =>
    hls.throughout (fun _ _ _ h hP hl => step_phase h hP hl) (fun _ h => h.progress)
      (initial_phase N)
  refine ⟨henough, fun ls s hrun hstuck => ⟨fun hprog => ?_, henough ls⟩⟩
  obtain hls | hb := along_or_broken (initial_phase N) hrun
  · exact hls
  · exfalso
    obtain ⟨l, t, hl⟩ := (hprog.last hrun) fun hret => hb.judge_ne hret.1
    have : step l s = none := hstuck l
    rw [this] at hl
    cases hl

/-- One runner, and nobody takes a wrong message. -/
theorem progress_one : (machine 1).Throughout State.Progress
    [.runner 0, .judge, .judge, .runner 0, .runner 0, .judge] (initial 1) := by
  apply (progress_iff 1).1
  decide

/-- One runner takes back its own ready message; the judge counts its baton as a runner, gives a
start that nobody takes, and waits for a baton that nobody sends. -/
theorem own_ready_deadlocks : ¬ ∀ N : ℕ, 0 < N → ∀ s, (machine N).Reachable s → s.Progress := by
  intro h
  have hrun : (machine 1).run [.runner 0, .runner 0, .runner 0, .judge, .judge] (initial 1) =
    some ⟨.awaiting, update (update (update (fun _ => .created) 0 .waiting) 0 (.started 1)) 0
      .finished, [⟨1, 1⟩], [.ready 1, .start 1, .finish 1, .judgeReady 1, .allReady]⟩ := rfl
  obtain ⟨l, t, hl⟩ := h 1 (by decide) _ (Machine.reachable_of_run rfl hrun)
    fun hret => by cases hret.1
  cases l with
  | judge => cases hl
  | runner i =>
    obtain rfl : i = 0 := Subsingleton.elim _ _
    cases hl

end SemOS.Relay.SysV
