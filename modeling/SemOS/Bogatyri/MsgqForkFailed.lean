import SemOS.Bogatyri.MsgqPhases

/-!
# The program after a failed fork

`create_child_process` ends `main` with `exit(1)`: nobody waits for the children, and nobody removes
the queue. The children that were started count the registrations for ever, since one is missing.

* `Quiet`: nothing is printed before some child is in `processing_phase`.
* **`program_silent_of_forkFailed`**: nothing is ever printed, no child gets its rank or exits, and
  the queue and the registry stay.
-/

namespace SemOS.Bogatyri.Program

open Function

variable {N : ℕ} {system : Registry.Pids N} {stdin : List UInt8} {cap : Option ℕ}
  {before : Resources} {s t : State N}

/-- The process has not counted all registrations. -/
def Waits (N : ℕ) : Registry.Control → Prop
  | .start | .locked | .written | .counting _ _ => True
  | .waiting n => n < N
  | _ => False

/-- Nothing is printed before some child is in `processing_phase`, and it stays there. -/
def Quiet (s : State N) : Prop := s.printed = [] ∨ ∃ i rank c, s.child i = .singing rank c

theorem step_quiet (hmanaged : Managed s) (h : Quiet s) (hm : Moves system stdin cap s t) :
    Quiet t := by
  -- a child that is not in `processing_phase` leaves those alone that are
  have hother : ∀ {i : Fin N} {c : Child N} {child : Fin N → Child N} {p : List (Fin N × UInt8)},
      (∀ rank d, s.child i ≠ .singing rank d) → child = update s.child i c → p = s.printed →
      p = [] ∨ ∃ i rank c, child i = .singing rank c := by
    rintro i c child p hi rfl rfl
    refine h.imp_right fun ⟨j, rank, d, hj⟩ => ⟨j, rank, d, ?_⟩
    have hji : j ≠ i := fun he => hi rank d (he ▸ hj)
    rwa [update_of_ne hji]
  have hmain := hmanaged.main
  cases hm with
  | noInput | read | forkFails | launched | reap | reaped | clean => exact h
  | @fork k hm =>
    rw [hm] at hmain
    have hk : s.child k = .unborn := (hmain k).1 le_rfl
    exact hother (i := k) (by simp [hk]) rfl rfl
  | @rank i c v hc hv => exact hother (i := i) (by simp [hc]) rfl rfl
  | @enter i rank hc => exact hother (i := i) (by simp [hc]) rfl rfl
  | @sing i rank c q v hc hq hv =>
    exact Or.inr ⟨i, rank, v.control rank, by simp [State.sung, State.goto]⟩
  | orphaned hc hq ht =>
    exact absurd hq (hmanaged.queue_of_alive (alive_of_orphaned hc ht))

theorem reachable_quiet (hs : (machine system stdin cap before).Reachable s) : Quiet s := by
  have hinv : Managed s ∧ Quiet s := by
    refine hs.invariant (I := fun s => Managed s ∧ Quiet s)
      (fun s h => ⟨reachable_managed (.of_init h), ?_⟩) fun _ _ _ h hl =>
        ⟨step_managed h.1 (step_moves hl), step_quiet h.1 h.2 (step_moves hl)⟩
    rw [show s = initial N before from h]
    exact Or.inl rfl
  exact hinv.2

/-- Nothing follows a failed fork in `main`. -/
theorem forkFailed_stays (hm : Moves system stdin cap s t) (hf : s.main = .forkFailed)
    (hmanaged : Managed s) : t.main = .forkFailed := by
  cases hm with
  | rank | enter | sing => exact hf
  | orphaned hc hq ht =>
    exact absurd hq (hmanaged.queue_of_alive (alive_of_orphaned hc ht))
  | forkFails => rfl
  | _ hm =>
    rw [hf] at hm
    cases hm

/-- **After a failed fork nothing happens any more.** The children that were started never see `N`
registrations: none of them gets its rank or exits, nothing is ever printed, and the queue and the
registry stay. -/
theorem program_silent_of_forkFailed (hs : (machine system stdin cap before).Reachable s)
    (hf : s.main = .forkFailed) (ht : (machine system stdin cap before).Leads s t) :
    t.main = .forkFailed ∧ t.printed = [] ∧
      (∀ i, t.child i = .unborn ∨ ∃ c, t.child i = .ranking c ∧ Waits N c) ∧
      t.resources.queue ≠ none ∧ t.resources.registry ≠ none := by
  have hreach := hs.leads ht
  have hmanaged := reachable_managed hreach
  have hstays : Managed t ∧ t.main = .forkFailed := by
    refine Machine.Leads.invariant (I := fun s => Managed s ∧ s.main = .forkFailed) ht
      ⟨reachable_managed hs, hf⟩ fun _ _ _ h hl => ?_
    exact ⟨step_managed h.1 (step_moves hl), forkFailed_stays (step_moves hl) h.2 h.1⟩
  have hm := hstays.2
  have hmain := hmanaged.main
  rw [hm] at hmain
  obtain ⟨u, hu, hR⟩ := registry_simulates.reachable hreach
  obtain ⟨order, hrec⟩ := Registry.reachable_recorded hu
  -- the child that was not forked has not registered
  have hlen : order.length ≠ N := by
    intro hlen
    obtain ⟨i, hi⟩ := hmain
    have hmem : i ∈ order := by
      have hperm : (system.numbers order).Perm (List.ofFn fun r => (system.pid r : ℤ)) :=
        Registry.perm_ofFn hrec.nodup hlen
      have hin := hperm.mem_iff.2 (List.mem_ofFn.2 ⟨i, rfl⟩)
      obtain ⟨j, hj, hji⟩ := List.mem_map.1 hin
      rwa [← Registry.injective_intPid system hji]
    have := (hrec.mem i).1 hmem
    rw [hR.control i, hi] at this
    exact this
  have hwaits : ∀ i, t.child i = .unborn ∨ ∃ c, t.child i = .ranking c ∧ Waits N c := by
    intro i
    have hk := hrec.knows i
    rw [hR.control i] at hk
    cases hc : t.child i with
    | unborn => exact Or.inl rfl
    | failed => exact absurd hc (hmanaged.sound i)
    | singing rank c =>
      rw [hc] at hk
      exact absurd hk.1 hlen
    | ranking c =>
      rw [hc] at hk
      refine Or.inr ⟨c, rfl, ?_⟩
      cases c with
      | start | locked | written | counting => trivial
      | waiting n =>
        have hle := Registry.length_le hrec.nodup
        have hn : n ≤ order.length := hk
        show n < N
        omega
      | reading | checking | returned => exact absurd hk.1 hlen
      | failed | overflowed => exact hk
  refine ⟨hm, ?_, hwaits, hmanaged.queue (hm ▸ trivial), ?_⟩
  · refine (reachable_quiet hreach).resolve_right fun ⟨i, rank, c, hc⟩ => ?_
    obtain hu | ⟨d, hd, -⟩ := hwaits i
    · rw [hc] at hu
      cases hu
    · rw [hc] at hd
      cases hd
  · rw [hR.file (hm ▸ trivial)]
    exact nofun

/-- The second of two forks fails: the child that was started registers and then counts for ever. -/
theorem silent_after_one_of_two :
    ∃ t, (machine Registry.two [1] none ⟨none, none, false⟩).run
        [.main true, .main true, .main false, .child 0, .child 0, .child 0, .child 0]
        (initial 2 ⟨none, none, false⟩) = some t ∧ t.printed = [] ∧ t.resources.queue ≠ none := by
  obtain ⟨s, hs⟩ : ∃ s, (machine Registry.two [1] none ⟨none, none, false⟩).run
      [.main true, .main true, .main false] (initial 2 ⟨none, none, false⟩) = some s := ⟨_, rfl⟩
  obtain ⟨t, ht⟩ : ∃ t, (machine Registry.two [1] none ⟨none, none, false⟩).run
      [.child 0, .child 0, .child 0, .child 0] s = some t := by
    obtain rfl := Option.some.inj hs
    exact ⟨_, rfl⟩
  have hf : s.main = .forkFailed := by
    obtain rfl := Option.some.inj hs
    rfl
  obtain ⟨-, hprinted, -, hqueue, -⟩ := program_silent_of_forkFailed
    (Machine.reachable_of_run rfl hs) hf (Machine.leads_of_run ht)
  exact ⟨t, (Machine.run_append hs).trans ht, hprinted, hqueue⟩

end SemOS.Bogatyri.Program
