import SemOS.Bogatyri.MsgqProgram
import SemOS.Bogatyri.MsgqSafety
import SemOS.Bogatyri.RegistryProgress
import SemOS.Foundations.Simulation

/-!
# The two phases of the program

A child sings while others still look for their ranks, and `main` may not have forked all of them.
Each phase is nevertheless one of the two machines that the program is made of.

* `Ranks` relates the program to `Registry.machine`: a child that is not forked has not started
  there, and one that sings has returned. `registry_simulates` is the simulation.
* `Sings` relates it to `Msgq.machine`, with a child under its rank: a child that has no rank yet
  is at the start of `processing_phase`. `song_simulates` is the simulation.
* **`program_sings`**: the output is a prefix of the line, each character is printed by the child
  with that many process numbers below its own, no child fails, and when `main` has finished the
  line is printed, all children have exited, and nothing is left behind.
-/

namespace SemOS.Bogatyri.Program

open Function

variable {N : ℕ} {system : Registry.Pids N} {stdin : List UInt8} {cap : Option ℕ}
  {before : Resources} {s t : State N} {i : Fin N} {c : Child N}

/-- What a move of one child does not change of it, it changes of none. -/
theorem goto_same {α : Type*} (f : Child N → α) (h : f c = f (s.child i)) (j : Fin N) :
    f ((s.goto i c).child j) = f (s.child j) := by
  by_cases hj : j = i
  · subst hj
    simpa [State.goto] using h
  · simp [State.goto, hj]

/-! ## The registry -/

/-- Where a child is in `get_my_rank`. -/
def Child.registry : Child N → Registry.Control
  | .unborn => .start
  | .ranking c => c
  | .singing rank _ => .returned rank
  | .failed => .failed

/-- The state of the registry. -/
structure Ranks (s : State N) (u : Registry.State N) : Prop where
  control : ∀ i, u.control i = (s.child i).registry
  lock : u.lock = s.lock
  file : s.main.SetUp → s.resources.registry = some u.file
  start : s.main = .start → u.file = []

/-- Only a line that is written changes the registry. -/
theorem file_of_step {u v : Registry.State N} (h : Registry.step system i u = some v)
    (hc : u.control i ≠ .locked) : v.file = u.file := by
  cases Registry.step_moves h with
  | append hc' => exact absurd hc' hc
  | _ => rfl

/-- A piece of `get_my_rank` is a step of the registry. -/
theorem Ranks.rank {u v : Registry.State N} (h : Ranks s u) (hs : Managed s)
    {c : Registry.Control} (hc : s.child i = .ranking c)
    (hv : Registry.step system i
      (Registry.alone c (s.resources.registry.getD []) s.lock) = some v) :
    Registry.step system i u = some ⟨update u.control i (v.control i), v.file, v.lock⟩ ∧
      Ranks (s.ranked i c v) ⟨update u.control i (v.control i), v.file, v.lock⟩ := by
  have halive := alive_of_ranking hc hv
  have hfile := h.file (hs.setUp_of_alive halive)
  rw [hfile] at hv
  refine ⟨?_, fun j => ?_, rfl, fun _ => ?_, fun hm => absurd hm (hs.main_of_alive halive).1⟩
  · rw [Registry.step_local, h.control i, hc, h.lock]
    rw [Child.registry, show u.file = (some u.file).getD [] from rfl, hv]
    rfl
  · by_cases hj : j = i
    · subst hj
      simp [State.ranked, State.goto, Child.registry]
    · simp only [State.ranked, State.goto, update_of_ne hj]
      exact h.control j
  · show (if c = .locked then some v.file else s.resources.registry) = some v.file
    split_ifs with hlocked
    · rfl
    · rw [file_of_step hv hlocked, hfile]
      rfl

/-- A step that leaves every child where it is in the registry, with the file. -/
theorem Ranks.congr {u : Registry.State N} (h : Ranks s u)
    (hchild : ∀ i, (t.child i).registry = (s.child i).registry) (hlock : t.lock = s.lock)
    (hfile : t.main.SetUp → t.resources.registry = some u.file)
    (hstart : t.main ≠ .start) : Ranks t u :=
  ⟨fun i => by rw [hchild, h.control], hlock ▸ h.lock, hfile, fun hm => absurd hm hstart⟩

/-- The registry machine follows the program. -/
theorem registry_simulates :
    (Registry.machine system).Simulates (machine system stdin cap before) Ranks := by
  constructor
  · intro s hs
    rw [show s = initial N before from hs]
    exact ⟨Registry.initial N, rfl, fun _ => rfl, rfl, False.elim, fun _ => rfl⟩
  · intro l s t u hs hu hR hl
    have hmanaged := reachable_managed hs
    have stay : Ranks t u → ∃ u', (Registry.machine system).Leads u u' ∧ Ranks t u' := fun h =>
      ⟨u, Relation.ReflTransGen.refl, h⟩
    cases step_moves hl with
    | noInput hm hr => exact stay (hR.congr (fun _ => rfl) rfl False.elim nofun)
    | read hm hr =>
      refine stay (hR.congr (fun _ => rfl) rfl (fun _ => ?_) nofun)
      rw [hR.start hm]
      rfl
    | @fork k hm =>
      have hmain := hmanaged.main
      rw [hm] at hmain
      have hk : s.child k = .unborn := (hmain k).1 le_rfl
      exact stay (hR.congr (goto_same Child.registry (by rw [hk]; rfl)) rfl
        (fun _ => hR.file (hm ▸ trivial)) nofun)
    | forkFails hm | launched hm | reap hm | reaped hm =>
      exact stay (hR.congr (fun _ => rfl) rfl (fun _ => hR.file (hm ▸ trivial)) nofun)
    | clean hm => exact stay (hR.congr (fun _ => rfl) rfl False.elim nofun)
    | rank hc hv =>
      obtain ⟨hstep, hR⟩ := hR.rank hmanaged hc hv
      exact ⟨_, Relation.ReflTransGen.single ⟨_, hstep⟩, hR⟩
    | @enter i rank hc =>
      have halive : (s.child i).Alive := by
        rw [hc]
        exact ⟨by simp, rfl⟩
      obtain ⟨q, hq⟩ := Option.ne_none_iff_exists'.1 (hmanaged.queue_of_alive halive)
      have hset := hmanaged.setUp_of_alive halive
      exact stay (hR.congr (goto_same Child.registry (by rw [hq, hc]; rfl)) rfl
        (fun _ => hR.file hset) (hmanaged.main_of_alive halive).1)
    | @sing i rank c q v hc hq hv =>
      have halive := alive_of_singing hc hv
      have hset := hmanaged.setUp_of_alive halive
      exact stay (hR.congr (goto_same Child.registry (by rw [hc]; rfl)) rfl
        (fun _ => hR.file hset) (hmanaged.main_of_alive halive).1)
    | orphaned hc hq hv =>
      exact absurd hq (hmanaged.queue_of_alive (alive_of_orphaned hc hv))

/-! ## What the registry says of the program -/

/-- A child that sings has its rank. -/
theorem rank_of_singing (hs : (machine system stdin cap before).Reachable s) {rank : Fin N}
    {c : Msgq.Control} (hc : s.child i = .singing rank c) : rank = system.rank i := by
  obtain ⟨u, hu, hR⟩ := registry_simulates.reachable hs
  have hcontrol := hR.control i
  rw [hc] at hcontrol
  exact Fin.ext (Registry.rank_of_returned hu hcontrol)

theorem rank_of_returned (hs : (machine system stdin cap before).Reachable s) {n : ℕ}
    (hc : s.child i = .ranking (.returned n)) : n = system.rank i := by
  obtain ⟨u, hu, hR⟩ := registry_simulates.reachable hs
  have hcontrol := hR.control i
  rw [hc] at hcontrol
  exact Registry.rank_of_returned hu hcontrol

/-- No child fails to find its rank. -/
theorem ranking_sound (hs : (machine system stdin cap before).Reachable s) (i : Fin N) :
    s.child i ≠ .ranking .failed ∧ s.child i ≠ .ranking .overflowed := by
  obtain ⟨u, hu, hR⟩ := registry_simulates.reachable hs
  obtain ⟨order, h⟩ := Registry.reachable_recorded hu
  have hk := h.knows i
  rw [hR.control i] at hk
  constructor
  · intro hc
    rw [hc] at hk
    exact hk
  · intro hc
    rw [hc] at hk
    exact hk

/-- So a child that has exited has come to the end of `processing_phase`. -/
theorem exited_of_ended (hs : (machine system stdin cap before).Reachable s)
    (he : (s.child i).ended = true) : s.child i = .singing (system.rank i) .exited := by
  cases hc : s.child i with
  | unborn => simp [hc, Child.ended] at he
  | failed => exact absurd hc ((reachable_managed hs).sound i)
  | ranking c =>
    rw [hc] at he
    cases c with
    | failed => exact absurd hc (ranking_sound hs i).1
    | _ => cases he
  | singing rank c =>
    rw [hc] at he
    cases c with
    | exited => rw [rank_of_singing hs hc]
    | _ => cases he

/-! ## The song -/

/-- Where a child is in `processing_phase`. -/
def Child.song (input : List UInt8) : Child N → Msgq.Control
  | .singing _ c => c
  | _ => Msgq.processingPhase input

/-- The state of the song. -/
structure Sings (system : Registry.Pids N) (input : List UInt8) (s : State N) (u : Msgq.State N) :
    Prop where
  control : ∀ i, u.control (system.rank i) = (s.child i).song input
  queue : s.main.SetUp → s.resources.queue = some u.queue
  start : s.main = .start → u.queue = s.resources.queue.getD []
  printed : u.printed = s.printed.map fun x => (system.rank x.1, x.2)

theorem Sings.output {input : List UInt8} {u : Msgq.State N} (h : Sings system input s u) :
    u.output = s.output := by
  rw [Msgq.State.output, h.printed, List.map_map]
  rfl

/-- A step that leaves every child where it is in the song, with the queue. -/
theorem Sings.congr {input : List UInt8} {u : Msgq.State N} (h : Sings system input s u)
    (hchild : ∀ i, (t.child i).song input = (s.child i).song input)
    (hqueue : t.main.SetUp → t.resources.queue = some u.queue) (hstart : t.main ≠ .start)
    (hprinted : t.printed = s.printed) : Sings system input t u :=
  ⟨fun i => by rw [hchild, h.control], hqueue, fun hm => absurd hm hstart,
    by rw [hprinted, h.printed]⟩

/-- A process prints under its own rank. -/
theorem printer_of_step {input : List UInt8} {r : Fin N} {c : Msgq.Control}
    {q : List Msgq.RankMessage} {v : Msgq.State N}
    (h : Msgq.step input cap r (Msgq.alone c q) = some v) : ∀ x ∈ v.printed, x.1 = r := by
  cases Msgq.step_moves h with
  | print hc hi ht =>
    intro x hx
    rw [show x = (r, _) from List.mem_singleton.1 hx]
  | _ => exact nofun

/-- A child goes on into `processing_phase`. -/
theorem Sings.enter {u : Msgq.State N} (h : Sings system (inputStr stdin) s u) (hs : Managed s)
    {rank : Fin N} (hc : s.child i = .ranking (.returned rank)) :
    Sings system (inputStr stdin) (enterProcessingPhase stdin i rank s) u := by
  have halive : (s.child i).Alive := by
    rw [hc]
    exact ⟨by simp, rfl⟩
  obtain ⟨q, hq⟩ := Option.ne_none_iff_exists'.1 (hs.queue_of_alive halive)
  exact h.congr (goto_same (Child.song _) (by rw [hq, hc]; rfl))
    (fun _ => h.queue (hs.setUp_of_alive halive)) (hs.main_of_alive halive).1 rfl

/-- A piece of `processing_phase` is a step of the song. -/
theorem Sings.sing {u v : Msgq.State N} (h : Sings system (inputStr stdin) s u) (hs : Managed s)
    {c : Msgq.Control} {q : List Msgq.RankMessage} (hc : s.child i = .singing (system.rank i) c)
    (hq : s.resources.queue = some q)
    (hv : Msgq.step (inputStr stdin) cap (system.rank i) (Msgq.alone c q) = some v) :
    Msgq.step (inputStr stdin) cap (system.rank i) u =
        some ⟨update u.control (system.rank i) (v.control (system.rank i)), v.queue,
          u.printed ++ v.printed⟩ ∧
      Sings system (inputStr stdin) (s.sung i (system.rank i) v)
        ⟨update u.control (system.rank i) (v.control (system.rank i)), v.queue,
          u.printed ++ v.printed⟩ := by
  have halive := alive_of_singing hc hv
  have hqueue : u.queue = q := by
    have := h.queue (hs.setUp_of_alive halive)
    rw [hq] at this
    exact (Option.some.inj this).symm
  refine ⟨?_, fun j => ?_, fun _ => rfl, fun hm => absurd hm (hs.main_of_alive halive).1, ?_⟩
  · rw [Msgq.step_local, h.control i, hc, hqueue, Child.song, hv]
    rfl
  · by_cases hj : j = i
    · subst hj
      simp [State.sung, State.goto, Child.song]
    · have hrank : system.rank j ≠ system.rank i := fun h => hj (Registry.rank_injective h)
      simp only [State.sung, State.goto, update_of_ne hj, update_of_ne hrank]
      exact h.control j
  · have hown : v.printed.map (fun x => (system.rank i, x.2)) = v.printed.map id :=
      List.map_congr_left fun x hx => Prod.ext (printer_of_step hv x hx).symm rfl
    simp only [State.sung, h.printed, List.map_append, List.map_map, Function.comp_def, hown,
      List.map_id]

/-- The song machine follows the program. -/
theorem song_simulates (hbefore : before.queue.getD [] = []) :
    (Msgq.machine N (inputStr stdin) cap).Simulates (machine system stdin cap before)
      (Sings system (inputStr stdin)) := by
  constructor
  · intro s hs
    rw [show s = initial N before from hs]
    exact ⟨Msgq.initial N (inputStr stdin), rfl, fun _ => rfl, False.elim, fun _ => hbefore.symm,
      rfl⟩
  · intro l s t u hs hu hR hl
    have hmanaged := reachable_managed hs
    have stay : Sings system (inputStr stdin) t u →
        ∃ u', (Msgq.machine N (inputStr stdin) cap).Leads u u' ∧
          Sings system (inputStr stdin) t u' := fun h => ⟨u, Relation.ReflTransGen.refl, h⟩
    cases step_moves hl with
    | noInput hm hr => exact stay (hR.congr (fun _ => rfl) False.elim nofun rfl)
    | read hm hr =>
      refine stay (hR.congr (fun _ => rfl) (fun _ => ?_) nofun rfl)
      rw [hR.start hm]
      rfl
    | @fork k hm =>
      have hmain := hmanaged.main
      rw [hm] at hmain
      have hk : s.child k = .unborn := (hmain k).1 le_rfl
      exact stay (hR.congr (goto_same (Child.song _) (by rw [hk]; rfl))
        (fun _ => hR.queue (hm ▸ trivial)) nofun rfl)
    | forkFails hm | launched hm | reap hm | reaped hm =>
      exact stay (hR.congr (fun _ => rfl) (fun _ => hR.queue (hm ▸ trivial)) nofun rfl)
    | clean hm => exact stay (hR.congr (fun _ => rfl) False.elim nofun rfl)
    | @rank i c v hc hv =>
      have halive := alive_of_ranking hc hv
      have hset := hmanaged.setUp_of_alive halive
      exact stay (hR.congr (goto_same (Child.song _) (by rw [hc]; rfl)) (fun _ => hR.queue hset)
        (hmanaged.main_of_alive halive).1 rfl)
    | enter hc => exact stay (hR.enter hmanaged hc)
    | sing hc hq hv =>
      obtain rfl := rank_of_singing hs hc
      obtain ⟨hstep, hR⟩ := hR.sing hmanaged hc hq hv
      exact ⟨_, Relation.ReflTransGen.single ⟨_, hstep⟩, hR⟩
    | orphaned hc hq hv =>
      exact absurd hq (hmanaged.queue_of_alive (alive_of_orphaned hc hv))

/-! ## The whole program -/

/-- A character printed is the rank of its printer. -/
theorem rank_of_printed (hbefore : before.queue.getD [] = [])
    (hs : (machine system stdin cap before).Reachable s) {x : Fin N × UInt8} (hx : x ∈ s.printed) :
    (Finset.univ.filter fun q => system.pid q < system.pid x.1).card = x.2.toNat := by
  obtain ⟨u, hu, hR⟩ := (song_simulates hbefore).reachable hs
  have hown := (Msgq.reachable_song hu).own (system.rank x.1, x.2) (by
    rw [hR.printed]
    exact List.mem_map.2 ⟨x, hx, rfl⟩)
  rw [← hown]
  simp [Registry.Pids.rank]

theorem exited_of_finished (hs : (machine system stdin cap before).Reachable s)
    (hm : s.main = .finished) (i : Fin N) : s.child i = .singing (system.rank i) .exited := by
  have hmain := (reachable_managed hs).main
  rw [hm] at hmain
  exact exited_of_ended hs (hmain i)

/-- When `main` has finished, the whole line is printed. -/
theorem output_of_finished (hN : 0 < N) (hbefore : before.queue.getD [] = [])
    (hs : (machine system stdin cap before).Reachable s) (hm : s.main = .finished) :
    s.output = inputStr stdin := by
  obtain ⟨u, hu, hR⟩ := (song_simulates hbefore).reachable hs
  have hsong := Msgq.reachable_song hu
  have hleft : Msgq.Left (u.control (system.rank ⟨0, hN⟩)) := by
    rw [hR.control, exited_of_finished hs hm]
    exact .inr rfl
  rw [← hR.output, hsong.output_eq (hsong.phase.printed_of_left hleft)]

/-- **The program prints the line.** Started without messages in its queue, and whatever happens:
the output is a prefix of the line, each character is printed by the child with that many process
numbers below its own, and no child fails. When `main` has finished, every child has come to the end
of `processing_phase`, the whole line is printed, and the queue and the files are gone, so that the
program can be started again. -/
theorem program_sings (hN : 0 < N) (hbefore : before.queue.getD [] = [])
    (hs : (machine system stdin cap before).Reachable s) :
    s.output <+: inputStr stdin ∧
      (∀ x ∈ s.printed,
        (Finset.univ.filter fun q => system.pid q < system.pid x.1).card = x.2.toNat) ∧
      (∀ i, s.child i ≠ .failed ∧ s.child i ≠ .ranking .failed ∧
        s.child i ≠ .ranking .overflowed) ∧
      (s.main = .finished → (∀ i, s.child i = .singing (system.rank i) .exited) ∧
        s.output = inputStr stdin ∧ s.resources = ⟨none, none, false⟩) := by
  have hmanaged := reachable_managed hs
  refine ⟨?_, fun x hx => rank_of_printed hbefore hs hx,
    fun i => ⟨hmanaged.sound i, ranking_sound hs i⟩, fun hm =>
      ⟨exited_of_finished hs hm, output_of_finished hN hbefore hs hm, hmanaged.finished hm⟩⟩
  obtain ⟨u, hu, hR⟩ := (song_simulates hbefore).reachable hs
  rw [← hR.output, (Msgq.reachable_song hu).output]
  exact List.take_prefix _ _

/-- A run of two children, of the numbers 12 and 7, on a line of the byte 1. -/
def twoRun (a b : Fin 2) : List (Label 2) :=
  List.replicate 4 (.main true) ++ List.replicate 3 (.child a) ++ List.replicate 3 (.child b) ++
    List.replicate 13 (.child a) ++ List.replicate 13 (.child b) ++ List.replicate 6 (.child a) ++
    List.replicate 5 (.child b) ++ List.replicate 4 (.main true)

theorem program_of_two :
    ∃ s, (machine Registry.two [1] none ⟨none, none, false⟩).run (twoRun 0 1)
        (initial 2 ⟨none, none, false⟩) = some s ∧
      s.main = .finished ∧ s.output = [1] ∧ s.resources = ⟨none, none, false⟩ := by
  obtain ⟨s, hs⟩ : ∃ s, (machine Registry.two [1] none ⟨none, none, false⟩).run (twoRun 0 1)
      (initial 2 ⟨none, none, false⟩) = some s := Option.isSome_iff_exists.1 (by decide +kernel)
  have hend : ((machine Registry.two [1] none ⟨none, none, false⟩).run (twoRun 0 1)
      (initial 2 ⟨none, none, false⟩)).map State.main = some .finished := by
    decide +kernel
  rw [hs] at hend
  have hm : s.main = .finished := Option.some.inj hend
  obtain ⟨-, -, -, hfinished⟩ :=
    program_sings (by decide) rfl (Machine.reachable_of_run rfl hs)
  exact ⟨s, hs, hm, (hfinished hm).2.1, (hfinished hm).2.2⟩

end SemOS.Bogatyri.Program
