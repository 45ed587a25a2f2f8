import SemOS.Bogatyri.Registry
import SemOS.Bogatyri.ThreadsProgress

/-!
# The program of the bogatyri over a message queue

All of `sems/bogatyri/msgq_bogatyri.c`: `main` reads a line, sets up the queue and the registry,
starts `N` children one after another, waits for them in that order and removes what it has set
up. A child gets its rank from the registry (`get_my_rank`) and goes on, at once and whatever the
others do, into `processing_phase`; the pieces of both are those of `Registry.step` and `Msgq.step`
in the state of that one child.

* The label of a step says who moves, and of `main` whether its `fork` succeeds. Its other calls
  succeed.
* `Moves` lists what a step does.
* `Managed` says what `main` knows of its children; `reachable_managed` is the invariant.
-/

namespace SemOS.Bogatyri.Program

open Function

/-- A child process. -/
inductive Child (N : ℕ)
  /-- Not forked yet. -/
  | unborn
  /-- In `get_my_rank`. -/
  | ranking (c : Registry.Control)
  /-- In `processing_phase`. -/
  | singing (rank : Fin N) (c : Msgq.Control)
  /-- After an `exit(1)` in `processing_phase`. -/
  | failed
  deriving DecidableEq

/-- Where `main` is. -/
inductive Main
  /-- Before `fgets`. -/
  | start
  /-- At the head of the loop of `launch_all_child_processes`. -/
  | launching (i : ℕ)
  /-- At the head of the loop of `wait_for_all_children`. -/
  | waiting (i : ℕ)
  /-- Before `cleanup_system_resources`. -/
  | cleaning
  | finished
  /-- After the `exit(1)` of a failed `fgets`, and of a failed `fork`. -/
  | noInput
  | forkFailed
  deriving DecidableEq

/-- What outlives the program: the message queue, the registry, and whether there is a lock file. -/
structure Resources where
  queue : Option (List Msgq.RankMessage)
  registry : Option (List UInt8)
  lockFile : Bool
  deriving DecidableEq

/-- The processes, the resources, the child that holds the lock, and what has been printed, each
character with its printer. -/
structure State (N : ℕ) where
  main : Main
  child : Fin N → Child N
  resources : Resources
  lock : Option (Fin N)
  printed : List (Fin N × UInt8)

variable {N : ℕ}

/-- The text printed so far. -/
def State.output (s : State N) : List UInt8 := s.printed.map Prod.snd

/-- Child `i` goes to `c`. -/
def State.goto (s : State N) (i : Fin N) (c : Child N) : State N :=
  { s with child := update s.child i c }

/-- Child `i` after a piece of `get_my_rank` at `c`, which has led to `t`. The first one opens the
lock file, and the line of a child creates a registry that is missing. -/
def State.ranked (s : State N) (i : Fin N) (c : Registry.Control) (t : Registry.State N) :
    State N :=
  { s.goto i (.ranking (t.control i)) with
    resources := { s.resources with
      registry := if c = .locked then some t.file else s.resources.registry
      lockFile := s.resources.lockFile || decide (c = .start) }
    lock := t.lock }

/-- Child `i` after a piece of `processing_phase`, which has led to `t`. -/
def State.sung (s : State N) (i rank : Fin N) (t : Msgq.State N) : State N :=
  { s.goto i (.singing rank (t.control rank)) with
    resources := { s.resources with queue := some t.queue }
    printed := s.printed ++ t.printed.map fun x => (i, x.2) }

/-- The child has exited, so that `waitpid` returns. -/
def Child.ended : Child N → Bool
  | .failed | .ranking .failed | .singing _ .exited => true
  | _ => false

/-- `initialize_system_resources`: a queue that is there is used as it is. -/
def initializeSystemResources (before : Resources) : Resources :=
  { before with queue := some (before.queue.getD []), registry := some [] }

/-- `cleanup_system_resources`. -/
def cleanupSystemResources : Resources := ⟨none, none, false⟩

section Steps

variable (system : Registry.Pids N) (stdin : List UInt8) (cap : Option ℕ)

/-- `input_str`, the line that `main` has read. -/
def inputStr : List UInt8 := (Threads.readString stdin).getD []

/-- A step of `main`; `forked` is the answer of its `fork`. -/
def mainStep (forked : Bool) (s : State N) : Option (State N) :=
  match s.main with
  | .start =>
    match Threads.readString stdin with
    | none => some { s with main := .noInput }
    | some _ => some { s with
        main := .launching 0, resources := initializeSystemResources s.resources }
  | .launching i =>
    if h : i < N then
      if forked then some { s.goto ⟨i, h⟩ (.ranking .start) with main := .launching (i + 1) }
      else some { s with main := .forkFailed }
    else some { s with main := .waiting 0 }
  | .waiting i =>
    if h : i < N then
      if (s.child ⟨i, h⟩).ended then some { s with main := .waiting (i + 1) } else none
    else some { s with main := .cleaning }
  | .cleaning => some { s with main := .finished, resources := cleanupSystemResources }
  | .finished | .noInput | .forkFailed => none

/-- A piece of `get_my_rank` in child `i`. -/
def rankingStep (i : Fin N) (c : Registry.Control) (s : State N) : Option (State N) :=
  (Registry.step system i (Registry.alone c (s.resources.registry.getD []) s.lock)).map
    (s.ranked i c)

/-- The call of `processing_phase` with a rank, up to its first loop: `msgget` fails without a
queue. -/
def enterProcessingPhase (i rank : Fin N) (s : State N) : State N :=
  s.goto i (match s.resources.queue with
    | some _ => .singing rank (Msgq.processingPhase (inputStr stdin))
    | none => .failed)

/-- A piece of `processing_phase` in child `i` while there is a queue. -/
def singingStep (i rank : Fin N) (c : Msgq.Control) (q : List Msgq.RankMessage) (s : State N) :
    Option (State N) :=
  (Msgq.step (inputStr stdin) cap rank (Msgq.alone c q)).map (s.sung i rank)

/-- The same once the queue has been removed: `msgsnd` and `msgrcv` fail, and only the second is
fatal. -/
def orphanedStep (i rank : Fin N) (c : Msgq.Control) (s : State N) : Option (State N) :=
  match c with
  | .handOver j => some (s.goto i (.singing rank (.loop j)))
  | .receive => some (s.goto i .failed)
  | .broadcast j =>
    some (s.goto i (.singing rank (if j < N then .broadcast (j + 1) else .exited)))
  | c => (singingStep stdin cap i rank c [] s).map fun t => { t with resources := s.resources }

/-- A step of child `i`. The rank that it has found is an index of an array of `N` numbers. -/
def childStep (i : Fin N) (s : State N) : Option (State N) :=
  match s.child i with
  | .unborn | .failed => none
  | .ranking (.returned rank) =>
    if h : rank < N then some (enterProcessingPhase stdin i ⟨rank, h⟩ s) else none
  | .ranking c => rankingStep system i c s
  | .singing rank c =>
    match s.resources.queue with
    | some q => singingStep stdin cap i rank c q s
    | none => orphanedStep stdin cap i rank c s

/-- Who moves: `main`, with the answer of its `fork`, or a child. -/
inductive Label (N : ℕ)
  | main (forked : Bool)
  | child (i : Fin N)
  deriving DecidableEq

def step : Label N → State N → Option (State N)
  | .main forked, s => mainStep stdin forked s
  | .child i, s => childStep system stdin cap i s

/-- The program before `fgets`, with what is there already. -/
def initial (N : ℕ) (before : Resources) : State N := ⟨.start, fun _ => .unborn, before, none, []⟩

/-- The interleaving of `main` and its children. -/
def machine (before : Resources) : Machine (Label N) (State N) where
  init s := s = initial N before
  act := step system stdin cap

end Steps

/-! ## What a step does -/

section Moves

variable (system : Registry.Pids N) (stdin : List UInt8) (cap : Option ℕ)

/-- `Moves system stdin cap s t`: a step takes `s` to `t`. -/
inductive Moves (s : State N) : State N → Prop
  | noInput (hm : s.main = .start) (hr : Threads.readString stdin = none) :
    Moves s { s with main := .noInput }
  | read {input : List UInt8} (hm : s.main = .start) (hr : Threads.readString stdin = some input) :
    Moves s { s with main := .launching 0, resources := initializeSystemResources s.resources }
  | fork {i : Fin N} (hm : s.main = .launching i) :
    Moves s { s.goto i (.ranking .start) with main := .launching (i + 1) }
  | forkFails {i : Fin N} (hm : s.main = .launching i) : Moves s { s with main := .forkFailed }
  | launched {i : ℕ} (hm : s.main = .launching i) (hi : N ≤ i) :
    Moves s { s with main := .waiting 0 }
  | reap {i : Fin N} (hm : s.main = .waiting i) (he : (s.child i).ended = true) :
    Moves s { s with main := .waiting (i + 1) }
  | reaped {i : ℕ} (hm : s.main = .waiting i) (hi : N ≤ i) : Moves s { s with main := .cleaning }
  | clean (hm : s.main = .cleaning) :
    Moves s { s with main := .finished, resources := cleanupSystemResources }
  | rank {i : Fin N} {c : Registry.Control} {t : Registry.State N} (hc : s.child i = .ranking c)
    (ht : Registry.step system i (Registry.alone c (s.resources.registry.getD []) s.lock) =
      some t) :
    Moves s (s.ranked i c t)
  | enter {i rank : Fin N} (hc : s.child i = .ranking (.returned rank)) :
    Moves s (enterProcessingPhase stdin i rank s)
  | sing {i rank : Fin N} {c : Msgq.Control} {q : List Msgq.RankMessage} {t : Msgq.State N}
    (hc : s.child i = .singing rank c) (hq : s.resources.queue = some q)
    (ht : Msgq.step (inputStr stdin) cap rank (Msgq.alone c q) = some t) :
    Moves s (s.sung i rank t)
  | orphaned {i rank : Fin N} {c : Msgq.Control} {t : State N} (hc : s.child i = .singing rank c)
    (hq : s.resources.queue = none) (ht : orphanedStep stdin cap i rank c s = some t) : Moves s t

variable {system stdin cap} {s t : State N} {i : Fin N}

theorem mainStep_moves {forked : Bool} (h : mainStep stdin forked s = some t) :
    Moves system stdin cap s t := by
  rw [mainStep] at h
  split at h
  · rename_i hm
    split at h
    · rename_i hr
      cases h
      exact .noInput hm hr
    · rename_i input hr
      cases h
      exact .read hm hr
  · rename_i k hm
    split_ifs at h with hk
    · cases h
      exact .fork (i := ⟨k, hk⟩) hm
    · cases h
      exact .forkFails (i := ⟨k, hk⟩) hm
    · cases h
      exact .launched hm (not_lt.1 hk)
  · rename_i k hm
    split_ifs at h with hk he
    · cases h
      exact .reap (i := ⟨k, hk⟩) hm he
    · cases h
      exact .reaped hm (not_lt.1 hk)
  · rename_i hm
    cases h
    exact .clean hm
  · cases h
  · cases h
  · cases h

theorem childStep_moves (h : childStep system stdin cap i s = some t) :
    Moves system stdin cap s t := by
  rw [childStep] at h
  split at h
  · cases h
  · cases h
  · rename_i rank hc
    split_ifs at h with hlt
    cases h
    have hreturned : s.child i = .ranking (.returned (⟨rank, hlt⟩ : Fin N)) := hc
    exact .enter hreturned
  · rename_i c hne hc
    obtain ⟨u, hu, rfl⟩ := Option.map_eq_some_iff.1 h
    exact .rank hc hu
  · rename_i rank c hc
    split at h
    · rename_i q hq
      obtain ⟨u, hu, rfl⟩ := Option.map_eq_some_iff.1 h
      exact .sing hc hq hu
    · rename_i hq
      exact .orphaned hc hq h

theorem step_moves {l : Label N} (h : step system stdin cap l s = some t) :
    Moves system stdin cap s t := by
  cases l with
  | main forked => exact mainStep_moves h
  | child i => exact childStep_moves h

end Moves

/-! ## What `main` knows -/

variable {system : Registry.Pids N} {stdin : List UInt8} {cap : Option ℕ} {before : Resources}
  {s t : State N} {i : Fin N} {c : Child N}

/-- What `main` knows of its children where it is. -/
def Main.Manages (child : Fin N → Child N) : Main → Prop
  | .start | .noInput => ∀ i, child i = .unborn
  | .launching k => ∀ i : Fin N, k ≤ i ↔ child i = .unborn
  | .waiting k => ∀ i : Fin N, child i ≠ .unborn ∧ ((i : ℕ) < k → (child i).ended = true)
  | .cleaning | .finished => ∀ i, (child i).ended = true
  | .forkFailed => ∃ i, child i = .unborn

/-- `main` has set up the queue and the registry, and not removed them. -/
def Main.SetUp : Main → Prop
  | .start | .noInput | .finished => False
  | _ => True

/-- `main` knows its children, the queue is there as long as it is needed, no child fails for want
of it, and in the end the resources are gone. -/
structure Managed (s : State N) : Prop where
  main : s.main.Manages s.child
  queue : s.main.SetUp → s.resources.queue ≠ none
  sound : ∀ i, s.child i ≠ .failed
  finished : s.main = .finished → s.resources = cleanupSystemResources

/-- A child that has been forked and has not exited. -/
structure Child.Alive (c : Child N) : Prop where
  born : c ≠ .unborn
  running : c.ended = false

/-- Where no child runs. -/
theorem Managed.main_of_alive (h : Managed s) (hi : (s.child i).Alive) :
    s.main ≠ .start ∧ s.main ≠ .noInput ∧ s.main ≠ .cleaning ∧ s.main ≠ .finished := by
  have hmain := h.main
  have hborn := hi.born
  have hrun := hi.running
  refine ⟨?_, ?_, ?_, ?_⟩
  · intro hm
    rw [hm] at hmain
    exact hborn (hmain i)
  · intro hm
    rw [hm] at hmain
    exact hborn (hmain i)
  · intro hm
    rw [hm] at hmain
    rw [hmain i] at hrun
    cases hrun
  · intro hm
    rw [hm] at hmain
    rw [hmain i] at hrun
    cases hrun

/-- A child runs only while everything is set up. -/
theorem Managed.setUp_of_alive (h : Managed s) (hi : (s.child i).Alive) : s.main.SetUp := by
  obtain ⟨hstart, hnone, -, hend⟩ := h.main_of_alive hi
  cases hm : s.main with
  | start => exact hstart hm
  | noInput => exact hnone hm
  | finished => exact hend hm
  | _ => trivial

theorem Managed.queue_of_alive (h : Managed s) (hi : (s.child i).Alive) :
    s.resources.queue ≠ none := h.queue (h.setUp_of_alive hi)

/-- A running child moves on: it is neither unborn afterwards nor, with the queue there, failed. -/
theorem Managed.move (h : Managed s) (hi : (s.child i).Alive) (hc : c ≠ .unborn) (hf : c ≠ .failed)
    {resources : Resources} {lock : Option (Fin N)} {printed : List (Fin N × UInt8)}
    (hq : resources.queue ≠ none) :
    Managed { s.goto i c with resources := resources, lock := lock, printed := printed } := by
  obtain ⟨hstart, hnone, hclean, hend⟩ := h.main_of_alive hi
  have hmain := h.main
  refine ⟨?_, fun _ => hq, fun j => ?_, fun hm => absurd hm hend⟩
  · show s.main.Manages (update s.child i c)
    cases hm : s.main with
    | start => exact absurd hm hstart
    | noInput => exact absurd hm hnone
    | cleaning => exact absurd hm hclean
    | finished => exact absurd hm hend
    | forkFailed =>
      rw [hm] at hmain
      obtain ⟨j, hj⟩ := hmain
      have hji : j ≠ i := fun h => hi.born (h ▸ hj)
      exact ⟨j, by rwa [update_of_ne hji]⟩
    | launching k =>
      rw [hm] at hmain
      intro j
      by_cases hj : j = i
      · subst hj
        rw [update_self]
        exact iff_of_false (fun hk => hi.born ((hmain j).1 hk)) hc
      · rw [update_of_ne hj]
        exact hmain j
    | waiting k =>
      rw [hm] at hmain
      intro j
      by_cases hj : j = i
      · subst hj
        rw [update_self]
        refine ⟨hc, fun hk => ?_⟩
        have he := (hmain j).2 hk
        rw [hi.running] at he
        cases he
      · rw [update_of_ne hj]
        exact hmain j
  · show update s.child i c j ≠ .failed
    by_cases hj : j = i
    · subst hj
      rwa [update_self]
    · rw [update_of_ne hj]
      exact h.sound j

theorem alive_of_ranking {c : Registry.Control} {t : Registry.State N}
    {file : List UInt8} {lock : Option (Fin N)} (hc : s.child i = .ranking c)
    (ht : Registry.step system i (Registry.alone c file lock) = some t) : (s.child i).Alive := by
  rw [hc]
  refine ⟨by simp, ?_⟩
  cases c with
  | failed => cases ht
  | _ => rfl

theorem alive_of_singing {input : List UInt8} {rank : Fin N} {c : Msgq.Control}
    {q : List Msgq.RankMessage} {t : Msgq.State N} (hc : s.child i = .singing rank c)
    (ht : Msgq.step input cap rank (Msgq.alone c q) = some t) : (s.child i).Alive := by
  rw [hc]
  refine ⟨by simp, ?_⟩
  cases c with
  | exited => cases ht
  | _ => rfl

/-- Only a child that has not exited could find that the queue has been removed. -/
theorem alive_of_orphaned {rank : Fin N} {c : Msgq.Control} (hc : s.child i = .singing rank c)
    (ht : orphanedStep stdin cap i rank c s = some t) : (s.child i).Alive := by
  rw [hc]
  refine ⟨by simp, ?_⟩
  cases c with
  | exited => cases ht
  | _ => rfl

theorem step_managed (h : Managed s) (hm : Moves system stdin cap s t) : Managed t := by
  have hmain := h.main
  have hqueue := h.queue
  cases hm with
  | noInput hm hr =>
    rw [hm] at hmain
    exact ⟨hmain, False.elim, h.sound, nofun⟩
  | read hm hr =>
    rw [hm] at hmain
    refine ⟨fun i => ?_, fun _ => nofun, h.sound, nofun⟩
    exact iff_of_true (Nat.zero_le _) (hmain i)
  | @fork k hm =>
    rw [hm] at hmain hqueue
    refine ⟨fun i => ?_, hqueue, fun i => ?_, nofun⟩
    · by_cases hi : i = k
      · subst hi
        simp [State.goto]
      · have := Fin.val_ne_of_ne hi
        simp only [State.goto, update_of_ne hi, ← hmain i]
        omega
    · by_cases hi : i = k
      · subst hi
        simp [State.goto]
      · simp only [State.goto, update_of_ne hi]
        exact h.sound i
  | @forkFails k hm =>
    rw [hm] at hmain hqueue
    exact ⟨⟨k, (hmain k).1 le_rfl⟩, hqueue, h.sound, nofun⟩
  | launched hm hi =>
    rw [hm] at hmain hqueue
    refine ⟨fun i => ⟨fun hu => ?_, fun hlt => absurd hlt (Nat.not_lt_zero _)⟩, hqueue, h.sound,
      nofun⟩
    have := (hmain i).2 hu
    have := i.isLt
    omega
  | @reap k hm he =>
    rw [hm] at hmain hqueue
    refine ⟨fun i => ⟨(hmain i).1, fun hlt => ?_⟩, hqueue, h.sound, nofun⟩
    by_cases hik : i = k
    · rwa [hik]
    · refine (hmain i).2 ?_
      have := Fin.val_ne_of_ne hik
      omega
  | reaped hm hi =>
    rw [hm] at hmain hqueue
    refine ⟨fun i => (hmain i).2 ?_, hqueue, h.sound, nofun⟩
    have := i.isLt
    omega
  | clean hm =>
    rw [hm] at hmain
    exact ⟨hmain, False.elim, h.sound, fun _ => rfl⟩
  | @rank i c u hc ht =>
    have halive := alive_of_ranking hc ht
    exact h.move (c := .ranking (u.control i)) halive (by simp) (by simp) (h.queue_of_alive halive)
  | @enter i rank hc =>
    have halive : (s.child i).Alive := by
      rw [hc]
      exact ⟨by simp, rfl⟩
    obtain ⟨q, hq⟩ := Option.ne_none_iff_exists'.1 (h.queue_of_alive halive)
    rw [enterProcessingPhase, hq]
    exact h.move (c := .singing rank _) halive (by simp) (by simp) (h.queue_of_alive halive)
  | @sing i rank c q u hc hq ht =>
    exact h.move (c := .singing rank (u.control rank)) (alive_of_singing hc ht) (by simp) (by simp)
      (by simp)
  | orphaned hc hq ht => exact absurd hq (h.queue_of_alive (alive_of_orphaned hc ht))

theorem reachable_managed (hs : (machine system stdin cap before).Reachable s) : Managed s := by
  refine hs.invariant (fun s h => ?_) fun _ _ _ h hl => step_managed h (step_moves hl)
  rw [show s = initial N before from h]
  exact ⟨fun _ => rfl, False.elim, fun _ => by simp [initial], nofun⟩

end SemOS.Bogatyri.Program
