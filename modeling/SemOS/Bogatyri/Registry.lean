import Mathlib.Logic.Function.Basic
import SemOS.Bogatyri.Msgq
import SemOS.Foundations.Decimal

/-!
# The registry of the bogatyri

`get_my_rank` of `sems/bogatyri/msgq_bogatyri.c`: `N` processes append their process numbers to one
file, one on each line and under a lock, count the lines of the file until there are `N`, read all
numbers, sort them and look for their own.

* The file is bytes. A reader takes one byte at a time (`fgetc`), or one number at a time
  (`fscanf`), and other processes may append in between: it holds no lock.
* The file exists once a process waits, as it has written its own line by then, so `fopen` succeeds.
* `Moves` lists what a step does.
-/

namespace SemOS.Bogatyri.Registry

open Function Decimal Msgq

/-- The process numbers: distinct and positive, of the type `int`. -/
structure Pids (N : ℕ) where
  pid : Fin N → ℕ
  pos : ∀ r, 0 < pid r
  lt : ∀ r, pid r < 2 ^ 31
  injective : Injective pid
  le_max : N ≤ maxProcesses

/-! ## Sorting and searching -/

/-- The inner loop of `sort_pids`, with `pids[i]` and the elements behind it: whenever one of them
is smaller, the two change places. -/
def exchangeLater (p : ℤ) : List ℤ → ℤ × List ℤ
  | [] => (p, [])
  | q :: later =>
    if p > q then
      let (least, later) := exchangeLater q later
      (least, p :: later)
    else
      let (least, later) := exchangeLater p later
      (least, q :: later)

/-- The outer loop of `sort_pids`, from `pids[i]` on and with so many turns to go. -/
def sortFrom : ℕ → List ℤ → List ℤ
  | turns + 1, p :: later =>
    let (least, later) := exchangeLater p later
    least :: sortFrom turns later
  | _, pids => pids

/-- `sort_pids`. -/
def sortPids (pids : List ℤ) : List ℤ := sortFrom (pids.length - 1) pids

/-- `find_my_rank_in_sorted_pids`. -/
def findMyRankInSortedPids (pids : List ℤ) (myPid : ℤ) : Option ℕ := pids.idxOf? myPid

/-! ## The processes -/

/-- Where a process is in `get_my_rank`. -/
inductive Control
  /-- At the `flock` of `register_pid_in_file`. -/
  | start
  /-- With the lock, before it writes its line. -/
  | locked
  /-- With the lock, after that. -/
  | written
  /-- At the head of the loop of `wait_for_all_registrations`. -/
  | waiting (registered : ℕ)
  /-- At the `fgetc` of that loop, at an offset of the file. -/
  | counting (offset lines : ℕ)
  /-- At the `fscanf` of `read_all_pids_from_file`. -/
  | reading (offset : ℕ) (pids : List ℤ)
  /-- Returned from there. -/
  | checking (pids : List ℤ)
  | returned (rank : ℕ)
  /-- After `exit(1)`. -/
  | failed
  /-- `fscanf` has written behind the array. -/
  | overflowed
  deriving DecidableEq

/-- The processes, the registry and the process that holds the lock. -/
structure State (N : ℕ) where
  control : Fin N → Control
  file : List UInt8
  lock : Option (Fin N)

variable {N : ℕ}

/-- Process `r` goes to the control point `c`. -/
def State.goto (s : State N) (r : Fin N) (c : Control) : State N :=
  { s with control := update s.control r c }

@[simp] theorem State.goto_control (s : State N) (r : Fin N) (c : Control) :
    (s.goto r c).control = update s.control r c := rfl

@[simp] theorem State.goto_file (s : State N) (r : Fin N) (c : Control) :
    (s.goto r c).file = s.file := rfl

/-- One `fgetc` and what is done with it. The result is kept in a `char`, which is signed, so that
the byte 255 is taken for the end of the file. -/
def countByte (file : List UInt8) (offset lines : ℕ) : Control :=
  match file[offset]? with
  | none => .waiting lines
  | some ch =>
    if ch = 255 then .waiting lines
    else .counting (offset + 1) (if ch = newline then lines + 1 else lines)

/-- One `fscanf` and what is done with it. -/
def readPid (file : List UInt8) (offset : ℕ) (pids : List ℤ) : Control :=
  match scanInt (file.drop offset) with
  | some (pid, used) =>
    if pids.length < maxProcesses then .reading (offset + used) (pids ++ [pid]) else .overflowed
  | none => .checking pids

/-- The end of `get_my_rank`. -/
def rankOf (N : ℕ) (pids : List ℤ) (myPid : ℤ) : Control :=
  if pids.length ≠ N then .failed
  else
    match findMyRankInSortedPids (sortPids pids) myPid with
    | some rank => .returned rank
    | none => .failed

/-- One piece of process `r`; `none` when it waits for the lock or has ended. -/
def step (system : Pids N) (r : Fin N) (s : State N) : Option (State N) :=
  match s.control r with
  | .start => if s.lock = none then some { s.goto r .locked with lock := some r } else none
  | .locked => some { s.goto r .written with file := s.file ++ lines [system.pid r] }
  | .written => some { s.goto r (.waiting 0) with lock := none }
  | .waiting registered =>
    some (s.goto r (if registered < N then .counting 0 0 else .reading 0 []))
  | .counting offset lines => some (s.goto r (countByte s.file offset lines))
  | .reading offset pids => some (s.goto r (readPid s.file offset pids))
  | .checking pids => some (s.goto r (rankOf N pids (system.pid r)))
  | .returned _ | .failed | .overflowed => none

/-- All processes before they register, and no registry. -/
def initial (N : ℕ) : State N := ⟨fun _ => .start, [], none⟩

/-- The interleaving of the `N` processes. -/
def machine (system : Pids N) : Machine (Fin N) (State N) where
  init s := s = initial N
  act := step system

/-! ## What a step does -/

/-- `Moves system r s t`: a step of process `r` takes `s` to `t`. -/
inductive Moves (system : Pids N) (r : Fin N) (s : State N) : State N → Prop
  | lock (hc : s.control r = .start) (hl : s.lock = none) :
    Moves system r s { s.goto r .locked with lock := some r }
  | append (hc : s.control r = .locked) :
    Moves system r s { s.goto r .written with file := s.file ++ lines [system.pid r] }
  | unlock (hc : s.control r = .written) :
    Moves system r s { s.goto r (.waiting 0) with lock := none }
  | count {n : ℕ} (hc : s.control r = .waiting n) (hn : n < N) :
    Moves system r s (s.goto r (.counting 0 0))
  | pass {n : ℕ} (hc : s.control r = .waiting n) (hn : ¬ n < N) :
    Moves system r s (s.goto r (.reading 0 []))
  | byte {offset lines : ℕ} (hc : s.control r = .counting offset lines) :
    Moves system r s (s.goto r (countByte s.file offset lines))
  | number {offset : ℕ} {pids : List ℤ} (hc : s.control r = .reading offset pids) :
    Moves system r s (s.goto r (readPid s.file offset pids))
  | finish {pids : List ℤ} (hc : s.control r = .checking pids) :
    Moves system r s (s.goto r (rankOf N pids (system.pid r)))

theorem step_moves {system : Pids N} {r : Fin N} {s t : State N} (h : step system r s = some t) :
    Moves system r s t := by
  rw [step] at h
  split at h
  · rename_i hc
    split at h
    · rename_i hl
      cases h
      exact .lock hc hl
    · cases h
  · rename_i hc
    cases h
    exact .append hc
  · rename_i hc
    cases h
    exact .unlock hc
  · rename_i hc
    cases h
    split
    · rename_i hn
      exact .count hc hn
    · rename_i hn
      exact .pass hc hn
  · rename_i hc
    cases h
    exact .byte hc
  · rename_i hc
    cases h
    exact .number hc
  · rename_i hc
    cases h
    exact .finish hc
  · cases h
  · cases h
  · cases h

/-! ## One process -/

/-- The process `r` alone, at `c`. -/
def alone (c : Control) (file : List UInt8) (lock : Option (Fin N)) : State N :=
  ⟨fun _ => c, file, lock⟩

/-- A piece of process `r` goes by its own control point, the registry and the lock. -/
theorem step_local (s : State N) : step system r s =
    (step system r (alone (s.control r) s.file s.lock)).map fun t =>
      ⟨update s.control r (t.control r), t.file, t.lock⟩ := by
  unfold step alone
  cases s.control r with
  | start => split_ifs <;> simp_all [State.goto]
  | _ => simp [State.goto]

end SemOS.Bogatyri.Registry
