import Mathlib.Logic.Function.Basic
import Mathlib.Tactic.SplitIfs
import SemOS.Foundations.Condition
import SemOS.Foundations.Machine

/-!
# The bogatyri as threads

`bogatyr` of `sems/bogatyri/main.c`: `N` threads print a string under one mutex and one condition
variable. A thread takes a number, waits at a barrier until all have one, and then prints the
current character whenever it is the thread's number, sleeping on all others.

* A step is one critical section, up to the `unlock` or the `pthread_cond_wait` that ends it: all
  shared data is read and written under the mutex. A sleeping thread moves on by a broadcast, or
  by a spurious wake-up, which is a label of its own.
* The string is `string_length` bytes of `string_buffer`; the byte after them is its terminator.
* `Moves` lists what a step does.
-/

namespace SemOS.Bogatyri.Threads

open Function

/-- Where a thread is in `bogatyr`. -/
inductive Control
  /-- Before the lock of `acquire_thread_number`. -/
  | start
  /-- At the head of the loop that waits for all numbers. -/
  | barrier (myNumber : UInt64)
  /-- In the `pthread_cond_wait` of that loop. -/
  | barrierAsleep (myNumber : UInt64)
  /-- At the head of the main loop, before its lock. -/
  | loop (myNumber : UInt64)
  /-- In the `pthread_cond_wait` for the next letter. -/
  | asleep (myNumber : UInt64)
  /-- Woken from it, before its unlock. -/
  | woken (myNumber : UInt64)
  | exited (myNumber : UInt64)
  deriving DecidableEq

/-- The threads, the fields of `struct monitor_t`, and what has been printed: every character with
the number of the thread that printed it, and the complaint of `read_next_char`. -/
structure State (N : ℕ) where
  control : Fin N → Control
  lastAssigned : UInt64
  threadCount : UInt64
  currentChar : UInt8
  strNextInd : ℕ
  printed : List (UInt64 × UInt8)
  indexOutOfRange : Bool

variable {N : ℕ}

/-- What `pthread_cond_broadcast` does to a thread. -/
def Control.wake : Control → Control
  | .barrierAsleep n => .barrier n
  | .asleep n => .woken n
  | c => c

/-- Thread `r` goes to the control point `c`. -/
def State.goto (s : State N) (r : Fin N) (c : Control) : State N :=
  { s with control := update s.control r c }

/-- `pthread_cond_broadcast(&(monitor->cond))`. -/
def State.broadcast (s : State N) : State N :=
  { s with control := Condition.broadcast Control.wake s.control }

/-- `read_next_char`; its callers ignore what it returns. -/
def readNextChar (input : List UInt8) (s : State N) : State N :=
  if s.strNextInd < input.length + 1 then
    { s with currentChar := input.getD s.strNextInd 0, strNextInd := s.strNextInd + 1 }
  else { s with currentChar := 0, indexOutOfRange := true }

/-- `acquire_thread_number`. -/
def acquireThreadNumber (input : List UInt8) (r : Fin N) (s : State N) : State N :=
  let myNumber := s.lastAssigned + 1
  let s' := { s.goto r (.barrier myNumber) with
    lastAssigned := myNumber, threadCount := s.threadCount + 1 }
  if s'.threadCount.toNat = N then readNextChar input s'.broadcast else s'

/-- `molvit((char) my_number)`. -/
def molvit (myNumber : UInt64) (s : State N) : State N :=
  { s with printed := s.printed ++ [(myNumber, myNumber.toUInt8)] }

/-- One round of the main loop of thread `r`. -/
def round (input : List UInt8) (r : Fin N) (n : UInt64) (s : State N) : State N :=
  if s.currentChar = 0 then s.broadcast.goto r (.exited n)
  else if s.currentChar ≠ n.toUInt8 then s.goto r (.asleep n)
  else (readNextChar input (molvit n s)).broadcast

/-- What moves: a thread runs its next piece, or wakes up for no reason. -/
inductive Label (N : ℕ)
  | run (r : Fin N)
  | spurious (r : Fin N)
  deriving DecidableEq

/-- One piece of a thread; `none` when it has exited or sleeps. -/
def step (input : List UInt8) : Label N → State N → Option (State N)
  | .run r, s =>
    match s.control r with
    | .start => some (acquireThreadNumber input r s)
    | .barrier n => some (s.goto r (if s.threadCount.toNat < N then .barrierAsleep n else .loop n))
    | .loop n => some (round input r n s)
    | .woken n => some (s.goto r (.loop n))
    | .barrierAsleep _ | .asleep _ | .exited _ => none
  | .spurious r, s =>
    match s.control r with
    | .barrierAsleep n => some (s.goto r (.barrier n))
    | .asleep n => some (s.goto r (.woken n))
    | _ => none

/-- All threads created, after `monitor_init` and the reading of the string. -/
def initial (N : ℕ) : State N := ⟨fun _ => .start, -1, 0, 0, 0, [], false⟩

/-- The interleaving of the `N` threads. -/
def machine (N : ℕ) (input : List UInt8) : Machine (Label N) (State N) where
  init s := s = initial N
  act := step input

@[simp] theorem State.goto_control (s : State N) (r : Fin N) (c : Control) :
    (s.goto r c).control = update s.control r c := rfl

@[simp] theorem State.broadcast_control (s : State N) :
    s.broadcast.control = Condition.broadcast Control.wake s.control := rfl

/-- The number of a thread, once it has one. -/
def Control.number : Control → Option UInt64
  | .start => none
  | .barrier n | .barrierAsleep n | .loop n | .asleep n | .woken n | .exited n => some n

/-- Asleep in `pthread_cond_wait`. -/
def Control.Asleep : Control → Prop
  | .barrierAsleep _ | .asleep _ => True
  | _ => False

def Control.Exited : Control → Prop
  | .exited _ => True
  | _ => False

@[simp] theorem Control.number_wake (c : Control) : c.wake.number = c.number := by
  cases c <;> rfl

theorem Control.not_asleep_wake (c : Control) : ¬ c.wake.Asleep := by
  cases c <;> exact id

@[simp] theorem Control.exited_wake {c : Control} : c.wake.Exited ↔ c.Exited := by
  cases c <;> rfl

/-! ## What a step does -/

/-- `Moves input r s t`: a step of thread `r` takes `s` to `t`. -/
inductive Moves (input : List UInt8) (r : Fin N) (s : State N) : State N → Prop
  | acquire (hc : s.control r = .start) (hN : (s.threadCount + 1).toNat ≠ N) :
      Moves input r s { s.goto r (.barrier (s.lastAssigned + 1)) with
        lastAssigned := s.lastAssigned + 1, threadCount := s.threadCount + 1 }
  | acquireLast (hc : s.control r = .start) (hN : (s.threadCount + 1).toNat = N) :
      Moves input r s (readNextChar input
        { (s.goto r (.barrier (s.lastAssigned + 1))).broadcast with
          lastAssigned := s.lastAssigned + 1, threadCount := s.threadCount + 1 })
  | barrierWait {n} (hc : s.control r = .barrier n) (hN : s.threadCount.toNat < N) :
      Moves input r s (s.goto r (.barrierAsleep n))
  | barrierPass {n} (hc : s.control r = .barrier n) (hN : ¬ s.threadCount.toNat < N) :
      Moves input r s (s.goto r (.loop n))
  | finish {n} (hc : s.control r = .loop n) (h0 : s.currentChar = 0) :
      Moves input r s (s.broadcast.goto r (.exited n))
  | wait {n} (hc : s.control r = .loop n) (h0 : s.currentChar ≠ 0)
      (hn : s.currentChar ≠ n.toUInt8) : Moves input r s (s.goto r (.asleep n))
  | sing {n} (hc : s.control r = .loop n) (h0 : s.currentChar ≠ 0)
      (hn : s.currentChar = n.toUInt8) :
      Moves input r s (readNextChar input (molvit n s)).broadcast
  | unlock {n} (hc : s.control r = .woken n) : Moves input r s (s.goto r (.loop n))
  | barrierSpurious {n} (hc : s.control r = .barrierAsleep n) :
      Moves input r s (s.goto r (.barrier n))
  | spurious {n} (hc : s.control r = .asleep n) : Moves input r s (s.goto r (.woken n))

/-- The thread that a label moves. -/
def Label.thread : Label N → Fin N
  | .run r | .spurious r => r

variable {input : List UInt8} {l : Label N} {s t : State N}

/-- A step does what `Moves` lists, and nothing else. -/
theorem step_moves (h : step input l s = some t) : Moves input l.thread s t := by
  cases l with
  | run r =>
    simp only [step, Label.thread] at h ⊢
    split at h
    · rename_i hc
      obtain rfl := Option.some.inj h
      unfold acquireThreadNumber
      simp only
      split_ifs with hN
      · exact .acquireLast hc hN
      · exact .acquire hc hN
    · rename_i n hc
      obtain rfl := Option.some.inj h
      split_ifs with hN
      · exact .barrierWait hc hN
      · exact .barrierPass hc hN
    · rename_i n hc
      obtain rfl := Option.some.inj h
      unfold round
      split_ifs with h0 hn
      · exact .finish hc h0
      · exact .wait hc h0 hn
      · exact .sing hc h0 (not_not.1 hn)
    · rename_i n hc
      obtain rfl := Option.some.inj h
      exact .unlock hc
    all_goals cases h
  | spurious r =>
    simp only [step, Label.thread] at h ⊢
    split at h
    · rename_i n hc
      obtain rfl := Option.some.inj h
      exact .barrierSpurious hc
    · rename_i n hc
      obtain rfl := Option.some.inj h
      exact .spurious hc
    · cases h

end SemOS.Bogatyri.Threads
