import Mathlib.Logic.Function.Basic
import SemOS.Foundations.Machine
import SemOS.Foundations.MessageQueue
import SemOS.Relay.Race

/-!
# The relay race over a System V queue

`judge` and `runner` of `sems/5week/relay_raceSysV.c`. A runner sends a message of its own number as
type, receives one of that type, starts, and sends one of the next type; the judge receives any `N`
messages, sends one of type 1, and receives one of type `N + 1`.

A step is a call on the queue with the code that follows it up to the next one; no call fails.
-/

namespace SemOS.Relay.SysV

open Function

/-- `struct msg_buf`. -/
structure Msg where
  mtype : ℕ
  number : ℕ
  deriving DecidableEq

/-- Where the judge is, with the `number` that `msg_temp` holds. -/
inductive Judge
  /-- Before the `msgrcv` of type 0, with `runners_ready`. -/
  | counting (runnersReady number : ℕ)
  /-- Before the `msgsnd` of the start message. -/
  | starting (number : ℕ)
  /-- Before the `msgrcv` of the last baton. -/
  | awaiting
  | finished
  deriving DecidableEq

/-- Where a runner is. -/
inductive Runner
  /-- Before the `msgsnd` of its ready message. -/
  | created
  /-- Before its `msgrcv`. -/
  | waiting
  /-- Before the `msgsnd` of the baton, with the `number` that it received. -/
  | started (number : ℕ)
  | finished
  deriving DecidableEq

/-- The judge, the runners (runner `i` has the number `i + 1`), the queue and the output. -/
structure State (N : ℕ) where
  judge : Judge
  runner : Fin N → Runner
  queue : List Msg
  output : List Line

variable {N : ℕ}

/-- The loop head of the judge. -/
def judgeLoop (N runnersReady number : ℕ) : Judge :=
  if runnersReady < N then .counting runnersReady number else .starting number

/-- `msgrcv` of a type; type 0 is any. -/
def msgrcv (mtype : ℕ) (queue : List Msg) : Option (Msg × List Msg) :=
  MessageQueue.receive (fun m => mtype == 0 || m.mtype == mtype) queue

/-- Who moves. -/
inductive Label (N : ℕ)
  | judge
  | runner (i : Fin N)
  deriving DecidableEq

/-- One piece of a process; `none` when it has returned, or waits for a message. -/
def step : Label N → State N → Option (State N)
  | .judge, s =>
    match s.judge with
    | .counting k _ => (msgrcv 0 s.queue).map fun (m, q) =>
        { s with
          judge := judgeLoop N (k + 1) m.number
          queue := q
          output := s.output ++ [.judgeReady m.number] }
    | .starting number =>
      some { s with
        judge := .awaiting
        queue := s.queue ++ [⟨1, number⟩]
        output := s.output ++ [.allReady] }
    | .awaiting => (msgrcv (N + 1) s.queue).map fun (_, q) =>
        { s with judge := .finished, queue := q, output := s.output ++ [.lastFinished] }
    | .finished => none
  | .runner i, s =>
    match s.runner i with
    | .created =>
      some { s with
        runner := update s.runner i .waiting
        queue := s.queue ++ [⟨i + 1, i + 1⟩]
        output := s.output ++ [.ready (i + 1)] }
    | .waiting => (msgrcv (i + 1) s.queue).map fun (m, q) =>
        { s with
          runner := update s.runner i (.started m.number)
          queue := q
          output := s.output ++ [.start (i + 1)] }
    | .started number =>
      some { s with
        runner := update s.runner i .finished
        queue := s.queue ++ [⟨i + 1 + 1, number⟩]
        output := s.output ++ [.finish (i + 1)] }
    | .finished => none

/-- All processes before their first call, and the queue empty. -/
def initial (N : ℕ) : State N := ⟨judgeLoop N 0 0, fun _ => .created, [], []⟩

/-- The interleaving of the judge and the `N` runners. -/
def machine (N : ℕ) : Machine (Label N) (State N) where
  init s := s = initial N
  act := step

/-- Runner `n` has sent its ready message. -/
def State.ReadySent (s : State N) (n : ℕ) : Prop :=
  ∃ i : Fin N, (i : ℕ) + 1 = n ∧ s.runner i ≠ .created

/-- The order of the race in a state. -/
def State.InOrder (s : State N) : Prop :=
  Relay.InOrder N s.output s.ReadySent (s.judge = .awaiting ∨ s.judge = .finished)

/-- All processes have returned. -/
def State.Returned (s : State N) : Prop := s.judge = .finished ∧ ∀ i, s.runner i = .finished

/-- While some process has not returned, some process can move. -/
def State.Progress (s : State N) : Prop := ¬ s.Returned → ∃ l t, step l s = some t

/-- The judge has taken the ready message of a runner that receives. -/
def counted (l : Label N) (s : State N) : Bool :=
  match l with
  | .judge => true
  | .runner i => s.runner i ≠ .waiting || (judged s.output).contains (i + 1)

end SemOS.Relay.SysV
