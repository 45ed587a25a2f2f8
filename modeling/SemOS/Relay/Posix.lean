import Mathlib.Algebra.BigOperators.Group.Finset.Defs
import Mathlib.Logic.Function.Basic
import SemOS.Foundations.Machine
import SemOS.Foundations.MessageQueue
import SemOS.Relay.Race

/-!
# The relay race over a POSIX queue

`judge` and `runner` of `sems/5week/relay_racePOSIX.c`. The messages have priorities in place of
types: `mq_receive` always takes one of the highest, and `mq_receive_with_set_prio` sends back what
it was not waiting for. The queue holds ten messages, and `mq_send` waits while it is full.

A message is its priority: its bytes are never read. A step is a call on the queue with the code
that follows it up to the next one; no call fails.
-/

namespace SemOS.Relay.Posix

open Function

/-- Where the judge is. -/
inductive Judge
  /-- Before the `mq_receive` of a ready message, with `runners_ready`. -/
  | counting (runnersReady : ℕ)
  /-- Before the `mq_send` of the start message. -/
  | starting
  /-- Before the `mq_receive` in `mq_receive_with_set_prio`. -/
  | receiving
  /-- Before the `mq_send` there, with a message for somebody else. -/
  | resending (prio : ℕ)
  | finished
  deriving DecidableEq

/-- Where a runner is. -/
inductive Runner
  /-- Before the `mq_send` of its ready message. -/
  | created
  /-- Before the `mq_receive` in `mq_receive_with_set_prio`. -/
  | receiving
  /-- Before the `mq_send` there, with a message for somebody else. -/
  | resending (prio : ℕ)
  /-- Before the `mq_send` of the baton. -/
  | started
  | finished
  deriving DecidableEq

/-- The judge, the runners (runner `i` has the number `i + 1`), the queue and the output. -/
structure State (N : ℕ) where
  judge : Judge
  runner : Fin N → Runner
  queue : List ℕ
  output : List Line

variable {N : ℕ}

/-- The loop head of the judge. -/
def judgeLoop (N runnersReady : ℕ) : Judge :=
  if runnersReady < N then .counting runnersReady else .starting

/-- `mq_receive`: the oldest message of the highest priority. -/
def mqReceive (queue : List ℕ) : Option (ℕ × List ℕ) :=
  queue.max?.bind fun prio => MessageQueue.receive (· == prio) queue

/-- `mq_send`. -/
def mqSend (prio : ℕ) (queue : List ℕ) : Option (List ℕ) := MessageQueue.send (some 10) prio queue

/-- Who moves. -/
inductive Label (N : ℕ)
  | judge
  | runner (i : Fin N)
  deriving DecidableEq

/-- What the judge does with a message that it receives in its last wait. -/
def judgeReceives (prio : ℕ) (s : State N) : State N :=
  if prio = N + 1 then { s with judge := .finished, output := s.output ++ [.lastFinished] }
  else { s with judge := .resending prio }

/-- What runner `i` does with a message that it receives. -/
def runnerReceives (i : Fin N) (prio : ℕ) (s : State N) : State N :=
  if prio = i + 1 then
    { s with runner := update s.runner i .started, output := s.output ++ [.start (i + 1)] }
  else { s with runner := update s.runner i (.resending prio) }

/-- One piece of a process; `none` when it has returned, waits for a message, or for room. -/
def step : Label N → State N → Option (State N)
  | .judge, s =>
    match s.judge with
    | .counting k => (mqReceive s.queue).map fun (prio, q) =>
        { s with
          judge := judgeLoop N (k + 1)
          queue := q
          output := s.output ++ [.judgeReady prio] }
    | .starting => (mqSend 1 s.queue).map fun q =>
        { s with judge := .receiving, queue := q, output := s.output ++ [.allReady] }
    | .receiving => (mqReceive s.queue).map fun (prio, q) =>
        judgeReceives prio { s with queue := q }
    | .resending prio => (mqSend prio s.queue).map fun q =>
        { s with judge := .receiving, queue := q }
    | .finished => none
  | .runner i, s =>
    match s.runner i with
    | .created => (mqSend (i + 1) s.queue).map fun q =>
        { s with
          runner := update s.runner i .receiving
          queue := q
          output := s.output ++ [.ready (i + 1)] }
    | .receiving => (mqReceive s.queue).map fun (prio, q) =>
        runnerReceives i prio { s with queue := q }
    | .resending prio => (mqSend prio s.queue).map fun q =>
        { s with runner := update s.runner i .receiving, queue := q }
    | .started => (mqSend (i + 1 + 1) s.queue).map fun q =>
        { s with
          runner := update s.runner i .finished
          queue := q
          output := s.output ++ [.finish (i + 1)] }
    | .finished => none

/-- All processes before their first call, and the queue empty. -/
def initial (N : ℕ) : State N := ⟨judgeLoop N 0, fun _ => .created, [], []⟩

/-- The interleaving of the judge and the `N` runners. -/
def machine (N : ℕ) : Machine (Label N) (State N) where
  init s := s = initial N
  act := step

/-- Runner `n` has sent its ready message. -/
def State.ReadySent (s : State N) (n : ℕ) : Prop :=
  ∃ i : Fin N, (i : ℕ) + 1 = n ∧ s.runner i ≠ .created

/-- The judge has sent the start message. -/
def State.StartSent (s : State N) : Prop :=
  s.judge = .receiving ∨ (∃ prio, s.judge = .resending prio) ∨ s.judge = .finished

/-- The order of the race in a state: the race is in order, the judge has counted no runner twice,
and no baton is sent while it counts. -/
structure State.InOrder (s : State N) : Prop where
  order : Relay.InOrder N s.output s.ReadySent s.StartSent
  distinct : (judged s.output).Nodup
  baton : ∀ k, s.judge = .counting k → ∀ n, .finish n ∉ s.output

/-- The judge has taken the ready message of a runner that receives a message of its priority. -/
def counted (l : Label N) (s : State N) : Bool :=
  match l with
  | .judge => true
  | .runner i => s.runner i ≠ .receiving || (mqReceive s.queue).all (fun p => p.1 ≠ (i : ℕ) + 1) ||
      (judged s.output).contains (i + 1)

end SemOS.Relay.Posix
