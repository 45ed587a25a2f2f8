import SemOS.Bogatyri.Exchange
import SemOS.Bogatyri.Sockets
import SemOS.Foundations.Decimal
import SemOS.Foundations.Stdio

/-!
# The program of the bogatyri over sockets

All of `sems/bogatyri/sockets2.c`: `main` prints two lines, starts `n + 1` children one after
another, waits as many times for some child and prints a last line. A child exchanges process
numbers with the others (`exchange_pids`), makes its server and goes on, whatever the others do,
into the loop of `process_function`; the pieces of both are those of `Exchange.step` and
`Sockets.step`. The string is one that `process_function` can copy (`Sockets.InputString`).

* The label of a step says who moves, and how the call that it makes is answered: a `fork` that
  fails is passed over, a server that cannot be made ends its child, and the calls of the loop are
  answered as in `Sockets.step`.
* Standard output is buffered (`Stdio.put`): a child starts with a copy of what `main` has not
  written out, and writes it out with its first character, or when it exits.
* `Moves` lists what a step does.
-/

namespace SemOS.Bogatyri.Sockets2

open Function Stdio

/-- A child process. -/
inductive Child
  /-- Not forked, or not yet. -/
  | unborn
  /-- In `process_function`, up to the setting of `active`. -/
  | exchanging
  /-- In the loop of `process_function`. -/
  | singing (c : Sockets.Control)
  /-- After the `exit(EXIT_FAILURE)` for want of a server. -/
  | failed
  deriving DecidableEq

/-- Where `main` is. -/
inductive Main
  /-- Before its first `printf`. -/
  | start
  /-- At the head of the loop of `fork`. -/
  | launching (i : ℕ)
  /-- At the head of the loop of `wait`, which has returned so many children. -/
  | waiting (i reaped : ℕ)
  | finished
  deriving DecidableEq

/-- The processes, the connections not yet accepted, the buffers of standard output, the characters
given to `putchar`, each with its printer, and what has been written out. -/
structure State (n : ℕ) where
  main : Main
  child : Fin (n + 1) → Child
  exchange : Exchange.State n
  connections : List Sockets.Connection
  mainBuffer : List UInt8
  buffer : Fin (n + 1) → List UInt8
  printed : List (Fin (n + 1) × UInt8)
  output : List UInt8

variable {n : ℕ}

/-- The child has exited. -/
def Child.ended : Child → Bool
  | .failed | .singing .exited => true
  | _ => false

/-- The number of children. -/
def State.born (s : State n) : ℕ := (Finset.univ.filter fun p => s.child p ≠ .unborn).card

/-- The number of children that have exited. -/
def State.ended (s : State n) : ℕ := (Finset.univ.filter fun p => (s.child p).ended = true).card

/-- Child `p` goes to `c`. -/
def State.goto (s : State n) (p : Fin (n + 1)) (c : Child) : State n :=
  { s with child := update s.child p c }

/-- Child `p` writes out its buffer. -/
def State.flush (s : State n) (p : Fin (n + 1)) : State n :=
  { s with output := s.output ++ s.buffer p, buffer := update s.buffer p [] }

/-- Child `p`, of the rank `r`, after a piece of its loop that has led to `t`: `putchar` is followed
by `fflush`. -/
def State.sung (s : State n) (p r : Fin (n + 1)) (t : Sockets.State (n + 1)) : State n :=
  let s' := { s.goto p (.singing (t.control r)) with
    connections := t.connections, printed := s.printed ++ t.printed.map fun c => (p, c) }
  if t.printed = [] ∧ t.control r ≠ .exited then s'
  else { s'.flush p with output := (s'.flush p).output ++ t.printed }

/-- The two lines that `main` prints first, and the last one. -/
def header (n : ℕ) (str : List UInt8) : List UInt8 :=
  ascii "Processing: " ++ str ++ ascii "\nCreating " ++ Decimal.decimal (n + 1) ++
    ascii " processes..." ++ [newline]

def done : List UInt8 := ascii "\nDone!" ++ [newline]

/-- The child that takes a step of the exchange. -/
def mover : Exchange.Label n → Fin (n + 1)
  | .accept _ | .coordinator => Exchange.coordinatorIndex n
  | .worker w => w.succ

/-- The child has returned from `exchange_pids`. -/
def exchanged (e : Exchange.State n) : Fin (n + 1) → Bool :=
  Fin.cases (decide (e.coordinator = .exchanged)) fun w => decide (e.worker w = .exchanged)

/-- The child has set `active`. -/
def started (e : Exchange.State n) : Fin (n + 1) → Bool :=
  Fin.cases (decide (e.coordinator = .started)) fun w => decide (e.worker w = .started)

section Steps

variable (qsort : (Int32 → Int32 → Int32) → List Int32 → List Int32) (system : Exchange.Pids n)
  (terminal : Bool) (str : Sockets.InputString)

/-- A step of `main`; `forked` is the answer of its `fork`. A `wait` without children left returns
at once. -/
def mainStep (forked : Bool) (s : State n) : Option (State n) :=
  match s.main with
  | .start =>
    let (written, kept) := put terminal s.mainBuffer (header n str.bytes)
    some { s with main := .launching 0, mainBuffer := kept, output := s.output ++ written }
  | .launching i =>
    if h : i < n + 1 then
      if forked then
        some { s.goto ⟨i, h⟩ .exchanging with
          main := .launching (i + 1), buffer := update s.buffer ⟨i, h⟩ s.mainBuffer }
      else some { s with main := .launching (i + 1) }
    else some { s with main := .waiting 0 0 }
  | .waiting i reaped =>
    if i < n + 1 then
      if reaped < s.ended then some { s with main := .waiting (i + 1) (reaped + 1) }
      else if reaped = s.born then some { s with main := .waiting (i + 1) reaped }
      else none
    else some { s with
      main := .finished, mainBuffer := [], output := s.output ++ (s.mainBuffer ++ done) }
  | .finished => none

/-- A step of the exchange. -/
def exchangeStep (l : Exchange.Label n) (s : State n) : Option (State n) :=
  if s.child (mover l) = .exchanging then
    (Exchange.step qsort system l s.exchange).map fun e => { s with exchange := e }
  else none

/-- `create_tcp_server` fails in child `p`. -/
def serverFails (p : Fin (n + 1)) (s : State n) : Option (State n) :=
  if s.child p = .exchanging ∧ exchanged s.exchange p = true then
    some ((s.goto p .failed).flush p)
  else none

/-- A piece of the loop of child `p`. The loop of `Sockets.step` is that of a process with `n + 1`
numbers and a rank among them. -/
def songStep (p : Fin (n + 1)) (ok : Bool) (s : State n) : Option (State n) :=
  match s.child p with
  | .exchanging =>
    if started s.exchange p then some (s.goto p (.singing (.loop (s.exchange.vars p).active 0)))
    else none
  | .singing c =>
    if h : (s.exchange.vars p).myRank.toNat < n + 1 ∧ (s.exchange.vars p).pidsCount = n + 1 then
      (Sockets.step str.bytes (⟨_, h.1⟩, ok) (Sockets.alone c s.connections)).map
        (s.sung p ⟨_, h.1⟩)
    else none
  | .unborn | .failed => none

/-- Who moves, with the answer of the call that it makes. -/
inductive Label (n : ℕ)
  | main (forked : Bool)
  | exchange (l : Exchange.Label n)
  | server (p : Fin (n + 1))
  | song (p : Fin (n + 1)) (ok : Bool)
  deriving DecidableEq

def step : Label n → State n → Option (State n)
  | .main forked, s => mainStep terminal str forked s
  | .exchange l, s => exchangeStep qsort system l s
  | .server p, s => serverFails p s
  | .song p ok, s => songStep str p ok s

/-- The program before its first `printf`. -/
def initial (n : ℕ) : State n :=
  ⟨.start, fun _ => .unborn, Exchange.initial n, [], [], fun _ => [], [], []⟩

/-- The interleaving of `main` and its children, with all answers of their calls. -/
def machine : Machine (Label n) (State n) where
  init s := s = initial n
  act := step qsort system terminal str

end Steps

/-! ## What a step does -/

section Moves

variable (qsort : (Int32 → Int32 → Int32) → List Int32 → List Int32) (system : Exchange.Pids n)
  (terminal : Bool) (str : Sockets.InputString)

/-- `Moves qsort system terminal str s t`: a step takes `s` to `t`. -/
inductive Moves (s : State n) : State n → Prop
  | begin (hm : s.main = .start) :
    Moves s { s with
      main := .launching 0
      mainBuffer := (put terminal s.mainBuffer (header n str.bytes)).2
      output := s.output ++ (put terminal s.mainBuffer (header n str.bytes)).1 }
  | fork {p : Fin (n + 1)} (hm : s.main = .launching p) :
    Moves s { s.goto p .exchanging with
      main := .launching (p + 1), buffer := update s.buffer p s.mainBuffer }
  | forkFails {p : Fin (n + 1)} (hm : s.main = .launching p) :
    Moves s { s with main := .launching (p + 1) }
  | launched {i : ℕ} (hm : s.main = .launching i) (hi : n + 1 ≤ i) :
    Moves s { s with main := .waiting 0 0 }
  | reap {i reaped : ℕ} (hm : s.main = .waiting i reaped) (hi : i < n + 1)
    (hr : reaped < s.ended) : Moves s { s with main := .waiting (i + 1) (reaped + 1) }
  | childless {i reaped : ℕ} (hm : s.main = .waiting i reaped) (hi : i < n + 1)
    (hr : reaped = s.born) : Moves s { s with main := .waiting (i + 1) reaped }
  | finish {i reaped : ℕ} (hm : s.main = .waiting i reaped) (hi : n + 1 ≤ i) :
    Moves s { s with
      main := .finished, mainBuffer := [], output := s.output ++ (s.mainBuffer ++ done) }
  | exchange {l : Exchange.Label n} {e : Exchange.State n}
    (hc : s.child (mover l) = .exchanging) (he : Exchange.step qsort system l s.exchange = some e) :
    Moves s { s with exchange := e }
  | serverFails {p : Fin (n + 1)} (hc : s.child p = .exchanging)
    (he : exchanged s.exchange p = true) : Moves s ((s.goto p .failed).flush p)
  | enter {p : Fin (n + 1)} (hc : s.child p = .exchanging) (he : started s.exchange p = true) :
    Moves s (s.goto p (.singing (.loop (s.exchange.vars p).active 0)))
  | sing {p r : Fin (n + 1)} {ok : Bool} {c : Sockets.Control} {t : Sockets.State (n + 1)}
    (hc : s.child p = .singing c) (hr : (s.exchange.vars p).myRank.toNat = r)
    (ht : Sockets.step str.bytes (r, ok) (Sockets.alone c s.connections) = some t) :
    Moves s (s.sung p r t)

variable {qsort system terminal str} {s t : State n}

theorem mainStep_moves {forked : Bool} (h : mainStep terminal str forked s = some t) :
    Moves qsort system terminal str s t := by
  rw [mainStep] at h
  split at h
  · rename_i hm
    cases h
    exact .begin hm
  · rename_i i hm
    split_ifs at h with hi
    · cases h
      exact .fork (p := ⟨i, hi⟩) hm
    · cases h
      exact .forkFails (p := ⟨i, hi⟩) hm
    · cases h
      exact .launched hm (not_lt.1 hi)
  · rename_i i reaped hm
    split_ifs at h with hi hr hr
    · cases h
      exact .reap hm hi hr
    · cases h
      exact .childless hm hi hr
    · cases h
      exact .finish hm (not_lt.1 hi)
  · cases h

theorem songStep_moves {p : Fin (n + 1)} {ok : Bool} (h : songStep str p ok s = some t) :
    Moves qsort system terminal str s t := by
  rw [songStep] at h
  split at h
  · rename_i hc
    split_ifs at h with he
    cases h
    exact .enter hc he
  · rename_i c hc
    split_ifs at h with hr
    obtain ⟨u, hu, rfl⟩ := Option.map_eq_some_iff.1 h
    exact .sing hc rfl hu
  · cases h
  · cases h

theorem step_moves {l : Label n} (h : step qsort system terminal str l s = some t) :
    Moves qsort system terminal str s t := by
  cases l with
  | main forked => exact mainStep_moves h
  | exchange l =>
    rw [step, exchangeStep] at h
    split_ifs at h with hc
    obtain ⟨e, he, rfl⟩ := Option.map_eq_some_iff.1 h
    exact .exchange hc he
  | server p =>
    rw [step, serverFails] at h
    split_ifs at h with hc
    cases h
    exact .serverFails hc.1 hc.2
  | song p ok => exact songStep_moves h

end Moves

end SemOS.Bogatyri.Sockets2
