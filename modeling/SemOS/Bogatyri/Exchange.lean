import Mathlib.Data.Int.Notation
import Mathlib.Data.List.OfFn
import Mathlib.Data.Nat.Notation
import Mathlib.Logic.Function.Basic
import SemOS.Foundations.Machine
import SemOS.Foundations.Qsort

/-!
# The exchange of process numbers over sockets

`exchange_pids` of `sems/bogatyri/sockets2.c`, and the start of `process_function` after it: a
coordinator accepts a connection from each of `n` workers, in any order, receives their process
numbers, sorts all numbers in decreasing order and sends them to the workers. Each process looks for
its own number; the one at the front starts active.

* Every call other than `connect` succeeds, and `send` and `recv` transfer whole values. `recv`
  waits for a value, and `accept` for a connection.
* `connect` fails exactly while the other side does not listen. A worker gives up after 10 failed
  attempts and goes on without having sent its number; the coordinator passes over a worker after 5.
* `qsort` is a parameter, of which `Qsort.Sorts` is known: it is called with a comparator that
  orders the elements.
* `Moves` lists what a step does.
-/

namespace SemOS.Bogatyri.Exchange

open Function

/-- The process numbers of the coordinator and of the `n` workers: distinct and positive. -/
structure Pids (n : ℕ) where
  pid : Fin (n + 1) → Int32
  pos : ∀ p, 0 < pid p
  injective : Injective pid

/-- The coordinator among the processes. -/
abbrev coordinatorIndex (n : ℕ) : Fin (n + 1) := 0

/-- `compare_pids`. -/
def comparePids (a b : Int32) : Int32 := b - a

/-- The variables of a process: `all_pids` with its `n + 1` elements, `pids_count`, `my_rank` and
`active`. -/
structure Vars where
  allPids : List Int32
  pidsCount : ℕ
  myRank : ℤ
  active : Bool
  deriving DecidableEq

/-- Their initial values. -/
def initialVars (n : ℕ) : Vars := ⟨List.replicate (n + 1) 0, 0, -1, false⟩

/-- `all_pids[pids_count++] = pid`. -/
def Vars.add (v : Vars) (pid : Int32) : Vars :=
  { v with allPids := v.allPids.set v.pidsCount pid, pidsCount := v.pidsCount + 1 }

/-- The call of `qsort`. -/
def Vars.sort (qsort : (Int32 → Int32 → Int32) → List Int32 → List Int32) (v : Vars) : Vars :=
  { v with allPids := qsort comparePids (v.allPids.take v.pidsCount) ++ v.allPids.drop v.pidsCount }

/-- The search for `my_pid`, which leaves `my_rank` as it is if there is no such number. -/
def Vars.search (myPid : Int32) (v : Vars) : Vars :=
  match (v.allPids.take v.pidsCount).idxOf? myPid with
  | some i => { v with myRank := i }
  | none => v

/-- The `recv` of `pids_count` numbers into `all_pids`. -/
def Vars.receive (v : Vars) (pids : List Int32) : Vars :=
  { v with allPids := pids.take v.pidsCount ++ v.allPids.drop v.pidsCount }

/-- `process_function` after `exchange_pids`: `active` is set by `my_rank == 0`. -/
def Vars.start (v : Vars) : Vars := { v with active := v.myRank = 0 }

/-- Where the coordinator is. The number of a send is that of the worker. -/
inductive Coordinator (n : ℕ)
  /-- Before `listen`. -/
  | starting
  /-- At the head of the loop of `accept`. -/
  | accepting (i : ℕ)
  /-- At the `recv` from a worker. -/
  | receiving (i : ℕ) (client : Fin n)
  | sorting
  /-- In the loop over the workers, for the one of index `k + 1`, after so many attempts to
  `connect`. -/
  | connecting (k attempt : ℕ)
  | sendingCount (k : Fin n)
  | sendingPids (k : Fin n)
  /-- Returned from `exchange_pids`. -/
  | exchanged
  /-- With `active` set. -/
  | started
  deriving DecidableEq

/-- Where a worker is. -/
inductive Worker
  /-- After so many attempts to `connect`. -/
  | connecting (attempt : ℕ)
  | sending
  /-- Before `listen`. -/
  | binding
  | accepting
  | receivingCount
  | receivingPids
  | searching
  | exchanged
  | started
  deriving DecidableEq

/-- The coordinator listens. -/
def Coordinator.listens : Coordinator n → Bool
  | .accepting _ | .receiving _ _ => true
  | _ => false

/-- A value on the connection from the coordinator. -/
inductive Value
  | count (c : ℕ)
  | pids (l : List Int32)
  deriving DecidableEq

/-- The processes and their variables; of each worker, whether its connection to the coordinator
waits for `accept`, the number sent on it, and the values sent on the connection back, if there is
one. -/
structure State (n : ℕ) where
  coordinator : Coordinator n
  worker : Fin n → Worker
  vars : Fin (n + 1) → Vars
  pending : Fin n → Bool
  request : Fin n → Option Int32
  reply : Fin n → Option (List Value)

variable {n : ℕ}

/-- The process `p` changes its variables. -/
def State.setVars (s : State n) (p : Fin (n + 1)) (v : Vars) : State n :=
  { s with vars := update s.vars p v }

/-- What moves: the coordinator accepts a connection, or runs its next piece otherwise, or a worker
runs its next piece. -/
inductive Label (n : ℕ)
  | accept (client : Fin n)
  | coordinator
  | worker (w : Fin n)
  deriving DecidableEq

section Steps

variable (qsort : (Int32 → Int32 → Int32) → List Int32 → List Int32) (system : Pids n)

/-- The pieces of the coordinator other than `accept`. -/
def coordinatorStep (s : State n) : Option (State n) :=
  match s.coordinator with
  | .starting =>
    some { s.setVars 0 ((s.vars 0).add (system.pid 0)) with coordinator := .accepting 1 }
  | .accepting i => if i < n + 1 then none else some { s with coordinator := .sorting }
  | .receiving i client =>
    (s.request client).map fun pid =>
      { s.setVars 0 ((s.vars 0).add pid) with
        coordinator := .accepting (i + 1), request := update s.request client none }
  | .sorting =>
    some { s.setVars 0 (((s.vars 0).sort qsort).search (system.pid 0)) with
      coordinator := .connecting 0 0 }
  | .connecting k attempt =>
    if k + 1 < (s.vars 0).pidsCount then
      if h : k < n then
        if attempt < 5 then
          if s.worker ⟨k, h⟩ = .accepting then
            some { s with
              coordinator := .sendingCount ⟨k, h⟩, reply := update s.reply ⟨k, h⟩ (some []) }
          else some { s with coordinator := .connecting k (attempt + 1) }
        else some { s with coordinator := .connecting (k + 1) 0 }
      else none
    else some { s with coordinator := .exchanged }
  | .sendingCount k =>
    some { s with
      coordinator := .sendingPids k
      reply := update s.reply k ((s.reply k).map (· ++ [.count (s.vars 0).pidsCount])) }
  | .sendingPids k =>
    some { s with
      coordinator := .connecting (k + 1) 0
      reply := update s.reply k
        ((s.reply k).map (· ++ [.pids ((s.vars 0).allPids.take (s.vars 0).pidsCount)])) }
  | .exchanged => some { s.setVars 0 (s.vars 0).start with coordinator := .started }
  | .started => none

/-- The `accept` of a connection. -/
def acceptStep (client : Fin n) (s : State n) : Option (State n) :=
  match s.coordinator with
  | .accepting i =>
    if i < n + 1 ∧ s.pending client = true then
      some { s with
        coordinator := .receiving i client, pending := update s.pending client false }
    else none
  | _ => none

/-- Worker `w` goes to the control point `c`. -/
def State.goto (s : State n) (w : Fin n) (c : Worker) : State n :=
  { s with worker := update s.worker w c }

/-- The pieces of a worker. -/
def workerStep (w : Fin n) (s : State n) : Option (State n) :=
  match s.worker w with
  | .connecting attempt =>
    if attempt < 10 then
      if s.coordinator.listens then
        some { s.goto w .sending with pending := update s.pending w true }
      else some (s.goto w (.connecting (attempt + 1)))
    else some (s.goto w .binding)
  | .sending =>
    some { s.goto w .binding with request := update s.request w (some (system.pid w.succ)) }
  | .binding => some (s.goto w .accepting)
  | .accepting => if (s.reply w).isSome then some (s.goto w .receivingCount) else none
  | .receivingCount =>
    match s.reply w with
    | some (.count c :: values) =>
      some { (s.goto w .receivingPids).setVars w.succ { s.vars w.succ with pidsCount := c } with
        reply := update s.reply w (some values) }
    | _ => none
  | .receivingPids =>
    match s.reply w with
    | some (.pids l :: values) =>
      some { (s.goto w .searching).setVars w.succ ((s.vars w.succ).receive l) with
        reply := update s.reply w (some values) }
    | _ => none
  | .searching =>
    some ((s.goto w .exchanged).setVars w.succ ((s.vars w.succ).search (system.pid w.succ)))
  | .exchanged => some ((s.goto w .started).setVars w.succ (s.vars w.succ).start)
  | .started => none

/-- One piece of one process. -/
def step : Label n → State n → Option (State n)
  | .accept client, s => acceptStep client s
  | .coordinator, s => coordinatorStep qsort system s
  | .worker w, s => workerStep system w s

/-- All processes before `exchange_pids`. -/
def initial (n : ℕ) : State n where
  coordinator := .starting
  worker _ := .connecting 0
  vars _ := initialVars n
  pending _ := false
  request _ := none
  reply _ := none

/-- The interleaving of the processes. -/
def machine : Machine (Label n) (State n) where
  init s := s = initial n
  act := step qsort system

end Steps

/-! ## What a step does -/

section Moves

variable (qsort : (Int32 → Int32 → Int32) → List Int32 → List Int32) (system : Pids n)

/-- `Moves qsort system s l t`: a step under the label `l` takes `s` to `t`. -/
inductive Moves (s : State n) : Label n → State n → Prop
  | listen (hc : s.coordinator = .starting) :
    Moves s .coordinator
      { s.setVars 0 ((s.vars 0).add (system.pid 0)) with coordinator := .accepting 1 }
  | accept {i : ℕ} {client : Fin n} (hc : s.coordinator = .accepting i) (hi : i < n + 1)
    (hp : s.pending client = true) :
    Moves s (.accept client) { s with
      coordinator := .receiving i client, pending := update s.pending client false }
  | leave {i : ℕ} (hc : s.coordinator = .accepting i) (hi : ¬ i < n + 1) :
    Moves s .coordinator { s with coordinator := .sorting }
  | number {i : ℕ} {client : Fin n} {pid : Int32} (hc : s.coordinator = .receiving i client)
    (hr : s.request client = some pid) :
    Moves s .coordinator { s.setVars 0 ((s.vars 0).add pid) with
      coordinator := .accepting (i + 1), request := update s.request client none }
  | sort (hc : s.coordinator = .sorting) :
    Moves s .coordinator { s.setVars 0 (((s.vars 0).sort qsort).search (system.pid 0)) with
      coordinator := .connecting 0 0 }
  | connect {k : Fin n} {attempt : ℕ} (hc : s.coordinator = .connecting k attempt)
    (ha : attempt < 5) (hw : s.worker k = .accepting) :
    Moves s .coordinator
      { s with coordinator := .sendingCount k, reply := update s.reply k (some []) }
  | retry {k : Fin n} {attempt : ℕ} (hc : s.coordinator = .connecting k attempt)
    (ha : attempt < 5) : Moves s .coordinator { s with coordinator := .connecting k (attempt + 1) }
  | skip {k : Fin n} {attempt : ℕ} (hc : s.coordinator = .connecting k attempt)
    (hk : (k : ℕ) + 1 < (s.vars 0).pidsCount) (ha : ¬ attempt < 5) :
    Moves s .coordinator { s with coordinator := .connecting (k + 1) 0 }
  | done {k attempt : ℕ} (hc : s.coordinator = .connecting k attempt)
    (hk : ¬ k + 1 < (s.vars 0).pidsCount) :
    Moves s .coordinator { s with coordinator := .exchanged }
  | sendCount {k : Fin n} (hc : s.coordinator = .sendingCount k) :
    Moves s .coordinator { s with
      coordinator := .sendingPids k
      reply := update s.reply k ((s.reply k).map (· ++ [.count (s.vars 0).pidsCount])) }
  | sendPids {k : Fin n} (hc : s.coordinator = .sendingPids k) :
    Moves s .coordinator { s with
      coordinator := .connecting (k + 1) 0
      reply := update s.reply k
        ((s.reply k).map (· ++ [.pids ((s.vars 0).allPids.take (s.vars 0).pidsCount)])) }
  | start (hc : s.coordinator = .exchanged) :
    Moves s .coordinator { s.setVars 0 (s.vars 0).start with coordinator := .started }
  | workerConnect {w : Fin n} {attempt : ℕ} (hw : s.worker w = .connecting attempt)
    (ha : attempt < 10) :
    Moves s (.worker w) { s.goto w .sending with pending := update s.pending w true }
  | workerRetry {w : Fin n} {attempt : ℕ} (hw : s.worker w = .connecting attempt)
    (ha : attempt < 10) : Moves s (.worker w) (s.goto w (.connecting (attempt + 1)))
  | workerGivesUp {w : Fin n} {attempt : ℕ} (hw : s.worker w = .connecting attempt)
    (ha : ¬ attempt < 10) : Moves s (.worker w) (s.goto w .binding)
  | workerSend {w : Fin n} (hw : s.worker w = .sending) :
    Moves s (.worker w)
      { s.goto w .binding with request := update s.request w (some (system.pid w.succ)) }
  | workerListen {w : Fin n} (hw : s.worker w = .binding) :
    Moves s (.worker w) (s.goto w .accepting)
  | workerAccept {w : Fin n} (hw : s.worker w = .accepting) (hr : (s.reply w).isSome) :
    Moves s (.worker w) (s.goto w .receivingCount)
  | workerCount {w : Fin n} {c : ℕ} {values : List Value} (hw : s.worker w = .receivingCount)
    (hr : s.reply w = some (.count c :: values)) :
    Moves s (.worker w)
      { (s.goto w .receivingPids).setVars w.succ { s.vars w.succ with pidsCount := c } with
        reply := update s.reply w (some values) }
  | workerPids {w : Fin n} {l : List Int32} {values : List Value}
    (hw : s.worker w = .receivingPids) (hr : s.reply w = some (.pids l :: values)) :
    Moves s (.worker w)
      { (s.goto w .searching).setVars w.succ ((s.vars w.succ).receive l) with
        reply := update s.reply w (some values) }
  | workerSearch {w : Fin n} (hw : s.worker w = .searching) :
    Moves s (.worker w)
      ((s.goto w .exchanged).setVars w.succ ((s.vars w.succ).search (system.pid w.succ)))
  | workerStart {w : Fin n} (hw : s.worker w = .exchanged) :
    Moves s (.worker w) ((s.goto w .started).setVars w.succ (s.vars w.succ).start)

variable {qsort system} {s t : State n}

theorem coordinatorStep_moves (h : coordinatorStep qsort system s = some t) :
    Moves qsort system s .coordinator t := by
  rw [coordinatorStep] at h
  split at h
  · rename_i hc
    cases h
    exact .listen hc
  · rename_i hc
    split at h
    · cases h
    · rename_i hi
      cases h
      exact .leave hc hi
  · rename_i hc
    obtain ⟨pid, hr, h⟩ := Option.map_eq_some_iff.1 h
    cases h
    exact .number hc hr
  · rename_i hc
    cases h
    exact .sort hc
  · rename_i k attempt hc
    split_ifs at h with hk hlt ha hw
    · cases h
      exact .connect (k := ⟨k, hlt⟩) hc ha hw
    · cases h
      exact .retry (k := ⟨k, hlt⟩) hc ha
    · cases h
      exact .skip (k := ⟨k, hlt⟩) hc hk ha
    · cases h
      exact .done hc hk
  · rename_i hc
    cases h
    exact .sendCount hc
  · rename_i hc
    cases h
    exact .sendPids hc
  · rename_i hc
    cases h
    exact .start hc
  · cases h

theorem workerStep_moves {w : Fin n} (h : workerStep system w s = some t) :
    Moves qsort system s (.worker w) t := by
  rw [workerStep] at h
  split at h
  · rename_i attempt hw
    split_ifs at h with ha hc
    · cases h
      exact .workerConnect hw ha
    · cases h
      exact .workerRetry hw ha
    · cases h
      exact .workerGivesUp hw ha
  · rename_i hw
    cases h
    exact .workerSend hw
  · rename_i hw
    cases h
    exact .workerListen hw
  · rename_i hw
    split at h
    · rename_i hr
      cases h
      exact .workerAccept hw hr
    · cases h
  · rename_i hw
    split at h
    · rename_i hr
      cases h
      exact .workerCount hw hr
    · cases h
  · rename_i hw
    split at h
    · rename_i hr
      cases h
      exact .workerPids hw hr
    · cases h
  · rename_i hw
    cases h
    exact .workerSearch hw
  · rename_i hw
    cases h
    exact .workerStart hw
  · cases h

theorem step_moves {l : Label n} (h : step qsort system l s = some t) :
    Moves qsort system s l t := by
  cases l with
  | accept client =>
    rw [step, acceptStep] at h
    split at h
    · rename_i hc
      split at h
      · rename_i hi
        cases h
        exact .accept hc hi.1 hi.2
      · cases h
    · cases h
  | coordinator => exact coordinatorStep_moves h
  | worker w => exact workerStep_moves h

end Moves

/-- All processes have returned from `exchange_pids`. -/
def State.Returned (s : State n) : Prop :=
  (s.coordinator = .exchanged ∨ s.coordinator = .started) ∧
    ∀ w, s.worker w = .exchanged ∨ s.worker w = .started

end SemOS.Bogatyri.Exchange
