import Mathlib.Data.Fin.Basic
import SemOS.Foundations.Machine
import SemOS.Foundations.MessageQueue

/-!
# The bogatyri over a System V message queue

The processing phase of `sems/bogatyri/msgq_bogatyri.c`: `N` processes, one per rank, sing a line
over one message queue. The process whose rank is the value of the current character prints its
run of characters and sends the index of the next one to the rank that character names; the others
wait in `msgrcv` for a message of their type. Whoever prints the last character, and then whoever
receives the end-of-file mark, broadcasts that mark and exits.

* The functions below are the pieces of the source between two calls that other processes can
  observe: one character printed, one message sent, one message received.
* `step` runs one such piece of one process; `machine` is the interleaving of the `N` processes.
  The queue has a capacity, `none` for an unbounded one: `msgsnd` waits for room, and drops the
  message under `IPC_NOWAIT`.
* `Moves` lists what a step does, and `step_moves` says that it does nothing else.
-/

namespace SemOS.Bogatyri.Msgq

open Function

/-- `MAX_PROCESSES`: the number of processes that `main` starts. -/
def maxProcesses : ℕ := 128

/-- A message: its type is the rank of the receiver plus one, and an index of `-1` marks the end
of file. -/
structure RankMessage where
  mtype : ℕ
  currentIndex : ℤ
  deriving DecidableEq

/-- Where a process is in `processing_phase`. -/
inductive Control
  /-- At the head of the loop of `process_string_loop`. -/
  | loop (currentIndex : ℕ)
  /-- At the head of the loop of `process_my_characters_sequence`. -/
  | sequence (currentIndex : ℕ)
  /-- Before the call of `send_message_to_process`. -/
  | handOver (currentIndex : ℕ)
  /-- In `receive_message_for_me`. -/
  | receive
  /-- At the head of the loop of `broadcast_eof_to_all`. -/
  | broadcast (i : ℕ)
  | exited
  deriving DecidableEq

/-- The processes, the queue, and what has been printed, each character with its printer. -/
structure State (N : ℕ) where
  control : Fin N → Control
  queue : List RankMessage
  printed : List (Fin N × UInt8)

variable {N : ℕ}

/-- Process `r` goes to the control point `c`. -/
def State.goto (s : State N) (r : Fin N) (c : Control) : State N :=
  { s with control := update s.control r c }

@[simp] theorem State.goto_queue (s : State N) (r : Fin N) (c : Control) :
    (s.goto r c).queue = s.queue := rfl

@[simp] theorem State.goto_printed (s : State N) (r : Fin N) (c : Control) :
    (s.goto r c).printed = s.printed := rfl

@[simp] theorem State.goto_control (s : State N) (r : Fin N) (c : Control) :
    (s.goto r c).control = update s.control r c := rfl

/-- `(unsigned char) input_str[i]`; the string ends in a NUL. -/
def targetRank (input : List UInt8) (i : ℕ) : ℕ := (input.getD i 0).toNat

/-- `send_message_to_process`: waits while the queue is full. -/
def sendMessageToProcess (cap : Option ℕ) (target i : ℕ) (q : List RankMessage) :
    Option (List RankMessage) :=
  MessageQueue.send cap ⟨target + 1, i⟩ q

/-- `receive_message_for_me`: takes the oldest message of the receiver's type, and waits while
there is none. -/
def receiveMessageForMe (r : ℕ) (q : List RankMessage) : Option (RankMessage × List RankMessage) :=
  MessageQueue.receive (fun m => m.mtype == r + 1) q

/-- One round of `broadcast_eof_to_all`: the mark for rank `i` is dropped when the queue is
full (`IPC_NOWAIT`), and a process does not send to itself. -/
def sendEof (cap : Option ℕ) (r i : ℕ) (q : List RankMessage) : List RankMessage :=
  if i = r then q else (MessageQueue.send cap ⟨i + 1, -1⟩ q).getD q

/-- The head of the loop of `process_string_loop`. -/
def processStringLoop (input : List UInt8) (r : Fin N) (i : ℕ) : Control :=
  if i < input.length then
    if targetRank input i = r then .sequence i else .receive
  else .broadcast 0

/-- One round of `process_my_characters_sequence`, with what its caller does when it returns. -/
def processMyCharactersSequence (input : List UInt8) (r : Fin N) (i : ℕ) (s : State N) : State N :=
  if i < input.length then
    if targetRank input i = r then
      { s.goto r (.sequence (i + 1)) with printed := s.printed ++ [(r, input.getD i 0)] }
    else s.goto r (.handOver i)
  else s.goto r (.broadcast 0)

/-- One piece of process `r`; `none` when it waits or has exited. -/
def step (input : List UInt8) (cap : Option ℕ) (r : Fin N) (s : State N) : Option (State N) :=
  match s.control r with
  | .loop i => some (s.goto r (processStringLoop input r i))
  | .sequence i => some (processMyCharactersSequence input r i s)
  | .handOver i =>
    (sendMessageToProcess cap (targetRank input i) i s.queue).map fun q =>
      { s.goto r (.loop i) with queue := q }
  | .receive =>
    (receiveMessageForMe r s.queue).map fun (m, q) =>
      if m.currentIndex = -1 then { s.goto r (.broadcast 0) with queue := q }
      else { s.goto r (.loop m.currentIndex.toNat) with queue := q }
  | .broadcast i =>
    if i < N then
      some { s.goto r (.broadcast (i + 1)) with queue := sendEof cap r i s.queue }
    else some (s.goto r .exited)
  | .exited => none

/-- The start of `processing_phase`: an empty string goes straight to the broadcast. -/
def processingPhase (input : List UInt8) : Control :=
  if input.length = 0 then .broadcast 0 else .loop 0

/-- All processes at the start of `processing_phase`, the queue empty. -/
def initial (N : ℕ) (input : List UInt8) : State N where
  control _ := processingPhase input
  queue := []
  printed := []

/-- The interleaving of the `N` processes on one line of input. -/
def machine (N : ℕ) (input : List UInt8) (cap : Option ℕ) : Machine (Fin N) (State N) where
  init s := s = initial N input
  act := step input cap

/-- The text printed so far. -/
def State.output (s : State N) : List UInt8 := s.printed.map Prod.snd

theorem State.length_output (s : State N) : s.output.length = s.printed.length :=
  List.length_map ..

/-! ## What a step does -/

/-- `Moves input cap r s t`: a step of process `r` takes `s` to `t`, one constructor for every
way out of a control point. -/
inductive Moves (input : List UInt8) (cap : Option ℕ) (r : Fin N) (s : State N) : State N → Prop
  | enter {i} (hc : s.control r = .loop i) (hi : i < input.length)
      (ht : targetRank input i = r) : Moves input cap r s (s.goto r (.sequence i))
  | wait {i} (hc : s.control r = .loop i) (hi : i < input.length)
      (ht : targetRank input i ≠ r) : Moves input cap r s (s.goto r .receive)
  | finish {i} (hc : s.control r = .loop i) (hi : input.length ≤ i) :
      Moves input cap r s (s.goto r (.broadcast 0))
  | print {i} (hc : s.control r = .sequence i) (hi : i < input.length)
      (ht : targetRank input i = r) :
      Moves input cap r s
        { s.goto r (.sequence (i + 1)) with printed := s.printed ++ [(r, input.getD i 0)] }
  | endOfRun {i} (hc : s.control r = .sequence i) (hi : i < input.length)
      (ht : targetRank input i ≠ r) : Moves input cap r s (s.goto r (.handOver i))
  | endOfString {i} (hc : s.control r = .sequence i) (hi : input.length ≤ i) :
      Moves input cap r s (s.goto r (.broadcast 0))
  | hand {i} (hc : s.control r = .handOver i) (hr : MessageQueue.hasRoom cap s.queue = true) :
      Moves input cap r s
        { s.goto r (.loop i) with queue := s.queue ++ [⟨targetRank input i + 1, i⟩] }
  | index {m q} (hc : s.control r = .receive) (hq : receiveMessageForMe r s.queue = some (m, q))
      (hm : m.currentIndex ≠ -1) :
      Moves input cap r s { s.goto r (.loop m.currentIndex.toNat) with queue := q }
  | eof {m q} (hc : s.control r = .receive) (hq : receiveMessageForMe r s.queue = some (m, q))
      (hm : m.currentIndex = -1) :
      Moves input cap r s { s.goto r (.broadcast 0) with queue := q }
  | sendEof {i} (hc : s.control r = .broadcast i) (hi : i < N) (hr : i ≠ r)
      (hs : MessageQueue.hasRoom cap s.queue = true) :
      Moves input cap r s
        { s.goto r (.broadcast (i + 1)) with queue := s.queue ++ [⟨i + 1, -1⟩] }
  | dropEof {i} (hc : s.control r = .broadcast i) (hi : i < N) (hr : i ≠ r)
      (hs : MessageQueue.hasRoom cap s.queue = false) :
      Moves input cap r s (s.goto r (.broadcast (i + 1)))
  | skipSelf {i} (hc : s.control r = .broadcast i) (hr : i = r) :
      Moves input cap r s (s.goto r (.broadcast (i + 1)))
  | exit {i} (hc : s.control r = .broadcast i) (hi : N ≤ i) : Moves input cap r s (s.goto r .exited)

variable {input : List UInt8} {cap : Option ℕ} {r : Fin N} {s t : State N}

/-- A step does what `Moves` lists, and nothing else. -/
theorem step_moves (h : step input cap r s = some t) : Moves input cap r s t := by
  unfold step at h
  split at h
  · rename_i i hc
    obtain rfl := Option.some.inj h
    unfold processStringLoop
    split_ifs with hi ht
    · exact .enter hc hi ht
    · exact .wait hc hi ht
    · exact .finish hc (not_lt.1 hi)
  · rename_i i hc
    obtain rfl := Option.some.inj h
    unfold processMyCharactersSequence
    split_ifs with hi ht
    · exact .print hc hi ht
    · exact .endOfRun hc hi ht
    · exact .endOfString hc (not_lt.1 hi)
  · rename_i i hc
    obtain ⟨q, hq, rfl⟩ := Option.map_eq_some_iff.1 h
    obtain ⟨hr, rfl⟩ := MessageQueue.send_eq_some.1 hq
    exact .hand hc hr
  · rename_i hc
    obtain ⟨⟨m, q⟩, hq, rfl⟩ := Option.map_eq_some_iff.1 h
    by_cases hm : m.currentIndex = -1
    · simp only [hm, if_true]
      exact .eof hc hq hm
    · simp only [hm, if_false]
      exact .index hc hq hm
  · rename_i i hc
    split_ifs at h with hi
    · obtain rfl := Option.some.inj h
      unfold Msgq.sendEof
      split_ifs with hr
      · exact .skipSelf hc hr
      · cases hs : MessageQueue.hasRoom cap s.queue with
        | true =>
          rw [MessageQueue.send_eq_some.2 ⟨hs, rfl⟩]
          exact .sendEof hc hi hr hs
        | false =>
          rw [MessageQueue.send_eq_none.2 hs]
          exact .dropEof hc hi hr hs
    · obtain rfl := Option.some.inj h
      exact .exit hc (not_lt.1 hi)
  · simp at h

/-- A step moves one process only. -/
theorem Moves.control_of_ne {r' : Fin N} (h : Moves input cap r s t) (hr : r' ≠ r) :
    t.control r' = s.control r' := by
  cases h <;> exact update_of_ne hr _ _

/-- A process that cannot move waits for room, waits for a message, or has exited. -/
theorem step_eq_none : step input cap r s = none ↔
    (∃ i, s.control r = .handOver i ∧ MessageQueue.hasRoom cap s.queue = false) ∨
      (s.control r = .receive ∧ receiveMessageForMe r s.queue = none) ∨
      s.control r = .exited := by
  unfold step
  split <;> rename_i hc
  · simp [hc]
  · simp [hc]
  · simp [hc, sendMessageToProcess, MessageQueue.send_eq_none]
  · simp [hc]
  · split_ifs <;> simp [hc]
  · simp [hc]

/-! ## One process -/

/-- The process `r` alone, at `c`, with the queue `q`. -/
def alone (c : Control) (q : List RankMessage) : State N := ⟨fun _ => c, q, []⟩

/-- A piece of process `r` goes by its own control point and the queue. -/
theorem step_local (s : State N) : step input cap r s =
    (step input cap r (alone (s.control r) s.queue)).map fun t =>
      ⟨update s.control r (t.control r), t.queue, s.printed ++ t.printed⟩ := by
  unfold step alone
  cases s.control r with
  | loop i =>
    simp [State.goto]
  | sequence i =>
    simp only [processMyCharactersSequence]
    split_ifs <;> simp [State.goto]
  | handOver i =>
    simp [State.goto, Function.comp_def]
  | receive =>
    cases h : receiveMessageForMe r s.queue with
    | none => rfl
    | some mq =>
      simp only [Option.map_some]
      split_ifs <;> simp [State.goto]
  | broadcast i =>
    dsimp only
    split_ifs <;> simp [State.goto]
  | exited => rfl

end SemOS.Bogatyri.Msgq
