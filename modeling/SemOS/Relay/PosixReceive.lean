import SemOS.Foundations.Loop
import SemOS.Relay.Posix

/-!
# Waiting for a message of one priority

`mq_receive_with_set_prio` of `sems/5week/relay_racePOSIX.c`, on its own: nobody else touches the
queue. It takes out a message and, if that has another priority, puts it back into the same queue.

* A message has its bytes here. `receive` is `mqReceive` on the priorities (`receive_prio`), and an
  iteration of the loop makes the steps of a waiting runner (`step_of_leave`, `step_of_next`).
* `finds_message_iff`: the loop returns with its message exactly if no message of a higher priority
  is in the queue.
-/

namespace SemOS.Relay.Posix

/-- A message. -/
structure Message where
  prio : ℕ
  data : List UInt8
  deriving DecidableEq

/-- The buffer `msg_ptr` and the queue. -/
structure Waiting where
  buffer : List UInt8
  queue : List Message

/-- `mq_receive`: the oldest message of the highest priority. -/
def receive (queue : List Message) : Option (Message × List Message) :=
  (queue.map Message.prio).max?.bind fun prio => MessageQueue.receive (·.prio == prio) queue

/-- The buffer after a message has been stored at its front. -/
def store (buffer data : List UInt8) : List UInt8 := data ++ buffer.drop data.length

/-- An iteration of `mq_receive_with_set_prio`. The result is `rcv_res`, with the buffer and the
queue. A message for somebody else is sent back with all bytes of the buffer. -/
def iteration (setPrio : ℕ) (w : Waiting) : Option (Waiting ⊕ ℕ × Waiting) :=
  (receive w.queue).bind fun (m, rest) =>
    let buffer := store w.buffer m.data
    if m.prio = setPrio then some (.inr (m.data.length, ⟨buffer, rest⟩))
    else
      (MessageQueue.send (some 10) ⟨m.prio, buffer⟩ rest).map fun queue => .inl ⟨buffer, queue⟩

/-- `mq_receive_with_set_prio` returns `rcv_res`. -/
def Receives (setPrio : ℕ) (w : Waiting) (rcvRes : ℕ) (w' : Waiting) : Prop :=
  Loop.Returns (fun _ => iteration setPrio) w (rcvRes, w')

/-- It returns a message of its priority, and the others stay in the queue. -/
def Finds (setPrio : ℕ) (w : Waiting) : Prop :=
  ∃ m rest, Receives setPrio w m.data.length ⟨store w.buffer m.data, rest⟩ ∧ m.prio = setPrio ∧
    w.queue.Perm (m :: rest)

variable {setPrio : ℕ} {w w' : Waiting} {queue rest : List Message} {m : Message}

/-- What is received is of the highest priority, and the other messages stay. -/
theorem receive_spec (h : receive queue = some (m, rest)) :
    (∀ m' ∈ queue, m'.prio ≤ m.prio) ∧ queue.Perm (m :: rest) := by
  obtain ⟨prio, hmax, h⟩ := Option.bind_eq_some_iff.1 h
  have hprio : m.prio = prio := by simpa using MessageQueue.receive_pred h
  refine ⟨fun m' hm' => ?_, MessageQueue.receive_perm h⟩
  rw [hprio]
  exact (List.max?_eq_some_iff.1 hmax).2 _ (List.mem_map_of_mem hm')

/-- Something is received unless the queue is empty. -/
theorem exists_receive (hm : m ∈ queue) : ∃ r, receive queue = some r := by
  have hne : queue.map Message.prio ≠ [] := List.ne_nil_of_mem (List.mem_map_of_mem hm)
  obtain ⟨prio, hmax⟩ := Option.ne_none_iff_exists'.1 (mt List.max?_eq_none_iff.1 hne)
  obtain ⟨m', hm', hprio⟩ := List.mem_map.1 (List.max?_eq_some_iff.1 hmax).1
  apply Option.ne_none_iff_exists'.1
  intro hnone
  rw [receive, hmax, Option.bind_some] at hnone
  have := MessageQueue.receive_eq_none.1 hnone m' hm'
  rw [beq_eq_false_iff_ne] at this
  exact this hprio

/-- A message of the wanted priority ends the loop. -/
theorem iteration_of_eq (hr : receive w.queue = some (m, rest)) (hm : m.prio = setPrio) :
    iteration setPrio w = some (.inr (m.data.length, ⟨store w.buffer m.data, rest⟩)) := by
  rw [iteration, hr, Option.bind_some]
  exact if_pos hm

/-- Any other is sent back. -/
theorem iteration_of_ne (hr : receive w.queue = some (m, rest)) (hm : m.prio ≠ setPrio) :
    iteration setPrio w = (MessageQueue.send (some 10) ⟨m.prio, store w.buffer m.data⟩ rest).map
      fun queue => .inl ⟨store w.buffer m.data, queue⟩ := by
  rw [iteration, hr, Option.bind_some]
  exact if_neg hm

/-- An iteration has received something. -/
theorem receive_of_iteration {x : Waiting ⊕ ℕ × Waiting} (h : iteration setPrio w = some x) :
    ∃ m rest, receive w.queue = some (m, rest) := by
  obtain ⟨⟨m, rest⟩, hr, -⟩ := Option.bind_eq_some_iff.1 h
  exact ⟨m, rest, hr⟩

/-! ## The loop and the race -/

/-- On the priorities this is the `mq_receive` of the race. -/
theorem receive_prio (queue : List Message) :
    mqReceive (queue.map Message.prio) =
      (receive queue).map fun (m, rest) => (m.prio, rest.map Message.prio) := by
  rw [mqReceive, receive, Option.map_bind]
  congr 1
  funext prio
  exact MessageQueue.receive_map ..

section Race

variable {N : ℕ} {s : State N} {i : Fin N}

/-- A waiting runner whose loop ends takes the step of the race. -/
theorem step_of_leave {rcvRes : ℕ} (hc : s.runner i = .receiving)
    (hq : s.queue = w.queue.map Message.prio)
    (h : iteration (i + 1) w = some (.inr (rcvRes, w'))) :
    step (.runner i) s =
      some (runnerReceives i (i + 1) { s with queue := w'.queue.map Message.prio }) := by
  obtain ⟨m, rest, hr⟩ := receive_of_iteration h
  by_cases hprio : m.prio = i + 1
  · rw [iteration_of_eq hr hprio] at h
    cases h
    simp [step, hc, hq, receive_prio, hr, hprio]
  · rw [iteration_of_ne hr hprio] at h
    simp at h

/-- One whose loop goes on takes two. -/
theorem step_of_next (hc : s.runner i = .receiving) (hq : s.queue = w.queue.map Message.prio)
    (h : iteration (i + 1) w = some (.inl w')) :
    (machine N).run [.runner i, .runner i] s =
      some { s with queue := w'.queue.map Message.prio } := by
  obtain ⟨m, rest, hr⟩ := receive_of_iteration h
  have hprio : m.prio ≠ i + 1 := by
    intro hprio
    rw [iteration_of_eq hr hprio] at h
    cases h
  rw [iteration_of_ne hr hprio] at h
  obtain ⟨queue, hs, heq⟩ := Option.map_eq_some_iff.1 h
  cases heq
  obtain ⟨hroom, rfl⟩ := MessageQueue.send_eq_some.1 hs
  have hsend : mqSend m.prio (rest.map Message.prio) =
      some (rest.map Message.prio ++ [m.prio]) :=
    MessageQueue.send_eq_some.2 ⟨by simpa using hroom, rfl⟩
  have htake : step (.runner i) s = some { s with
      runner := Function.update s.runner i (.resending m.prio)
      queue := rest.map Message.prio } := by
    simp [step, hc, hq, receive_prio, hr, runnerReceives, hprio]
  have hback : Function.update s.runner i .receiving = s.runner := by
    rw [← hc, Function.update_eq_self]
  change (step (.runner i) s).bind _ = _
  rw [htake, Option.bind_some]
  change (step (.runner i) _).bind _ = _
  simp [step, hsend, hback, Machine.run]

end Race

/-! ## Finding the message -/

/-- While a message of a higher priority is in the queue, the loop goes on, and keeps one. -/
theorem iteration_of_higher {x : Waiting ⊕ ℕ × Waiting} (hw : ∃ m ∈ w.queue, setPrio < m.prio)
    (h : iteration setPrio w = some x) :
    ∃ w', x = .inl w' ∧ ∃ m ∈ w'.queue, setPrio < m.prio := by
  obtain ⟨high, hmem, hlt⟩ := hw
  obtain ⟨m, rest, hr⟩ := receive_of_iteration h
  have hle : setPrio < m.prio := Nat.lt_of_lt_of_le hlt ((receive_spec hr).1 high hmem)
  rw [iteration_of_ne hr (Nat.ne_of_gt hle)] at h
  obtain ⟨queue, hs, rfl⟩ := Option.map_eq_some_iff.1 h
  obtain ⟨-, rfl⟩ := MessageQueue.send_eq_some.1 hs
  exact ⟨_, rfl, _, List.mem_append_right _ (List.mem_singleton_self _), hle⟩

/-- **A waiting receiver finds its message exactly if no other has a higher priority.** -/
theorem finds_message_iff (setPrio : ℕ) (w : Waiting) (hmem : ∃ m ∈ w.queue, m.prio = setPrio) :
    Finds setPrio w ↔ ∀ m ∈ w.queue, m.prio ≤ setPrio := by
  constructor
  · rintro ⟨m, rest, hreceives, -, -⟩
    by_contra hno
    simp only [not_forall, not_le] at hno
    obtain ⟨high, hhigh, hlt⟩ := hno
    exact Loop.not_returns (I := fun w => ∃ m ∈ w.queue, setPrio < m.prio)
      (fun _ _ _ hw h => iteration_of_higher hw h) ⟨high, hhigh, hlt⟩ hreceives
  · intro hle
    obtain ⟨wanted, hwanted, hprio⟩ := hmem
    obtain ⟨⟨m, rest⟩, hr⟩ := exists_receive hwanted
    obtain ⟨hmax, hperm⟩ := receive_spec hr
    have hm : m.prio = setPrio := by
      apply Nat.le_antisymm (hle m (hperm.mem_iff.2 List.mem_cons_self))
      rw [← hprio]
      exact hmax wanted hwanted
    exact ⟨m, rest, Loop.returns_of_leave 0 (iteration_of_eq hr hm), hm, hperm⟩

/-- The start message is the only one. -/
theorem finds_message_start : (∃ m ∈ [Message.mk 1 [0]], m.prio = 1) ∧
    (Finds 1 ⟨[0, 0], [⟨1, [0]⟩]⟩ ↔ ∀ m ∈ [Message.mk 1 [0]], m.prio ≤ 1) := by
  have hmem : ∃ m ∈ [Message.mk 1 [0]], m.prio = 1 := ⟨_, List.mem_singleton_self _, rfl⟩
  exact ⟨hmem, finds_message_iff 1 ⟨[0, 0], [⟨1, [0]⟩]⟩ hmem⟩

/-- Runner 1 waits for its message behind one of runner 2. -/
theorem higher_priority_hides : ¬ ∀ (setPrio : ℕ) (w : Waiting),
    (∃ m ∈ w.queue, m.prio = setPrio) → Finds setPrio w := by
  intro h
  obtain ⟨m, rest, hreceives, -⟩ := h 1 ⟨[0], [⟨1, [0]⟩, ⟨2, [0]⟩]⟩ ⟨⟨1, [0]⟩, by simp, rfl⟩
  exact Loop.not_returns (I := fun w => ∃ m ∈ w.queue, 1 < m.prio)
    (fun _ _ _ hw h => iteration_of_higher hw h) ⟨⟨2, [0]⟩, by simp, Nat.lt_succ_self 1⟩ hreceives

end SemOS.Relay.Posix
