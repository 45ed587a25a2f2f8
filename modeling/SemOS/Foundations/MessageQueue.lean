import Mathlib.Data.List.Perm.Basic
import Mathlib.Data.Nat.Notation

/-!
# Message queues with selective receive

A queue of messages, oldest first. `send` appends a message unless the queue is full, and
`receive p` removes the oldest message that satisfies `p`; both are partial, and a caller either
waits or drops on `none`.
-/

namespace SemOS.MessageQueue

variable {α : Type*} {p : α → Bool} {q q' : List α} {m : α}

/-- Whether one more message fits; the capacity `none` is an unbounded queue. -/
def hasRoom (cap : Option ℕ) (q : List α) : Bool := cap.all (q.length < ·)

/-- Append a message, unless the queue is full. -/
def send (cap : Option ℕ) (m : α) (q : List α) : Option (List α) :=
  if hasRoom cap q then some (q ++ [m]) else none

/-- Remove the oldest message that satisfies `p`. -/
def receive (p : α → Bool) : List α → Option (α × List α)
  | [] => none
  | m :: q => if p m then some (m, q) else (receive p q).map fun r => (r.1, m :: r.2)

@[simp] theorem hasRoom_none : hasRoom none q = true := rfl

@[simp] theorem hasRoom_some {n : ℕ} : hasRoom (some n) q = true ↔ q.length < n := by
  simp [hasRoom]

theorem send_eq_some {cap : Option ℕ} :
    send cap m q = some q' ↔ hasRoom cap q = true ∧ q' = q ++ [m] := by
  unfold send
  split
  · rename_i hr
    exact ⟨fun h => ⟨hr, (Option.some.inj h).symm⟩, fun h => by rw [h.2]⟩
  · simp_all

theorem send_eq_none {cap : Option ℕ} : send cap m q = none ↔ hasRoom cap q = false := by
  unfold send
  split <;> simp_all

@[simp] theorem receive_nil : receive p ([] : List α) = none := rfl

/-- Nothing is received exactly when no message satisfies the predicate. -/
theorem receive_eq_none : receive p q = none ↔ ∀ m ∈ q, p m = false := by
  induction q with
  | nil => simp
  | cons m q ih =>
    unfold receive
    split <;> simp_all

/-- The message received satisfies the predicate. -/
theorem receive_pred (h : receive p q = some (m, q')) : p m = true := by
  induction q generalizing q' with
  | nil => simp at h
  | cons a q ih =>
    unfold receive at h
    split at h
    · simp_all
    · simp only [Option.map_eq_some_iff, Prod.mk.injEq] at h
      obtain ⟨⟨b, r⟩, hr, rfl, -⟩ := h
      exact ih hr

/-- What was in the queue is the message received and what is left. -/
theorem receive_perm (h : receive p q = some (m, q')) : q.Perm (m :: q') := by
  induction q generalizing q' with
  | nil => simp at h
  | cons a q ih =>
    unfold receive at h
    split at h
    · simp_all
    · simp only [Option.map_eq_some_iff, Prod.mk.injEq] at h
      obtain ⟨⟨b, r⟩, hr, rfl, rfl⟩ := h
      exact ((ih hr).cons a).trans (List.Perm.swap b a r)

theorem mem_of_receive (h : receive p q = some (m, q')) : m ∈ q :=
  (receive_perm h).mem_iff.mpr (by simp)

/-- Receiving keeps the messages it does not take. -/
theorem mem_receive_iff {a : α} (h : receive p q = some (m, q')) : a ∈ q ↔ a = m ∨ a ∈ q' := by
  rw [(receive_perm h).mem_iff, List.mem_cons]

theorem length_receive (h : receive p q = some (m, q')) : q.length = q'.length + 1 := by
  simpa using (receive_perm h).length_eq

theorem receive_singleton : receive p [m] = if p m then some (m, []) else none := by
  unfold receive
  split <;> simp

theorem receive_map {β : Type*} (p : β → Bool) (f : α → β) (q : List α) :
    receive p (q.map f) = (receive (fun m => p (f m)) q).map fun r => (f r.1, r.2.map f) := by
  induction q with
  | nil => rfl
  | cons m q ih =>
    rw [List.map_cons, receive, receive]
    split
    · rfl
    · rw [ih, Option.map_map, Option.map_map]
      rfl

end SemOS.MessageQueue
