import Mathlib.Data.Nat.Notation

/-!
# Maximal runs

`runs p l` is the number of maximal runs of elements with `p` in a list.

* `runs_cons`: an element begins a run when the one after it does not go on with it.
* `runs_append`: two lists have together as many runs as they have apart, or one less if a run goes
  on from the first into the second (`joined`).
-/

namespace SemOS

variable {α : Type*} {p : α → Bool}

/-- The number of maximal runs of elements with `p`: of the pieces between the other elements that
are not empty. -/
def runs (p : α → Bool) (l : List α) : ℕ :=
  (l.splitOnP fun a => !p a).countP fun piece => !piece.isEmpty

/-- A run goes on from `l` into `l'`. -/
def joined (p : α → Bool) (l l' : List α) : Bool := l.getLast?.any p && l'.head?.any p

@[simp] theorem runs_nil : runs p [] = 0 := rfl

/-- The first piece is empty when the list does not begin with a run. -/
theorem splitOnP_eq_cons (l : List α) :
    ∃ piece pieces, (l.splitOnP fun a => !p a) = piece :: pieces ∧
      (!piece.isEmpty) = l.head?.any p := by
  cases l with
  | nil => exact ⟨[], [], List.splitOnP_nil, rfl⟩
  | cons a l =>
    rw [List.splitOnP_cons_eq_if_modifyHead]
    cases ha : p a with
    | false => exact ⟨[], _, rfl, ha.symm⟩
    | true =>
      obtain ⟨piece, pieces, h⟩ :=
        List.exists_cons_of_ne_nil (List.splitOnP_ne_nil (fun a => !p a) l)
      exact ⟨a :: piece, pieces, by rw [h]; rfl, ha.symm⟩

/-- An element begins a run unless the one after it does. -/
theorem runs_cons (a : α) (l : List α) :
    runs p (a :: l) = runs p l + (p a && !l.head?.any p).toNat := by
  obtain ⟨piece, pieces, h, hpiece⟩ := splitOnP_eq_cons (p := p) l
  rw [runs, runs, List.splitOnP_cons_eq_if_modifyHead, h]
  cases ha : p a with
  | false => simp
  | true =>
    rw [← hpiece]
    cases piece <;> simp

theorem runs_le_length (l : List α) : runs p l ≤ l.length := by
  induction l with
  | nil => exact Nat.le_refl 0
  | cons a l ih =>
    rw [runs_cons, List.length_cons]
    exact Nat.add_le_add ih (Bool.toNat_le _)

/-- Two lists together. -/
theorem runs_append (l l' : List α) :
    runs p (l ++ l') + (joined p l l').toNat = runs p l + runs p l' := by
  induction l with
  | nil => simp [joined]
  | cons a l ih =>
    rw [List.cons_append, runs_cons, runs_cons]
    cases l with
    | nil =>
      simp only [List.nil_append, joined, List.getLast?_singleton, Option.any_some, runs_nil,
        List.head?_nil, Option.any_none]
      cases p a <;> cases l'.head?.any p <;> simp [Nat.add_comm]
    | cons b l =>
      have hjoined : joined p (a :: b :: l) l' = joined p (b :: l) l' := by
        rw [joined, joined, List.getLast?_cons_cons]
      rw [hjoined, List.cons_append, List.head?_cons, List.head?_cons]
      rw [List.cons_append] at ih
      omega

end SemOS
