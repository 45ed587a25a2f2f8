import Mathlib.Data.List.Sort

/-!
# What is known of `qsort`

`qsort` gets a comparator, whose result is negative, zero or positive. It orders an array on whose
elements the comparator is `Consistent` (`Sorts`); of other arrays nothing is known. `SortsBy` is
the same for a sort whose order is fixed.

`insertionSort` is a sort of this kind (`sorts_insertionSort`).
-/

namespace SemOS.Qsort

variable {α : Type*}

/-- The results of a comparator on the elements of an array order them. -/
structure Consistent (compare : α → α → Int32) (l : List α) : Prop where
  antisymm : ∀ a ∈ l, ∀ b ∈ l, compare a b < 0 ↔ 0 < compare b a
  trans : ∀ a ∈ l, ∀ b ∈ l, ∀ c ∈ l, compare a b ≤ 0 → compare b c ≤ 0 → compare a c ≤ 0

/-- `qsort` orders an array by a comparator that is consistent on it. -/
structure Sorts (qsort : (α → α → Int32) → List α → List α) : Prop where
  perm : ∀ compare l, Consistent compare l → (qsort compare l).Perm l
  sorted : ∀ compare l, Consistent compare l →
    (qsort compare l).Pairwise fun a b => compare a b ≤ 0

/-- A sort in the order of `r`. -/
structure SortsBy (r : α → α → Prop) (sort : List α → List α) : Prop where
  perm : ∀ l, (sort l).Perm l
  sorted : ∀ l, (sort l).Pairwise r

theorem SortsBy.length {r : α → α → Prop} {sort : List α → List α} (h : SortsBy r sort)
    (l : List α) : (sort l).length = l.length :=
  (h.perm l).length_eq

/-- An insertion sort by a comparator. -/
def insertionSort (compare : α → α → Int32) (l : List α) : List α :=
  (l.attach.insertionSort fun (a b : { x // x ∈ l }) => compare a.1 b.1 ≤ 0).map Subtype.val

theorem sorts_insertionSort : Sorts (@insertionSort α) := by
  constructor
  · intro compare l _
    have hperm :=
      (List.perm_insertionSort (fun a b => compare a.1 b.1 ≤ 0) l.attach).map Subtype.val
    rwa [List.attach_map_subtype_val] at hperm
  · intro compare l h
    have htotal : Std.Total fun a b : { x // x ∈ l } => compare a.1 b.1 ≤ 0 := by
      refine ⟨fun a b => ?_⟩
      have := h.antisymm b.1 b.2 a.1 a.2
      simp only [Int32.lt_iff_toInt_lt, Int32.le_iff_toInt_le, Int32.toInt_zero] at this ⊢
      omega
    have htrans : IsTrans { x // x ∈ l } fun a b => compare a.1 b.1 ≤ 0 :=
      ⟨fun a b c hab hbc => h.trans a.1 a.2 b.1 b.2 c.1 c.2 hab hbc⟩
    exact List.pairwise_map.2 (List.pairwise_insertionSort _ _)

end SemOS.Qsort
