import Mathlib.Data.Nat.Notation
import Mathlib.Order.Defs.LinearOrder
import Mathlib.Tactic.Conv
import SemOS.Foundations.Qsort

/-!
# The slices of the parallel merge sort

`sort_subarray` of `sems/mergesort/mergesort.c`: `N` threads sort slices of `M / N` elements of an
array of `M`. `sortAll` runs them in some order. The slices are disjoint, so that the order does not
matter (`slice_sortAll`); the elements behind the last slice stay where they are (`drop_sortAll`).

`qsort` is a parameter, of which only is known that it sorts in the order of the integers.
-/

namespace SemOS.Mergesort

open Qsort (SortsBy)

instance linearOrderInt32 : LinearOrder Int32 where
  le_refl := Int32.le_refl
  le_trans _ _ _ := Int32.le_trans
  le_antisymm _ _ := Int32.le_antisymm
  le_total := Int32.le_total
  lt_iff_le_not_ge a b := by
    rw [Int32.lt_iff_toInt_lt, Int32.le_iff_toInt_le, Int32.le_iff_toInt_le]
    omega
  toDecidableLE := inferInstance

/-- `sort_subarray` for the thread of index `i`. -/
def sortSubarray (qsort : List Int32 → List Int32) (M N : ℕ) (array : List Int32) (i : ℕ) :
    List Int32 :=
  let startInd := i * (M / N)
  let endInd := min (startInd + M / N) M
  let size := endInd - startInd
  array.take startInd ++ qsort ((array.drop startInd).take size) ++ array.drop (startInd + size)

/-- The threads, one after the other. -/
def sortAll (qsort : List Int32 → List Int32) (M N : ℕ) (array : List Int32) (order : List ℕ) :
    List Int32 :=
  order.foldl (sortSubarray qsort M N) array

/-- The slice of index `i`, of `size` elements. -/
def slice (size i : ℕ) (array : List Int32) : List Int32 := (array.drop (i * size)).take size

variable {qsort : List Int32 → List Int32} {M N i j : ℕ} {array : List Int32} {order : List ℕ}

theorem slice_end_le (hi : i < N) : i * (M / N) + M / N ≤ M := by
  calc i * (M / N) + M / N = (i + 1) * (M / N) := by rw [Nat.add_mul, Nat.one_mul]
    _ ≤ N * (M / N) := Nat.mul_le_mul_right _ hi
    _ ≤ M := Nat.mul_div_le M N

/-- A thread sorts its slice. -/
theorem sortSubarray_eq (qsort : List Int32 → List Int32) (array : List Int32) (hi : i < N) :
    sortSubarray qsort M N array i = array.take (i * (M / N)) ++ qsort (slice (M / N) i array) ++
      array.drop (i * (M / N) + M / N) := by
  have hle := slice_end_le (M := M) hi
  simp only [sortSubarray, slice, Nat.min_eq_left hle, Nat.add_sub_cancel_left]

theorem sortSubarray_perm (hq : SortsBy (· ≤ ·) qsort) (array : List Int32) (hi : i < N) :
    (sortSubarray qsort M N array i).Perm array := by
  have hsplit : array = array.take (i * (M / N)) ++ slice (M / N) i array ++
      array.drop (i * (M / N) + M / N) := by
    rw [List.append_assoc, slice, ← List.drop_drop, List.take_append_drop, List.take_append_drop]
  rw [sortSubarray_eq qsort array hi]
  conv_rhs => rw [hsplit]
  exact ((hq.perm _).append_left _).append_right _

/-- The parts of the array around a slice. -/
theorem length_sortSubarray_take (hlen : array.length = M) (hi : i < N) :
    (array.take (i * (M / N))).length = i * (M / N) := by
  have hle : i * (M / N) ≤ M := Nat.le_trans (Nat.le_add_right _ _) (slice_end_le hi)
  rw [List.length_take, hlen, Nat.min_eq_left hle]

theorem length_slice (hlen : array.length = M) (hi : i < N) :
    (slice (M / N) i array).length = M / N := by
  have hle : M / N ≤ M - i * (M / N) := Nat.le_sub_of_add_le' (slice_end_le hi)
  rw [slice, List.length_take, List.length_drop, hlen, Nat.min_eq_left hle]

/-- The slice is what `qsort` makes of it, if this has its length. -/
theorem slice_sortSubarray_of_length (hlen : array.length = M) (hi : i < N)
    (hslice : (qsort (slice (M / N) i array)).length = M / N) :
    slice (M / N) i (sortSubarray qsort M N array i) = qsort (slice (M / N) i array) := by
  have htake := length_sortSubarray_take hlen hi
  rw [sortSubarray_eq qsort array hi, slice, List.append_assoc, List.drop_left' htake,
    List.take_left' hslice]

theorem slice_sortSubarray_self (hq : SortsBy (· ≤ ·) qsort)
    (hlen : array.length = M) (hi : i < N) :
    slice (M / N) i (sortSubarray qsort M N array i) = qsort (slice (M / N) i array) :=
  slice_sortSubarray_of_length hlen hi (by rw [hq.length, length_slice hlen hi])

/-- What is at or behind the end of a slice does not change. -/
theorem drop_sortSubarray (hq : SortsBy (· ≤ ·) qsort)
    (hlen : array.length = M) (hi : i < N) {n : ℕ}
    (hn : i * (M / N) + M / N ≤ n) :
    (sortSubarray qsort M N array i).drop n = array.drop n := by
  have hfront : (array.take (i * (M / N)) ++ qsort (slice (M / N) i array)).length =
      i * (M / N) + M / N := by
    rw [List.length_append, length_sortSubarray_take hlen hi, hq.length, length_slice hlen hi]
  obtain ⟨d, rfl⟩ := Nat.exists_eq_add_of_le hn
  rw [sortSubarray_eq qsort array hi, ← List.drop_drop, List.drop_left' hfront, List.drop_drop]

/-- What is before a slice does not change. -/
theorem take_sortSubarray (hlen : array.length = M) (hi : i < N) {n : ℕ} (hn : n ≤ i * (M / N)) :
    (sortSubarray qsort M N array i).take n = array.take n := by
  have htake := length_sortSubarray_take hlen hi
  rw [sortSubarray_eq qsort array hi, List.append_assoc,
    List.take_append_of_le_length (by omega), List.take_take, Nat.min_eq_left hn]

theorem slice_sortSubarray_of_ne (hq : SortsBy (· ≤ ·) qsort) (hlen : array.length = M) (hi : i < N)
    (hij : j ≠ i) : slice (M / N) j (sortSubarray qsort M N array i) = slice (M / N) j array := by
  obtain hlt | hgt := Nat.lt_or_gt_of_ne hij
  · have hle : j * (M / N) + M / N ≤ i * (M / N) := by
      rw [← Nat.succ_mul]
      exact Nat.mul_le_mul_right _ hlt
    rw [slice, slice, List.take_drop, List.take_drop, take_sortSubarray hlen hi hle]
  · have hle : i * (M / N) + M / N ≤ j * (M / N) := by
      rw [← Nat.succ_mul]
      exact Nat.mul_le_mul_right _ hgt
    rw [slice, slice, drop_sortSubarray hq hlen hi hle]

theorem length_sortSubarray (hq : SortsBy (· ≤ ·) qsort) (hlen : array.length = M) (hi : i < N) :
    (sortSubarray qsort M N array i).length = M :=
  (sortSubarray_perm hq array hi).length_eq.trans hlen

/-! ## All threads -/

theorem sortAll_perm (hq : SortsBy (· ≤ ·) qsort)
    (array : List Int32) (horder : ∀ i ∈ order, i < N) :
    (sortAll qsort M N array order).Perm array := by
  induction order generalizing array with
  | nil => exact List.Perm.refl _
  | cons i order ih =>
    have hi := horder i List.mem_cons_self
    exact (ih (sortSubarray qsort M N array i) fun j hj =>
      horder j (List.mem_cons_of_mem i hj)).trans (sortSubarray_perm hq array hi)

/-- The elements behind the last slice stay where they are. -/
theorem drop_sortAll (hq : SortsBy (· ≤ ·) qsort)
    (hlen : array.length = M) (horder : ∀ i ∈ order, i < N) :
    (sortAll qsort M N array order).drop (N * (M / N)) = array.drop (N * (M / N)) := by
  induction order generalizing array with
  | nil => rfl
  | cons i order ih =>
    have hi := horder i List.mem_cons_self
    have hle : i * (M / N) + M / N ≤ N * (M / N) := by
      rw [← Nat.succ_mul]
      exact Nat.mul_le_mul_right _ hi
    rw [sortAll, List.foldl_cons, ← sortAll, ih (length_sortSubarray hq hlen hi) fun j hj =>
      horder j (List.mem_cons_of_mem i hj), drop_sortSubarray hq hlen hi hle]

theorem slice_sortAll_of_notMem (hq : SortsBy (· ≤ ·) qsort) (hlen : array.length = M)
    (horder : ∀ i ∈ order, i < N) (hj : j ∉ order) :
    slice (M / N) j (sortAll qsort M N array order) = slice (M / N) j array := by
  induction order generalizing array with
  | nil => rfl
  | cons i order ih =>
    have hi := horder i List.mem_cons_self
    rw [List.mem_cons, not_or] at hj
    obtain ⟨hne, hj⟩ := hj
    rw [sortAll, List.foldl_cons, ← sortAll, ih (length_sortSubarray hq hlen hi) (fun j hj =>
      horder j (List.mem_cons_of_mem i hj)) hj, slice_sortSubarray_of_ne hq hlen hi hne]

/-- The order in which the slices are sorted does not matter. -/
theorem slice_sortAll (hq : SortsBy (· ≤ ·) qsort)
    (hlen : array.length = M) (horder : ∀ i ∈ order, i < N)
    (hnodup : order.Nodup) (hj : j ∈ order) :
    slice (M / N) j (sortAll qsort M N array order) = qsort (slice (M / N) j array) := by
  induction order generalizing array with
  | nil => cases hj
  | cons i order ih =>
    have hi := horder i List.mem_cons_self
    have hlen' := length_sortSubarray hq hlen hi
    have horder' : ∀ j ∈ order, j < N := fun j hj => horder j (List.mem_cons_of_mem i hj)
    obtain ⟨hnot, hnodup⟩ := List.nodup_cons.1 hnodup
    rw [sortAll, List.foldl_cons, ← sortAll]
    obtain rfl | hmem := List.mem_cons.1 hj
    · rw [slice_sortAll_of_notMem hq hlen' horder' hnot, slice_sortSubarray_self hq hlen hi]
    · have hne : j ≠ i := by
        rintro rfl
        exact hnot hmem
      rw [ih hlen' horder' hnodup hmem, slice_sortSubarray_of_ne hq hlen hi hne]

end SemOS.Mergesort
