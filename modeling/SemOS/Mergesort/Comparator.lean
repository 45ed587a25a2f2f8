import Mathlib.Algebra.Group.Int.Defs
import SemOS.Foundations.Qsort
import SemOS.Mergesort.Slices

/-!
# The comparator of the merge sort

`comparator` of `sems/mergesort/mergesort.c` subtracts two integers of 32 bits, which wraps around.
Both `sort_subarray` and `check_sorting` give it to `qsort`, of which nothing is known unless the
comparator is consistent on the array.

* `sign_iff`: the sign of the difference is right exactly if it fits 32 bits.
* `sorts_slice_iff`: slices are sorted, and judged correctly, if no two of their elements are too
  far apart, and only then is the comparator right on them.
-/

namespace SemOS.Mergesort

open Qsort (Consistent Sorts insertionSort sorts_insertionSort)

/-- `comparator`. -/
def comparator (a b : Int32) : Int32 := a - b

/-- `mismatch_count` of `check_sorting`, for the array and its sorted copy. -/
def mismatchCount (arrayCp array : List Int32) : ℕ :=
  (arrayCp.zip array).countP fun p => p.1 != p.2

/-- `check_sorting`. -/
def checkSorting (qsort : (Int32 → Int32 → Int32) → List Int32 → List Int32)
    (array : List Int32) : Bool :=
  0 < mismatchCount (qsort comparator array) array

/-- The sign of the comparator is that of the order. -/
structure SignAgrees (a b : Int32) : Prop where
  neg : comparator a b < 0 ↔ a < b
  zero : comparator a b = 0 ↔ a = b
  pos : 0 < comparator a b ↔ b < a

/-- What is expected of a slice with the elements `l`: the comparator orders them as the integers
are, `sort_subarray` leaves them in this order, and `check_sorting`, which reports that sorting
failed, does so exactly when they are not. -/
structure SortsSlice (qsort : (Int32 → Int32 → Int32) → List Int32 → List Int32)
    (l : List Int32) : Prop where
  sign : ∀ a ∈ l, ∀ b ∈ l, SignAgrees a b
  sorted : ∀ M N i array, i < N → array.length = M → slice (M / N) i array = l →
    (slice (M / N) i (sortSubarray (qsort comparator) M N array i)).Pairwise (· ≤ ·)
  check : checkSorting qsort l = false ↔ l.Pairwise (· ≤ ·)

variable {qsort : (Int32 → Int32 → Int32) → List Int32 → List Int32} {a b : Int32}
  {l l' : List Int32}

/-! ## The difference -/

/-- Where the difference fits, it does not wrap around. -/
theorem toInt_comparator (hab : a.toInt - b.toInt < 2 ^ 31) (hba : b.toInt - a.toInt < 2 ^ 31) :
    (comparator a b).toInt = a.toInt - b.toInt := by
  rw [comparator, Int32.toInt_sub]
  exact Int.bmod_eq_of_le_mul_two (by omega) (by omega)

/-- Where it is too large, it becomes negative. -/
theorem comparator_neg (h : 2 ^ 31 ≤ a.toInt - b.toInt) : comparator a b < 0 := by
  have halt := a.toInt_lt
  have hble := b.le_toInt
  rw [Int32.lt_iff_toInt_lt, comparator, Int32.toInt_sub, Int32.toInt_zero]
  have hwrap : (a.toInt - b.toInt).bmod (2 ^ 32) = a.toInt - b.toInt - 2 ^ 32 := by
    rw [← Int.sub_bmod_right]
    exact Int.bmod_eq_of_le_mul_two (by omega) (by omega)
  omega

/-- The sign is right both ways exactly if the difference fits both ways. -/
theorem sign_iff : SignAgrees a b ∧ SignAgrees b a ↔
    a.toInt - b.toInt < 2 ^ 31 ∧ b.toInt - a.toInt < 2 ^ 31 := by
  have hno : ∀ {a b : Int32}, SignAgrees a b → a.toInt - b.toInt < 2 ^ 31 := by
    intro a b h
    by_contra hge
    have hlt := h.neg.1 (comparator_neg (not_lt.1 hge))
    rw [Int32.lt_iff_toInt_lt] at hlt
    omega
  have hyes : ∀ {a b : Int32}, a.toInt - b.toInt < 2 ^ 31 → b.toInt - a.toInt < 2 ^ 31 →
      SignAgrees a b := by
    intro a b hab hba
    have hsub := toInt_comparator hab hba
    constructor
    · rw [Int32.lt_iff_toInt_lt, Int32.lt_iff_toInt_lt, hsub, Int32.toInt_zero]
      omega
    · rw [← Int32.toInt_inj, ← Int32.toInt_inj, hsub, Int32.toInt_zero]
      omega
    · rw [Int32.lt_iff_toInt_lt, Int32.lt_iff_toInt_lt, hsub, Int32.toInt_zero]
      omega
  exact ⟨fun h => ⟨hno h.1, hno h.2⟩, fun h => ⟨hyes h.1 h.2, hyes h.2 h.1⟩⟩

theorem SignAgrees.le_iff (h : SignAgrees a b) : comparator a b ≤ 0 ↔ a ≤ b := by
  rw [← not_lt, h.pos, not_lt]

/-- A comparator with the right signs is consistent. -/
theorem consistent_comparator (h : ∀ a ∈ l, ∀ b ∈ l, SignAgrees a b) :
    Consistent comparator l := by
  constructor
  · intro a ha b hb
    rw [(h a ha b hb).neg, (h b hb a ha).pos]
  · intro a ha b hb c hc
    rw [(h a ha b hb).le_iff, (h b hb c hc).le_iff, (h a ha c hc).le_iff]
    exact le_trans

/-! ## Sorting and checking -/

/-- `qsort` with a comparator of the right signs. -/
theorem qsort_comparator (hq : Sorts qsort)
    (h : ∀ a ∈ l, ∀ b ∈ l, SignAgrees a b) :
    (qsort comparator l).Perm l ∧ (qsort comparator l).Pairwise (· ≤ ·) := by
  have hcons := consistent_comparator h
  have hperm := hq.perm comparator l hcons
  refine ⟨hperm, (hq.sorted comparator l hcons).imp_of_mem fun {a b} ha hb hab => ?_⟩
  exact (h a (hperm.mem_iff.1 ha) b (hperm.mem_iff.1 hb)).le_iff.1 hab

theorem mismatchCount_eq_zero (h : l.length = l'.length) : mismatchCount l l' = 0 ↔ l = l' := by
  induction l generalizing l' with
  | nil =>
    obtain rfl := List.eq_nil_of_length_eq_zero h.symm
    exact iff_of_true rfl rfl
  | cons a l ih =>
    cases l' with
    | nil => cases h
    | cons b l' =>
      have ih := ih (Nat.succ_injective h)
      rw [mismatchCount] at ih ⊢
      rw [List.zip_cons_cons, List.countP_cons, Nat.add_eq_zero_iff, ih, List.cons_eq_cons]
      by_cases hab : a = b <;> simp [hab]

/-- `check_sorting` compares with the sorted permutation. -/
theorem checkSorting_eq_false (hperm : (qsort comparator l).Perm l)
    (hsorted : (qsort comparator l).Pairwise (· ≤ ·)) :
    checkSorting qsort l = false ↔ l.Pairwise (· ≤ ·) := by
  rw [checkSorting, decide_eq_false_iff_not, Nat.pos_iff_ne_zero, not_not,
    mismatchCount_eq_zero hperm.length_eq]
  constructor
  · intro heq
    rwa [heq] at hsorted
  · intro hl
    exact hperm.eq_of_pairwise (fun _ _ _ _ => le_antisymm) hsorted hl

/-- **The comparator sorts and checks a slice correctly exactly if the difference of no two elements
exceeds 32 bits.** -/
theorem sorts_slice_iff (hq : Sorts qsort) (l : List Int32) :
    SortsSlice qsort l ↔ ∀ a ∈ l, ∀ b ∈ l, a.toInt - b.toInt < 2 ^ 31 := by
  constructor
  · intro h a ha b hb
    exact (sign_iff.1 ⟨h.sign a ha b hb, h.sign b hb a ha⟩).1
  · intro h
    have hsign : ∀ a ∈ l, ∀ b ∈ l, SignAgrees a b := fun a ha b hb =>
      (sign_iff.2 ⟨h a ha b hb, h b hb a ha⟩).1
    obtain ⟨hperm, hsorted⟩ := qsort_comparator hq hsign
    refine ⟨hsign, fun M N i array hi hlen hslice => ?_, checkSorting_eq_false hperm hsorted⟩
    rw [slice_sortSubarray_of_length hlen hi, hslice]
    · exact hsorted
    · rw [hslice, hperm.length_eq, ← hslice, length_slice hlen hi]

/-- The first slice of the program's array. -/
theorem sorts_slice_main : Sorts (@insertionSort Int32) ∧
    (SortsSlice insertionSort [8, 9, 3] ↔
      ∀ a ∈ [(8 : Int32), 9, 3], ∀ b ∈ [(8 : Int32), 9, 3], a.toInt - b.toInt < 2 ^ 31) :=
  ⟨sorts_insertionSort, sorts_slice_iff sorts_insertionSort _⟩

/-- 1 and the least integer: their difference wraps around, so they stay in this order, and the
check passes. -/
theorem difference_overflows : ¬ ∀ qsort, Sorts qsort → ∀ l,
    SortsSlice qsort l := by
  intro h
  have hcheck := (h insertionSort sorts_insertionSort [1, -2147483648]).check
  have hpassed : checkSorting insertionSort [1, -2147483648] = false := by decide +kernel
  exact absurd (hcheck.1 hpassed) (by decide)

end SemOS.Mergesort
