import Mathlib.Data.Finset.Lattice.Basic
import Mathlib.Order.Interval.Finset.Nat
import SemOS.Mergesort.Merge

/-!
# The partitions of the two phases

`sort_subarray` and `merge` of `sems/mergesort/mergesort.c` divide the array by different formulas:
a thread sorts at most `M / N` elements, the last fragment of the merge goes on to `M`.

* `disjoint_sortedRange`: the ranges that are sorted never overlap.
* **`sameParts_iff`**: they cover the array, and are the fragments of the merge, exactly when `N`
  divides `M`.
-/

namespace SemOS.Mergesort

variable {M N i j k : ℕ}

/-- `start_ind` of the thread of index `i`. -/
def startInd (M N i : ℕ) : ℕ := i * (M / N)

/-- `end_ind` of that thread. -/
def endInd (M N i : ℕ) : ℕ := min (startInd M N i + M / N) M

/-- The range that the thread sorts. -/
def sortedRange (M N i : ℕ) : Finset ℕ := Finset.Ico (startInd M N i) (endInd M N i)

/-- The range that `merge` starts with: `[indices[i], ends[i])`. -/
def fragmentRange (M N i : ℕ) : Finset ℕ := Finset.Ico (i * (M / N)) (ends M N i)

/-- A thread sorts its range, and leaves the elements around it. -/
theorem sortSubarray_eq_range (qsort : List Int32 → List Int32) (M N : ℕ) (array : List Int32)
    (i : ℕ) : sortSubarray qsort M N array i =
      array.take (startInd M N i) ++
        qsort ((array.drop (startInd M N i)).take (sortedRange M N i).card) ++
          array.drop (startInd M N i + (sortedRange M N i).card) := by
  rw [sortedRange, Nat.card_Ico]
  rfl

/-- A fragment is what its range selects. -/
theorem fragments_eq_range (M N : ℕ) (array : List Int32) (i : ℕ) :
    fragments M N array i = (array.drop (i * (M / N))).take (fragmentRange M N i).card := by
  rw [fragmentRange, Nat.card_Ico]
  rfl

/-- The two phases divide the array into the same parts. -/
structure SameParts (M N : ℕ) : Prop where
  disjoint : ∀ i < N, ∀ j < N, i ≠ j → Disjoint (sortedRange M N i) (sortedRange M N j)
  cover : ∀ k, k < M ↔ ∃ i < N, k ∈ sortedRange M N i
  fragment : ∀ i < N, sortedRange M N i = fragmentRange M N i

theorem endInd_eq (hi : i < N) : endInd M N i = startInd M N (i + 1) := by
  rw [endInd, startInd, startInd, Nat.min_eq_left (slice_end_le hi), Nat.succ_mul]

theorem mem_sortedRange (hi : i < N) :
    k ∈ sortedRange M N i ↔ startInd M N i ≤ k ∧ k < startInd M N (i + 1) := by
  rw [sortedRange, endInd_eq hi, Finset.mem_Ico]

theorem startInd_mono (M N : ℕ) (h : i ≤ j) : startInd M N i ≤ startInd M N j :=
  Nat.mul_le_mul_right _ h

/-- The ranges that are sorted do not overlap. -/
theorem disjoint_sortedRange (hi : i < N) (hj : j < N) (hij : i ≠ j) :
    Disjoint (sortedRange M N i) (sortedRange M N j) := by
  rw [Finset.disjoint_left]
  intro k hki hkj
  rw [mem_sortedRange hi] at hki
  rw [mem_sortedRange hj] at hkj
  obtain hlt | hgt := Nat.lt_or_gt_of_ne hij
  · have : startInd M N (i + 1) ≤ startInd M N j := startInd_mono M N hlt
    omega
  · have : startInd M N (j + 1) ≤ startInd M N i := startInd_mono M N hgt
    omega

/-- Together they are the array up to the last multiple of `M / N`. -/
theorem exists_mem_sortedRange : (∃ i < N, k ∈ sortedRange M N i) ↔ k < N * (M / N) := by
  constructor
  · rintro ⟨i, hi, hk⟩
    exact ((mem_sortedRange hi).1 hk).2.trans_le (startInd_mono M N (Nat.succ_le_of_lt hi))
  · intro hk
    have hpos : 0 < M / N := Nat.pos_of_ne_zero fun h0 => by
      rw [h0, Nat.mul_zero] at hk
      cases hk
    have hi : k / (M / N) < N := Nat.div_lt_of_lt_mul (by rwa [Nat.mul_comm])
    refine ⟨k / (M / N), hi, (mem_sortedRange hi).2 ⟨Nat.div_mul_le_self k _, ?_⟩⟩
    rw [startInd, Nat.mul_comm]
    exact Nat.lt_mul_div_succ k hpos

/-- The fragments but the last are what is sorted, and the last one goes on to `M`. -/
theorem fragmentRange_eq (hi : i < N) : fragmentRange M N i =
    Finset.Ico (startInd M N i) (if i = N - 1 then M else startInd M N (i + 1)) := by
  have hle : (i + 1) * (M / N) ≤ M := by
    have := slice_end_le (M := M) hi
    rwa [← Nat.succ_mul] at this
  rw [fragmentRange, ends, Function.update_apply]
  split_ifs with hlast
  · rw [← hlast, Nat.max_eq_right hle]
    rfl
  · rfl

/-- **The parts are the same exactly when `N` divides `M`.** -/
theorem sameParts_iff (M N : ℕ) (hN : 1 ≤ N) : SameParts M N ↔ N ∣ M := by
  constructor
  · intro h
    obtain rfl | hM := Nat.eq_zero_or_pos M
    · exact Nat.dvd_zero N
    · have hlast := exists_mem_sortedRange.1 ((h.cover (M - 1)).1 (by omega))
      have hle := Nat.mul_div_le M N
      exact ⟨M / N, by omega⟩
  · intro h
    have hmul : N * (M / N) = M := Nat.mul_div_cancel' h
    refine ⟨fun i hi j hj => disjoint_sortedRange hi hj, fun k => ?_, fun i hi => ?_⟩
    · rw [exists_mem_sortedRange, hmul]
    · rw [fragmentRange_eq hi, sortedRange, endInd_eq hi]
      split_ifs with hlast
      · rw [startInd, startInd, show i + 1 = N by omega, hmul]
      · rfl

theorem sameParts_sixteen_four : SameParts 16 4 := (sameParts_iff 16 4 (by decide)).2 (by decide)

/-- The constants of the program: the last thread sorts `[12, 15)`, the last fragment is
`[12, 16)`. -/
theorem constants_differ : ¬ ∀ M N : ℕ, N ≤ M → 1 ≤ N → SameParts M N := by
  intro h
  have hlast := (h 16 5 (by decide) (by decide)).fragment 4 (by decide)
  revert hlast
  decide +kernel

end SemOS.Mergesort
