import Mathlib.Data.List.GetD
import Mathlib.Data.List.Sort
import SemOS.Foundations.Merging
import SemOS.Mergesort.Slices

/-!
# The merge of the sorted slices

`find_min_in_current_slice` and `merge` of `sems/mergesort/mergesort.c`. There is one fragment for
each slice, and the last one goes on to the end of the array. `minVal` starts at `INT_MAX` and is
compared strictly, so that a fragment whose head is `INT_MAX` counts as ended.

* `Merged`: the merge takes heads of the fragments until it has `M` elements or all heads are
  `INT_MAX`; what it has not written is what `malloc` returned.
* **`losesNothing_iff`**: from sorted fragments the merge loses nothing exactly when `INT_MAX` does
  not occur.
* **`sorted_copy_iff`**: the whole sort returns a sorted copy exactly when `INT_MAX` does not occur,
  and the elements behind the last slice are in order and not below that slice.
-/

namespace SemOS.Mergesort

open Qsort (SortsBy)

open Function Merging

/-- `INT_MAX`. -/
def intMax : Int32 := 2147483647

/-- The variables of `find_min_in_current_slice`. -/
structure Scan where
  targetInd : ℕ
  minVal : Int32
  found : Bool

/-- One turn of its loop. -/
def consider (array : List Int32) (indices ends : ℕ → ℕ) (scan : Scan) (i : ℕ) : Scan :=
  if indices i < ends i then
    let temp := array.getD (indices i) 0
    if temp < scan.minVal then ⟨i, temp, true⟩ else scan
  else scan

/-- `find_min_in_current_slice`, with `N` for "all fragments have ended". -/
def findMinInCurrentSlice (N : ℕ) (array : List Int32) (indices ends : ℕ → ℕ) : ℕ :=
  let scan := (List.range N).foldl (consider array indices ends) ⟨0, intMax, false⟩
  if scan.found then scan.targetInd else N

/-- The ends of the fragments. -/
def ends (M N : ℕ) : ℕ → ℕ :=
  let sliceEnds := fun i => (i + 1) * (M / N)
  update sliceEnds (N - 1) (max (sliceEnds (N - 1)) M)

/-- The loop of `merge` from `i` on, with so many turns to go. -/
def mergeLoop (N : ℕ) (array : List Int32) (ends : ℕ → ℕ) :
    ℕ → ℕ → (ℕ → ℕ) → List Int32 → List Int32
  | 0, _, _, newArray => newArray
  | turns + 1, i, indices, newArray =>
    let minInd := findMinInCurrentSlice N array indices ends
    if N ≤ minInd then newArray
    else
      mergeLoop N array ends turns (i + 1) (update indices minInd (indices minInd + 1))
        (newArray.set i (array.getD (indices minInd) 0))

/-- `merge`, with what `malloc` returns. -/
def merge (M N : ℕ) (array heap : List Int32) : List Int32 :=
  mergeLoop N array (ends M N) M 0 (fun i => i * (M / N)) heap

/-- A sorted copy of an array of `M` elements. -/
structure SortedCopy (M : ℕ) (array result : List Int32) : Prop where
  length : result.length = M
  sorted : result.Pairwise (· ≤ ·)
  perm : result.Perm array

variable {M N n i m k : ℕ} {array heap : List Int32} {indices : ℕ → ℕ} {e : ℕ → ℕ}

/-! ## The minimum of the heads -/

/-- What is left of a fragment. -/
def rest (array : List Int32) (e indices : ℕ → ℕ) (i : ℕ) : List Int32 :=
  (array.drop (indices i)).take (e i - indices i)

theorem rest_eq_nil (h : ¬ indices i < e i) : rest array e indices i = [] := by
  rw [rest, Nat.sub_eq_zero_of_le (Nat.le_of_not_lt h), List.take_zero]

/-- The head of a fragment, and what is left after it. -/
theorem rest_eq_cons (h : indices i < e i) (he : e i ≤ array.length) :
    rest array e indices i = array.getD (indices i) 0 ::
      (array.drop (indices i + 1)).take (e i - (indices i + 1)) := by
  have hlt : indices i < array.length := h.trans_le he
  obtain ⟨d, hd⟩ : ∃ d, e i - indices i = d + 1 := ⟨e i - indices i - 1, by omega⟩
  rw [rest, hd, List.drop_eq_getElem_cons hlt, List.take_succ_cons, List.getD_eq_getElem _ _ hlt,
    show e i - (indices i + 1) = d by omega]

theorem lt_of_rest {x : Int32} {tl : List Int32} (h : rest array e indices m = x :: tl) :
    indices m < e m := by
  by_contra hnot
  rw [rest_eq_nil hnot] at h
  cases h

theorem getD_of_rest {x : Int32} {tl : List Int32} (h : rest array e indices m = x :: tl)
    (he : e m ≤ array.length) : array.getD (indices m) 0 = x := by
  rw [rest_eq_cons (lt_of_rest h) he] at h
  exact List.head_eq_of_cons_eq h

/-- Behind the head of a fragment. -/
theorem rest_update {x : Int32} {tl : List Int32} (h : rest array e indices m = x :: tl)
    (he : e m ≤ array.length) :
    rest array e (update indices m (indices m + 1)) = update (rest array e indices) m tl := by
  rw [rest_eq_cons (lt_of_rest h) he] at h
  obtain ⟨-, rfl⟩ := List.cons.inj h
  funext i
  by_cases him : i = m
  · rw [him, rest, update_self, update_self]
  · rw [rest, update_of_ne him, update_of_ne him, rest]

/-- After the fragments below `n`: `minVal` is below their heads, and it is the head of
`targetInd` if anything was found. -/
structure Scanned (array : List Int32) (indices e : ℕ → ℕ) (n : ℕ) (scan : Scan) : Prop where
  le : ∀ i < n, ∀ y, (rest array e indices i).head? = some y → scan.minVal ≤ y
  lt : scan.found = true → scan.targetInd < n
  head : scan.found = true → (rest array e indices scan.targetInd).head? = some scan.minVal
  lt_intMax : scan.found = true → scan.minVal < intMax
  notFound : scan.found = false → scan.minVal = intMax

/-- One turn of the loop. -/
theorem Scanned.consider {scan : Scan} (h : Scanned array indices e n scan)
    (he : e n ≤ array.length) :
    Scanned array indices e (n + 1) (consider array indices e scan n) := by
  by_cases hn : indices n < e n
  · have hrest : (rest array e indices n).head? = some (array.getD (indices n) 0) := by
      rw [rest_eq_cons hn he, List.head?_cons]
    by_cases hlt : array.getD (indices n) 0 < scan.minVal
    · rw [Mergesort.consider, if_pos hn, if_pos hlt]
      have hmax : scan.minVal ≤ intMax := by
        cases hf : scan.found with
        | true => exact (h.lt_intMax hf).le
        | false => exact (h.notFound hf).le
      refine ⟨fun i hi y hy => ?_, fun _ => Nat.lt_succ_self n, fun _ => hrest,
        fun _ => hlt.trans_le hmax, fun hf => Bool.noConfusion hf⟩
      obtain hi | rfl := Nat.lt_succ_iff_lt_or_eq.1 hi
      · exact hlt.le.trans (h.le i hi y hy)
      · rw [hrest] at hy
        exact (Option.some.inj hy).le
    · rw [Mergesort.consider, if_pos hn, if_neg hlt]
      refine ⟨fun i hi y hy => ?_, fun hf => (h.lt hf).trans (Nat.lt_succ_self n), h.head,
        h.lt_intMax, h.notFound⟩
      obtain hi | rfl := Nat.lt_succ_iff_lt_or_eq.1 hi
      · exact h.le i hi y hy
      · rw [hrest] at hy
        exact (not_lt.1 hlt).trans (Option.some.inj hy).le
  · rw [Mergesort.consider, if_neg hn]
    refine ⟨fun i hi y hy => ?_, fun hf => (h.lt hf).trans (Nat.lt_succ_self n), h.head,
      h.lt_intMax, h.notFound⟩
    obtain hi | rfl := Nat.lt_succ_iff_lt_or_eq.1 hi
    · exact h.le i hi y hy
    · rw [rest_eq_nil hn] at hy
      cases hy

/-- The whole loop. -/
theorem scanned_range (indices : ℕ → ℕ) (he : ∀ i < n, e i ≤ array.length) :
    Scanned array indices e n
      ((List.range n).foldl (consider array indices e) ⟨0, intMax, false⟩) := by
  induction n with
  | zero =>
    refine ⟨fun i hi => absurd hi (Nat.not_lt_zero i), ?_, ?_, ?_, fun _ => rfl⟩ <;>
      exact fun hf => Bool.noConfusion hf
  | succ n ih =>
    rw [List.range_succ, List.foldl_append, List.foldl_cons, List.foldl_nil]
    exact (ih fun i hi => he i (hi.trans (Nat.lt_succ_self n))).consider (he n (Nat.lt_succ_self n))

/-- `targetInd` is the first fragment with its head: the heads before it are above. -/
theorem lt_head_of_lt_targetInd (indices : ℕ → ℕ) (he : ∀ i < n, e i ≤ array.length) :
    let scan := (List.range n).foldl (consider array indices e) ⟨0, intMax, false⟩
    ∀ i < scan.targetInd, ∀ y, (rest array e indices i).head? = some y → scan.minVal < y := by
  induction n with
  | zero => exact fun i hi => absurd hi (Nat.not_lt_zero i)
  | succ n ih =>
    have he' : ∀ i < n, e i ≤ array.length := fun i hi => he i (hi.trans (Nat.lt_succ_self n))
    have hscanned := scanned_range indices he'
    rw [List.range_succ, List.foldl_append, List.foldl_cons, List.foldl_nil, consider]
    split
    · dsimp only
      split
      · rename_i hlt
        exact fun i hi y hy => hlt.trans_le (hscanned.le i hi y hy)
      · exact ih he'
    · exact ih he'

/-- `find_min_in_current_slice` finds the first fragment whose head is least and below `INT_MAX`, or
there is none. -/
theorem findMinInCurrentSlice_spec (indices : ℕ → ℕ) (he : ∀ i < N, e i ≤ array.length) :
    (∃ m x tl, findMinInCurrentSlice N array indices e = m ∧
      Takes N (rest array e indices) m x tl ∧ x < intMax) ∨
    (findMinInCurrentSlice N array indices e = N ∧
      ∀ i < N, ∀ y, (rest array e indices i).head? = some y → intMax ≤ y) := by
  have h := scanned_range indices he
  have hfirst := lt_head_of_lt_targetInd indices he
  rw [findMinInCurrentSlice]
  cases hf : ((List.range N).foldl (consider array indices e) ⟨0, intMax, false⟩).found with
  | true =>
    obtain ⟨tl, htl⟩ := List.head?_eq_some_iff.1 (h.head hf)
    exact .inl ⟨_, _, tl, if_pos rfl, ⟨h.lt hf, htl, h.le, hfirst⟩, h.lt_intMax hf⟩
  | false =>
    refine .inr ⟨?_, fun i hi y hy => ?_⟩
    · simp only [Bool.false_eq_true, if_false]
    · rw [← h.notFound hf]
      exact h.le i hi y hy

/-! ## The merge -/

/-- What the merge writes: heads of the fragments, below `INT_MAX`, until so many are written or all
heads are `INT_MAX`. -/
structure Merged (N turns : ℕ) (r : ℕ → List Int32) (out : List Int32) (r' : ℕ → List Int32) :
    Prop where
  merges : Merges N r out r'
  lt_intMax : ∀ x ∈ out, x < intMax
  length_le : out.length ≤ turns
  ended : out.length = turns ∨ ∀ i < N, ∀ y, (r' i).head? = some y → intMax ≤ y

theorem Merged.nil {turns : ℕ} {r : ℕ → List Int32}
    (h : 0 = turns ∨ ∀ i < N, ∀ y, (r i).head? = some y → intMax ≤ y) : Merged N turns r [] r :=
  ⟨.done r, List.forall_mem_nil _, Nat.zero_le _, h⟩

theorem Merged.cons {turns : ℕ} {r r' : ℕ → List Int32} {out tl : List Int32} {x : Int32}
    (ht : Takes N r m x tl) (hx : x < intMax) (h : Merged N turns (update r m tl) out r') :
    Merged N (turns + 1) r (x :: out) r' := by
  refine ⟨.take ht.lt ht.eq_cons ht.le h.merges, ?_, Nat.succ_le_succ h.length_le, ?_⟩
  · rw [List.forall_mem_cons]
    exact ⟨hx, h.lt_intMax⟩
  · apply h.ended.imp_left
    exact congrArg Nat.succ

/-- Writing one element behind those written. -/
theorem take_set_append_drop {newArray out : List Int32} {x : Int32} (hi : i < newArray.length) :
    (newArray.set i x).take (i + 1) ++ out ++ (newArray.set i x).drop (i + 1 + out.length) =
      newArray.take i ++ (x :: out) ++ newArray.drop (i + (x :: out).length) := by
  rw [List.take_add_one, List.take_set_of_le (Nat.le_refl i), List.getElem?_set_self hi,
    List.drop_set_of_lt (by omega), List.length_cons, Nat.add_right_comm i 1, Nat.add_assoc,
    List.append_assoc, List.append_assoc, List.append_assoc]
  rfl

/-- The loop of `merge`. -/
theorem mergeLoop_eq (turns i : ℕ) (indices : ℕ → ℕ) (he : ∀ i < N, e i ≤ array.length) :
    ∃ out r', Merged N turns (rest array e indices) out r' ∧
      ∀ newArray : List Int32, i + turns ≤ newArray.length →
        mergeLoop N array e turns i indices newArray =
          newArray.take i ++ out ++ newArray.drop (i + out.length) := by
  induction turns generalizing i indices with
  | zero =>
    refine ⟨[], _, .nil (.inl rfl), fun newArray _ => ?_⟩
    rw [mergeLoop, List.append_nil, List.length_nil, Nat.add_zero, List.take_append_drop]
  | succ turns ih =>
    obtain ⟨m, x, tl, hfind, ht, hx⟩ | ⟨hfind, hmax⟩ := findMinInCurrentSlice_spec indices he
    · obtain ⟨out, r', hmerged, hloop⟩ := ih (i + 1) (update indices m (indices m + 1))
      rw [rest_update ht.eq_cons (he m ht.lt)] at hmerged
      refine ⟨x :: out, r', hmerged.cons ht hx, fun newArray hlen => ?_⟩
      rw [mergeLoop]
      simp only [hfind]
      rw [if_neg (Nat.not_le.2 ht.lt), getD_of_rest ht.eq_cons (he m ht.lt),
        hloop _ (by rw [List.length_set]; omega), take_set_append_drop (by omega)]
    · refine ⟨[], _, .nil (.inr hmax), fun newArray _ => ?_⟩
      rw [mergeLoop]
      simp only [hfind, Nat.le_refl, if_true]
      rw [List.append_nil, List.length_nil, Nat.add_zero, List.take_append_drop]

/-! ## The fragments -/

/-- The fragments that `merge` starts with. -/
def fragments (M N : ℕ) (array : List Int32) : ℕ → List Int32 :=
  rest array (ends M N) fun i => i * (M / N)

theorem ends_le (hi : i < N) : ends M N i ≤ M := by
  have hle : ∀ {i}, i < N → (i + 1) * (M / N) ≤ M := fun hi =>
    (Nat.mul_le_mul_right _ hi).trans (Nat.mul_div_le M N)
  by_cases hlast : i = N - 1
  · rw [hlast, ends, update_self]
    exact max_le (hle (by omega)) le_rfl
  · rw [ends, update_of_ne hlast]
    exact hle hi

theorem ends_le_length (hlen : array.length = M) : ∀ i < N, ends M N i ≤ array.length :=
  fun _ hi => (ends_le hi).trans hlen.ge

theorem ends_last (M i : ℕ) : ends M (i + 1) i = M := by
  rw [ends, Nat.add_sub_cancel, update_self]
  exact max_eq_right (Nat.mul_div_le M (i + 1))

theorem fragments_of_lt (hi : i + 1 < N) : fragments M N array i = slice (M / N) i array := by
  rw [fragments, rest, ends, update_of_ne (by omega), slice, Nat.add_mul, Nat.one_mul,
    Nat.add_sub_cancel_left]

/-- The last fragment goes on to the end of the array. -/
theorem fragments_last_eq (hlen : array.length = M) :
    fragments M (i + 1) array i = array.drop (i * (M / (i + 1))) := by
  rw [fragments, rest, ends_last, List.take_of_length_le (by rw [List.length_drop, hlen])]

/-- It is the last slice and what is behind it. -/
theorem fragments_last (hlen : array.length = M) :
    fragments M (i + 1) array i =
      slice (M / (i + 1)) i array ++ array.drop ((i + 1) * (M / (i + 1))) := by
  rw [fragments_last_eq hlen, slice, Nat.add_mul, Nat.one_mul, ← List.drop_drop,
    List.take_append_drop]

/-- The fragments are the array. -/
theorem total_fragments (hN : 1 ≤ N) (hlen : array.length = M) :
    total N (fragments M N array) = array := by
  obtain ⟨p, rfl⟩ : ∃ p, N = p + 1 := ⟨N - 1, by omega⟩
  have hslices : ∀ n ≤ p, total n (fragments M (p + 1) array) =
      (array.take (n * (M / (p + 1))) : Multiset Int32) := by
    intro n hn
    induction n with
    | zero => rw [Nat.zero_mul]; rfl
    | succ n ih =>
      rw [total, Finset.sum_range_succ, ← total, ih (by omega), fragments_of_lt (by omega),
        Nat.add_mul, Nat.one_mul, List.take_add, ← Multiset.coe_add, slice]
  rw [total, Finset.sum_range_succ, ← total, hslices p le_rfl, fragments_last hlen, slice,
    Multiset.coe_add, Nat.add_mul, Nat.one_mul, ← List.drop_drop, List.take_append_drop,
    List.take_append_drop]

/-- What `merge` returns, whatever `malloc` has returned. -/
theorem merge_eq (hlen : array.length = M) :
    ∃ out r', Merged N M (fragments M N array) out r' ∧
      ∀ heap : List Int32, heap.length = M →
        merge M N array heap = out ++ heap.drop out.length := by
  obtain ⟨out, r', hmerged, hloop⟩ := mergeLoop_eq M 0 (fun i => i * (M / N))
    (ends_le_length hlen)
  refine ⟨out, r', hmerged, fun heap hheap => ?_⟩
  rw [merge, hloop heap (by omega), List.take_zero, List.nil_append, Nat.zero_add]

theorem le_intMax (x : Int32) : x ≤ intMax := by
  rw [Int32.le_iff_toInt_le]
  exact Int32.toInt_le x

/-! ## Sorted copies -/

/-- What is written and what is left. -/
theorem Merged.length_add_card {r r' : ℕ → List Int32} {out : List Int32}
    (h : Merged N M r out r') (hr : total N r = array) (hlen : array.length = M) :
    out.length + Multiset.card (total N r') = M := by
  rw [← Multiset.coe_card, ← Multiset.card_add, ← h.merges.add_eq, hr, Multiset.coe_card, hlen]

/-- Without `INT_MAX` everything is written. -/
theorem Merged.written {r r' : ℕ → List Int32} {out : List Int32} (h : Merged N M r out r')
    (hr : total N r = array) (hlen : array.length = M) (hmax : intMax ∉ array) :
    ∀ i < N, r' i = [] := by
  intro i hi
  cases hri : r' i with
  | nil => rfl
  | cons y tl =>
    have hy : y ∈ total N r' := mem_total.2 ⟨i, hi, by rw [hri]; exact List.mem_cons_self⟩
    have hadd := hr.symm.trans h.merges.add_eq
    exfalso
    obtain hall | hend := h.ended
    · have := h.length_add_card hr hlen
      have := Multiset.card_pos_iff_exists_mem.2 ⟨y, hy⟩
      omega
    · apply hmax
      rw [← Multiset.mem_coe, hadd, ← (le_intMax y).antisymm (hend i hi y (by rw [hri]; rfl))]
      exact Multiset.mem_add.2 (.inr hy)

/-- With `INT_MAX` something is not written. -/
theorem Merged.length_lt {r r' : ℕ → List Int32} {out : List Int32} (h : Merged N M r out r')
    (hr : total N r = array) (hlen : array.length = M) (hmax : intMax ∈ array) :
    out.length < M := by
  refine lt_of_le_of_ne h.length_le fun hall => ?_
  have hadd := hr.symm.trans h.merges.add_eq
  have hcard := h.length_add_card hr hlen
  have hzero : total N r' = 0 := Multiset.card_eq_zero.1 (by omega)
  rw [hzero, add_zero] at hadd
  rw [← Multiset.mem_coe, hadd, Multiset.mem_coe] at hmax
  exact lt_irrefl _ (h.lt_intMax _ hmax)

/-- Without `INT_MAX` the merge writes every element of the array, whatever `malloc` returned. -/
theorem merge_written (hN : 1 ≤ N) (hlen : array.length = M) (hmax : intMax ∉ array) :
    ∃ out, out.Perm array ∧
      (out.Pairwise (· ≤ ·) ↔ ∀ i < N, (fragments M N array i).Pairwise (· ≤ ·)) ∧
        ∀ heap : List Int32, heap.length = M → merge M N array heap = out := by
  obtain ⟨out, r', h, hmerge⟩ := merge_eq (N := N) hlen
  have htotal := total_fragments hN hlen
  have hend := h.written htotal hlen hmax
  have hzero : total N r' = 0 := by
    apply Multiset.eq_zero_of_forall_notMem
    intro x hx
    obtain ⟨i, hi, hx⟩ := mem_total.1 hx
    rw [hend i hi] at hx
    cases hx
  have hperm : out.Perm array := by
    rw [← Multiset.coe_eq_coe, ← htotal, h.merges.add_eq, hzero, add_zero]
  have hout : out.length = M := hperm.length_eq.trans hlen
  refine ⟨out, hperm, h.merges.sorted_iff hend, fun heap hheap => ?_⟩
  rw [hmerge heap hheap, List.drop_of_length_le (by omega), List.append_nil]

/-- Without `INT_MAX` the merge gives a sorted copy exactly when all fragments are sorted. -/
theorem merge_sortedCopy_iff (hN : 1 ≤ N) (hlen : array.length = M) (hmax : intMax ∉ array)
    (hheap : heap.length = M) :
    SortedCopy M array (merge M N array heap) ↔
      ∀ i < N, (fragments M N array i).Pairwise (· ≤ ·) := by
  obtain ⟨out, hperm, hsorted, hmerge⟩ := merge_written hN hlen hmax
  rw [hmerge heap hheap, ← hsorted]
  exact ⟨fun hs => hs.sorted, fun hs => ⟨hperm.length_eq.trans hlen, hs, hperm⟩⟩

/-- With `INT_MAX` the result depends on what `malloc` returns. -/
theorem not_forall_sortedCopy (hN : 1 ≤ N) (hlen : array.length = M) (hmax : intMax ∈ array) :
    ¬ ∀ heap : List Int32, heap.length = M → SortedCopy M array (merge M N array heap) := by
  intro h
  obtain ⟨out, r', hmerged, hmerge⟩ := merge_eq (N := N) hlen
  have hlt := hmerged.length_lt (total_fragments hN hlen) hlen hmax
  have hperm : ∀ x : Int32, (out ++ List.replicate (M - out.length) x).Perm array := by
    intro x
    have := (h (List.replicate M x) List.length_replicate).perm
    rwa [hmerge _ List.length_replicate, List.drop_replicate] at this
  have hrep := (List.perm_append_left_iff out).1 ((hperm 0).trans (hperm 1).symm)
  rw [List.perm_replicate, List.eq_replicate_iff] at hrep
  have := hrep.2 0 (List.mem_replicate.2 ⟨by omega, rfl⟩)
  revert this
  decide

/-- The merge writes all `M` elements of its result, whatever `malloc` has returned, and they are a
sorted copy of the array. -/
def LosesNothing (M N : ℕ) (array : List Int32) : Prop :=
  ∃ result, SortedCopy M array result ∧
    ∀ heap : List Int32, heap.length = M → merge M N array heap = result

/-- **Of sorted fragments the merge loses nothing exactly when `INT_MAX` does not occur.** -/
theorem losesNothing_iff (M N : ℕ) (hN : 1 ≤ N) (array : List Int32) (hlen : array.length = M)
    (hsorted : ∀ i < N, (fragments M N array i).Pairwise (· ≤ ·)) :
    LosesNothing M N array ↔ intMax ∉ array := by
  constructor
  · rintro ⟨result, hcopy, hmerge⟩ hmax
    apply not_forall_sortedCopy hN hlen hmax
    intro heap hheap
    rw [hmerge heap hheap]
    exact hcopy
  · intro hmax
    obtain ⟨out, hperm, hout, hmerge⟩ := merge_written hN hlen hmax
    exact ⟨out, ⟨hperm.length_eq.trans hlen, hout.2 hsorted, hperm⟩, hmerge⟩

theorem losesNothing_duplicates : LosesNothing 4 2 [1, 3, 1, 2] :=
  (losesNothing_iff 4 2 (by decide) [1, 3, 1, 2] rfl (by decide +kernel)).2 (by decide)

/-- With `INT_MAX` in a fragment, the merge stops when it is the only head left. -/
theorem intMax_not_merged : ¬ ∀ M N : ℕ, N ≤ M → 1 ≤ N → ∀ array : List Int32, array.length = M →
    (∀ i < N, (fragments M N array i).Pairwise (· ≤ ·)) → LosesNothing M N array := by
  intro h
  have hloses := h 4 2 (by decide) (by decide) [1, 2147483647, 2, 3] rfl (by decide +kernel)
  obtain ⟨result, hcopy, hmerge⟩ := hloses
  have hzeros := hmerge (List.replicate 4 0) rfl
  have hones := hmerge (List.replicate 4 1) rfl
  rw [← hones] at hzeros
  revert hzeros
  decide +kernel

/-! ## The whole sort -/

variable {qsort : List Int32 → List Int32} {order : List ℕ}

/-- The fragments after the threads are done: all but the last are sorted. -/
theorem fragments_sortAll_iff (hq : SortsBy (· ≤ ·) qsort) (hN : 1 ≤ N) (hlen : array.length = M)
    (horder : order.Perm (List.range N)) :
    (∀ i < N, (fragments M N (sortAll qsort M N array order) i).Pairwise (· ≤ ·)) ↔
      (array.drop (N * (M / N))).Pairwise (· ≤ ·) ∧
        ∀ x ∈ slice (M / N) (N - 1) array, ∀ y ∈ array.drop (N * (M / N)), x ≤ y := by
  have hmem : ∀ {i}, i ∈ order ↔ i < N := horder.mem_iff.trans List.mem_range
  have hlt : ∀ i ∈ order, i < N := fun i => hmem.1
  have hslice : ∀ i < N, slice (M / N) i (sortAll qsort M N array order) =
      qsort (slice (M / N) i array) := fun i hi =>
    slice_sortAll hq hlen hlt (horder.nodup_iff.2 List.nodup_range) (hmem.2 hi)
  obtain ⟨p, rfl⟩ : ∃ p, N = p + 1 := ⟨N - 1, by omega⟩
  have hlast : (fragments M (p + 1) (sortAll qsort M (p + 1) array order) p).Pairwise (· ≤ ·) ↔
      (array.drop ((p + 1) * (M / (p + 1)))).Pairwise (· ≤ ·) ∧
        ∀ x ∈ slice (M / (p + 1)) p array, ∀ y ∈ array.drop ((p + 1) * (M / (p + 1))), x ≤ y := by
    rw [fragments_last ((sortAll_perm hq array hlt).length_eq.trans hlen),
      hslice p (Nat.lt_succ_self p), drop_sortAll hq hlen hlt, List.pairwise_append]
    simp only [(hq.perm _).mem_iff]
    exact and_iff_right (hq.sorted _)
  rw [Nat.add_sub_cancel, ← hlast]
  refine ⟨fun h => h p (Nat.lt_succ_self p), fun h i hi => ?_⟩
  obtain hi' | rfl := Nat.lt_succ_iff_lt_or_eq.1 hi
  · rw [fragments_of_lt (Nat.succ_lt_succ hi'), hslice i hi]
    exact hq.sorted _
  · exact h

/-- **The sort.** The threads and the merge return a sorted copy, whatever `malloc` returns, exactly
when `INT_MAX` does not occur and the elements behind the last slice are in order and not below
those of that slice. -/
theorem sorted_copy_iff (M N : ℕ) (hN : 1 ≤ N) (qsort : List Int32 → List Int32)
    (hq : SortsBy (· ≤ ·) qsort) (array : List Int32) (hlen : array.length = M) (order : List ℕ)
    (horder : order.Perm (List.range N)) :
    (∀ heap : List Int32, heap.length = M →
      SortedCopy M array (merge M N (sortAll qsort M N array order) heap)) ↔
      intMax ∉ array ∧ (array.drop (N * (M / N))).Pairwise (· ≤ ·) ∧
        ∀ x ∈ slice (M / N) (N - 1) array, ∀ y ∈ array.drop (N * (M / N)), x ≤ y := by
  have hperm : (sortAll qsort M N array order).Perm array :=
    sortAll_perm hq array fun i hi => List.mem_range.1 (horder.mem_iff.1 hi)
  have hlen' := hperm.length_eq.trans hlen
  have hcopy : ∀ result, SortedCopy M array result ↔
      SortedCopy M (sortAll qsort M N array order) result := fun result =>
    ⟨fun h => ⟨h.length, h.sorted, h.perm.trans hperm.symm⟩,
      fun h => ⟨h.length, h.sorted, h.perm.trans hperm⟩⟩
  simp only [hcopy]
  rw [← fragments_sortAll_iff hq hN hlen horder, ← hperm.mem_iff]
  by_cases hmax : intMax ∈ sortAll qsort M N array order
  · exact ⟨fun h => absurd h (not_forall_sortedCopy hN hlen' hmax), fun h => absurd hmax h.1⟩
  · refine ⟨fun h => ⟨hmax, ?_⟩, fun h heap hheap => ?_⟩
    · apply (merge_sortedCopy_iff hN hlen' hmax (List.length_replicate (a := 0))).1
      exact h _ List.length_replicate
    · exact (merge_sortedCopy_iff hN hlen' hmax hheap).2 h.2

/-- A sort in the order of the integers. -/
theorem sortsBy_insertionSort :
    SortsBy (· ≤ ·) (List.insertionSort fun a b : Int32 => a ≤ b) :=
  ⟨List.perm_insertionSort _, List.pairwise_insertionSort _⟩

/-- The array of `main`, with its threads in order, and zeros in what `malloc` returns. -/
theorem sorted_copy_main :
    SortedCopy 16 [8, 9, 3, 2, 0, 1, 4, 5, 7, 6, 10, 15, 13, 12, 11, 14]
      (merge 16 5 (sortAll (List.insertionSort (· ≤ ·)) 16 5
        [8, 9, 3, 2, 0, 1, 4, 5, 7, 6, 10, 15, 13, 12, 11, 14] [0, 1, 2, 3, 4])
        (List.replicate 16 0)) := by
  apply (sorted_copy_iff 16 5 (by decide) _ sortsBy_insertionSort _ rfl [0, 1, 2, 3, 4]
    (by decide)).2
  · refine ⟨by decide +kernel, by decide +kernel, ?_⟩
    change ∀ x ∈ [13, 12, 11], ∀ y ∈ [14], (x : Int32) ≤ y
    simp only [List.mem_cons, List.not_mem_nil, or_false, forall_eq_or_imp, forall_eq]
    decide
  · rfl

/-- The same array with 14 and 0 exchanged: no thread sorts the 0 at its end, and the merge meets it
behind the 13 of the last slice. The result ends with 13, 0, 14, 15. -/
theorem least_behind_slices_fails : ¬ ∀ M N : ℕ, N ≤ M → 1 ≤ N →
    ∀ qsort, SortsBy (· ≤ ·) qsort → ∀ array : List Int32, array.length = M →
      ∀ order : List ℕ, order.Perm (List.range N) → ∀ heap : List Int32, heap.length = M →
        SortedCopy M array (merge M N (sortAll qsort M N array order) heap) := by
  intro h
  have := (h 16 5 (by decide) (by decide) _ sortsBy_insertionSort
    [8, 9, 3, 2, 14, 1, 4, 5, 7, 6, 10, 15, 13, 12, 11, 0] rfl [0, 1, 2, 3, 4] (by decide)
    (List.replicate 16 0) rfl).sorted
  revert this
  decide +kernel

end SemOS.Mergesort
