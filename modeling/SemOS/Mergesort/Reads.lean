import Mathlib.Data.Finset.Max
import SemOS.Mergesort.Merge

/-!
# The reads of the merge

`sems/mergesort/mergesort.c` defines `DEBUG`, and so `find_min_in_current_slice` first prints the
heads of all fragments, those that have ended included. Its loop and `merge` read only heads of
fragments that have not ended.

* `mergeReads`: the indices at which `array` is read, in order, with the places that read it.
* `merge_eq_assigned`: the merge writes the elements that its assignment reads.
* `loop_read_lt_or_eq`: all reads are inside the array, but for that of the heads right behind it.
* **`readsInside_iff`**: all reads are inside the array exactly when a greatest element is in the
  last fragment.
-/

namespace SemOS.Mergesort

open Qsort (SortsBy)

open Function Merging

/-- The places that read `array`. -/
inductive Site
  /-- The heads that `find_min_in_current_slice` prints. -/
  | heads
  /-- `temp` of its loop. -/
  | temp
  /-- The minimum that `merge` prints. -/
  | found
  /-- The assignment to `new_array[i]`. -/
  | element
  deriving DecidableEq

/-- A read of `array`. -/
structure Read where
  site : Site
  index : ℕ
  deriving DecidableEq

/-- The reads of `find_min_in_current_slice`. -/
def findMinReads (N : ℕ) (indices ends : ℕ → ℕ) : List Read :=
  (List.range N).map (fun i => ⟨.heads, indices i⟩) ++
    ((List.range N).filter fun i => indices i < ends i).map fun i => ⟨.temp, indices i⟩

/-- The reads of the loop of `merge`, with so many turns to go. -/
def mergeLoopReads (N : ℕ) (array : List Int32) (ends : ℕ → ℕ) : ℕ → (ℕ → ℕ) → List Read
  | 0, _ => []
  | turns + 1, indices =>
    let minInd := findMinInCurrentSlice N array indices ends
    if N ≤ minInd then findMinReads N indices ends
    else
      findMinReads N indices ends ++ ⟨.found, indices minInd⟩ :: ⟨.element, indices minInd⟩ ::
        mergeLoopReads N array ends turns (update indices minInd (indices minInd + 1))

/-- The reads of `merge`. -/
def mergeReads (M N : ℕ) (array : List Int32) : List Read :=
  mergeLoopReads N array (ends M N) M fun i => i * (M / N)

variable {M N p i m turns : ℕ} {array : List Int32} {indices e : ℕ → ℕ} {read : Read}

/-- What `find_min_in_current_slice` reads: the heads of all fragments, and again those of the
fragments that have not ended. -/
theorem mem_findMinReads : read ∈ findMinReads N indices e ↔
    ∃ i < N, read.index = indices i ∧
      (read.site = .heads ∨ read.site = .temp ∧ indices i < e i) := by
  rw [findMinReads, List.mem_append, List.mem_map, List.mem_map]
  constructor
  · rintro (⟨i, hi, rfl⟩ | ⟨i, hi, rfl⟩)
    · exact ⟨i, List.mem_range.1 hi, rfl, .inl rfl⟩
    · obtain ⟨hi, hlt⟩ := List.mem_filter.1 hi
      exact ⟨i, List.mem_range.1 hi, rfl, .inr ⟨rfl, of_decide_eq_true hlt⟩⟩
  · obtain ⟨site, index⟩ := read
    rintro ⟨i, hi, rfl, rfl | ⟨rfl, hlt⟩⟩
    · exact .inl ⟨i, List.mem_range.2 hi, rfl⟩
    · exact .inr ⟨i, List.mem_filter.2 ⟨List.mem_range.2 hi, decide_eq_true hlt⟩, rfl⟩

/-! ## The elements that are written -/

/-- The elements that the assignment reads. -/
def assigned (array : List Int32) (reads : List Read) : List Int32 :=
  (reads.filter fun read => read.site = .element).map fun read => array.getD read.index 0

theorem assigned_findMinReads (indices e : ℕ → ℕ) (reads : List Read) :
    assigned array (findMinReads N indices e ++ reads) = assigned array reads := by
  have hnone : (findMinReads N indices e).filter (fun read => read.site = .element) = [] := by
    rw [List.filter_eq_nil_iff]
    intro read hread
    obtain ⟨i, -, -, hsite | ⟨hsite, -⟩⟩ := mem_findMinReads.1 hread <;> rw [hsite] <;> decide
  rw [assigned, List.filter_append, hnone, List.nil_append, ← assigned]

/-- The loop writes the elements that its assignment reads. -/
theorem mergeLoop_eq_assigned (turns i : ℕ) (indices : ℕ → ℕ) (newArray : List Int32)
    (hlen : i + turns ≤ newArray.length) :
    let out := assigned array (mergeLoopReads N array e turns indices)
    mergeLoop N array e turns i indices newArray =
      newArray.take i ++ out ++ newArray.drop (i + out.length) := by
  induction turns generalizing i indices newArray with
  | zero => simp [mergeLoop, mergeLoopReads, assigned]
  | succ turns ih =>
    rw [mergeLoop, mergeLoopReads]
    split_ifs with hmin
    · have hnil : assigned array (findMinReads N indices e) = [] := by
        rw [← List.append_nil (findMinReads N indices e), assigned_findMinReads]
        rfl
      rw [hnil]
      exact (by simp : newArray = newArray.take i ++ [] ++ newArray.drop (i + 0))
    · rw [assigned_findMinReads, ih _ _ _ (by rw [List.length_set]; omega),
        take_set_append_drop (by omega)]
      rfl

/-- **`merge` writes the elements that its assignment reads.** -/
theorem merge_eq_assigned (M N : ℕ) (array heap : List Int32) (hheap : heap.length = M) :
    let out := assigned array (mergeReads M N array)
    merge M N array heap = out ++ heap.drop out.length := by
  intro out
  rw [merge, mergeLoop_eq_assigned M 0 _ heap (by omega), List.take_zero, List.nil_append,
    Nat.zero_add]
  rfl

/-! ## The reads of a turn -/

/-- The cursors are in their fragments or at their ends. -/
def Within (M N : ℕ) (indices : ℕ → ℕ) : Prop := ∀ i < N, indices i ≤ ends M N i

theorem within_start (M N : ℕ) : Within M N fun i => i * (M / N) := by
  intro i _
  have hle : i * (M / N) ≤ (i + 1) * (M / N) := Nat.mul_le_mul_right _ (Nat.le_succ i)
  by_cases hlast : i = N - 1
  · rw [hlast, ends, update_self, ← hlast]
    exact hle.trans (le_max_left _ _)
  · rw [ends, update_of_ne hlast]
    exact hle

theorem Within.update (h : Within M N indices) (hm : indices m < ends M N m) :
    Within M N (update indices m (indices m + 1)) := by
  intro i hi
  rw [update_apply]
  split_ifs with him
  · rw [him]
    exact hm
  · exact h i hi

/-- All fragments but the last end inside the array. -/
theorem ends_lt (hM : p + 1 ≤ M) (hi : i < p) : ends M (p + 1) i < M := by
  have hpos : 0 < M / (p + 1) := Nat.div_pos hM (Nat.succ_pos p)
  rw [ends, Nat.add_sub_cancel, update_of_ne hi.ne]
  calc (i + 1) * (M / (p + 1)) < (p + 1) * (M / (p + 1)) :=
        Nat.mul_lt_mul_of_pos_right (Nat.succ_lt_succ hi) hpos
    _ ≤ M := Nat.mul_div_le M (p + 1)

/-- The last fragment has ended when its cursor is behind the array. -/
theorem rest_last_eq_nil_iff (hlen : array.length = M) (hw : Within M (p + 1) indices) :
    rest array (ends M (p + 1)) indices p = [] ↔ indices p = M := by
  have hle := hw p (Nat.lt_succ_self p)
  rw [ends_last] at hle
  constructor
  · intro hnil
    by_contra hne
    rw [rest_eq_cons (by rw [ends_last]; omega) (by rw [ends_last, hlen])] at hnil
    cases hnil
  · intro heq
    exact rest_eq_nil (by rw [ends_last]; omega)

/-- The reads of `find_min_in_current_slice` are inside the array, but for the head of the last
fragment when it has ended. -/
theorem read_lt_or_last (hM : p + 1 ≤ M) (hw : Within M (p + 1) indices)
    (hread : read ∈ findMinReads (p + 1) indices (ends M (p + 1))) :
    read.index < M ∨ read = ⟨.heads, M⟩ ∧ indices p = M := by
  obtain ⟨i, hi, hindex, hsite⟩ := mem_findMinReads.1 hread
  have hle := hw i hi
  obtain hi' | rfl := Nat.lt_succ_iff_lt_or_eq.1 hi
  · have := ends_lt hM hi'
    omega
  · rw [ends_last] at hle hsite
    obtain hlt | heq := hle.lt_or_eq
    · omega
    · obtain hsite | ⟨-, hlt⟩ := hsite
      · right
        obtain ⟨site, index⟩ := read
        obtain rfl : site = .heads := hsite
        obtain rfl : index = M := hindex.trans heq
        exact ⟨rfl, heq⟩
      · omega

/-- The head of a last fragment that has ended is read behind the array. -/
theorem last_mem_findMinReads (h : indices p = M) :
    ⟨.heads, M⟩ ∈ findMinReads (p + 1) indices e :=
  mem_findMinReads.2 ⟨p, Nat.lt_succ_self p, h.symm, .inl rfl⟩

/-- A turn begins with the reads of `find_min_in_current_slice`. -/
theorem findMinReads_subset (turns : ℕ) :
    findMinReads N indices e ⊆ mergeLoopReads N array e (turns + 1) indices := by
  intro read hread
  rw [mergeLoopReads]
  split
  · exact hread
  · exact List.mem_append_left _ hread

/-- Then it takes a head, which is read twice more, or it is the last turn. -/
theorem mergeLoopReads_succ (N turns : ℕ) (indices : ℕ → ℕ) (hlen : array.length = M) :
    (∃ m x tl, Takes N (rest array (ends M N) indices) m x tl ∧ indices m < ends M N m ∧
      rest array (ends M N) (update indices m (indices m + 1)) =
        update (rest array (ends M N) indices) m tl ∧
      mergeLoopReads N array (ends M N) (turns + 1) indices =
        findMinReads N indices (ends M N) ++ ⟨.found, indices m⟩ :: ⟨.element, indices m⟩ ::
          mergeLoopReads N array (ends M N) turns (update indices m (indices m + 1))) ∨
    (mergeLoopReads N array (ends M N) (turns + 1) indices = findMinReads N indices (ends M N) ∧
      ∀ i < N, ∀ y, (rest array (ends M N) indices i).head? = some y → intMax ≤ y) := by
  have he : ∀ i < N, ends M N i ≤ array.length := ends_le_length hlen
  rw [mergeLoopReads]
  obtain ⟨m, x, tl, hfind, ht, -⟩ | ⟨hfind, hmax⟩ := findMinInCurrentSlice_spec indices he
  · left
    refine ⟨m, x, tl, ht, lt_of_rest ht.eq_cons, rest_update ht.eq_cons (he m ht.lt), ?_⟩
    rw [hfind]
    exact if_neg (Nat.not_le.2 ht.lt)
  · right
    rw [hfind]
    exact ⟨if_pos le_rfl, hmax⟩

/-! ## The reads of a run -/

/-- All reads are inside the array, but for that of the heads right behind it. -/
theorem loop_read_lt_or_eq (hM : p + 1 ≤ M) (hlen : array.length = M)
    (hw : Within M (p + 1) indices)
    (hread : read ∈ mergeLoopReads (p + 1) array (ends M (p + 1)) turns indices) :
    read.index < M ∨ read = ⟨.heads, M⟩ := by
  induction turns generalizing indices with
  | zero => cases hread
  | succ turns ih =>
    obtain ⟨m, x, tl, ht, hlt, -, heq⟩ | ⟨heq, -⟩ :=
      mergeLoopReads_succ (p + 1) turns indices hlen
    · have hM' : indices m < M := hlt.trans_le (ends_le ht.lt)
      rw [heq, List.mem_append, List.mem_cons, List.mem_cons] at hread
      obtain hread | rfl | rfl | hread := hread
      · exact (read_lt_or_last hM hw hread).imp_right And.left
      · exact .inl hM'
      · exact .inl hM'
      · exact ih (hw.update hlt) hread
    · rw [heq] at hread
      exact (read_lt_or_last hM hw hread).imp_right And.left

/-- While a greatest element is in the last fragment, or no element in the others, nothing behind
the array is read. -/
theorem last_not_read {x : Int32} (hM : p + 1 ≤ M) (hlen : array.length = M)
    (hw : Within M (p + 1) indices)
    (hleft : turns ≤ Multiset.card (total (p + 1) (rest array (ends M (p + 1)) indices)))
    (htop : ∀ z ∈ total (p + 1) (rest array (ends M (p + 1)) indices), ¬ x < z)
    (hx : EndsLast p x (rest array (ends M (p + 1)) indices)) :
    ⟨.heads, M⟩ ∉ mergeLoopReads (p + 1) array (ends M (p + 1)) turns indices := by
  induction turns generalizing indices with
  | zero => exact List.not_mem_nil
  | succ turns ih =>
    have hfind : ⟨.heads, M⟩ ∉ findMinReads (p + 1) indices (ends M (p + 1)) := by
      intro hread
      obtain hlt | ⟨-, hlast⟩ := read_lt_or_last hM hw hread
      · exact lt_irrefl M hlt
      · exact hx.ne_nil (by omega) ((rest_last_eq_nil_iff hlen hw).2 hlast)
    obtain ⟨m, y, tl, ht, hlt, hrest, heq⟩ | ⟨heq, -⟩ :=
      mergeLoopReads_succ (p + 1) turns indices hlen
    · have hcard := ht.card
      have hloop := ih (hw.update hlt) (by rw [hrest]; omega)
        (by rw [hrest]; exact fun z hz => htop z (ht.mem_total hz))
        (by rw [hrest]; exact ht.endsLast htop hx)
      rw [heq, List.mem_append, List.mem_cons, List.mem_cons]
      rintro (hread | hread | hread | hread)
      · exact hfind hread
      · cases hread
      · cases hread
      · exact hloop hread
    · rw [heq]
      exact hfind

/-- While an element above all of the last fragment is left, and turns for all elements, there will
be a read behind the array. -/
theorem last_read {z : Int32} (hlen : array.length = M) (hw : Within M (p + 1) indices)
    (hleft : Multiset.card (total (p + 1) (rest array (ends M (p + 1)) indices)) ≤ turns)
    (hi : i < p + 1) (hz : z ∈ rest array (ends M (p + 1)) indices i)
    (habove : ∀ w ∈ rest array (ends M (p + 1)) indices p, w < z) :
    ⟨.heads, M⟩ ∈ mergeLoopReads (p + 1) array (ends M (p + 1)) turns indices := by
  induction turns generalizing indices with
  | zero =>
    have := Multiset.card_pos_iff_exists_mem.2 ⟨z, mem_total.2 ⟨i, hi, hz⟩⟩
    omega
  | succ turns ih =>
    by_cases hlast : rest array (ends M (p + 1)) indices p = []
    · apply findMinReads_subset
      exact last_mem_findMinReads ((rest_last_eq_nil_iff hlen hw).1 hlast)
    · obtain ⟨m, y, tl, ht, hlt, hrest, heq⟩ | ⟨-, hmax⟩ :=
        mergeLoopReads_succ (p + 1) turns indices hlen
      · have hcard := ht.card
        have hloop := ih (hw.update hlt) (by rw [hrest]; omega)
          (by rw [hrest]; exact ht.mem_update (Nat.lt_succ_self p) hlast habove hz)
          (by rw [hrest]; exact fun w hw => habove w (ht.mem_of_mem_update hw))
        rw [heq]
        exact List.mem_append_right _ (List.mem_cons_of_mem _ (List.mem_cons_of_mem _ hloop))
      · -- The loop does not break here: the head of the last fragment is below `INT_MAX`.
        obtain ⟨w, ws, hcons⟩ := List.exists_cons_of_ne_nil hlast
        have hle : intMax ≤ w := hmax p (Nat.lt_succ_self p) w (by rw [hcons]; rfl)
        have hlt : w < z := habove w (by rw [hcons]; exact List.mem_cons_self)
        exact absurd (le_intMax z) (hle.trans_lt hlt).not_ge

/-! ## Where a greatest element is -/

/-- There is a read behind the array exactly when no greatest element is in the last fragment. -/
theorem last_not_read_iff (hM : p + 1 ≤ M) (hlen : array.length = M) :
    ⟨.heads, M⟩ ∉ mergeReads M (p + 1) array ↔
      ∃ x ∈ array.drop (p * (M / (p + 1))), ∀ y ∈ array, y ≤ x := by
  have htotal : total (p + 1) (fragments M (p + 1) array) = array :=
    total_fragments (Nat.succ_pos p) hlen
  have hcard : Multiset.card (total (p + 1) (fragments M (p + 1) array)) = M := by
    rw [htotal, Multiset.coe_card, hlen]
  rw [← fragments_last_eq hlen]
  constructor
  · intro hread
    have hne : array.toFinset.Nonempty := by
      rw [List.toFinset_nonempty_iff]
      rintro rfl
      rw [List.length_nil] at hlen
      omega
    obtain ⟨z, hz, hmax⟩ := array.toFinset.exists_max_image id hne
    by_contra hnone
    apply hread
    rw [List.mem_toFinset, ← Multiset.mem_coe, ← htotal] at hz
    obtain ⟨i, hi, hz⟩ := mem_total.1 hz
    refine last_read hlen (within_start M (p + 1)) hcard.le hi hz fun w hw => ?_
    by_contra hnot
    refine hnone ⟨w, hw, fun y hy => ?_⟩
    exact (hmax y (List.mem_toFinset.2 hy)).trans (not_lt.1 hnot)
  · rintro ⟨x, hx, htop⟩
    refine last_not_read hM hlen (within_start M (p + 1)) hcard.ge ?_ (.inl hx)
    intro z hz
    rw [← fragments, htotal] at hz
    exact (htop z hz).not_gt

/-- **The whole sort.** After the threads the merge reads behind the array exactly when no greatest
element of what `main` was given is in the last slice or behind it. -/
theorem sort_last_not_read_iff {qsort : List Int32 → List Int32} {order : List ℕ}
    (hq : SortsBy (· ≤ ·) qsort) (hM : p + 1 ≤ M) (hlen : array.length = M)
    (horder : order.Perm (List.range (p + 1))) :
    ⟨.heads, M⟩ ∉ mergeReads M (p + 1) (sortAll qsort M (p + 1) array order) ↔
      ∃ x ∈ array.drop (p * (M / (p + 1))), ∀ y ∈ array, y ≤ x := by
  have hmem : ∀ {i}, i ∈ order ↔ i < p + 1 := horder.mem_iff.trans List.mem_range
  have hlt : ∀ i ∈ order, i < p + 1 := fun i => hmem.1
  have hperm : (sortAll qsort M (p + 1) array order).Perm array := sortAll_perm hq array hlt
  have hlen' := hperm.length_eq.trans hlen
  have hlast : ∀ x, x ∈ (sortAll qsort M (p + 1) array order).drop (p * (M / (p + 1))) ↔
      x ∈ array.drop (p * (M / (p + 1))) := by
    intro x
    rw [← fragments_last_eq hlen', ← fragments_last_eq hlen, fragments_last hlen',
      fragments_last hlen, drop_sortAll hq hlen hlt,
      slice_sortAll hq hlen hlt (horder.nodup_iff.2 List.nodup_range)
        (hmem.2 (Nat.lt_succ_self p)),
      List.mem_append, List.mem_append, (hq.perm _).mem_iff]
  rw [last_not_read_iff hM hlen']
  simp only [hlast, hperm.mem_iff]

/-- All reads are inside the array. -/
def ReadsInside (M N : ℕ) (array : List Int32) : Prop :=
  ∀ read ∈ mergeReads M N array, read.index < M

/-- **The merge reads only inside the array exactly when a greatest element of the array is in the
last fragment.** -/
theorem readsInside_iff (M N : ℕ) (hM : N ≤ M) (hN : 1 ≤ N) (array : List Int32)
    (hlen : array.length = M) :
    ReadsInside M N array ↔ ∃ x ∈ array.drop ((N - 1) * (M / N)), ∀ y ∈ array, y ≤ x := by
  obtain ⟨p, rfl⟩ : ∃ p, N = p + 1 := ⟨N - 1, by omega⟩
  rw [Nat.add_sub_cancel, ← last_not_read_iff hM hlen]
  constructor
  · exact fun h hread => lt_irrefl M (h _ hread)
  · intro hread read hmem
    obtain hlt | rfl := loop_read_lt_or_eq hM hlen (within_start M (p + 1)) hmem
    · exact hlt
    · exact absurd hmem hread

theorem readsInside_greatestLast : ReadsInside 4 2 [1, 3, 2, 4] := by
  apply (readsInside_iff 4 2 (by decide) (by decide) [1, 3, 2, 4] rfl).2
  refine ⟨4, by decide, ?_⟩
  simp only [List.mem_cons, List.not_mem_nil, or_false, forall_eq_or_imp, forall_eq]
  decide

/-- The array of `main` after its threads: the last fragment ends with the 14, and the heads are
printed once more before the 15 is written. -/
theorem heads_behind_array : ¬ ∀ M N : ℕ, N ≤ M → 1 ≤ N → ∀ array : List Int32,
    array.length = M → ReadsInside M N array := by
  intro h
  have hread := h 16 5 (by decide) (by decide)
    [3, 8, 9, 0, 1, 2, 4, 5, 7, 6, 10, 15, 11, 12, 13, 14] rfl ⟨.heads, 16⟩ (by decide +kernel)
  exact lt_irrefl 16 hread

end SemOS.Mergesort
