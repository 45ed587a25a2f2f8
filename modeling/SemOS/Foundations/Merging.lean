import Mathlib.Algebra.BigOperators.Group.Finset.Piecewise
import Mathlib.Algebra.Order.Group.Multiset
import Mathlib.Data.List.Pairwise
import Mathlib.Order.Defs.PartialOrder

/-!
# Merging lists by their heads

`N` lists are merged by taking, again and again, a head that no other head is below.

* `Merges N r out r'`: so many heads of the lists `r` are taken, one after the other, as `out` is
  long, and `r'` is what is left.
* Nothing is lost or repeated (`Merges.add_eq`), the elements of one list keep their order
  (`Merges.exists_sublist`), and from sorted lists the output is sorted (`Merges.sorted`).
* `Merges.sorted_iff`: of lists that are merged to their ends, the output is sorted exactly when
  each of them is.
* `Takes N r m x tl`: one head is taken, and of equal heads the one of the first list. The last list
  does not end before the others while it holds a greatest element (`Takes.endsLast`), and an
  element above all of the last list is not taken before that list ends (`Takes.mem_update`).
-/

namespace SemOS.Merging

open Function

variable {α : Type*} [Preorder α] {N : ℕ} {r r' : ℕ → List α} {out : List α}

/-- Taking heads of the lists `r i`, `i < N`, none of which is above another head. -/
inductive Merges (N : ℕ) : (ℕ → List α) → List α → (ℕ → List α) → Prop
  | done (r : ℕ → List α) : Merges N r [] r
  | take {r r' : ℕ → List α} {out tl : List α} {m : ℕ} {x : α} (hm : m < N) (hr : r m = x :: tl)
      (hmin : ∀ i < N, ∀ y, (r i).head? = some y → x ≤ y) (h : Merges N (update r m tl) out r') :
      Merges N r (x :: out) r'

/-- All elements of the lists, with multiplicity. -/
def total (N : ℕ) (r : ℕ → List α) : Multiset α := ∑ i ∈ Finset.range N, (r i : Multiset α)

omit [Preorder α] in
theorem mem_total {x : α} : x ∈ total N r ↔ ∃ i < N, x ∈ r i := by
  simp [total, Multiset.mem_sum]

omit [Preorder α] in
/-- Taking a head. -/
theorem total_update {m : ℕ} {x : α} {tl : List α} (hm : m < N) (hr : r m = x :: tl) :
    total N r = x ::ₘ total N (update r m tl) := by
  have hmem : m ∈ Finset.range N := Finset.mem_range.2 hm
  have hupdate : (fun i => (update r m tl i : Multiset α)) =
      update (fun i => (r i : Multiset α)) m (tl : Multiset α) := by
    funext i
    simp only [update_apply]
    split_ifs <;> rfl
  rw [total, total, hupdate, Finset.sum_update_of_mem hmem,
    Finset.sum_eq_add_sum_sdiff_singleton_of_mem hmem, hr, ← Multiset.cons_coe, Multiset.cons_add]

/-- Nothing is lost or repeated. -/
theorem Merges.add_eq (h : Merges N r out r') : total N r = (out : Multiset α) + total N r' := by
  induction h with
  | done r => simp
  | take hm hr _ _ ih => rw [total_update hm hr, ih, ← Multiset.cons_coe, Multiset.cons_add]

/-- The elements of one list keep their order. -/
theorem Merges.exists_sublist (h : Merges N r out r') (i : ℕ) :
    ∃ t, t ++ r' i = r i ∧ t.Sublist out := by
  induction h with
  | done r => exact ⟨[], rfl, List.Sublist.refl []⟩
  | @take r r' out tl m x _ hr _ _ ih =>
    obtain ⟨t, ht, hsub⟩ := ih
    by_cases him : i = m
    · subst him
      rw [update_self] at ht
      refine ⟨x :: t, ?_, hsub.cons_cons x⟩
      rw [List.cons_append, ht, hr]
    · rw [update_of_ne him] at ht
      exact ⟨t, ht, hsub.cons x⟩

/-- A head that no other is below is below all elements of sorted lists. -/
theorem le_of_mem_total {x : α} (hmin : ∀ i < N, ∀ y, (r i).head? = some y → x ≤ y)
    (hsorted : ∀ i < N, (r i).Pairwise (· ≤ ·)) {y : α} (hy : y ∈ total N r) : x ≤ y := by
  obtain ⟨i, hi, hy⟩ := mem_total.1 hy
  have hs := hsorted i hi
  have hx := hmin i hi
  cases hri : r i with
  | nil =>
    rw [hri] at hy
    cases hy
  | cons z tl =>
    rw [hri] at hy hs hx
    have hxz : x ≤ z := hx z rfl
    obtain rfl | hy := List.mem_cons.1 hy
    · exact hxz
    · exact hxz.trans (List.rel_of_pairwise_cons hs hy)

/-- From sorted lists the output is sorted. -/
theorem Merges.sorted (h : Merges N r out r') (hsorted : ∀ i < N, (r i).Pairwise (· ≤ ·)) :
    out.Pairwise (· ≤ ·) := by
  induction h with
  | done r => exact List.Pairwise.nil
  | @take r r' out tl m x hm hr hmin h ih =>
    refine List.Pairwise.cons (fun y hy => ?_) (ih fun i hi => ?_)
    · apply le_of_mem_total hmin hsorted
      rw [total_update hm hr, h.add_eq]
      exact Multiset.mem_cons_of_mem (Multiset.mem_add.2 (.inl hy))
    · rw [update_apply]
      split_ifs
      · have := hsorted m hm
        rw [hr] at this
        exact this.of_cons
      · exact hsorted i hi

/-- Lists merged to their ends give a sorted output exactly when all of them are sorted. -/
theorem Merges.sorted_iff (h : Merges N r out r') (hend : ∀ i < N, r' i = []) :
    out.Pairwise (· ≤ ·) ↔ ∀ i < N, (r i).Pairwise (· ≤ ·) := by
  refine ⟨fun hout i hi => ?_, h.sorted⟩
  obtain ⟨t, ht, hsub⟩ := h.exists_sublist i
  rw [hend i hi, List.append_nil] at ht
  rw [← ht]
  exact hout.sublist hsub

/-! ## The list that ends last -/

/-- The head `x` of list `m` is taken: no head is below it, and it is below the heads of the lists
before `m`. -/
structure Takes (N : ℕ) (r : ℕ → List α) (m : ℕ) (x : α) (tl : List α) : Prop where
  lt : m < N
  eq_cons : r m = x :: tl
  le : ∀ i < N, ∀ y, (r i).head? = some y → x ≤ y
  first : ∀ i < m, ∀ y, (r i).head? = some y → x < y

/-- The last list holds `x`, or the lists before it have ended. -/
def EndsLast (p : ℕ) (x : α) (r : ℕ → List α) : Prop := x ∈ r p ∨ ∀ i < p, r i = []

variable {m p i : ℕ} {x y z : α} {tl : List α}

theorem Takes.card (h : Takes N r m x tl) :
    Multiset.card (total N r) = Multiset.card (total N (update r m tl)) + 1 := by
  rw [total_update h.lt h.eq_cons, Multiset.card_cons]

/-- What is left of a list was there before. -/
theorem Takes.mem_of_mem_update (h : Takes N r m x tl) (hy : y ∈ update r m tl i) : y ∈ r i := by
  by_cases him : i = m
  · subst him
    rw [update_self] at hy
    rw [h.eq_cons]
    exact List.mem_cons_of_mem x hy
  · rwa [update_of_ne him] at hy

theorem Takes.mem_total (h : Takes N r m x tl) (hy : y ∈ total N (update r m tl)) :
    y ∈ total N r := by
  rw [total_update h.lt h.eq_cons]
  exact Multiset.mem_cons_of_mem hy

omit [Preorder α] in
/-- While anything is left, the last list has not ended. -/
theorem EndsLast.ne_nil (h : EndsLast p x r) (hleft : 0 < Multiset.card (total (p + 1) r)) :
    r p ≠ [] := by
  obtain hx | hnil := h
  · exact List.ne_nil_of_mem hx
  · intro hp
    obtain ⟨y, hy⟩ := Multiset.card_pos_iff_exists_mem.1 hleft
    obtain ⟨i, hi, hyi⟩ := Merging.mem_total.1 hy
    obtain hi | rfl := Nat.lt_succ_iff_lt_or_eq.1 hi
    · rw [hnil i hi] at hyi
      cases hyi
    · rw [hp] at hyi
      cases hyi

/-- Of equal heads that of the last list is taken last, so a greatest element of the last list
leaves it only after the other lists have ended. -/
theorem Takes.endsLast (h : Takes (p + 1) r m y tl) (htop : ∀ z ∈ total (p + 1) r, ¬ x < z)
    (hr : EndsLast p x r) : EndsLast p x (update r m tl) := by
  obtain hlt | rfl := Nat.lt_succ_iff_lt_or_eq.1 h.lt
  · obtain hx | hnil := hr
    · left
      rw [update_of_ne hlt.ne']
      exact hx
    · have hcons := h.eq_cons
      rw [hnil m hlt] at hcons
      cases hcons
  · obtain hx | hnil := hr
    · rw [h.eq_cons] at hx
      obtain rfl | hx := List.mem_cons.1 hx
      · right
        intro i hi
        rw [update_of_ne hi.ne]
        cases hri : r i with
        | nil => rfl
        | cons z zs =>
          have hz : z ∈ total (m + 1) r :=
            Merging.mem_total.2 ⟨i, by omega, by rw [hri]; exact List.mem_cons_self⟩
          exact absurd (h.first i hi z (by rw [hri]; rfl)) (htop z hz)
      · left
        rw [update_self]
        exact hx
    · right
      intro i hi
      rw [update_of_ne hi.ne]
      exact hnil i hi

/-- An element above all of a list is not taken before that list has ended. -/
theorem Takes.mem_update (h : Takes N r m x tl) (hp : p < N) (hne : r p ≠ [])
    (habove : ∀ w ∈ r p, w < z) (hz : z ∈ r i) : z ∈ update r m tl i := by
  by_cases him : i = m
  · subst him
    rw [update_self]
    rw [h.eq_cons] at hz
    obtain rfl | hz := List.mem_cons.1 hz
    · obtain ⟨w, ws, hrp⟩ := List.exists_cons_of_ne_nil hne
      have hle : z ≤ w := h.le p hp w (by rw [hrp]; rfl)
      have hlt : w < z := habove w (by rw [hrp]; exact List.mem_cons_self)
      exact absurd hlt hle.not_gt
    · exact hz
  · rw [update_of_ne him]
    exact hz

end SemOS.Merging
