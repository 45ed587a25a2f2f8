import Mathlib.Data.Fintype.EquivFin
import Mathlib.Order.Interval.Finset.Fin
import Mathlib.Data.List.FinRange

/-!
# Ranks

Parties that hold the same list of distinct values, in the order of a relation `r`, agree on their
ranks: the rank of a party is the place of its value in the list.

* `eq_of_perm`: two ordered lists of the same values are the same list.
* `idxOf_lt_idxOf_iff`: places compare as values do.
* `exists_ranking`: the ranks of `N` parties are a bijection onto the first `N` numbers.
* `idxOf_eq_card`: the rank of a party is the number of parties before it.
-/

namespace SemOS.Ranking

open Function

variable {α : Type*} {r : α → α → Prop} {l l' : List α} {N : ℕ} {f : Fin N → α} {x y : α}

/-- An order of a list is determined by its elements. -/
theorem eq_of_perm (hasymm : ∀ a b, r a b → ¬ r b a) (h : l.Perm l') (hl : l.Pairwise r)
    (hl' : l'.Pairwise r) : l = l' :=
  List.Perm.eq_of_pairwise (fun a b _ _ hab hba => absurd hba (hasymm a b hab)) hl hl' h

/-- A list of injective values has no value twice. -/
theorem nodup_of_perm (h : l.Perm (List.ofFn f)) (hf : Injective f) : l.Nodup :=
  h.nodup_iff.2 (List.nodup_ofFn.2 hf)

theorem mem_of_perm (h : l.Perm (List.ofFn f)) (i : Fin N) : f i ∈ l :=
  h.mem_iff.2 (List.mem_ofFn.2 ⟨i, rfl⟩)

theorem length_of_perm (h : l.Perm (List.ofFn f)) : l.length = N := by
  rw [h.length_eq, List.length_ofFn]

variable [DecidableEq α]

/-- A search that starts at the front finds the first place. -/
theorem idxOf?_of_mem (h : x ∈ l) : l.idxOf? x = some (l.idxOf x) := by
  induction l with
  | nil => cases h
  | cons y l ih =>
    by_cases hy : y = x
    · simp [List.idxOf?_cons, hy]
    · have hx : x ∈ l := (List.mem_cons.1 h).resolve_left fun hxy => hy hxy.symm
      simp [List.idxOf?_cons, hy, ih hx]

/-- In an ordered list the places compare as the values do. -/
theorem idxOf_lt_idxOf_iff (hasymm : ∀ a b, r a b → ¬ r b a) (hl : l.Pairwise r) (hx : x ∈ l)
    (hy : y ∈ l) : l.idxOf x < l.idxOf y ↔ r x y := by
  have hget : ∀ {u v : α}, u ∈ l → v ∈ l → l.idxOf u < l.idxOf v → r u v := by
    intro u v hu hv h
    have hpair := List.pairwise_iff_getElem.1 hl (l.idxOf u) (l.idxOf v)
      (List.idxOf_lt_length_of_mem hu) (List.idxOf_lt_length_of_mem hv) h
    rwa [List.getElem_idxOf, List.getElem_idxOf] at hpair
  refine ⟨hget hx hy, fun h => ?_⟩
  obtain hlt | heq | hgt := Nat.lt_trichotomy (l.idxOf x) (l.idxOf y)
  · exact hlt
  · obtain rfl := (List.idxOf_inj hx).1 heq
    exact absurd h (hasymm x x h)
  · exact absurd (hget hy hx hgt) (hasymm x y h)

/-- **The places of `N` distinct values are a bijection onto the first `N` numbers**, in the order
of the values. -/
theorem exists_ranking (hasymm : ∀ a b, r a b → ¬ r b a) (h : l.Perm (List.ofFn f))
    (hf : Injective f) (hl : l.Pairwise r) :
    ∃ rank : Fin N → Fin N, Bijective rank ∧ (∀ i, (rank i : ℕ) = l.idxOf (f i)) ∧
      ∀ i j, rank i < rank j ↔ r (f i) (f j) := by
  have hlt : ∀ i, l.idxOf (f i) < N := by
    intro i
    have := List.idxOf_lt_length_of_mem (mem_of_perm h i)
    rwa [length_of_perm h] at this
  refine ⟨fun i => ⟨l.idxOf (f i), hlt i⟩, ?_, fun i => rfl, fun i j => ?_⟩
  · refine Finite.injective_iff_bijective.1 fun i j hij => ?_
    exact hf ((List.idxOf_inj (mem_of_perm h i)).1 (congrArg Fin.val hij))
  · exact idxOf_lt_idxOf_iff hasymm hl (mem_of_perm h i) (mem_of_perm h j)

/-- The place of a value is the number of parties whose values come before it. -/
theorem idxOf_eq_card [DecidableRel r] (hasymm : ∀ a b, r a b → ¬ r b a)
    (h : l.Perm (List.ofFn f)) (hf : Injective f) (hl : l.Pairwise r) (i : Fin N) :
    l.idxOf (f i) = (Finset.univ.filter fun j => r (f j) (f i)).card := by
  obtain ⟨rank, hbij, hplace, horder⟩ := exists_ranking hasymm h hf hl
  rw [← hplace, ← Fin.card_Iio (rank i)]
  refine (Finset.card_bijective rank hbij fun j => ?_).symm
  rw [Finset.mem_filter, Finset.mem_Iio, horder j i]
  exact ⟨fun hj => hj.2, fun hj => ⟨Finset.mem_univ j, hj⟩⟩

end SemOS.Ranking
