import Mathlib.Data.Nat.ModEq

/-!
# Rings of cells

A ring of `C` cells carries a stream. A position of the stream is a natural number that only grows,
its cell is its residue; two pointers are kept as cells, and the distance between them is computed
from the cells alone.

* `ahead_mod`: the computed distance is the true one modulo `C`, so a full ring looks empty.
* `before_or_after`: regions at the two pointers that respect this distance do not overlap.
* `Holds`: the cells carry the stream between two positions. `Holds.put` is a transfer of
  contiguous cells behind the upper position, at most once around the ring; `Holds.drop` gives up
  the lower end, `Holds.get` reads.
-/

namespace SemOS.Ring

variable {C : ℕ} {α : Type*}

/-- How far the cell `e` lies ahead of the cell `s`. -/
def ahead (C s e : ℕ) : ℕ := if s ≤ e then e - s else C - s + e

/-- Positions less than one turn apart have different cells. -/
theorem mod_ne_mod {x y : ℕ} (h : x < y) (hy : y < x + C) : x % C ≠ y % C := by
  intro he
  have h0 := Nat.sub_mod_eq_zero_of_mod_eq he.symm
  rw [Nat.mod_eq_of_lt (by omega)] at h0
  omega

/-- Before the end of the storage, the cells of consecutive positions are consecutive. -/
theorem add_mod_of_fits {x d : ℕ} (h : x % C + d < C) : (x + d) % C = x % C + d := by
  have hd : d % C = d := Nat.mod_eq_of_lt (by omega)
  rw [Nat.add_mod_of_add_mod_lt (by rwa [hd]), hd]

/-- In a window of one turn, the cells of a region in one piece are those of its positions. -/
theorem region_iff {x y n p : ℕ} (hxy : x ≤ y) (hroom : y + n ≤ x + C) (hfits : y % C + n ≤ C)
    (hx : x ≤ p) (hp : p < x + C) : (y % C ≤ p % C ∧ p % C < y % C + n) ↔ y ≤ p ∧ p < y + n := by
  constructor
  · rintro ⟨hle, hlt⟩
    -- the position of the region that has the cell of `p`
    have hcell : (y + (p % C - y % C)) % C = p % C := by
      rw [add_mod_of_fits (by omega)]
      omega
    by_contra hne
    obtain h | h := Nat.lt_or_gt_of_ne (show p ≠ y + (p % C - y % C) by omega)
    · exact mod_ne_mod h (by omega) hcell.symm
    · exact mod_ne_mod h (by omega) hcell
  · rintro ⟨hle, hlt⟩
    obtain ⟨d, rfl⟩ := Nat.exists_eq_add_of_le hle
    rw [add_mod_of_fits (by omega)]
    omega

/-- The distance computed from the cells is the true distance, modulo the size of the ring. -/
theorem ahead_mod (hC : 0 < C) {x y : ℕ} (h : x ≤ y) :
    ahead C (x % C) (y % C) = (y - x) % C := by
  obtain ⟨d, rfl⟩ := Nat.exists_eq_add_of_le h
  have hx := Nat.mod_lt x hC
  have hd := Nat.mod_lt d hC
  rw [Nat.add_sub_cancel_left]
  unfold ahead
  by_cases hlt : x % C + d % C < C
  · rw [Nat.add_mod_of_add_mod_lt hlt]
    split <;> omega
  · have he := Nat.add_mod_add_of_le_add_mod (a := x) (b := d) (c := C) (by omega)
    split <;> omega

/-- What is added to the last incomplete turn, at most up to its end. -/
theorem add_mod_of_le {d n : ℕ} (h : d % C + n ≤ C) :
    (d + n) % C = d % C + n ∨ d % C + n = C ∧ (d + n) % C = 0 := by
  obtain hlt | heq := Nat.lt_or_eq_of_le h
  · exact .inl (add_mod_of_fits hlt)
  · refine .inr ⟨heq, ?_⟩
    rw [← Nat.mod_add_mod, heq, Nat.mod_self]

/-- What is taken out of the last incomplete turn. -/
theorem sub_mod_of_le {d n : ℕ} (hC : 0 < C) (h : n ≤ d % C) : (d - n) % C = d % C - n := by
  have hdiv := Nat.mod_add_div d C
  have hmod := Nat.mod_lt d hC
  have hsub : d - n = d % C - n + C * (d / C) := by omega
  rw [hsub, Nat.add_mul_mod_self_left, Nat.mod_eq_of_lt (by omega)]

/-- Of a region of `m` cells from `x` on, which does not go beyond `y` in the ring, and one of `n`
cells from `y` on, which does not go beyond `x`, one is before the other. -/
theorem before_or_after {x y m n : ℕ} (hC : 0 < C) (hxy : x ≤ y) (hm : m ≤ (y - x) % C)
    (hn : n + (y - x) % C ≤ C) :
    x % C + m ≤ y % C ∨ y % C + n ≤ x % C := by
  rw [← ahead_mod hC hxy] at hm hn
  unfold ahead at hm hn
  have := Nat.mod_lt x hC
  by_cases h : x % C ≤ y % C
  · rw [if_pos h] at hm
    omega
  · rw [if_neg h] at hn
    omega

/-- What is taken out of the last incomplete turn leaves the full turns. -/
theorem le_sub_of_le_mod {x n : ℕ} (h : n ≤ x % C) (hx : C ≤ x) : C ≤ x - n := by
  rw [Nat.mod_eq_sub_mod hx] at h
  have := Nat.mod_le (x - C) C
  omega

/-! ## The window of the stream in the ring -/

/-- The cells carry the stream from position `x` on, up to position `y`. -/
def Holds (C : ℕ) (cell stream : ℕ → α) (x y : ℕ) : Prop :=
  ∀ i, x ≤ i → i < y → cell (i % C) = stream i

variable {cell cell' stream : ℕ → α} {x y : ℕ}

theorem Holds.empty (C : ℕ) (cell stream : ℕ → α) (x : ℕ) : Holds C cell stream x x :=
  fun _ hi hi' => absurd hi' (not_lt.2 hi)

theorem Holds.drop (h : Holds C cell stream x y) (d : ℕ) : Holds C cell stream (x + d) y :=
  fun i hi hi' => h i (by omega) hi'

/-- A region of `c` cells behind `y` receives the next `c` values of the stream, and no other cell
changes. -/
theorem Holds.put {c : ℕ} (h : Holds C cell stream x y) (hxy : x ≤ y) (hroom : y + c ≤ x + C)
    (hfits : y % C + c ≤ C) (hin : ∀ d < c, cell' (y % C + d) = stream (y + d))
    (hout : ∀ p, (p < y % C ∨ y % C + c ≤ p) → cell' p = cell p) :
    Holds C cell' stream x (y + c) := by
  intro i hi hi'
  by_cases hy : y ≤ i
  · obtain ⟨d, rfl⟩ := Nat.exists_eq_add_of_le hy
    rw [add_mod_of_fits (by omega)]
    exact hin d (by omega)
  · rw [hout (i % C), h i hi (by omega)]
    -- a cell of the region is that of a position in it
    have hregion := mt (region_iff hxy hroom hfits hi (by omega)).1 (fun hmem => hy hmem.1)
    omega

/-- Consecutive cells from `x` on carry consecutive values. -/
theorem Holds.get {d : ℕ} (h : Holds C cell stream x y) (hd : x + d < y) (hfits : x % C + d < C) :
    cell (x % C + d) = stream (x + d) := by
  rw [← add_mod_of_fits hfits]
  exact h _ (by omega) hd

end SemOS.Ring
