import Mathlib.Algebra.Order.Group.Int
import Mathlib.Data.List.Basic
import Mathlib.Data.Nat.Notation

/-!
# Memory

A memory gives every address a value; addresses are integers, so that a pointer may be moved by any
offset. `load` reads consecutive addresses, `store` writes a list to them.

* `load_add`: a load in two pieces.
* `load_store_append`: a store right behind what has been loaded.
* `store_of_lt`, `store_of_le`: what a store leaves; `store_append`: a store in two pieces.
-/

namespace SemOS.Memory

variable {α : Type*} {m : ℤ → α} {p q : ℤ} {n : ℕ} {l : List α}

/-- The `n` values from address `p` on. -/
def load (m : ℤ → α) (p : ℤ) (n : ℕ) : List α := (List.range n).map fun d : ℕ => m (p + d)

/-- The values of `l` are written from address `p` on. -/
def store (m : ℤ → α) (p : ℤ) (l : List α) (q : ℤ) : α :=
  if p ≤ q then (l[(q - p).toNat]?).getD (m q) else m q

@[simp] theorem length_load (m : ℤ → α) (p : ℤ) (n : ℕ) : (load m p n).length = n := by
  rw [load, List.length_map, List.length_range]

@[simp] theorem load_zero (m : ℤ → α) (p : ℤ) : load m p 0 = [] := rfl

theorem load_add (m : ℤ → α) (p : ℤ) (n k : ℕ) :
    load m p (n + k) = load m p n ++ load m (p + n) k := by
  rw [load, List.range_add, List.map_append, List.map_map]
  congr 1
  refine List.map_congr_left fun d _ => ?_
  simp only [Function.comp_apply, Int.natCast_add, Int.add_assoc]

/-- A load that is shorter is a prefix. -/
theorem load_prefix (m : ℤ → α) (p : ℤ) {k : ℕ} (h : k ≤ n) : load m p k <+: load m p n := by
  obtain ⟨d, rfl⟩ := Nat.exists_eq_add_of_le h
  rw [load_add]
  exact List.prefix_append _ _

theorem load_congr {m' : ℤ → α} (h : ∀ d < n, m' (p + d) = m (p + d)) :
    load m' p n = load m p n :=
  List.map_congr_left fun d hd => h d (List.mem_range.1 hd)

/-- What is before a store stays. -/
theorem store_of_lt (h : q < p) : store m p l q = m q := if_neg (not_le.2 h)

/-- What is behind a store stays. -/
theorem store_of_le (h : p + l.length ≤ q) : store m p l q = m q := by
  rw [store, List.getElem?_eq_none (by omega)]
  split <;> rfl

theorem load_store (m : ℤ → α) (p : ℤ) (l : List α) : load (store m p l) p l.length = l := by
  refine List.ext_getElem (length_load ..) fun d hd _ => ?_
  rw [length_load] at hd
  simp [load, store, hd]

/-- A store right behind what has been loaded. -/
theorem load_store_append (m : ℤ → α) (p : ℤ) (n : ℕ) (l : List α) :
    load (store m (p + n) l) p (n + l.length) = load m p n ++ l := by
  rw [load_add, load_store]
  congr 1
  exact load_congr fun d hd => store_of_lt (by omega)

/-- Two stores behind each other. -/
theorem store_append (m : ℤ → α) (p : ℤ) (l l' : List α) :
    store (store m p l) (p + l.length) l' = store m p (l ++ l') := by
  funext q
  unfold store
  by_cases hq : p + l.length ≤ q
  · have hnone : l[(q - p).toNat]? = none := List.getElem?_eq_none (by omega)
    have hindex : (q - p).toNat - l.length = (q - (p + l.length)).toNat := by omega
    rw [if_pos hq, if_pos (by omega), if_pos (by omega), hnone,
      List.getElem?_append_right (by omega), hindex]
    rfl
  · by_cases hp : p ≤ q
    · rw [if_neg hq, if_pos hp, if_pos hp, List.getElem?_append_left (by omega)]
    · rw [if_neg hq, if_neg hp, if_neg hp]

@[simp] theorem store_nil (m : ℤ → α) (p : ℤ) : store m p [] = m := by
  funext q
  simp [store]

end SemOS.Memory
