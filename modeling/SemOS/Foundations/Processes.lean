import Mathlib.Algebra.BigOperators.Group.Finset.Piecewise
import Mathlib.Algebra.GroupWithZero.Nat
import Mathlib.Algebra.Order.BigOperators.Group.Finset
import Mathlib.Data.Fintype.BigOperators

/-!
# Families of processes

A system of processes keeps one control state per process, in a function on a finite index type; a
step of process `r` is a `Function.update` at `r`. A quantity of the whole system is a sum of a
weight over the processes, and a step changes it by the change of one weight (`sum_update`). A
system that starts its processes as it runs keeps them in a list (`sum_map_set`).
-/

namespace SemOS.Processes

open Function

variable {ι κ : Type*} [Fintype ι] [DecidableEq ι]

/-- A step of process `r` changes a sum over the processes by the change of the weight of `r`. -/
theorem sum_update (w : ι → κ → ℕ) (c : ι → κ) (r : ι) (k : κ) :
    (∑ i, w i (update c r k i)) + w r (c r) = (∑ i, w i (c i)) + w r k := by
  rw [Fintype.sum_eq_add_sum_compl r, Fintype.sum_eq_add_sum_compl r (fun i => w i (c i))]
  have hc : ∑ i ∈ ({r} : Finset ι)ᶜ, w i (update c r k i) = ∑ i ∈ ({r} : Finset ι)ᶜ, w i (c i) := by
    refine Finset.sum_congr rfl fun i hi => ?_
    rw [update_of_ne (by simpa using hi)]
  rw [hc, update_self]
  omega

omit [DecidableEq ι] in
/-- One weight is at most the sum. -/
theorem le_sum (w : ι → ℕ) (r : ι) : w r ≤ ∑ i, w i :=
  Finset.single_le_sum (f := w) (fun _ _ => Nat.zero_le _) (Finset.mem_univ r)

/-- Two weights are together at most the sum. -/
theorem add_le_sum (w : ι → ℕ) {r r' : ι} (h : r ≠ r') : w r + w r' ≤ ∑ i, w i := by
  rw [Fintype.sum_eq_add_sum_compl r]
  have := Finset.single_le_sum (f := w) (s := ({r} : Finset ι)ᶜ) (a := r')
    (fun _ _ => Nat.zero_le _) (by simpa using h.symm)
  omega

omit [Fintype ι] in
/-- The same for a counter among finitely many. -/
theorem sum_update_mem {s : Finset ι} {r : ι} (hr : r ∈ s) (c : ι → ℕ) (x : ℕ) :
    (∑ i ∈ s, update c r x i) + c r = (∑ i ∈ s, c i) + x := by
  rw [Finset.sum_update_of_mem hr, Finset.sum_eq_add_sum_sdiff_singleton_of_mem hr c]
  omega

/-- The same for the process at `i` of a list. -/
theorem sum_map_set (w : κ → ℕ) {l : List κ} {i : ℕ} {k : κ} (h : l[i]? = some k) (k' : κ) :
    ((l.set i k').map w).sum + w k = (l.map w).sum + w k' := by
  induction l generalizing i with
  | nil => cases h
  | cons a l ih =>
    cases i with
    | zero =>
      obtain rfl : a = k := Option.some.inj h
      simp only [List.set_cons_zero, List.map_cons, List.sum_cons]
      omega
    | succ i =>
      have := ih h
      simp only [List.set_cons_succ, List.map_cons, List.sum_cons]
      omega

end SemOS.Processes
