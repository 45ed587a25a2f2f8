import SemOS.Bogatyri.Exchange
import SemOS.Foundations.Ranking

/-!
# The sorted numbers of the exchange

Whatever the order in which the coordinator accepts the workers, it has all numbers when it sorts,
and a decreasing order of distinct numbers is unique (`sortedPids`).

* `comparePids_le_iff`: on positive numbers the subtraction of `compare_pids` does not overflow, so
  that it orders them.
* `gathered`, `sorted` and `final` are the variables of a process on its way, with what `Vars.add`,
  `Vars.sort`, `Vars.search` and `Vars.receive` make of them.
-/

namespace SemOS.Bogatyri.Exchange

open Function
open Qsort (Sorts Consistent)

variable {n : ℕ} {qsort : (Int32 → Int32 → Int32) → List Int32 → List Int32} {system : Pids n}
  {a b : Int32} {l : List Int32} {order : List (Fin n)} {w : Fin n}

/-! ## The comparator -/

/-- **The difference of two positive numbers does not overflow.** -/
theorem toInt_comparePids (ha : 0 < a) (hb : 0 < b) :
    (comparePids a b).toInt = b.toInt - a.toInt := by
  have ha' : 0 < a.toInt := Int32.lt_iff_toInt_lt.1 ha
  have hb' : 0 < b.toInt := Int32.lt_iff_toInt_lt.1 hb
  have halt := a.toInt_lt
  have hblt := b.toInt_lt
  rw [comparePids, Int32.toInt_sub]
  exact Int.bmod_eq_of_le_mul_two (by omega) (by omega)

theorem comparePids_le_iff (ha : 0 < a) (hb : 0 < b) :
    comparePids a b ≤ 0 ↔ b.toInt ≤ a.toInt := by
  rw [Int32.le_iff_toInt_le, toInt_comparePids ha hb, Int32.toInt_zero]
  omega

theorem consistent_comparePids (h : ∀ a ∈ l, 0 < a) : Consistent comparePids l := by
  constructor
  · intro a ha b hb
    rw [Int32.lt_iff_toInt_lt, Int32.lt_iff_toInt_lt, toInt_comparePids (h a ha) (h b hb),
      toInt_comparePids (h b hb) (h a ha), Int32.toInt_zero]
    omega
  · intro a ha b hb c hc
    rw [comparePids_le_iff (h a ha) (h b hb), comparePids_le_iff (h b hb) (h c hc),
      comparePids_le_iff (h a ha) (h c hc)]
    omega

/-! ## The sorted array -/

/-- The numbers of all processes, sorted. -/
def sortedPids (qsort : (Int32 → Int32 → Int32) → List Int32 → List Int32) (system : Pids n) :
    List Int32 := qsort comparePids (List.ofFn system.pid)

theorem gt_asymm (a b : Int32) (h : b < a) : ¬ a < b := by
  rw [Int32.lt_iff_toInt_lt] at h ⊢
  omega

theorem pos_of_perm (h : l.Perm (List.ofFn system.pid)) : ∀ a ∈ l, 0 < a := by
  intro a ha
  obtain ⟨p, rfl⟩ := List.mem_ofFn.1 (h.mem_iff.1 ha)
  exact system.pos p

/-- `qsort` puts all numbers in decreasing order, however they come. -/
theorem qsort_decreasing (hq : Sorts qsort) (h : l.Perm (List.ofFn system.pid)) :
    (qsort comparePids l).Perm (List.ofFn system.pid) ∧
      (qsort comparePids l).Pairwise fun a b => b < a := by
  have hpos := pos_of_perm h
  have hcons := consistent_comparePids hpos
  have hperm := hq.perm comparePids l hcons
  have hnodup : (qsort comparePids l).Nodup :=
    Ranking.nodup_of_perm (hperm.trans h) system.injective
  refine ⟨hperm.trans h, ?_⟩
  refine ((hq.sorted comparePids l hcons).and hnodup).imp_of_mem fun {a b} ha hb hab => ?_
  have hle :=
    (comparePids_le_iff (hpos a (hperm.mem_iff.1 ha)) (hpos b (hperm.mem_iff.1 hb))).1 hab.1
  rw [Int32.lt_iff_toInt_lt]
  have hne : a.toInt ≠ b.toInt := fun heq => hab.2 (Int32.toInt_inj.1 heq)
  omega

/-- **All orders of arrival give the same array.** -/
theorem qsort_eq (hq : Sorts qsort) (h : l.Perm (List.ofFn system.pid)) :
    qsort comparePids l = sortedPids qsort system := by
  obtain ⟨hperm, hdec⟩ := qsort_decreasing hq h
  obtain ⟨hperm', hdec'⟩ := qsort_decreasing hq (List.Perm.refl (List.ofFn system.pid))
  exact Ranking.eq_of_perm gt_asymm (hperm.trans hperm'.symm) hdec hdec'

theorem length_sortedPids (hq : Sorts qsort) : (sortedPids qsort system).length = n + 1 :=
  Ranking.length_of_perm (qsort_decreasing hq (List.Perm.refl _)).1

theorem mem_sortedPids (hq : Sorts qsort) (p : Fin (n + 1)) :
    system.pid p ∈ sortedPids qsort system :=
  Ranking.mem_of_perm (qsort_decreasing hq (List.Perm.refl _)).1 p

/-- The numbers in the order in which the workers come, after that of the coordinator. -/
def arrived (system : Pids n) (order : List (Fin n)) : List Int32 :=
  system.pid (coordinatorIndex n) :: order.map fun w => system.pid w.succ

/-- All workers have come. -/
theorem perm_finRange (h : order.Nodup) (hlen : order.length = n) :
    order.Perm (List.finRange n) := by
  have hsub : order.Subperm (List.finRange n) :=
    List.subperm_of_subset h fun w _ => List.mem_finRange w
  exact hsub.perm_of_length_le (by rw [List.length_finRange, hlen])

theorem perm_arrived (h : order.Nodup) (hlen : order.length = n) :
    (arrived system order).Perm (List.ofFn system.pid) := by
  rw [List.ofFn_succ, List.ofFn_eq_map]
  exact ((perm_finRange h hlen).map _).cons _

/-! ## The variables -/

/-- The variables of the coordinator when the workers of `order` have come. -/
def gathered (system : Pids n) (order : List (Fin n)) : Vars :=
  ⟨arrived system order ++ List.replicate (n - order.length) 0, order.length + 1, -1, false⟩

/-- The variables of a process that has all numbers and has not looked for its own. -/
def sorted (qsort : (Int32 → Int32 → Int32) → List Int32 → List Int32) (system : Pids n) : Vars :=
  ⟨sortedPids qsort system, n + 1, -1, false⟩

/-- The variables of a process that returns. -/
def final (qsort : (Int32 → Int32 → Int32) → List Int32 → List Int32) (system : Pids n)
    (p : Fin (n + 1)) : Vars :=
  ⟨sortedPids qsort system, n + 1, (sortedPids qsort system).idxOf (system.pid p), false⟩

/-- The values that each worker gets. -/
def values (qsort : (Int32 → Int32 → Int32) → List Int32 → List Int32) (system : Pids n) :
    List Value := [.count (n + 1), .pids (sortedPids qsort system)]

theorem length_le (h : order.Nodup) : order.length ≤ n := by
  have := h.length_le_card
  rwa [Fintype.card_fin] at this

theorem length_arrived : (arrived system order).length = order.length + 1 := by
  rw [arrived, List.length_cons, List.length_map]

theorem add_initialVars : (initialVars n).add (system.pid 0) = gathered system [] := by
  simp [initialVars, Vars.add, gathered, arrived, List.replicate_succ]

theorem add_gathered (h : order.length < n) :
    (gathered system order).add (system.pid w.succ) = gathered system (order ++ [w]) := by
  have hroom : n - order.length = (n - (order ++ [w]).length) + 1 := by
    rw [List.length_append, List.length_singleton]
    omega
  have harrived : arrived system (order ++ [w]) = arrived system order ++ [system.pid w.succ] := by
    simp [arrived]
  rw [Vars.add, gathered, gathered, hroom, List.replicate_succ, harrived]
  simp only [← @length_arrived n system, List.set_append_right _ _ (Nat.le_refl _),
    Nat.sub_self, List.set_cons_zero, List.append_assoc, List.singleton_append,
    List.length_append, List.length_singleton]

theorem take_sortedPids (hq : Sorts qsort) :
    (sortedPids qsort system).take (n + 1) = sortedPids qsort system :=
  List.take_of_length_le (Nat.le_of_eq (length_sortedPids hq))

theorem sort_gathered (hq : Sorts qsort) (h : order.Nodup) (hlen : order.length = n) :
    (gathered system order).sort qsort = sorted qsort system := by
  have htake : (arrived system order ++ List.replicate (n - order.length) 0).take
      (order.length + 1) = arrived system order :=
    List.take_left' length_arrived
  have hdrop : (arrived system order ++ List.replicate (n - order.length) 0).drop
      (order.length + 1) = [] := by
    rw [List.drop_left' length_arrived, hlen, Nat.sub_self, List.replicate_zero]
  simp only [Vars.sort, gathered, sorted]
  rw [htake, hdrop, List.append_nil, qsort_eq hq (perm_arrived h hlen), hlen]

theorem search_sorted (hq : Sorts qsort) (p : Fin (n + 1)) :
    (sorted qsort system).search (system.pid p) = final qsort system p := by
  simp only [Vars.search, sorted, take_sortedPids hq,
    Ranking.idxOf?_of_mem (mem_sortedPids hq p), final]

theorem receive_sorted (hq : Sorts qsort) :
    ({ initialVars n with pidsCount := n + 1 } : Vars).receive (sortedPids qsort system) =
      sorted qsort system := by
  have hdrop : (List.replicate (n + 1) (0 : Int32)).drop (n + 1) = [] := by simp
  simp only [Vars.receive, sorted, initialVars, take_sortedPids hq, hdrop, List.append_nil]

end SemOS.Bogatyri.Exchange
