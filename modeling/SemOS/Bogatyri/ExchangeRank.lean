import SemOS.Bogatyri.ExchangeAgreed

/-!
# The ranks from the exchange

**`exchange_agrees`**: when all have returned they hold the same numbers, in decreasing order, their
ranks are a bijection, and one of them starts active.
-/

namespace SemOS.Bogatyri.Exchange

open Function
open Qsort (Sorts insertionSort sorts_insertionSort)

variable {n : ℕ} {qsort : (Int32 → Int32 → Int32) → List Int32 → List Int32} {system : Pids n}
  {s : State n}

/-- The process has set `active`. -/
def State.Started (s : State n) : Fin (n + 1) → Prop :=
  Fin.cases (s.coordinator = .started) fun w => s.worker w = .started

theorem vars_of_returned (hq : Sorts qsort) (h : (machine qsort system).Reachable s)
    (hr : s.Returned) (p : Fin (n + 1)) :
    s.Started p ∧ s.vars p = (final qsort system p).start ∨
      ¬ s.Started p ∧ s.vars p = final qsort system p := by
  obtain ⟨order, ha⟩ := reachable_agreed hq h
  obtain ⟨hco, hw⟩ := hr
  cases p using Fin.cases with
  | zero =>
    have hholds := ha.holds
    obtain hc | hc := hco
    · rw [hc] at hholds
      exact Or.inr ⟨by simp [State.Started, hc], hholds.2⟩
    · rw [hc] at hholds
      exact Or.inl ⟨hc, hholds.2⟩
  | succ w =>
    have hvars : s.vars w.succ = (s.worker w).vars qsort system w := (ha.served w).vars
    obtain hc | hc := hw w
    · rw [hc] at hvars
      exact Or.inr ⟨by simp [State.Started, hc], hvars⟩
    · rw [hc] at hvars
      exact Or.inl ⟨hc, hvars⟩

/-- **When all have returned, they hold the same numbers, all of them and in decreasing order, their
ranks are a bijection, and exactly one starts active.** -/
theorem exchange_agrees (hq : Sorts qsort) (h : (machine qsort system).Reachable s)
    (hr : s.Returned) :
    ∃ (array : List Int32) (rank : Fin (n + 1) → Fin (n + 1)),
      array.Perm (List.ofFn system.pid) ∧ array.Pairwise (fun a b => b < a) ∧ Bijective rank ∧
        (∀ p, (s.vars p).pidsCount = n + 1 ∧ (s.vars p).allPids = array ∧
          (s.vars p).myRank = rank p ∧
          ((s.vars p).active = true ↔ s.Started p ∧ rank p = 0)) ∧
        ((∀ p, s.Started p) → ∃! p, (s.vars p).active = true) := by
  obtain ⟨hperm, hdec⟩ := qsort_decreasing hq (List.Perm.refl (List.ofFn system.pid))
  obtain ⟨rank, hbij, hplace, -⟩ :=
    Ranking.exists_ranking (r := fun a b => b < a) gt_asymm hperm system.injective hdec
  have hvars : ∀ p, (s.vars p).pidsCount = n + 1 ∧ (s.vars p).allPids = sortedPids qsort system ∧
      (s.vars p).myRank = rank p ∧
      ((s.vars p).active = true ↔ s.Started p ∧ rank p = 0) := by
    intro p
    have hrank : (((sortedPids qsort system).idxOf (system.pid p) : ℕ) : ℤ) = (rank p : ℕ) := by
      rw [hplace]
      rfl
    have hzero : ((rank p : ℕ) : ℤ) = 0 ↔ rank p = 0 := by
      rw [Int.natCast_eq_zero, Fin.ext_iff, Fin.val_zero]
    obtain ⟨hs, hv⟩ | ⟨hs, hv⟩ := vars_of_returned hq h hr p
    · rw [hv]
      refine ⟨rfl, rfl, hrank, ?_⟩
      simp only [Vars.start, final, hrank, hzero, decide_eq_true_eq, hs, true_and]
    · rw [hv]
      exact ⟨rfl, rfl, hrank, by simp [final, hs]⟩
  refine ⟨sortedPids qsort system, rank, hperm, hdec, hbij, hvars, fun hall => ?_⟩
  obtain ⟨p, hp⟩ := hbij.surjective 0
  refine ⟨p, (hvars p).2.2.2.2 ⟨hall p, hp⟩, fun q hactive => ?_⟩
  exact hbij.injective (((hvars q).2.2.2.1 hactive).2.trans hp.symm)

/-- A coordinator of the number 7 and a worker of the number 12. -/
def twoPids : Pids 1 where
  pid p := if (p : ℕ) = 0 then 7 else 12
  pos := by decide
  injective := by decide

/-- A run of the two, to its end. -/
def twoSchedule : List (Label 1) :=
  [.coordinator, .worker 0, .accept 0, .worker 0, .coordinator, .coordinator, .coordinator,
    .worker 0] ++ List.replicate 5 .coordinator ++ List.replicate 5 (.worker 0)

theorem exchange_of_two :
    ∃ (s : State 1) (array : List Int32) (rank : Fin 2 → Fin 2),
      s.coordinator = .started ∧ s.worker 0 = .started ∧ array.Perm [7, 12] ∧ Bijective rank ∧
        (∀ p, (s.vars p).allPids = array ∧ (s.vars p).myRank = rank p) ∧
        ∃! p, (s.vars p).active = true := by
  obtain ⟨s, hs⟩ : ∃ s, (machine insertionSort twoPids).run twoSchedule (initial 1) = some s :=
    Option.isSome_iff_exists.1 (by decide +kernel)
  have hend : ((machine insertionSort twoPids).run twoSchedule (initial 1)).map
      (fun s => (s.coordinator, s.worker 0)) = some (.started, .started) := by
    decide +kernel
  rw [hs] at hend
  obtain ⟨hc, hw⟩ := Prod.mk.inj (Option.some.inj hend)
  have hall : ∀ w, s.worker w = .started := fun w => by rwa [Subsingleton.elim w 0]
  obtain ⟨array, rank, hperm, -, hbij, hvars, hone⟩ := exchange_agrees sorts_insertionSort
    (Machine.reachable_of_run rfl hs) ⟨Or.inr hc, fun w => Or.inr (hall w)⟩
  refine ⟨s, array, rank, hc, hw, hperm, hbij, fun p => ⟨(hvars p).2.1, (hvars p).2.2.1⟩,
    hone fun p => ?_⟩
  cases p using Fin.cases with
  | zero => exact hc
  | succ w => exact hall w

end SemOS.Bogatyri.Exchange
