import Mathlib.Data.Nat.Notation
import Mathlib.Order.Basic

/-!
# Loops that may not return

A loop with an arbitrary body is run with fuel: an iteration goes on with a new state or leaves the
loop with a result. The body itself may contain loops, so it gets the fuel that is left; it has no
result while an inner loop has not returned, or waits.

* `Returns` says that the loop comes to a result with enough fuel. `Returns.unique`: there is no
  more than one.
* `returns_iff_of_next` and `returns_iff_of_leave` unfold an iteration.
* `not_returns` is the rule for a loop that never returns: an invariant with which no iteration
  leaves it.
-/

namespace SemOS.Loop

variable {σ ρ : Type*}

/-- Run a loop: an iteration gives the next state or the result. -/
def run (body : ℕ → σ → Option (σ ⊕ ρ)) : ℕ → σ → Option ρ
  | 0, _ => none
  | fuel + 1, s =>
    match body fuel s with
    | none => none
    | some (.inl t) => run body fuel t
    | some (.inr r) => some r

/-- More fuel does not change what a call returns. -/
def Stable (body : ℕ → σ → Option ρ) : Prop :=
  ∀ m n s r, m ≤ n → body m s = some r → body n s = some r

/-- The loop returns `r`. -/
def Returns (body : ℕ → σ → Option (σ ⊕ ρ)) (s : σ) (r : ρ) : Prop :=
  ∃ fuel, run body fuel s = some r

/-- A body that needs no fuel. -/
theorem stable_const (body : σ → Option ρ) : Stable fun _ => body :=
  fun _ _ _ _ _ h => h

variable {body : ℕ → σ → Option (σ ⊕ ρ)} {s t : σ} {r r' : ρ} {fuel : ℕ}

theorem run_of_next (h : body fuel s = some (.inl t)) :
    run body (fuel + 1) s = run body fuel t := by
  rw [run, h]

theorem run_of_leave (h : body fuel s = some (.inr r)) : run body (fuel + 1) s = some r := by
  rw [run, h]

theorem stable_run (hbody : Stable body) : Stable (run body) := by
  intro m n s r hmn h
  induction m generalizing n s with
  | zero => cases h
  | succ m ih =>
    obtain ⟨n, rfl⟩ : ∃ k, n = k + 1 := ⟨n - 1, by omega⟩
    have hle : m ≤ n := Nat.le_of_succ_le_succ hmn
    unfold run at h
    split at h
    · cases h
    · rename_i t hm
      rw [run_of_next (hbody m n _ _ hle hm)]
      exact ih n t hle h
    · rename_i hm
      rw [run_of_leave (hbody m n _ _ hle hm)]
      exact h

/-- A loop returns one result at most. -/
theorem Returns.unique (hbody : Stable body) (h : Returns body s r) (h' : Returns body s r') :
    r = r' := by
  obtain ⟨m, hm⟩ := h
  obtain ⟨n, hn⟩ := h'
  have hm' := stable_run hbody m (max m n) s r (Nat.le_max_left m n) hm
  have hn' := stable_run hbody n (max m n) s r' (Nat.le_max_right m n) hn
  exact Option.some.inj (hm'.symm.trans hn')

theorem returns_of_leave (fuel : ℕ) (h : body fuel s = some (.inr r)) : Returns body s r :=
  ⟨fuel + 1, run_of_leave h⟩

theorem returns_of_next (hbody : Stable body) (h : body fuel s = some (.inl t))
    (ht : Returns body t r) : Returns body s r := by
  obtain ⟨n, hn⟩ := ht
  have hnext := hbody fuel (max fuel n) s _ (Nat.le_max_left fuel n) h
  refine ⟨max fuel n + 1, ?_⟩
  rw [run_of_next hnext]
  exact stable_run hbody n (max fuel n) t r (Nat.le_max_right fuel n) hn

/-- An iteration that leaves the loop decides what it returns. -/
theorem returns_iff_of_leave (hbody : Stable body) (h : body fuel s = some (.inr r)) :
    Returns body s r' ↔ r' = r := by
  have hr := returns_of_leave fuel h
  constructor
  · intro h'
    exact h'.unique hbody hr
  · rintro rfl
    exact hr

/-- An iteration that goes on leaves the result to the next ones. -/
theorem returns_iff_of_next (hbody : Stable body) (h : body fuel s = some (.inl t)) :
    Returns body s r ↔ Returns body t r := by
  refine ⟨?_, returns_of_next hbody h⟩
  rintro ⟨n, hn⟩
  have hn' := stable_run hbody n (max fuel n + 1) s r (by omega) hn
  rw [run_of_next (hbody fuel (max fuel n) s _ (Nat.le_max_left fuel n) h)] at hn'
  exact ⟨_, hn'⟩

/-- A loop does not return from a state with an invariant under which it never leaves. -/
theorem not_returns {I : σ → Prop}
    (hI : ∀ fuel s x, I s → body fuel s = some x → ∃ t, x = .inl t ∧ I t) (hs : I s) :
    ¬ Returns body s r := by
  rintro ⟨fuel, h⟩
  induction fuel generalizing s with
  | zero => cases h
  | succ fuel ih =>
    unfold run at h
    split at h
    · cases h
    · rename_i t ht
      obtain ⟨u, heq, hu⟩ := hI fuel s _ hs ht
      cases heq
      exact ih hu h
    · rename_i ht
      obtain ⟨u, heq, -⟩ := hI fuel s _ hs ht
      cases heq

/-- A loop whose first iteration does not come to an end does not return. -/
theorem not_returns_of_none (h : ∀ fuel, body fuel s = none) : ¬ Returns body s r := by
  refine not_returns (I := (· = s)) (fun fuel t x hs hx => ?_) rfl
  rw [hs, h fuel] at hx
  cases hx

end SemOS.Loop
