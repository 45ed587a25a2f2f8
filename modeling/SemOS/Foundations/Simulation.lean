import SemOS.Foundations.Machine

/-!
# Simulations between machines

A machine that is put together from others, or that says more than another one, is compared with it
by a relation between the states of the two.

* `Machine.Simulates M' M R`: `M'` follows every step of `M`, by any number of its own. What
  `M'` keeps in its reachable states then holds of `M` through `R` (`Simulates.reachable`).
* `Machine.under f M` is `M` with fewer labels, such as those of the calls that succeed.
* `Leads.lift` is the other direction: what the simulated machine can still do, the simulating one
  can do from every related state.
-/

namespace SemOS.Machine

variable {Λ Λ' σ σ' : Type*} {M : Machine Λ σ} {M' : Machine Λ' σ'} {R : σ → σ' → Prop}

/-- `M'` simulates `M` along `R`: it starts where `M` starts, and follows every step of `M` between
reachable states, by steps of its own or by none. -/
structure Simulates (M' : Machine Λ' σ') (M : Machine Λ σ) (R : σ → σ' → Prop) : Prop where
  init : ∀ s, M.init s → ∃ s', M'.init s' ∧ R s s'
  step : ∀ l s t s', M.Reachable s → M'.Reachable s' → R s s' → M.act l s = some t →
    ∃ t', M'.Leads s' t' ∧ R t t'

/-- Every reachable state is related to a reachable one. -/
theorem Simulates.reachable (h : M'.Simulates M R) {t : σ} (ht : M.Reachable t) :
    ∃ t', M'.Reachable t' ∧ R t t' := by
  have hinv : M.Reachable t ∧ ∃ t', M'.Reachable t' ∧ R t t' := by
    refine ht.invariant (I := fun s => M.Reachable s ∧ ∃ s', M'.Reachable s' ∧ R s s')
      (fun s hs => ?_) fun l s u hs hl => ?_
    · obtain ⟨s', hs', hR⟩ := h.init s hs
      exact ⟨.of_init hs, s', .of_init hs', hR⟩
    · obtain ⟨hreach, s', hs', hR⟩ := hs
      obtain ⟨u', hu', hR'⟩ := h.step l s u s' hreach hs' hR hl
      exact ⟨hreach.act hl, u', hs'.leads hu', hR'⟩
  exact hinv.2

/-- The machine under the labels `f l` only. -/
def under (f : Λ' → Λ) (M : Machine Λ σ) : Machine Λ' σ := ⟨M.init, fun l => M.act (f l)⟩

/-- Where the steps of `M'` from related states are followed by steps of `M`, so are its paths. -/
theorem Leads.lift
    (hstep : ∀ l s s' t', R s s' → M'.act l s' = some t' → ∃ t, M.Leads s t ∧ R t t')
    {s : σ} {s' t' : σ'} (h : M'.Leads s' t') (hs : R s s') : ∃ t, M.Leads s t ∧ R t t' := by
  induction h with
  | refl => exact ⟨s, Relation.ReflTransGen.refl, hs⟩
  | tail _ hl ih =>
    obtain ⟨u, hu, hR⟩ := ih
    obtain ⟨l, hl⟩ := hl
    obtain ⟨t, ht, hR'⟩ := hstep l u _ _ hR hl
    exact ⟨t, hu.trans ht, hR'⟩

end SemOS.Machine
