import SemOS.Foundations.Machine

/-!
# Visible traces

Some steps of a machine are visible: `observe l s` is the event of the step `l` from `s`. A machine
is compared with a specification, a machine whose labels are the events, by the trace of events
that a run leaves.

* `Machine.Emits es s t`: a run from `s` to `t` with the events `es`; `emits_of_run` computes them
  from a schedule.
* `Machine.Implements`: the specification takes exactly the visible steps, and what it allows the
  machine can reach by silent steps. `Implements.sound` and `Implements.complete` are the two
  simulations, over whole runs.
* `trace_congr` and `settles_congr`: two machines that implement one specification have the same
  traces, and can fall silent after the same ones.
-/

namespace SemOS.Machine

variable {Λ Λ' σ σ' τ ε : Type*} {M : Machine Λ σ} {observe : Λ → σ → Option ε}
  {M' : Machine Λ' σ'} {observe' : Λ' → σ' → Option ε} {N : Machine ε τ} {l : Λ} {s t u : σ}
  {es es' : List ε} {e : ε} {x y : τ}

/-! ## Runs and their events -/

/-- A run from `s` to `t` whose visible steps are the events `es`. -/
inductive Emits (M : Machine Λ σ) (observe : Λ → σ → Option ε) : List ε → σ → σ → Prop
  | refl (s : σ) : Emits M observe [] s s
  | head {l : Λ} {s t u : σ} {es : List ε} (h : M.act l s = some t) (ht : Emits M observe es t u) :
    Emits M observe ((observe l s).toList ++ es) s u

/-- Some run from an initial state has the events `es`. -/
def Trace (M : Machine Λ σ) (observe : Λ → σ → Option ε) (es : List ε) : Prop :=
  ∃ s t, M.init s ∧ M.Emits observe es s t

/-- No visible step follows, whatever happens. -/
def Silent (M : Machine Λ σ) (observe : Λ → σ → Option ε) (s : σ) : Prop :=
  ∀ es t, M.Emits observe es s t → es = []

/-- Some run has the events `es` and ends where no visible step follows. -/
def Settles (M : Machine Λ σ) (observe : Λ → σ → Option ε) (es : List ε) : Prop :=
  ∃ s t, M.init s ∧ M.Emits observe es s t ∧ M.Silent observe t

theorem Emits.trans (h : M.Emits observe es s t) (h' : M.Emits observe es' t u) :
    M.Emits observe (es ++ es') s u := by
  induction h with
  | refl => exact h'
  | head hl _ ih =>
    rw [List.append_assoc]
    exact .head hl (ih h')

theorem Emits.silent (hl : M.act l s = some t) (ho : observe l s = none) :
    M.Emits observe [] s t := by
  have h : M.Emits observe ((observe l s).toList ++ []) s t := .head hl (.refl t)
  rwa [ho] at h

theorem Emits.visible (hl : M.act l s = some t) (ho : observe l s = some e) :
    M.Emits observe [e] s t := by
  have h : M.Emits observe ((observe l s).toList ++ []) s t := .head hl (.refl t)
  rwa [ho] at h

/-- Silent steps, and then the rest. -/
theorem Emits.after (h : M.Emits observe [] s t) (h' : M.Emits observe es t u) :
    M.Emits observe es s u := h.trans h'

/-- The events of a schedule. -/
def events (M : Machine Λ σ) (observe : Λ → σ → Option ε) : List Λ → σ → List ε
  | [], _ => []
  | l :: ls, s => (observe l s).toList ++ (M.act l s).elim [] (events M observe ls)

theorem emits_of_run {ls : List Λ} (h : M.run ls s = some t) :
    M.Emits observe (M.events observe ls s) s t := by
  induction ls generalizing s with
  | nil =>
    obtain rfl := Option.some.inj h
    exact .refl s
  | cons l ls ih =>
    obtain ⟨u, hu, h⟩ := Option.bind_eq_some_iff.1 h
    rw [events, hu]
    exact .head hu (ih h)

theorem Emits.leads (h : M.Emits observe es s t) : M.Leads s t := by
  induction h with
  | refl => exact Relation.ReflTransGen.refl
  | head hl _ ih => exact Relation.ReflTransGen.head ⟨_, hl⟩ ih

/-- Runs do not depend on the initial states of the machine. -/
theorem Emits.of_act {K : Machine Λ σ} (hact : K.act = M.act) (h : M.Emits observe es s t) :
    K.Emits observe es s t := by
  induction h with
  | refl s => exact .refl s
  | head hl _ ih => exact .head (hact ▸ hl) ih

/-! ## Specifications -/

/-- The machine `M` implements the specification `N`: on the states with the invariant `I`, `abs`
forgets what is not visible. -/
structure Implements (M : Machine Λ σ) (observe : Λ → σ → Option ε) (N : Machine ε τ) (start : τ)
    (I : σ → Prop) (abs : σ → τ) : Prop where
  starts : ∃ s, M.init s
  init : ∀ s, M.init s → I s ∧ abs s = start
  invariant : ∀ l s t, I s → M.act l s = some t → I t
  silent : ∀ l s t, I s → M.act l s = some t → observe l s = none → abs t = abs s
  visible : ∀ l s t e, I s → M.act l s = some t → observe l s = some e →
    N.act e (abs s) = some (abs t)
  offers : ∀ s e x, I s → N.act e (abs s) = some x → ∃ t, M.Emits observe [e] s t

namespace Implements

variable {start : τ} {I : σ → Prop} {abs : σ → τ} {I' : σ' → Prop} {abs' : σ' → τ}

/-- **The specification follows every run.** -/
theorem sound (h : Implements M observe N start I abs) (he : M.Emits observe es s t) (hs : I s) :
    I t ∧ N.run es (abs s) = some (abs t) := by
  induction he with
  | refl => exact ⟨hs, rfl⟩
  | @head l s t u es hl _ ih =>
    obtain ⟨hu, hrun⟩ := ih (h.invariant l s t hs hl)
    refine ⟨hu, ?_⟩
    cases ho : observe l s with
    | none =>
      rw [h.silent l s t hs hl ho] at hrun
      exact hrun
    | some e =>
      rw [Option.toList_some, List.singleton_append, Machine.run, h.visible l s t e hs hl ho]
      exact hrun

/-- **The machine follows every run of the specification.** -/
theorem complete (h : Implements M observe N start I abs) (hs : I s)
    (hrun : N.run es (abs s) = some x) : ∃ t, M.Emits observe es s t ∧ I t ∧ abs t = x := by
  induction es generalizing s with
  | nil => exact ⟨s, .refl s, hs, Option.some.inj hrun⟩
  | cons e es ih =>
    obtain ⟨y, hy, hrun⟩ := Option.bind_eq_some_iff.1 hrun
    obtain ⟨t, ht⟩ := h.offers s e y hs hy
    obtain ⟨hIt, hone⟩ := h.sound ht hs
    have hty : abs t = y := by
      rw [Machine.run, hy] at hone
      exact (Option.some.inj hone).symm
    rw [← hty] at hrun
    obtain ⟨u, hu, hIu, hx⟩ := ih hIt hrun
    exact ⟨u, ht.trans hu, hIu, hx⟩

theorem trace_iff (h : Implements M observe N start I abs) :
    M.Trace observe es ↔ ∃ x, N.run es start = some x := by
  constructor
  · rintro ⟨s, t, hinit, he⟩
    obtain ⟨hs, habs⟩ := h.init s hinit
    exact ⟨abs t, habs ▸ (h.sound he hs).2⟩
  · rintro ⟨x, hx⟩
    obtain ⟨s, hinit⟩ := h.starts
    obtain ⟨hs, rfl⟩ := h.init s hinit
    obtain ⟨t, ht, -⟩ := h.complete hs hx
    exact ⟨s, t, hinit, ht⟩

/-- No visible step follows exactly where the specification is stuck. -/
theorem silent_iff (h : Implements M observe N start I abs) (hs : I s) :
    M.Silent observe s ↔ N.Stuck (abs s) := by
  constructor
  · intro hsilent e
    cases hx : N.act e (abs s) with
    | none => rfl
    | some x =>
      obtain ⟨t, ht⟩ := h.offers s e x hs hx
      exact absurd (hsilent [e] t ht) (List.cons_ne_nil e [])
  · intro hstuck es t he
    obtain ⟨-, hrun⟩ := h.sound he hs
    cases es with
    | nil => rfl
    | cons e es =>
      rw [Machine.run, hstuck e] at hrun
      cases hrun

theorem settles_iff (h : Implements M observe N start I abs) :
    M.Settles observe es ↔ ∃ x, N.run es start = some x ∧ N.Stuck x := by
  constructor
  · rintro ⟨s, t, hinit, he, hsilent⟩
    obtain ⟨hs, habs⟩ := h.init s hinit
    obtain ⟨ht, hrun⟩ := h.sound he hs
    exact ⟨abs t, habs ▸ hrun, (h.silent_iff ht).1 hsilent⟩
  · rintro ⟨x, hx, hstuck⟩
    obtain ⟨s, hinit⟩ := h.starts
    obtain ⟨hs, rfl⟩ := h.init s hinit
    obtain ⟨t, ht, hIt, rfl⟩ := h.complete hs hx
    exact ⟨s, t, hinit, ht, (h.silent_iff hIt).2 hstuck⟩

/-- Other initial states, of which the same is visible. -/
theorem of_act (h : Implements M observe N start I abs) {K : Machine Λ σ} (hact : K.act = M.act)
    (hstarts : ∃ s, K.init s) (hinit : ∀ s, K.init s → I s ∧ abs s = start) :
    Implements K observe N start I abs where
  starts := hstarts
  init := hinit
  invariant l s t hs hl := h.invariant l s t hs (hact ▸ hl)
  silent l s t hs hl := h.silent l s t hs (hact ▸ hl)
  visible l s t e hs hl := h.visible l s t e hs (hact ▸ hl)
  offers s e x hs hx := by
    obtain ⟨t, ht⟩ := h.offers s e x hs hx
    exact ⟨t, ht.of_act hact⟩

theorem trace_congr (h : Implements M observe N start I abs)
    (h' : Implements M' observe' N start I' abs') (es : List ε) :
    M.Trace observe es ↔ M'.Trace observe' es :=
  h.trace_iff.trans h'.trace_iff.symm

theorem settles_congr (h : Implements M observe N start I abs)
    (h' : Implements M' observe' N start I' abs') (es : List ε) :
    M.Settles observe es ↔ M'.Settles observe' es :=
  h.settles_iff.trans h'.settles_iff.symm

end Implements

end SemOS.Machine
