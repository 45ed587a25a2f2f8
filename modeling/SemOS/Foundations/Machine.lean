import Mathlib.Logic.Relation
import Mathlib.Logic.Basic
import Mathlib.Data.Nat.Notation
import Mathlib.Order.Defs.PartialOrder

/-!
# Machines with labelled partial steps

A machine is a predicate of initial states together with, for every label, a partial step. A
concurrent program is a machine whose labels say which process moves (and how the outside world
answers it); an interleaving of its processes is a list of labels.

* `Machine.Reachable` is reachability from an initial state, `Machine.ReachableWhere P` the same
  along runs all of whose steps meet a condition `P`. Invariants are proved by
  `Reachable.invariant` and `ReachableWhere.invariant`, from the initial states and one step.
* `Machine.run` and `Machine.runWhere` execute a schedule, so that a reachable state is exhibited
  by computation (`reachable_of_run`, `reachableWhere_of_run`).
* `Machine.Throughout H` says that a schedule visits only states that satisfy `H`, `Machine.Along P`
  that all of its steps meet `P`; `throughout_iff_along` is the rule that compares the two, and
  `run_eq_iff_along` the one for a measure that no step decreases.
* `Machine.exists_stuck`: where a measure decreases at every step, every state leads to one that
  is stuck; `exists_stuck_where` is the same for the steps that a scheduling policy allows, and
  `length_le_of_run` bounds the runs.
-/

namespace SemOS

/-- A machine: its initial states, and a partial step for every label. -/
structure Machine (Λ σ : Type*) where
  init : σ → Prop
  act : Λ → σ → Option σ

namespace Machine

variable {Λ σ : Type*} (M : Machine Λ σ)

/-- One step, under some label. -/
def Step (s t : σ) : Prop := ∃ l, M.act l s = some t

/-- One step, under a label that meets the condition `P` in the state it starts from. -/
def StepWhere (P : Λ → σ → Prop) (s t : σ) : Prop := ∃ l, P l s ∧ M.act l s = some t

/-- The state `s` leads to `t`. -/
def Leads : σ → σ → Prop := Relation.ReflTransGen M.Step

/-- Some initial state leads to `t`. -/
def Reachable (t : σ) : Prop := ∃ s, M.init s ∧ M.Leads s t

/-- Some initial state leads to `t` by steps that all meet `P`. -/
def ReachableWhere (P : Λ → σ → Prop) (t : σ) : Prop :=
  ∃ s, M.init s ∧ Relation.ReflTransGen (M.StepWhere P) s t

/-- No label moves `s`. -/
def Stuck (s : σ) : Prop := ∀ l, M.act l s = none

/-- Execute a schedule, a list of labels. -/
def run : List Λ → σ → Option σ
  | [], s => some s
  | l :: ls, s => (M.act l s).bind (run ls)

/-- The same for a schedule whose steps all have to meet `P`. -/
def runWhere (P : Λ → σ → Prop) [∀ l s, Decidable (P l s)] : List Λ → σ → Option σ
  | [], s => some s
  | l :: ls, s => if P l s then (M.act l s).bind (runWhere P ls) else none

/-- Every state that a schedule visits satisfies `H`. -/
def Throughout (H : σ → Prop) : List Λ → σ → Prop
  | [], s => H s
  | l :: ls, s => H s ∧ ∀ t, M.act l s = some t → Throughout H ls t

/-- Every step that a schedule takes meets `P`; a schedule ends at a label that moves nothing. -/
def Along (P : Λ → σ → Prop) : List Λ → σ → Prop
  | [], _ => True
  | l :: ls, s => ∀ t, M.act l s = some t → P l s ∧ Along P ls t

variable {M}

theorem Reachable.of_init {s : σ} (h : M.init s) : M.Reachable s :=
  ⟨s, h, Relation.ReflTransGen.refl⟩

theorem Reachable.leads {s t : σ} (h : M.Reachable s) (h' : M.Leads s t) : M.Reachable t := by
  obtain ⟨s₀, h₀, hs⟩ := h
  exact ⟨s₀, h₀, hs.trans h'⟩

theorem Reachable.act {s t : σ} {l : Λ} (h : M.Reachable s) (h' : M.act l s = some t) :
    M.Reachable t :=
  h.leads (Relation.ReflTransGen.single ⟨l, h'⟩)

/-- What every step keeps, along a path. -/
theorem Leads.invariant {I : σ → Prop} {s t : σ} (h : M.Leads s t) (hs : I s)
    (hstep : ∀ l s t, I s → M.act l s = some t → I t) : I t := by
  induction h with
  | refl => exact hs
  | tail _ hl ih =>
    obtain ⟨l, hl⟩ := hl
    exact hstep l _ _ ih hl

/-- What holds initially and is kept by every step holds of every reachable state. -/
theorem Reachable.invariant {I : σ → Prop} {t : σ} (h : M.Reachable t)
    (h₀ : ∀ s, M.init s → I s) (hstep : ∀ l s s', I s → M.act l s = some s' → I s') : I t := by
  obtain ⟨s₀, hi, hs⟩ := h
  exact Leads.invariant hs (h₀ s₀ hi) hstep

/-- The same along the runs whose steps all meet `P`. -/
theorem ReachableWhere.invariant {P : Λ → σ → Prop} {I : σ → Prop} {t : σ}
    (h : M.ReachableWhere P t) (h₀ : ∀ s, M.init s → I s)
    (hstep : ∀ l s s', I s → P l s → M.act l s = some s' → I s') : I t := by
  obtain ⟨s₀, hi, hs⟩ := h
  induction hs with
  | refl => exact h₀ s₀ hi
  | tail _ hl ih =>
    obtain ⟨l, hP, hl⟩ := hl
    exact hstep l _ _ ih hP hl

/-- A schedule that runs to its end is a path of the machine. -/
theorem leads_of_run {ls : List Λ} {s t : σ} (h : M.run ls s = some t) : M.Leads s t := by
  induction ls generalizing s with
  | nil =>
    obtain rfl := Option.some.inj h
    exact Relation.ReflTransGen.refl
  | cons l ls ih =>
    obtain ⟨u, hu, h⟩ := Option.bind_eq_some_iff.mp h
    exact Relation.ReflTransGen.head ⟨l, hu⟩ (ih h)

theorem run_append {ls ls' : List Λ} {s t : σ} (h : M.run ls s = some t) :
    M.run (ls ++ ls') s = M.run ls' t := by
  induction ls generalizing s with
  | nil =>
    obtain rfl := Option.some.inj h
    rfl
  | cons l ls ih =>
    obtain ⟨u, hu, h⟩ := Option.bind_eq_some_iff.mp h
    rw [List.cons_append, run, hu, Option.bind_some]
    exact ih h

theorem reachable_of_run {ls : List Λ} {s t : σ} (hs : M.init s) (h : M.run ls s = some t) :
    M.Reachable t :=
  (Reachable.of_init hs).leads (leads_of_run h)

theorem reachableWhere_of_run {P : Λ → σ → Prop} [∀ l s, Decidable (P l s)] {ls : List Λ}
    {s t : σ} (hs : M.init s) (h : M.runWhere P ls s = some t) : M.ReachableWhere P t := by
  refine ⟨s, hs, ?_⟩
  clear hs
  induction ls generalizing s with
  | nil =>
    obtain rfl := Option.some.inj h
    exact Relation.ReflTransGen.refl
  | cons l ls ih =>
    unfold runWhere at h
    split at h
    · rename_i hP
      obtain ⟨u, hu, h⟩ := Option.bind_eq_some_iff.mp h
      exact Relation.ReflTransGen.head ⟨l, hP, hu⟩ (ih h)
    · cases h

/-- Whether a schedule only takes steps that meet `P` is decided by executing it. -/
instance decidableAlong {P : Λ → σ → Prop} [∀ l s, Decidable (P l s)] :
    ∀ ls s, Decidable (M.Along P ls s)
  | [], _ => isTrue trivial
  | l :: ls, s =>
    match h : M.act l s with
    | none => isTrue fun t ht => by rw [h] at ht; cases ht
    | some t =>
      haveI := decidableAlong (P := P) ls t
      decidable_of_iff (P l s ∧ M.Along P ls t)
        ⟨fun hPt u hu => by rw [h] at hu; cases hu; exact hPt, fun hl => hl t h⟩

theorem Throughout.head {H : σ → Prop} {ls : List Λ} {s : σ} (h : M.Throughout H ls s) : H s := by
  cases ls with
  | nil => exact h
  | cons l ls => exact h.1

/-- Every schedule visits only states with what every step keeps. -/
theorem throughout_of_step {I : σ → Prop} (hI : ∀ l s t, I s → M.act l s = some t → I t)
    (ls : List Λ) {s : σ} (hs : I s) : M.Throughout I ls s := by
  induction ls generalizing s with
  | nil => exact hs
  | cons l ls ih => exact ⟨hs, fun t ht => ih (hI l s t hs ht)⟩

/-- Along a schedule whose steps meet `P`, what `P` implies under an invariant. -/
theorem Along.mono {P Q : Λ → σ → Prop} {I : σ → Prop}
    (hI : ∀ l s t, I s → P l s → M.act l s = some t → I t) (hPQ : ∀ l s, I s → P l s → Q l s)
    {ls : List Λ} {s : σ} (hs : I s) (h : M.Along P ls s) : M.Along Q ls s := by
  induction ls generalizing s with
  | nil => trivial
  | cons l ls ih =>
    intro t ht
    obtain ⟨hP, hls⟩ := h t ht
    exact ⟨hPQ l s hs hP, ih (hI l s t hs hP ht) hls⟩

/-- A schedule whose steps meet `P` visits only states with what the steps keep. -/
theorem Along.throughout {P : Λ → σ → Prop} {H I : σ → Prop}
    (hI : ∀ l s t, I s → P l s → M.act l s = some t → I t) (hIH : ∀ s, I s → H s)
    {ls : List Λ} {s : σ} (hs : I s) (h : M.Along P ls s) : M.Throughout H ls s := by
  induction ls generalizing s with
  | nil => exact hIH s hs
  | cons l ls ih =>
    refine ⟨hIH s hs, fun t ht => ?_⟩
    obtain ⟨hP, hls⟩ := h t ht
    exact ih (hI l s t hs hP ht) hls

/-- The last state that a schedule visits. -/
theorem Throughout.last {H : σ → Prop} {ls : List Λ} {s t : σ} (h : M.Throughout H ls s)
    (hrun : M.run ls s = some t) : H t := by
  induction ls generalizing s with
  | nil =>
    obtain rfl := Option.some.inj hrun
    exact h
  | cons l ls ih =>
    obtain ⟨u, hu, hrun⟩ := Option.bind_eq_some_iff.mp hrun
    exact ih (h.2 u hu) hrun

/-- What the steps of a run keep that all meet `P`. -/
theorem Along.invariant {P : Λ → σ → Prop} {I : σ → Prop}
    (hI : ∀ l s t, I s → P l s → M.act l s = some t → I t) {ls : List Λ} {s t : σ}
    (h : M.Along P ls s) (hs : I s) (hrun : M.run ls s = some t) : I t :=
  (h.throughout hI (fun _ => id) hs).last hrun

/-- Where a step that meets `Q` keeps `H` exactly when it meets `P`, a schedule whose steps meet `Q`
visits only states with `H` exactly when all of its steps meet `P`. The steps that meet both keep
`I`. -/
theorem throughout_iff_along_where {P Q : Λ → σ → Prop} {H I : σ → Prop}
    (hI : ∀ l s t, I s → Q l s → P l s → M.act l s = some t → I t)
    (hstep : ∀ l s t, I s → Q l s → H s → M.act l s = some t → (H t ↔ P l s)) (ls : List Λ) {s : σ}
    (hs : I s) (hH : H s) (hQ : M.Along Q ls s) : M.Throughout H ls s ↔ M.Along P ls s := by
  induction ls generalizing s with
  | nil => exact ⟨fun _ => trivial, fun _ => hH⟩
  | cons l ls ih =>
    constructor
    · intro h t ht
      obtain ⟨hl, hQ⟩ := hQ t ht
      have hHt : H t := (h.2 t ht).head
      have hP := (hstep l s t hs hl hH ht).1 hHt
      exact ⟨hP, (ih (hI l s t hs hl hP ht) hHt hQ).1 (h.2 t ht)⟩
    · intro h
      refine ⟨hH, fun t ht => ?_⟩
      obtain ⟨hl, hQ⟩ := hQ t ht
      obtain ⟨hP, hls⟩ := h t ht
      exact (ih (hI l s t hs hl hP ht) ((hstep l s t hs hl hH ht).2 hP) hQ).2 hls

/-- Where every step from `I` meets `P` and keeps `I`, all steps of a schedule meet `P`. -/
theorem along_of_step {P : Λ → σ → Prop} {I : σ → Prop}
    (hstep : ∀ l s t, I s → M.act l s = some t → P l s ∧ I t) (ls : List Λ) {s : σ} (hs : I s) :
    M.Along P ls s := by
  induction ls generalizing s with
  | nil => trivial
  | cons l ls ih =>
    intro t ht
    obtain ⟨hP, hI⟩ := hstep l s t hs ht
    exact ⟨hP, ih hI⟩

/-- Where a step keeps `H` exactly when it meets `P`, a schedule visits only states with `H`
exactly when all of its steps meet `P`. The steps that meet `P` keep `I`. -/
theorem throughout_iff_along {P : Λ → σ → Prop} {H I : σ → Prop}
    (hI : ∀ l s t, I s → P l s → M.act l s = some t → I t)
    (hstep : ∀ l s t, I s → H s → M.act l s = some t → (H t ↔ P l s)) (ls : List Λ) {s : σ}
    (hs : I s) (hH : H s) : M.Throughout H ls s ↔ M.Along P ls s :=
  throughout_iff_along_where (Q := fun _ _ => True) (fun l s t hs _ hP ht => hI l s t hs hP ht)
    (fun l s t hs _ hH ht => hstep l s t hs hH ht) ls hs hH
    (along_of_step (I := fun _ => True) (fun _ _ _ _ _ => ⟨trivial, trivial⟩) ls trivial)

/-- What the steps under the labels of a schedule keep. -/
theorem invariant_of_run {I : σ → Prop} {ls : List Λ} {s t : σ} (h : M.run ls s = some t)
    (hs : I s) (hstep : ∀ l ∈ ls, ∀ s t, I s → M.act l s = some t → I t) : I t := by
  induction ls generalizing s with
  | nil =>
    obtain rfl := Option.some.inj h
    exact hs
  | cons l ls ih =>
    obtain ⟨u, hu, h⟩ := Option.bind_eq_some_iff.mp h
    exact ih h (hstep l List.mem_cons_self s u hs hu) fun l hl =>
      hstep l (List.mem_cons_of_mem _ hl)

/-- Where a step that meets `P` keeps `I`, and one that does not leads from `I` to `B`, which every
step keeps, the end of a run says whether all of its steps have met `P`. -/
theorem along_or_of_run {P : Λ → σ → Prop} {I B : σ → Prop}
    (hI : ∀ l s t, I s → P l s → M.act l s = some t → I t)
    (hIB : ∀ l s t, I s → ¬ P l s → M.act l s = some t → B t)
    (hB : ∀ l s t, B s → M.act l s = some t → B t) {ls : List Λ} {s t : σ}
    (h : M.run ls s = some t) (hs : I s) : M.Along P ls s ∧ I t ∨ ¬ M.Along P ls s ∧ B t := by
  induction ls generalizing s with
  | nil =>
    obtain rfl := Option.some.inj h
    exact .inl ⟨trivial, hs⟩
  | cons l ls ih =>
    obtain ⟨u, hu, h⟩ := Option.bind_eq_some_iff.mp h
    by_cases hP : P l s
    · obtain ⟨hls, ht⟩ | ⟨hls, ht⟩ := ih h (hI l s u hs hP hu)
      · refine .inl ⟨fun v hv => ?_, ht⟩
        obtain rfl := Option.some.inj (hu.symm.trans hv)
        exact ⟨hP, hls⟩
      · exact .inr ⟨fun hall => hls (hall u hu).2, ht⟩
    · exact .inr ⟨fun hall => hP (hall u hu).1,
        Leads.invariant (leads_of_run h) (hIB l s u hs hP hu) hB⟩

/-- Where no step decreases a measure, a run keeps it exactly when all of its steps do. -/
theorem run_eq_iff_along {α : Type*} [PartialOrder α] {μ : σ → α} {P : Λ → σ → Prop}
    (hle : ∀ l s t, M.act l s = some t → μ s ≤ μ t)
    (hP : ∀ l s t, M.act l s = some t → (μ t = μ s ↔ P l s)) {ls : List Λ} {s t : σ}
    (h : M.run ls s = some t) : μ t = μ s ↔ M.Along P ls s := by
  induction ls generalizing s with
  | nil =>
    obtain rfl := Option.some.inj h
    exact ⟨fun _ => trivial, fun _ => rfl⟩
  | cons l ls ih =>
    obtain ⟨u, hu, h⟩ := Option.bind_eq_some_iff.mp h
    have hsu : μ s ≤ μ u := hle l s u hu
    have hut : μ u ≤ μ t := Leads.invariant (I := fun v => μ u ≤ μ v) (leads_of_run h) le_rfl
      fun l v w hv hl => le_trans hv (hle l v w hl)
    constructor
    · intro hst v hv
      obtain rfl := Option.some.inj (hu.symm.trans hv)
      have hus : μ u = μ s := le_antisymm (le_of_le_of_eq hut hst) hsu
      exact ⟨(hP l s u hu).1 hus, (ih h).1 (hst.trans hus.symm)⟩
    · intro hls
      obtain ⟨hl, hls⟩ := hls u hu
      exact ((ih h).2 hls).trans ((hP l s u hu).2 hl)

/-- Where a measure decreases at every step that a policy `P` allows, every state leads under the
policy to one in which the policy allows no step. The steps keep `I`. -/
theorem exists_stuck_where {I : σ → Prop} {P : Λ → σ → Prop} (μ : σ → ℕ)
    (hstep : ∀ l s s', I s → P l s → M.act l s = some s' → I s' ∧ μ s' < μ s) {s : σ} (hs : I s) :
    ∃ t, M.Leads s t ∧ I t ∧ ∀ l, P l t → M.act l t = none := by
  induction hn : μ s using Nat.strongRecOn generalizing s with
  | ind n ih =>
    by_cases h : ∀ l, P l s → M.act l s = none
    · exact ⟨s, Relation.ReflTransGen.refl, hs, h⟩
    · simp only [not_forall] at h
      obtain ⟨l, hP, hl⟩ := h
      obtain ⟨s', hs'⟩ := Option.ne_none_iff_exists'.mp hl
      obtain ⟨hI, hμ⟩ := hstep l s s' hs hP hs'
      obtain ⟨t, ht, hIt, hst⟩ := ih (μ s') (hn ▸ hμ) hI rfl
      exact ⟨t, Relation.ReflTransGen.head ⟨l, hs'⟩ ht, hIt, hst⟩

/-- Where a measure decreases at every step that a policy `P` allows, a run under the policy is at
most as long as the measure is at its start. The steps keep `I`. -/
theorem length_le_of_run_where {I : σ → Prop} {P : Λ → Prop} (μ : σ → ℕ)
    (hstep : ∀ l s s', I s → P l → M.act l s = some s' → I s' ∧ μ s' < μ s) {ls : List Λ} {s t : σ}
    (h : M.run ls s = some t) (hP : ∀ l ∈ ls, P l) (hs : I s) : ls.length ≤ μ s := by
  induction ls generalizing s with
  | nil => exact Nat.zero_le _
  | cons l ls ih =>
    obtain ⟨u, hu, h⟩ := Option.bind_eq_some_iff.mp h
    obtain ⟨hI, hlt⟩ := hstep l s u hs (hP l List.mem_cons_self) hu
    exact Nat.lt_of_le_of_lt (ih h (fun l hl => hP l (List.mem_cons_of_mem _ hl)) hI) hlt

/-- The same for a run all of whose steps meet `P`. -/
theorem length_le_of_along {I : σ → Prop} {P : Λ → σ → Prop} (μ : σ → ℕ)
    (hstep : ∀ l s s', I s → P l s → M.act l s = some s' → I s' ∧ μ s' < μ s) {ls : List Λ}
    {s t : σ} (h : M.run ls s = some t) (hP : M.Along P ls s) (hs : I s) : ls.length ≤ μ s := by
  induction ls generalizing s with
  | nil => exact Nat.zero_le _
  | cons l ls ih =>
    obtain ⟨u, hu, h⟩ := Option.bind_eq_some_iff.mp h
    obtain ⟨hl, hls⟩ := hP u hu
    obtain ⟨hI, hlt⟩ := hstep l s u hs hl hu
    exact Nat.lt_of_le_of_lt (ih h hls hI) hlt

/-- The same without a policy. -/
theorem length_le_of_run {I : σ → Prop} (μ : σ → ℕ)
    (hstep : ∀ l s s', I s → M.act l s = some s' → I s' ∧ μ s' < μ s) {ls : List Λ} {s t : σ}
    (h : M.run ls s = some t) (hs : I s) : ls.length ≤ μ s :=
  length_le_of_run_where (P := fun _ => True) μ (fun l s s' hs _ => hstep l s s' hs) h
    (fun _ _ => trivial) hs

/-- Without a policy the state reached is stuck. -/
theorem exists_stuck {I : σ → Prop} (μ : σ → ℕ)
    (hstep : ∀ l s s', I s → M.act l s = some s' → I s' ∧ μ s' < μ s) {s : σ} (hs : I s) :
    ∃ t, M.Leads s t ∧ I t ∧ M.Stuck t := by
  obtain ⟨t, ht, hI, hst⟩ := exists_stuck_where (P := fun _ _ => True) μ
    (fun l s s' hs _ h => hstep l s s' hs h) hs
  exact ⟨t, ht, hI, fun l => hst l trivial⟩

end Machine

end SemOS
