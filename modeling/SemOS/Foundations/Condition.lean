import Mathlib.Logic.Function.Basic

/-!
# Condition variables

The threads of a monitor are a family of control points, some of which are asleep on a condition
variable; a broadcast moves each of those on and leaves the others where they are.

* `Sleepers asleep waits` says that every thread asleep has a reason to wait. A monitor that
  broadcasts whenever it changes what its threads wait for keeps it (`Sleepers.update`,
  `Sleepers.broadcast`, `Sleepers.mono`): no wake-up is lost.
-/

namespace SemOS.Condition

variable {ι κ : Type*} {asleep waits waits' : κ → Prop} {wake : κ → κ} {c : ι → κ}

/-- Wake every thread of the family. -/
def broadcast (wake : κ → κ) (c : ι → κ) : ι → κ := fun i => wake (c i)

@[simp] theorem broadcast_apply (wake : κ → κ) (c : ι → κ) (i : ι) :
    broadcast wake c i = wake (c i) := rfl

/-- Every thread asleep has a reason to wait. -/
def Sleepers (asleep waits : κ → Prop) (c : ι → κ) : Prop := ∀ i, asleep (c i) → waits (c i)

theorem Sleepers.update [DecidableEq ι] {r : ι} {k : κ} (h : Sleepers asleep waits c)
    (hk : asleep k → waits k) : Sleepers asleep waits (Function.update c r k) := by
  intro i hi
  by_cases hr : i = r
  · subst hr
    rw [Function.update_self] at hi ⊢
    exact hk hi
  · rw [Function.update_of_ne hr] at hi ⊢
    exact h i hi

theorem Sleepers.mono (h : Sleepers asleep waits c)
    (hw : ∀ i, asleep (c i) → waits (c i) → waits' (c i)) : Sleepers asleep waits' c :=
  fun i hi => hw i hi (h i hi)

/-- After a broadcast nobody is asleep. -/
theorem Sleepers.broadcast (hwake : ∀ k, ¬ asleep (wake k)) :
    Sleepers asleep waits (broadcast wake c) :=
  fun i hi => absurd hi (hwake (c i))

end SemOS.Condition
