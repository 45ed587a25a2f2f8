import SemOS.Bogatyri.ExchangeAgreed
import SemOS.Bogatyri.SocketsProgram
import SemOS.Foundations.Simulation

/-!
# What `main` of the socket program knows

The program follows `Exchange.machine` (`exchange_simulates`), and a child in its loop has set
`active` before. `Managed` adds what `main` knows of its children: when it has finished, all of them
have exited (`Managed.ended_of_finished`).
-/

namespace SemOS.Bogatyri.Sockets2

open Function

variable {n : ℕ} {qsort : (Int32 → Int32 → Int32) → List Int32 → List Int32}
  {system : Exchange.Pids n} {terminal : Bool} {str : Sockets.InputString} {s t : State n}
  {p q : Fin (n + 1)} {c : Child} {e e' : Exchange.State n}

/-! ## The exchange -/

/-- The exchange machine follows the program. -/
theorem exchange_simulates :
    (Exchange.machine qsort system).Simulates (machine qsort system terminal str)
      fun s e => s.exchange = e := by
  constructor
  · intro s hs
    rw [show s = initial n from hs]
    exact ⟨Exchange.initial n, rfl, rfl⟩
  · rintro l s t e - - rfl hl
    have stay : t.exchange = s.exchange →
        ∃ e', (Exchange.machine qsort system).Leads s.exchange e' ∧ t.exchange = e' := fun h =>
      ⟨s.exchange, Relation.ReflTransGen.refl, h⟩
    cases step_moves hl with
    | @exchange l e hc he => exact ⟨e, Relation.ReflTransGen.single ⟨l, he⟩, rfl⟩
    | sing hc hr ht =>
      refine stay ?_
      rw [State.sung]
      split_ifs <;> rfl
    | _ => exact stay rfl

/-- A process that has set `active` does nothing more in the exchange. -/
theorem started_stays {l : Exchange.Label n} (hm : Exchange.Moves qsort system e l e')
    (h : started e p = true) : started e' p = true := by
  cases p using Fin.cases with
  | zero =>
    have hc : e.coordinator = .started := by simpa [started] using h
    suffices e'.coordinator = .started by simpa [started] using this
    cases hm with
    | workerConnect | workerRetry | workerGivesUp | workerSend | workerListen | workerAccept
    | workerCount | workerPids | workerSearch | workerStart => exact hc
    | start => rfl
    | _ hc' =>
      rw [hc] at hc'
      cases hc'
  | succ v =>
    have hv : e.worker v = .started := by simpa [started] using h
    suffices e'.worker v = .started by simpa [started] using this
    have hother : ∀ {w : Fin n} {c d : Exchange.Worker}, e.worker w = d → d ≠ .started →
        update e.worker w c v = .started := by
      rintro w c d rfl hw
      have hvw : v ≠ w := fun h => hw (h ▸ hv)
      rwa [update_of_ne hvw]
    cases hm with
    | workerConnect hw | workerRetry hw | workerGivesUp hw | workerSend hw | workerListen hw
    | workerAccept hw | workerCount hw | workerPids hw | workerSearch hw | workerStart hw =>
      exact hother hw (by simp)
    | _ => exact hv

/-- What a child knows once it has set `active`. -/
theorem vars_of_started (hq : Qsort.Sorts qsort)
    (he : (Exchange.machine qsort system).Reachable e) (h : started e p = true) :
    e.vars p = (Exchange.final qsort system p).start := by
  obtain ⟨order, ha⟩ := Exchange.reachable_agreed hq he
  cases p using Fin.cases with
  | zero =>
    have hc : e.coordinator = .started := by simpa [started] using h
    have hholds := ha.holds
    rw [hc] at hholds
    exact hholds.2
  | succ w =>
    have hw : e.worker w = .started := by simpa [started] using h
    exact ha.workerVars hw

/-! ## What `main` knows -/

/-- What `main` knows of its children where it is. -/
def Main.Manages (s : State n) : Main → Prop
  | .start => ∀ p, s.child p = .unborn
  | .launching i => ∀ p : Fin (n + 1), i ≤ p → s.child p = .unborn
  | .waiting i reaped => i ≤ n + 1 ∧ reaped ≤ s.ended ∧ (reaped = i ∨ reaped = s.born)
  | .finished => s.ended = s.born

/-- `main` knows its children, and a child in its loop has set `active` before. -/
structure Managed (s : State n) : Prop where
  main : s.main.Manages s
  entered : ∀ p c, s.child p = .singing c → started s.exchange p = true

theorem ended_le_born (s : State n) : s.ended ≤ s.born := by
  refine Finset.card_le_card fun p hp => ?_
  simp only [Finset.mem_filter, Finset.mem_univ, true_and] at hp ⊢
  intro hu
  rw [hu] at hp
  cases hp

theorem born_le (s : State n) : s.born ≤ n + 1 := by
  have := Finset.card_le_univ (Finset.univ.filter fun p => s.child p ≠ .unborn)
  rwa [Fintype.card_fin] at this

/-- A child that is running goes on or exits. -/
theorem ended_goto (hp : s.child p ≠ .unborn) (he : (s.child p).ended = false)
    (hc : c ≠ .unborn) (htc : t.child = update s.child p c) :
    s.ended ≤ t.ended ∧ t.born = s.born := by
  constructor
  · refine Finset.card_le_card fun q hq => ?_
    simp only [Finset.mem_filter, Finset.mem_univ, true_and] at hq ⊢
    have hqp : q ≠ p := by
      rintro rfl
      rw [he] at hq
      cases hq
    rwa [htc, update_of_ne hqp]
  · refine congrArg Finset.card (Finset.filter_congr fun q _ => ?_)
    rw [htc]
    by_cases hqp : q = p
    · subst hqp
      rw [update_self]
      exact iff_of_true hc hp
    · rw [update_of_ne hqp]

/-- A running child goes on or exits, and `main` knows as much as before. -/
theorem Managed.move (h : Managed s) (hp : s.child p ≠ .unborn) (he : (s.child p).ended = false)
    (hc : c ≠ .unborn) (htc : t.child = update s.child p c) (htm : t.main = s.main)
    (hte : t.exchange = s.exchange) (hs : ∀ d, c = .singing d → started s.exchange p = true) :
    Managed t := by
  obtain ⟨hended, hborn⟩ := ended_goto hp he hc htc
  have hmain := h.main
  refine ⟨?_, fun q d hq => ?_⟩
  · rw [htm]
    cases hm : s.main with
    | start =>
      rw [hm] at hmain
      exact absurd (hmain p) hp
    | launching i =>
      rw [hm] at hmain
      intro q hi
      have hqp : q ≠ p := fun heq => hp (heq ▸ hmain q hi)
      rw [htc, update_of_ne hqp]
      exact hmain q hi
    | waiting i reaped =>
      rw [hm] at hmain
      obtain ⟨hi, hle, hor⟩ := hmain
      exact ⟨hi, hle.trans hended, by rwa [hborn]⟩
    | finished =>
      rw [hm] at hmain
      exact Nat.le_antisymm (ended_le_born t) (by rw [hborn]; exact hmain.symm.le.trans hended)
  · rw [hte]
    by_cases hqp : q = p
    · subst hqp
      rw [htc, update_self] at hq
      exact hs d hq
    · rw [htc, update_of_ne hqp] at hq
      exact h.entered q d hq

/-- The children after a piece of the loop of one. -/
theorem sung_child (s : State n) (p r : Fin (n + 1)) (u : Sockets.State (n + 1)) :
    (s.sung p r u).child = update s.child p (.singing (u.control r)) ∧
      (s.sung p r u).main = s.main ∧ (s.sung p r u).exchange = s.exchange ∧
      (s.sung p r u).connections = u.connections ∧
      (s.sung p r u).printed = s.printed ++ u.printed.map fun c => (p, c) := by
  rw [State.sung]
  split_ifs <;> exact ⟨rfl, rfl, rfl, rfl, rfl⟩

theorem step_managed (h : Managed s) (hm : Moves qsort system terminal str s t) : Managed t := by
  have hmain := h.main
  cases hm with
  | begin hm =>
    rw [hm] at hmain
    exact ⟨fun p _ => hmain p, h.entered⟩
  | @fork p hm =>
    rw [hm] at hmain
    refine ⟨fun q hq => ?_, fun q d hq => ?_⟩
    · have hqp : q ≠ p := by
        rintro rfl
        omega
      simp only [State.goto, update_of_ne hqp]
      exact hmain q (by omega)
    · by_cases hqp : q = p
      · subst hqp
        simp [State.goto] at hq
      · simp only [State.goto, update_of_ne hqp] at hq
        exact h.entered q d hq
  | @forkFails p hm =>
    rw [hm] at hmain
    exact ⟨fun q hq => hmain q (by omega), h.entered⟩
  | launched hm hi => exact ⟨⟨Nat.zero_le _, Nat.zero_le _, Or.inl rfl⟩, h.entered⟩
  | reap hm hi hr =>
    rw [hm] at hmain
    obtain ⟨-, -, hor⟩ := hmain
    have hle := ended_le_born s
    refine ⟨⟨hi, hr, Or.inl ?_⟩, h.entered⟩
    omega
  | childless hm hi hr =>
    rw [hm] at hmain
    exact ⟨⟨hi, hmain.2.1, Or.inr hr⟩, h.entered⟩
  | finish hm hi =>
    rw [hm] at hmain
    obtain ⟨-, hle, hor⟩ := hmain
    have hle' := ended_le_born s
    have hborn := born_le s
    refine ⟨?_, h.entered⟩
    show s.ended = s.born
    omega
  | @exchange l e hc he =>
    refine ⟨?_, fun q d hq => started_stays (Exchange.step_moves he) (h.entered q d hq)⟩
    exact hmain
  | serverFails hc he =>
    exact h.move (c := .failed) (by simp [hc]) (by simp [hc, Child.ended]) (by simp) rfl rfl rfl
      (by simp)
  | enter hc he =>
    exact h.move (by simp [hc]) (by simp [hc, Child.ended]) (by simp) rfl rfl rfl fun _ _ => he
  | @sing p r ok c u hc hr hu =>
    obtain ⟨hchild, hmain', hexchange, -⟩ := sung_child s p r u
    refine h.move (by simp [hc]) ?_ (by simp) hchild hmain' hexchange
      fun _ _ => h.entered p c hc
    rw [hc]
    cases c with
    | exited => cases hu
    | _ => rfl

theorem reachable_managed (hs : (machine qsort system terminal str).Reachable s) : Managed s := by
  refine hs.invariant (fun s h => ?_) fun _ _ _ h hl => step_managed h (step_moves hl)
  rw [show s = initial n from h]
  exact ⟨fun _ => rfl, fun p c hc => by simp [initial] at hc⟩

/-- When `main` has finished, every child has exited. -/
theorem Managed.ended_of_finished (h : Managed s) (hm : s.main = .finished) (p : Fin (n + 1)) :
    s.child p = .unborn ∨ (s.child p).ended = true := by
  have hmain := h.main
  rw [hm] at hmain
  have hsub : (Finset.univ.filter fun p => (s.child p).ended = true) =
      Finset.univ.filter fun p => s.child p ≠ .unborn := by
    refine Finset.eq_of_subset_of_card_le (fun q hq => ?_) (le_of_eq hmain.symm)
    simp only [Finset.mem_filter, Finset.mem_univ, true_and] at hq ⊢
    intro hu
    rw [hu] at hq
    cases hq
  by_cases hu : s.child p = .unborn
  · exact Or.inl hu
  · have hmem : p ∈ Finset.univ.filter fun p => (s.child p).ended = true := by
      rw [hsub]
      simpa using hu
    exact Or.inr (by simpa using hmem)

end SemOS.Bogatyri.Sockets2
