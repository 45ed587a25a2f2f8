import SemOS.Bogatyri.RegistryRank
import SemOS.Foundations.Processes

/-!
# Progress of the registry

A process that counts fewer than `N` lines counts again, so the registry is never stuck, and a
schedule that lets only the counters run goes on for ever. Two measures say that every state can
still come to its end. First the processes that have not written their lines do so
(`registersMeasure`): the lock is free or its holder can move (`LockHeld`). Then the registry is
final, whoever counts finds `N` lines, and every step comes nearer to the end (`readsMeasure`).

* `Pids.rank`: how many process numbers are below that of a process. It is what `get_my_rank`
  returns (`rank_of_returned`).
* **`registry_progresses`**: from every reachable state all processes can return with their ranks.
-/

namespace SemOS.Bogatyri.Registry

open Function Decimal Msgq

variable {N : ℕ} {system : Pids N} {s t : State N} {q r : Fin N} {order : List (Fin N)}
  {c : Control}

/-! ## The ranks -/

/-- The rank of a process: how many numbers are below its own. -/
def Pids.rank (system : Pids N) (r : Fin N) : Fin N :=
  ⟨(Finset.univ.filter fun q => (system.pid q : ℤ) < system.pid r).card, by
    have hlt := Finset.card_lt_univ_of_notMem (s := Finset.univ.filter fun q =>
      (system.pid q : ℤ) < system.pid r) (x := r) (by simp)
    rwa [Fintype.card_fin] at hlt⟩

theorem injective_intPid (system : Pids N) : Injective fun r => (system.pid r : ℤ) := fun _ _ h =>
  system.injective (Int.natCast_inj.1 h)

theorem int_lt_asymm (a b : ℤ) (h : a < b) : ¬ b < a := not_lt_of_gt h

/-- A process finds its rank in the sorted numbers of all. -/
theorem idxOf_sortPids (horder : order.Nodup) (hlen : order.length = N) (r : Fin N) :
    (sortPids (system.numbers order)).idxOf (system.pid r : ℤ) = system.rank r := by
  have hperm : (system.numbers order).Perm (List.ofFn fun r => (system.pid r : ℤ)) :=
    perm_ofFn horder hlen
  exact Ranking.idxOf_eq_card (f := fun r => (system.pid r : ℤ)) (r := (· < ·)) int_lt_asymm
    ((sortPids_perm _).trans hperm) (injective_intPid system)
    (sortPids_sorted (Ranking.nodup_of_perm hperm (injective_intPid system))) r

/-- The ranks are in the order of the numbers. -/
theorem rank_lt_rank_iff : system.rank q < system.rank r ↔ system.pid q < system.pid r := by
  have hlt : ∀ {q r : Fin N}, system.pid q < system.pid r → system.rank q < system.rank r := by
    intro q r h
    refine Fin.mk_lt_mk.2 (Finset.card_lt_card
      ((Finset.ssubset_iff_of_subset fun p hp => ?_).2 ⟨q, ?_, ?_⟩))
    · simp only [Finset.mem_filter, Finset.mem_univ, true_and] at hp ⊢
      omega
    · simpa using h
    · simp
  obtain h | h | h := Nat.lt_trichotomy (system.pid q) (system.pid r)
  · exact iff_of_true (hlt h) h
  · rw [system.injective h]
    exact iff_of_false (lt_irrefl _) (lt_irrefl _)
  · exact iff_of_false (lt_asymm (hlt h)) (lt_asymm h)

theorem rank_injective : Injective system.rank := by
  intro q r h
  apply system.injective
  have hq : ¬ system.rank q < system.rank r := by rw [h]; exact lt_irrefl _
  have hr : ¬ system.rank r < system.rank q := by rw [h]; exact lt_irrefl _
  rw [rank_lt_rank_iff] at hq hr
  omega

/-- **A process returns its rank.** -/
theorem rank_of_returned {n : ℕ} (hs : (machine system).Reachable s)
    (hr : s.control r = .returned n) : n = system.rank r := by
  obtain ⟨order, h⟩ := reachable_recorded hs
  have hk := h.knows r
  rw [hr] at hk
  rw [hk.2, idxOf_sortPids h.nodup hk.1]

/-! ## The lock -/

/-- The process that holds the lock has not given it back, and nobody else is where it is held. -/
def LockHeld (s : State N) : Prop :=
  ∀ r, s.lock = some r ↔ s.control r = .locked ∨ s.control r = .written

/-- A step of a process that neither takes nor holds the lock. -/
theorem LockHeld.goto (h : LockHeld s) (hr : ¬ (s.control r = .locked ∨ s.control r = .written))
    (hc : ¬ (c = .locked ∨ c = .written)) : LockHeld (s.goto r c) := by
  intro r'
  rw [State.goto_control]
  by_cases hr' : r' = r
  · subst hr'
    rw [update_self]
    exact (h r').trans (iff_of_false hr hc)
  · rw [update_of_ne hr']
    exact h r'

theorem step_lockHeld (h : LockHeld s) (hm : Moves system r s t) : LockHeld t := by
  have hfile : ∀ (file : List UInt8) (offset lines : ℕ),
      ¬ (countByte file offset lines = .locked ∨ countByte file offset lines = .written) := by
    intro file offset lines
    rw [countByte]
    split
    · simp
    · split <;> simp
  have hread : ∀ (file : List UInt8) (offset : ℕ) (pids : List ℤ),
      ¬ (readPid file offset pids = .locked ∨ readPid file offset pids = .written) := by
    intro file offset pids
    rw [readPid]
    split
    · split <;> simp
    · simp
  have hrank : ∀ (pids : List ℤ) (p : ℤ),
      ¬ (rankOf N pids p = .locked ∨ rankOf N pids p = .written) := by
    intro pids p
    rw [rankOf]
    split
    · simp
    · split <;> simp
  cases hm with
  | lock hc hl =>
    intro r'
    simp only [State.goto_control, Option.some.injEq]
    by_cases hr' : r' = r
    · subst hr'
      simp
    · rw [update_of_ne hr', ← h r', hl]
      exact iff_of_false (fun he => hr' he.symm) (by simp)
  | append hc =>
    intro r'
    simp only [State.goto_control]
    by_cases hr' : r' = r
    · subst hr'
      rw [update_self]
      exact (h r').trans (iff_of_true (Or.inl hc) (Or.inr rfl))
    · rw [update_of_ne hr']
      exact h r'
  | unlock hc =>
    intro r'
    have hlock : s.lock = some r := (h r).2 (Or.inr hc)
    simp only [State.goto_control]
    by_cases hr' : r' = r
    · subst hr'
      simp
    · rw [update_of_ne hr', ← h r', hlock]
      exact iff_of_false (by simp) fun he => hr' (Option.some.inj he).symm
  | count hc hn => exact h.goto (by simp [hc]) (by simp)
  | pass hc hn => exact h.goto (by simp [hc]) (by simp)
  | byte hc => exact h.goto (by simp [hc]) (hfile _ _ _)
  | number hc => exact h.goto (by simp [hc]) (hread _ _ _)
  | finish hc => exact h.goto (by simp [hc]) (hrank _ _)

theorem reachable_lockHeld (hs : (machine system).Reachable s) : LockHeld s := by
  refine hs.invariant (fun s h => ?_) fun _ _ _ h hl => step_lockHeld h (step_moves hl)
  rw [show s = initial N from h]
  exact fun r => by simp [initial]

/-! ## Everyone registers -/

/-- What a process has to do until its line is written and the lock given back. -/
def toRegister : Control → ℕ
  | .start => 3
  | .locked => 2
  | .written => 1
  | _ => 0

def registersMeasure (s : State N) : ℕ := ∑ r, toRegister (s.control r)

/-- A step of a process that has not given the lock back comes nearer to it. -/
theorem registersMeasure_lt (hr : toRegister (s.control r) ≠ 0) (hm : Moves system r s t) :
    registersMeasure t < registersMeasure s := by
  have hlt : ∀ {c : Control}, t.control = update s.control r c →
      toRegister c < toRegister (s.control r) → registersMeasure t < registersMeasure s := by
    intro c htc h
    have := Processes.sum_update (fun _ : Fin N => toRegister) s.control r c
    rw [registersMeasure, registersMeasure, htc]
    omega
  cases hm with
  | lock hc hl => exact hlt rfl (by simp [hc, toRegister])
  | append hc => exact hlt rfl (by simp [hc, toRegister])
  | unlock hc => exact hlt rfl (by simp [hc, toRegister])
  | count hc => simp [hc, toRegister] at hr
  | pass hc => simp [hc, toRegister] at hr
  | byte hc => simp [hc, toRegister] at hr
  | number hc => simp [hc, toRegister] at hr
  | finish hc => simp [hc, toRegister] at hr

/-- Every state leads to one in which all have registered. -/
theorem exists_registered (hs : (machine system).Reachable s) :
    ∃ t, (machine system).Leads s t ∧ (machine system).Reachable t ∧
      ∀ r, toRegister (t.control r) = 0 := by
  obtain ⟨t, hst, ht, hstuck⟩ := Machine.exists_stuck_where (M := machine system)
    (I := (machine system).Reachable) (P := fun r s => toRegister (s.control r) ≠ 0)
    registersMeasure (fun r s s' hs hP hl => ⟨hs.act hl, registersMeasure_lt hP (step_moves hl)⟩) hs
  refine ⟨t, hst, ht, fun r => ?_⟩
  have hheld := reachable_lockHeld ht
  -- whoever holds the lock can move
  have hfree : ∀ q, toRegister (t.control q) ≠ 0 → t.control q = .start ∧ t.lock ≠ none := by
    intro q hq
    have hnone : step system q t = none := hstuck q hq
    rw [step] at hnone
    cases hc : t.control q <;> simp [hc, toRegister] at hnone hq ⊢
    exact hnone
  by_contra hr
  obtain ⟨-, hlock⟩ := hfree r hr
  obtain ⟨q, hq⟩ := Option.ne_none_iff_exists'.1 hlock
  have hcq := (hheld q).1 hq
  have hstart : t.control q = .start := by
    refine (hfree q ?_).1
    obtain hcq | hcq := hcq <;> simp [hcq, toRegister]
  simp [hstart] at hcq

/-! ## Everyone returns -/

/-- What a process has to do once the registry is final, of `L` bytes. -/
def toRead (N L : ℕ) : Control → ℕ
  | .waiting n => if n < N then L + N + 6 else N + 3
  | .counting offset _ => (L - offset) + N + 4
  | .reading _ pids => N + 2 - pids.length
  | .checking _ => 1
  | _ => 0

def readsMeasure (s : State N) : ℕ := ∑ r, toRead N s.file.length (s.control r)

/-- All have registered, and the registry is final. -/
def Final (s : State N) : Prop := ∀ r, toRegister (s.control r) = 0

theorem Recorded.length_of_final (h : Recorded system order s) (hf : Final s) :
    order.length = N := by
  have hmem : ∀ r, r ∈ order := by
    intro r
    rw [h.mem]
    have := hf r
    cases hc : s.control r <;> simp_all [toRegister, Control.Registered]
  have hsub : (List.finRange N).Subperm order :=
    List.subperm_of_subset (List.nodup_finRange N) fun r _ => hmem r
  have := hsub.length_le
  rw [List.length_finRange] at this
  exact Nat.le_antisymm (length_le h.nodup) this

/-- A step that moves process `r` on. -/
theorem Final.goto (hf : Final s) (hc : toRegister c = 0)
    (hlt : toRead N s.file.length c < toRead N s.file.length (s.control r)) :
    Final (s.goto r c) ∧ readsMeasure (s.goto r c) < readsMeasure s := by
  constructor
  · intro r'
    rw [State.goto_control]
    by_cases hr' : r' = r
    · subst hr'
      rwa [update_self]
    · rw [update_of_ne hr']
      exact hf r'
  · have := Processes.sum_update (fun _ : Fin N => toRead N s.file.length) s.control r c
    rw [readsMeasure, readsMeasure, State.goto_file, State.goto_control]
    omega

/-- A byte of the final registry: its end is found with `N` lines counted. -/
theorem toRead_countByte {offset count : ℕ} (hlen : order.length = N)
    (h : Knows system order r (.counting offset count)) :
    toRegister (countByte (system.text order) offset count) = 0 ∧
      toRead N (system.text order).length (countByte (system.text order) offset count) <
        toRead N (system.text order).length (.counting offset count) := by
  have hknows := knows_countByte h
  obtain ⟨hle, rfl⟩ := h
  rw [countByte] at hknows ⊢
  cases hget : (system.text order)[offset]? with
  | none =>
    have hend : (system.text order).length ≤ offset := List.getElem?_eq_none_iff.1 hget
    have hcount : ((system.text order).take offset).count newline = N := by
      rw [List.take_of_length_le hend, Pids.text, count_lines, List.length_map, hlen]
    simp only [hcount, toRegister, toRead, lt_irrefl, if_false, true_and]
    omega
  | some ch =>
    have hne : ch ≠ 255 := mem_lines_ne (List.mem_of_getElem? hget)
    have hlt : offset < (system.text order).length := (List.getElem?_eq_some_iff.1 hget).1
    simp only [if_neg hne, toRegister, toRead, true_and]
    omega

/-- A number of the registry. -/
theorem toRead_readPid {offset L : ℕ} {pids : List ℤ} (file : List UInt8)
    (hlen : pids.length ≤ N) :
    toRegister (readPid file offset pids) = 0 ∧
      toRead N L (readPid file offset pids) < toRead N L (.reading offset pids) := by
  rw [readPid]
  split
  · split
    · simp only [toRegister, toRead, List.length_append, List.length_singleton, true_and]
      omega
    · simp only [toRegister, toRead, true_and]
      omega
  · simp only [toRegister, toRead, true_and]
    omega

/-- The search. -/
theorem toRead_rankOf {L : ℕ} (pids : List ℤ) (p : ℤ) :
    toRegister (rankOf N pids p) = 0 ∧
      toRead N L (rankOf N pids p) < toRead N L (.checking pids) := by
  rw [rankOf]
  split
  · simp [toRegister, toRead]
  · split <;> simp [toRegister, toRead]

/-- Once the registry is final every step comes nearer to the end. -/
theorem Final.step (hf : Final s) (h : Recorded system order s) (hm : Moves system r s t) :
    Final t ∧ readsMeasure t < readsMeasure s := by
  have hlen := h.length_of_final hf
  have hk := h.knows r
  have hr := hf r
  cases hm with
  | lock hc hl => simp [hc, toRegister] at hr
  | append hc => simp [hc, toRegister] at hr
  | unlock hc => simp [hc, toRegister] at hr
  | count hc hn =>
    refine hf.goto rfl ?_
    simp only [hc, toRead, if_pos hn]
    omega
  | pass hc hn =>
    refine hf.goto rfl ?_
    simp only [hc, toRead, if_neg hn, List.length_nil]
    omega
  | byte hc =>
    rw [hc] at hk
    obtain ⟨hreg, hlt⟩ := toRead_countByte hlen hk
    rw [h.file]
    exact hf.goto hreg (by rwa [hc, h.file])
  | @number offset pids hc =>
    rw [hc] at hk
    obtain ⟨-, read, rest, horder, rfl, -⟩ := hk
    have hread : (system.numbers read).length ≤ N := by
      have := congrArg List.length horder
      rw [List.length_append] at this
      rw [Pids.numbers, List.length_map]
      omega
    obtain ⟨hreg, hlt⟩ := toRead_readPid s.file hread
    exact hf.goto hreg (by rwa [hc])
  | finish hc =>
    obtain ⟨hreg, hlt⟩ := toRead_rankOf _ _
    exact hf.goto hreg (by rwa [hc])

/-- From every reachable state all processes can still return their ranks. -/
theorem exists_returned (hs : (machine system).Reachable s) :
    ∃ t, (machine system).Leads s t ∧ ∀ r, t.control r = .returned (system.rank r) := by
  obtain ⟨u, hsu, hu, hf⟩ := exists_registered hs
  obtain ⟨t, hut, ⟨ht, hft⟩, hstuck⟩ := Machine.exists_stuck (M := machine system)
    (I := fun s => (machine system).Reachable s ∧ Final s) readsMeasure
    (fun r s s' hs hl => by
      obtain ⟨order, h⟩ := reachable_recorded hs.1
      obtain ⟨hf, hlt⟩ := hs.2.step h (step_moves hl)
      exact ⟨⟨hs.1.act hl, hf⟩, hlt⟩) ⟨hu, hf⟩
  refine ⟨t, hsu.trans hut, fun r => ?_⟩
  obtain ⟨order, h⟩ := reachable_recorded ht
  have hk := h.knows r
  have hnone : step system r t = none := hstuck r
  have hr := hft r
  rw [step] at hnone
  cases hc : t.control r with
  | returned n => rw [rank_of_returned ht hc]
  | failed =>
    rw [hc] at hk
    exact hk.elim
  | overflowed =>
    rw [hc] at hk
    exact hk.elim
  | start => simp [hc, toRegister] at hr
  | _ => simp [hc] at hnone

/-- **The registry never keeps a process from its rank.** From every reachable state all processes
can still return, and whatever a process has returned is the number of process numbers below its
own, so that no two processes have one rank. -/
theorem registry_progresses (hs : (machine system).Reachable s) :
    (∃ t, (machine system).Leads s t ∧ ∀ r, t.control r = .returned (system.rank r)) ∧
      (∀ r n, s.control r = .returned n →
        n = (Finset.univ.filter fun q => system.pid q < system.pid r).card) ∧
      ∀ r q n, s.control r = .returned n → s.control q = .returned n → r = q := by
  refine ⟨exists_returned hs, fun r n hr => ?_, fun r q n hr hq => ?_⟩
  · rw [rank_of_returned hs hr]
    simp [Pids.rank]
  · apply rank_injective
    exact Fin.ext ((rank_of_returned hs hr).symm.trans (rank_of_returned hs hq))

theorem two_progress : ∃ t, (machine two).Leads (initial 2) t ∧ t.control 0 = .returned 1 ∧
    t.control 1 = .returned 0 := by
  obtain ⟨⟨t, ht, hc⟩, -⟩ := registry_progresses (Machine.Reachable.of_init (M := machine two) rfl)
  exact ⟨t, ht, hc 0, hc 1⟩

end SemOS.Bogatyri.Registry
