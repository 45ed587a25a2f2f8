import Mathlib.Data.Fintype.Card
import Mathlib.Data.Fintype.EquivFin
import Mathlib.Data.List.GetD
import SemOS.Bogatyri.Threads
import SemOS.Foundations.Processes

/-!
# Safety of the threaded bogatyri

What holds of the monitor of `bogatyr` in every reachable state.

* `Numbered` is the invariant of `acquire_thread_number`: the numbers handed out are distinct and
  below `thread_count`, so that with all threads numbered they are `0, …, N - 1` (`bijective`).
* `Song` is the invariant of the string: what is printed, what is current, and who is past the
  barrier.
* `threads_are_safe` assembles them.
-/

namespace SemOS.Bogatyri.Threads

open Function

variable {N : ℕ} {input : List UInt8} {r : Fin N} {s t : State N}

/-! ## Numbers -/

/-- The numbers of the threads. -/
def State.numbers (s : State N) (r : Fin N) : Option UInt64 := (s.control r).number

/-- The invariant of the numbers handed out. -/
structure Numbered (numbers : Fin N → Option UInt64) (lastAssigned threadCount : UInt64) :
    Prop where
  assigned : lastAssigned + 1 = threadCount
  count : threadCount.toNat = ∑ r, (numbers r).isSome.toNat
  below : ∀ r n, numbers r = some n → n.toNat < threadCount.toNat
  distinct : ∀ r r' n, numbers r = some n → numbers r' = some n → r = r'

theorem initial_numbered (N : ℕ) :
    Numbered (initial N).numbers (initial N).lastAssigned (initial N).threadCount := by
  have hassigned : (-1 : UInt64) + 1 = 0 := by decide
  refine ⟨hassigned, ?_, ?_, ?_⟩
  · simp [initial, State.numbers, Control.number]
  · intro r n h
    cases h
  · intro r r' n h
    cases h

section Numbered

variable {numbers : Fin N → Option UInt64} {lastAssigned threadCount : UInt64}

theorem Numbered.count_le (h : Numbered numbers lastAssigned threadCount) :
    threadCount.toNat ≤ N := by
  rw [h.count]
  calc ∑ r, (numbers r).isSome.toNat ≤ ∑ _r : Fin N, 1 :=
        Finset.sum_le_sum fun r _ => Bool.toNat_le _
    _ = N := by simp

/-- While a thread has no number, not all have. -/
theorem Numbered.count_lt (h : Numbered numbers lastAssigned threadCount)
    (hr : numbers r = none) : threadCount.toNat < N := by
  rw [h.count]
  calc ∑ r, (numbers r).isSome.toNat < ∑ _r : Fin N, 1 :=
        Finset.sum_lt_sum (fun r _ => Bool.toNat_le _) ⟨r, Finset.mem_univ r, by simp [hr]⟩
    _ = N := by simp

/-- The number that the next thread gets. -/
theorem Numbered.acquire (hN : N < 2 ^ 64) (h : Numbered numbers lastAssigned threadCount)
    (hr : numbers r = none) :
    Numbered (update numbers r (some (lastAssigned + 1))) (lastAssigned + 1) (threadCount + 1) := by
  have hlt := h.count_lt hr
  have hsucc : (threadCount + 1).toNat = threadCount.toNat + 1 := by
    rw [UInt64.toNat_add]
    exact Nat.mod_eq_of_lt (by simp only [UInt64.reduceToNat]; omega)
  have hnumbers : ∀ r', update numbers r (some (lastAssigned + 1)) r' =
      if r' = r then some threadCount else numbers r' := by
    intro r'
    rw [update_apply, h.assigned]
  have hfresh : ∀ r', numbers r' ≠ some threadCount := fun r' hr' =>
    absurd (h.below r' _ hr') (lt_irrefl _)
  refine ⟨by rw [h.assigned], ?_, ?_, ?_⟩
  · have := Processes.sum_update (fun _ (n : Option UInt64) => n.isSome.toNat) numbers r
      (some (lastAssigned + 1))
    rw [hr, ← h.count] at this
    simp only [Option.isSome_none, Option.isSome_some, Bool.toNat_false, Bool.toNat_true] at this
    omega
  · intro r' n hn
    rw [hnumbers] at hn
    split_ifs at hn
    · obtain rfl := Option.some.inj hn
      omega
    · have := h.below r' n hn
      omega
  · intro r' r'' n hn hn'
    rw [hnumbers] at hn hn'
    split_ifs at hn hn' with hr' hr'' hr''
    · rw [hr', hr'']
    · rw [← hn] at hn'
      exact absurd hn' (hfresh r'')
    · rw [← hn'] at hn
      exact absurd hn (hfresh r')
    · exact h.distinct r' r'' n hn hn'

/-- With all threads numbered, every number below `N` is some thread's. -/
theorem Numbered.surjective (h : Numbered numbers lastAssigned threadCount)
    (hall : ∀ r, (numbers r).isSome) (k : ℕ) (hk : k < N) :
    ∃ r n, numbers r = some n ∧ n.toNat = k := by
  have hlt : ∀ r, ((numbers r).get (hall r)).toNat < N := fun r =>
    (h.below r _ (Option.some_get (hall r)).symm).trans_le h.count_le
  let number : Fin N → Fin N := fun r => ⟨((numbers r).get (hall r)).toNat, hlt r⟩
  have hinj : Injective number := by
    intro r r' hrr
    have hn : (numbers r).get (hall r) = (numbers r').get (hall r') :=
      UInt64.toNat_inj.1 (Fin.mk.inj hrr)
    apply h.distinct r r' _ (Option.some_get (hall r)).symm
    rw [hn, Option.some_get]
  obtain ⟨r, hr⟩ := Finite.surjective_of_injective hinj ⟨k, hk⟩
  exact ⟨r, _, (Option.some_get (hall r)).symm, congrArg Fin.val hr⟩

end Numbered

@[simp] theorem readNextChar_control (input : List UInt8) (s : State N) :
    (readNextChar input s).control = s.control := by
  unfold readNextChar
  split_ifs <;> rfl

@[simp] theorem readNextChar_lastAssigned (input : List UInt8) (s : State N) :
    (readNextChar input s).lastAssigned = s.lastAssigned := by
  unfold readNextChar
  split_ifs <;> rfl

@[simp] theorem readNextChar_threadCount (input : List UInt8) (s : State N) :
    (readNextChar input s).threadCount = s.threadCount := by
  unfold readNextChar
  split_ifs <;> rfl

theorem numbers_readNextChar (input : List UInt8) (s : State N) :
    (readNextChar input s).numbers = s.numbers := by
  funext r
  rw [State.numbers, readNextChar_control, State.numbers]

theorem numbers_broadcast (s : State N) : s.broadcast.numbers = s.numbers := by
  funext r
  exact Control.number_wake _

/-- Going on with the same number. -/
theorem numbers_goto {c : Control} (hc : c.number = (s.control r).number) :
    (s.goto r c).numbers = s.numbers := by
  funext r'
  rw [State.numbers, State.goto_control, update_apply]
  split_ifs with hr
  · rw [hr, hc, State.numbers]
  · rfl

theorem numbers_acquire (n : UInt64) :
    (s.goto r (.barrier n)).numbers = update s.numbers r (some n) := by
  funext r'
  rw [State.numbers, State.goto_control, update_apply, update_apply]
  split_ifs <;> rfl

/-- Every step keeps the invariant of the numbers. -/
theorem step_numbered (hN : N < 2 ^ 64)
    (h : Numbered s.numbers s.lastAssigned s.threadCount) (hm : Moves input r s t) :
    Numbered t.numbers t.lastAssigned t.threadCount := by
  cases hm with
  | acquire hc _ =>
    have := h.acquire hN (r := r) (by rw [State.numbers, hc]; rfl)
    rwa [← numbers_acquire] at this
  | acquireLast hc _ =>
    have := h.acquire hN (r := r) (by rw [State.numbers, hc]; rfl)
    rw [← numbers_acquire, ← numbers_broadcast] at this
    rw [numbers_readNextChar, readNextChar_lastAssigned, readNextChar_threadCount]
    exact this
  | finish hc _ =>
    have : (s.broadcast.control r).number = (s.control r).number := Control.number_wake _
    rw [numbers_goto (by rw [this, hc]; rfl), numbers_broadcast]
    exact h
  | sing hc _ _ =>
    rw [numbers_broadcast, numbers_readNextChar]
    simp only [State.broadcast, readNextChar_lastAssigned, readNextChar_threadCount]
    exact h
  | barrierWait hc _ | barrierPass hc _ | wait hc _ _ | unlock hc | barrierSpurious hc
  | spurious hc =>
    rw [numbers_goto (by rw [hc]; rfl)]
    exact h

/-! ## The song -/

/-- Past the barrier. -/
def Control.PastBarrier : Control → Prop
  | .loop _ | .asleep _ | .woken _ | .exited _ => True
  | _ => False

theorem Control.Exited.pastBarrier {c : Control} (h : c.Exited) : c.PastBarrier := by
  cases c <;> trivial

@[simp] theorem Control.pastBarrier_wake {c : Control} : c.wake.PastBarrier ↔ c.PastBarrier := by
  cases c <;> rfl

/-- The invariant of the string: `str_next_ind - 1` characters are printed, and the one after them
is current. -/
structure Song (input : List UInt8) (s : State N) : Prop where
  index : s.strNextInd ≤ input.length + 1
  barrier : s.threadCount.toNat < N → s.strNextInd = 0
  started : 0 < N → ¬ s.threadCount.toNat < N → 0 < s.strNextInd
  output : s.printed.map Prod.snd = input.take (s.strNextInd - 1)
  current : s.currentChar = if s.strNextInd = 0 then 0 else input.getD (s.strNextInd - 1) 0
  range : s.indexOutOfRange = false
  printers : ∀ p ∈ s.printed, p.2 = p.1.toUInt8 ∧ ∃ r, s.numbers r = some p.1
  past : ∀ r, (s.control r).PastBarrier → ¬ s.threadCount.toNat < N
  exited : ∀ r, (s.control r).Exited → s.strNextInd = input.length + 1

theorem initial_song (N : ℕ) (input : List UInt8) : Song input (initial N) := by
  refine ⟨Nat.zero_le _, fun _ => rfl, fun h0 hlt => absurd h0 hlt, rfl, rfl, rfl, ?_, ?_, ?_⟩
  · intro p hp
    cases hp
  · intro r hr
    cases hr
  · intro r hr
    cases hr

/-- A step that leaves the string alone: thread `r` goes to `c`, with its number. -/
theorem Song.goto {c : Control} (h : Song input s) (hc : c.number = (s.control r).number)
    (hpast : c.PastBarrier → ¬ s.threadCount.toNat < N)
    (hexit : c.Exited → s.strNextInd = input.length + 1) : Song input (s.goto r c) := by
  have hcontrol : ∀ r', update s.control r c r' = if r' = r then c else s.control r' :=
    fun r' => update_apply ..
  refine ⟨h.index, h.barrier, h.started, h.output, h.current, h.range, ?_, ?_, ?_⟩
  · rw [numbers_goto hc]
    exact h.printers
  · intro r' hr'
    rw [State.goto_control, hcontrol] at hr'
    split_ifs at hr'
    · exact hpast hr'
    · exact h.past r' hr'
  · intro r' hr'
    rw [State.goto_control, hcontrol] at hr'
    split_ifs at hr'
    · exact hexit hr'
    · exact h.exited r' hr'

theorem Song.broadcast (h : Song input s) : Song input s.broadcast := by
  refine ⟨h.index, h.barrier, h.started, h.output, h.current, h.range, ?_, ?_, ?_⟩
  · rw [numbers_broadcast]
    exact h.printers
  · intro r hr
    exact h.past r (Control.pastBarrier_wake.1 hr)
  · intro r hr
    exact h.exited r (Control.exited_wake.1 hr)

/-- The current character ends the string only past its last character. -/
theorem Song.ended (h : Song input s) (h0 : (0 : UInt8) ∉ input) (hind : 0 < s.strNextInd)
    (hchar : s.currentChar = 0) : s.strNextInd = input.length + 1 := by
  have hc := h.current
  rw [if_neg (by omega), hchar] at hc
  by_contra hne
  have hlt : s.strNextInd - 1 < input.length := by
    have := h.index
    omega
  apply h0
  rw [hc, List.getD_eq_getElem _ _ hlt]
  exact List.getElem_mem hlt

/-- Before its end the current character is one of the string. -/
theorem Song.index_lt (h : Song input s) (hchar : s.currentChar ≠ 0) :
    0 < s.strNextInd ∧ s.strNextInd - 1 < input.length ∧
      s.currentChar = input.getD (s.strNextInd - 1) 0 := by
  have hc := h.current
  split_ifs at hc with hind
  · exact absurd hc hchar
  · refine ⟨by omega, ?_, hc⟩
    by_contra hlt
    apply hchar
    rw [hc, List.getD_eq_default _ _ (not_lt.1 hlt)]

/-- Before all threads have a number, taking one leaves everybody in front of the barrier. -/
theorem Song.not_past (h : Song input s) (hlt : s.threadCount.toNat < N) (n : UInt64)
    (r' : Fin N) : ¬ (update s.control r (.barrier n) r').PastBarrier := by
  intro hr'
  rw [update_apply] at hr'
  split_ifs at hr'
  · exact hr'
  · exact h.past r' hr' hlt

/-- A thread that takes a number, but is not the last to do so. -/
theorem Song.acquire {n : UInt64} (h : Song input s)
    (hlt : s.threadCount.toNat < N) (hN : (s.threadCount + 1).toNat < N) :
    Song input { s.goto r (.barrier n) with
      lastAssigned := n, threadCount := s.threadCount + 1 } := by
  have hind := h.barrier hlt
  have hprinted : s.printed = [] := by simpa [hind] using h.output
  refine ⟨h.index, fun _ => hind, fun _ hge => absurd hN hge, h.output, h.current, h.range, ?_,
    fun r' hr' => absurd hr' (h.not_past hlt n r'),
    fun r' hr' => absurd hr'.pastBarrier (h.not_past hlt n r')⟩
  intro p hp
  simp [State.goto, hprinted] at hp

/-- The last thread to take a number reads the first character. -/
theorem Song.acquireLast {n : UInt64} (h : Song input s)
    (hlt : s.threadCount.toNat < N) (hN : (s.threadCount + 1).toNat = N) :
    Song input (readNextChar input { (s.goto r (.barrier n)).broadcast with
      lastAssigned := n, threadCount := s.threadCount + 1 }) := by
  have hind := h.barrier hlt
  have hprinted : s.printed = [] := by simpa [hind] using h.output
  unfold readNextChar
  rw [if_pos (by simp [State.broadcast, State.goto, hind])]
  refine ⟨?_, ?_, ?_, ?_, ?_, h.range, ?_, ?_, ?_⟩
  · simp [State.broadcast, State.goto, hind]
  · intro hlt'
    rw [hN] at hlt'
    exact absurd hlt' (lt_irrefl N)
  · intro _ _
    exact Nat.succ_pos _
  · simp [State.broadcast, State.goto, hind, hprinted]
  · simp [State.broadcast, State.goto, hind]
  · simp [State.broadcast, State.goto, hprinted]
  · intro r' hr'
    exact absurd (Control.pastBarrier_wake.1 hr') (h.not_past hlt n r')
  · intro r' hr'
    exact absurd (Control.exited_wake.1 hr').pastBarrier (h.not_past hlt n r')

/-- The thread whose letter is current prints it and reads the next one. -/
theorem Song.sing {n : UInt64} (h : Song input s) (hc : s.control r = .loop n)
    (h0 : s.currentChar ≠ 0) (hn : s.currentChar = n.toUInt8) :
    Song input (readNextChar input (molvit n s)) := by
  obtain ⟨hpos, hlt, hchar⟩ := h.index_lt h0
  have hcount := h.past r (by rw [hc]; trivial)
  unfold readNextChar
  rw [if_pos (by simp only [molvit]; omega)]
  refine ⟨?_, ?_, ?_, ?_, ?_, h.range, ?_, h.past, ?_⟩
  · simp only [molvit]
    omega
  · intro hlt'
    exact absurd hlt' hcount
  · intro _ _
    exact Nat.succ_pos _
  · have htake : input.take s.strNextInd =
        input.take (s.strNextInd - 1) ++ [input.getD (s.strNextInd - 1) 0] := by
      obtain ⟨k, hk⟩ : ∃ k, s.strNextInd = k + 1 := ⟨s.strNextInd - 1, by omega⟩
      rw [hk, Nat.add_sub_cancel] at hlt ⊢
      rw [List.take_add_one, List.getElem?_eq_getElem hlt, List.getD_eq_getElem _ _ hlt]
      rfl
    simp only [molvit, List.map_append, List.map_cons, List.map_nil, Nat.add_sub_cancel]
    rw [htake, h.output, ← hchar, hn]
  · simp [molvit]
  · intro p hp
    obtain hp | hp := List.mem_append.1 hp
    · exact h.printers p hp
    · rw [List.mem_singleton.1 hp]
      exact ⟨rfl, r, by rw [State.numbers]; simp only [molvit, hc]; rfl⟩
  · intro r' hr'
    have := h.exited r' hr'
    omega

/-- Every step keeps the song. -/
theorem step_song (hN : N < 2 ^ 64) (h0 : (0 : UInt8) ∉ input)
    (hnum : Numbered s.numbers s.lastAssigned s.threadCount) (h : Song input s)
    (hm : Moves input r s t) : Song input t := by
  cases hm with
  | acquire hc hne =>
    have hr : s.numbers r = none := by rw [State.numbers, hc]; rfl
    exact h.acquire (hnum.count_lt hr) (lt_of_le_of_ne (hnum.acquire hN hr).count_le hne)
  | acquireLast hc hN =>
    exact h.acquireLast (hnum.count_lt (r := r) (by rw [State.numbers, hc]; rfl)) hN
  | barrierWait hc _ => exact h.goto (by rw [hc]; rfl) False.elim False.elim
  | barrierPass hc hN => exact h.goto (by rw [hc]; rfl) (fun _ => hN) False.elim
  | @finish n hc hchar =>
    have hN := h.past r (by rw [hc]; trivial)
    have hpos := h.started (Fin.pos r) hN
    have hw : s.broadcast.control r = .loop n := by simp [hc, Control.wake]
    exact h.broadcast.goto (by rw [hw]; rfl) (fun _ => hN) fun _ => h.ended h0 hpos hchar
  | wait hc _ _ =>
    exact h.goto (by rw [hc]; rfl) (fun _ => h.past r (by rw [hc]; trivial)) False.elim
  | sing hc hchar hn => exact (h.sing hc hchar hn).broadcast
  | unlock hc =>
    exact h.goto (by rw [hc]; rfl) (fun _ => h.past r (by rw [hc]; trivial)) False.elim
  | barrierSpurious hc => exact h.goto (by rw [hc]; rfl) False.elim False.elim
  | spurious hc =>
    exact h.goto (by rw [hc]; rfl) (fun _ => h.past r (by rw [hc]; trivial)) False.elim

/-- Every reachable state has both invariants. -/
theorem reachable_song (hN : N < 2 ^ 64) (h0 : (0 : UInt8) ∉ input)
    (hs : (machine N input).Reachable s) :
    Numbered s.numbers s.lastAssigned s.threadCount ∧ Song input s := by
  refine hs.invariant (I := fun s => Numbered s.numbers s.lastAssigned s.threadCount ∧
    Song input s) (fun _ h => h ▸ ⟨initial_numbered N, initial_song N input⟩) ?_
  intro l s t h hl
  have hm := step_moves hl
  exact ⟨step_numbered hN h.1 hm, step_song hN h0 h.1 h.2 hm⟩

/-! ## Safety -/

/-- What is promised of the monitor at every moment. -/
structure Safe (input : List UInt8) (s : State N) : Prop where
  /-- The numbers handed out are below `N`, -/
  below : ∀ r n, s.numbers r = some n → n.toNat < N
  /-- no two threads have the same, -/
  injective : ∀ r r' n, s.numbers r = some n → s.numbers r' = some n → r = r'
  /-- and once every thread has one, each of `0, …, N - 1` is some thread's. -/
  surjective : (∀ r, (s.numbers r).isSome) → ∀ k < N, ∃ r n, s.numbers r = some n ∧ n.toNat = k
  /-- Nothing is printed before that. -/
  barrier : s.printed ≠ [] → ∀ r, (s.numbers r).isSome
  output : s.printed.map Prod.snd <+: input
  index : s.strNextInd ≤ input.length + 1
  /-- A character is printed by the thread with its number; from 257 threads on the numbers are
  compared as characters. -/
  printers : ∀ p ∈ s.printed, (∃ r, s.numbers r = some p.1) ∧ p.2 = p.1.toUInt8 ∧
    (N ≤ 256 → p.1.toNat = p.2.toNat)
  range : s.indexOutOfRange = false
  exited : ∀ r, (s.control r).Exited → s.printed.map Prod.snd = input

/-- **Safety of the threads**, for every interleaving and all spurious wake-ups. -/
theorem threads_are_safe (N : ℕ) (hN : N < 2 ^ 64) (input : List UInt8)
    (h0 : (0 : UInt8) ∉ input) {s : State N} (hs : (machine N input).Reachable s) :
    Safe input s := by
  obtain ⟨hnum, hsong⟩ := reachable_song hN h0 hs
  have hbelow : ∀ r n, s.numbers r = some n → n.toNat < N := fun r n hn =>
    (hnum.below r n hn).trans_le hnum.count_le
  refine ⟨hbelow, hnum.distinct, hnum.surjective, ?_, ?_, hsong.index, ?_, hsong.range, ?_⟩
  · intro hne r
    by_contra hr
    rw [Option.not_isSome_iff_eq_none] at hr
    apply hne
    simpa [hsong.barrier (hnum.count_lt hr)] using hsong.output
  · rw [hsong.output]
    exact List.take_prefix _ _
  · intro p hp
    obtain ⟨hchar, r, hr⟩ := hsong.printers p hp
    refine ⟨⟨r, hr⟩, hchar, fun hle => ?_⟩
    rw [hchar, UInt64.toNat_toUInt8]
    have := hbelow r _ hr
    omega
  · intro r hr
    rw [hsong.output, hsong.exited r hr, Nat.add_sub_cancel, List.take_length]

/-- Two threads, the one-character string `1`: the second thread sings it, and both leave. -/
theorem threads_are_safe_song : ∃ s, (machine 2 [1]).run [.run 0, .run 0, .spurious 0, .run 1,
    .run 1, .run 0, .run 0, .run 1, .run 1, .run 0, .run 0] (initial 2) = some s ∧
    s.printed = [(1, 1)] ∧ Safe [1] s := by
  refine ⟨_, rfl, rfl, ?_⟩
  apply threads_are_safe 2 (by decide) [1] (by decide)
  exact Machine.reachable_of_run rfl (show (machine 2 [1]).run [.run 0, .run 0, .spurious 0,
    .run 1, .run 1, .run 0, .run 0, .run 1, .run 1, .run 0, .run 0] (initial 2) = some _ from rfl)

end SemOS.Bogatyri.Threads
