import Mathlib.Data.Fintype.EquivFin
import Mathlib.Data.List.TakeWhile
import SemOS.Bogatyri.ThreadsSafety

/-!
# Progress of the threaded bogatyri

When the threads of `bogatyr` all fall asleep.

* `reachable_sleepers`: no wake-up is lost. Every thread asleep has a reason to be: the barrier is
  closed, or the current character is not its letter.
* So the threads get stuck on exactly the characters that no thread has for a number, which are
  the bytes from `N` on: `threads_deadlockFree_iff`.
-/

namespace SemOS.Bogatyri.Threads

open Function

/-! ## The string of a run -/

/-- The bytes up to the first newline, with it. -/
def line : List UInt8 → List UInt8
  | [] => []
  | b :: bs => if b = 10 then [b] else b :: line bs

/-- `fgets` into a buffer of `size` bytes; `none` at the end of file. -/
def fgets (size : ℕ) (stdin : List UInt8) : Option (List UInt8) :=
  if stdin = [] then none else some (line (stdin.take (size - 1)))

/-- The string that `main` reads: its length is `strlen` of the line. -/
def readString (stdin : List UInt8) : Option (List UInt8) :=
  (fgets 1024 stdin).map fun buffer => buffer.takeWhile (· ≠ 0)

theorem not_mem_of_readString {stdin input : List UInt8} (h : readString stdin = some input) :
    (0 : UInt8) ∉ input := by
  obtain ⟨buffer, -, rfl⟩ := Option.map_eq_some_iff.1 h
  intro h0
  simpa using List.mem_takeWhile_imp h0

/-! ## No lost wake-up -/

variable {N : ℕ} {input : List UInt8} {r : Fin N} {s t : State N}

/-- Why a thread may be asleep. -/
def State.Waits (s : State N) : Control → Prop
  | .barrierAsleep _ => s.threadCount.toNat < N
  | .asleep n => s.currentChar ≠ 0 ∧ s.currentChar ≠ n.toUInt8
  | _ => True

/-- Every thread asleep has a reason to be. -/
def State.Sleepers (s : State N) : Prop := Condition.Sleepers Control.Asleep s.Waits s.control

/-- A step that wakes nobody and leaves the string alone. -/
theorem State.Sleepers.goto {c : Control} (h : s.Sleepers) (hc : c.Asleep → s.Waits c) :
    (s.goto r c).Sleepers :=
  Condition.Sleepers.update h hc

/-- After a broadcast nobody is asleep. -/
theorem sleepers_broadcast {s' : State N} (h : s'.control = s.broadcast.control) :
    s'.Sleepers := by
  unfold State.Sleepers
  rw [h]
  exact Condition.Sleepers.broadcast Control.not_asleep_wake

theorem step_sleepers (hN : N < 2 ^ 64)
    (hnum : Numbered s.numbers s.lastAssigned s.threadCount) (h : s.Sleepers)
    (hm : Moves input r s t) : t.Sleepers := by
  cases hm with
  | acquire hc hne =>
    have hr : s.numbers r = none := by rw [State.numbers, hc]; rfl
    have hlt : (s.threadCount + 1).toNat < N :=
      lt_of_le_of_ne (hnum.acquire hN hr).count_le hne
    unfold State.Sleepers
    refine Condition.Sleepers.update (k := .barrier (s.lastAssigned + 1))
      (Condition.Sleepers.mono h ?_) False.elim
    intro i _ hw
    cases hi : s.control i <;> rw [hi] at hw <;> first | exact hlt | exact hw
  | acquireLast hc _ => exact sleepers_broadcast (readNextChar_control ..)
  | barrierWait hc hlt => exact h.goto fun _ => hlt
  | barrierPass hc _ | unlock hc | barrierSpurious hc | spurious hc => exact h.goto False.elim
  | finish hc _ => exact (sleepers_broadcast (s := s) rfl).goto False.elim
  | wait hc h0 hn => exact h.goto fun _ => ⟨h0, hn⟩
  | sing hc _ _ => exact sleepers_broadcast rfl

/-- No wake-up is lost. -/
theorem reachable_sleepers (hN : N < 2 ^ 64) (hs : (machine N input).Reachable s) :
    s.Sleepers := by
  refine (hs.invariant (I := fun s => Numbered s.numbers s.lastAssigned s.threadCount ∧
    s.Sleepers) (fun _ h => h ▸ ⟨initial_numbered N, fun i hi => hi.elim⟩) ?_).2
  intro l s t h hl
  have hm := step_moves hl
  exact ⟨step_numbered hN h.1 hm, step_sleepers hN h.1 h.2 hm⟩

/-- Some unfinished thread, if there is one, is awake. -/
def State.DeadlockFree (s : State N) : Prop :=
  (∃ r, ¬ (s.control r).Exited) → ∃ r, ¬ (s.control r).Exited ∧ ¬ (s.control r).Asleep

/-- While the barrier is closed some thread has not got to it. -/
theorem exists_start (hnum : Numbered s.numbers s.lastAssigned s.threadCount)
    (hlt : s.threadCount.toNat < N) : ∃ r, s.control r = .start := by
  by_contra hne
  have hall : ∀ r, (s.numbers r).isSome := by
    intro r
    cases hc : s.control r with
    | start => exact absurd ⟨r, hc⟩ hne
    | _ => rw [State.numbers, hc]; rfl
  have : s.threadCount.toNat = N := by
    rw [hnum.count, Finset.sum_congr rfl fun r _ => by rw [hall r]]
    simp
  omega

/-- Where every byte is a thread's number, the threads never all sleep. -/
theorem deadlockFree (hN : N < 2 ^ 64) (h0 : (0 : UInt8) ∉ input)
    (hbytes : ∀ b ∈ input, b.toNat < N) (hs : (machine N input).Reachable s) :
    s.DeadlockFree := by
  obtain ⟨hnum, hsong⟩ := reachable_song hN h0 hs
  have hwaits := reachable_sleepers hN hs
  rintro ⟨r, hr⟩
  by_contra hstuck
  have hasleep : ∀ r, ¬ (s.control r).Exited → (s.control r).Asleep := by
    intro r hr
    by_contra ha
    exact hstuck ⟨r, hr, ha⟩
  -- nobody is still to arrive, so that the barrier is open
  have hopen : ¬ s.threadCount.toNat < N := by
    intro hlt
    obtain ⟨r', hr'⟩ := exists_start hnum hlt
    have := hasleep r' (by rw [hr']; exact id)
    rw [hr'] at this
    exact this
  have hturn : ∀ r, ¬ (s.control r).Exited → ∃ n, s.control r = .asleep n ∧
      s.currentChar ≠ 0 ∧ s.currentChar ≠ n.toUInt8 := by
    intro r hr
    have ha := hasleep r hr
    have hw := hwaits r ha
    cases hc : s.control r <;> rw [hc] at ha hw <;>
      first | exact ⟨_, rfl, hw⟩ | exact absurd hw hopen | exact ha.elim
  obtain ⟨-, -, hchar, -⟩ := hturn r hr
  obtain ⟨hpos, hlt, hcur⟩ := hsong.index_lt hchar
  -- the thread whose letter is current is not asleep
  have hmem : s.currentChar ∈ input := by
    rw [hcur, List.getD_eq_getElem _ _ hlt]
    exact List.getElem_mem hlt
  have hall : ∀ r, (s.numbers r).isSome := by
    intro r'
    by_contra hr'
    exact hopen (hnum.count_lt (Option.not_isSome_iff_eq_none.1 hr'))
  obtain ⟨r', n, hn, hval⟩ := hnum.surjective hall _ (hbytes _ hmem)
  have hexit : ¬ (s.control r').Exited := by
    intro he
    have := hsong.exited r' he
    omega
  obtain ⟨n', hc', -, hne⟩ := hturn r' hexit
  obtain rfl : n' = n := by
    rw [State.numbers, hc'] at hn
    exact Option.some.inj hn
  apply hne
  apply UInt8.toNat_inj.1
  rw [UInt64.toNat_toUInt8, hval]
  exact (Nat.mod_eq_of_lt (UInt8.toNat_lt _)).symm

/-! ## Getting stuck

Without spurious wake-ups every run ends: a thread takes its number, sings or leaves finitely
often, and between two such events the threads only go to sleep. -/

/-- How many times a thread still takes a number or leaves. -/
def Control.events : Control → ℕ
  | .start => 2
  | .exited _ => 0
  | _ => 1

/-- How far a thread is from sleep. -/
def Control.effort : Control → ℕ
  | .barrier _ => 3
  | .woken _ => 2
  | .loop _ => 1
  | _ => 0

/-- The events to come: of the threads, and of the characters still to be read. -/
def State.events (input : List UInt8) (s : State N) : ℕ :=
  (∑ r, (s.control r).events) + (input.length + 1 - s.strNextInd)

def State.effort (s : State N) : ℕ := ∑ r, (s.control r).effort

def State.measure (input : List UInt8) (s : State N) : ℕ :=
  s.events input * (3 * N + 1) + s.effort

theorem effort_le (s : State N) : s.effort ≤ 3 * N := by
  calc s.effort ≤ ∑ _r : Fin N, 3 := by
        apply Finset.sum_le_sum
        intro r _
        cases s.control r <;> simp [Control.effort]
    _ = 3 * N := by simp [Nat.mul_comm]

/-- An event outweighs all the threads that it wakes. -/
theorem measure_lt_of_events (h : t.events input < s.events input) :
    t.measure input < s.measure input := by
  have := effort_le t
  calc t.measure input < (t.events input + 1) * (3 * N + 1) := by
        rw [State.measure, Nat.add_mul]
        omega
    _ ≤ s.events input * (3 * N + 1) := Nat.mul_le_mul_right _ h
    _ ≤ s.measure input := Nat.le_add_right _ _

/-- A thread that goes on with its number. -/
theorem measure_goto_lt {c : Control} (he : c.events = (s.control r).events)
    (hw : c.effort < (s.control r).effort) : (s.goto r c).measure input < s.measure input := by
  have hevents := Processes.sum_update (fun _ => Control.events) s.control r c
  have heffort := Processes.sum_update (fun _ => Control.effort) s.control r c
  have hsame : (s.goto r c).events input = s.events input := by
    simp only [State.events, State.goto]
    omega
  rw [State.measure, State.measure, hsame]
  simp only [State.effort, State.goto_control]
  omega

theorem sum_events_broadcast (c : Fin N → Control) :
    ∑ r, (Condition.broadcast Control.wake c r).events = ∑ r, (c r).events := by
  apply Finset.sum_congr rfl
  intro r _
  cases hc : c r <;> simp [hc, Control.wake, Control.events]

theorem le_strNextInd_readNextChar (input : List UInt8) (s : State N) :
    s.strNextInd ≤ (readNextChar input s).strNextInd := by
  unfold readNextChar
  split_ifs
  · exact Nat.le_succ _
  · exact le_refl _

/-- Without spurious wake-ups every step brings the end nearer. -/
theorem step_measure (hsong : Song input s) (hl : step input (.run r) s = some t) :
    t.measure input < s.measure input := by
  have hm : Moves input r s t := step_moves hl
  have hevents := fun c => Processes.sum_update (fun _ => Control.events) s.control r c
  cases hm with
  | acquire hc _ =>
    apply measure_lt_of_events
    have := hevents (.barrier (s.lastAssigned + 1))
    simp only [hc, State.events, State.goto, Control.events] at this ⊢
    omega
  | acquireLast hc _ =>
    apply measure_lt_of_events
    have := hevents (.barrier (s.lastAssigned + 1))
    have hle := le_strNextInd_readNextChar input
      { (s.goto r (.barrier (s.lastAssigned + 1))).broadcast with
        lastAssigned := s.lastAssigned + 1, threadCount := s.threadCount + 1 }
    simp only [State.events, readNextChar_control, State.broadcast_control, State.goto_control,
      sum_events_broadcast]
    simp only [hc, State.broadcast, State.goto, Control.events] at this hle ⊢
    omega
  | @finish n hc _ =>
    apply measure_lt_of_events
    have := Processes.sum_update (fun _ => Control.events)
      (Condition.broadcast Control.wake s.control) r (.exited n)
    rw [sum_events_broadcast, Condition.broadcast_apply, hc] at this
    simp only [State.events, State.goto, State.broadcast, Control.wake, Control.events] at this ⊢
    omega
  | @sing n hc h0 hn =>
    apply measure_lt_of_events
    obtain ⟨hpos, hlt, -⟩ := hsong.index_lt h0
    have hread : (readNextChar input (molvit n s)).strNextInd = s.strNextInd + 1 := by
      unfold readNextChar
      rw [if_pos (by simp only [molvit]; omega)]
      rfl
    simp only [State.events, State.broadcast, sum_events_broadcast, readNextChar_control, hread]
    simp only [molvit]
    omega
  | barrierWait hc _ | barrierPass hc _ | wait hc _ _ | unlock hc =>
    apply measure_goto_lt <;> rw [hc] <;> simp [Control.events, Control.effort]
  | barrierSpurious hc | spurious hc => simp [step, hc] at hl

/-- A byte that no thread has for a number stays unprinted. -/
theorem strNextInd_le_of_byte (hnum : Numbered s.numbers s.lastAssigned s.threadCount)
    (hsong : Song input s) {k : ℕ} (hk : k < input.length) (hb : N ≤ (input.getD k 0).toNat) :
    s.strNextInd ≤ k + 1 := by
  by_contra hlt
  have hmem : input.getD k 0 ∈ s.printed.map Prod.snd := by
    have hget : (s.printed.map Prod.snd)[k]? = some (input.getD k 0) := by
      rw [hsong.output, List.getElem?_take_of_lt (by omega), List.getElem?_eq_getElem hk,
        List.getD_eq_getElem _ _ hk]
    exact List.mem_of_getElem? hget
  obtain ⟨p, hp, hpk⟩ := List.mem_map.1 hmem
  obtain ⟨hchar, r, hr⟩ := hsong.printers p hp
  have hbelow := (hnum.below r _ hr).trans_le hnum.count_le
  rw [← hpk, hchar, UInt64.toNat_toUInt8] at hb
  have := Nat.mod_le p.1.toNat (2 ^ 8)
  omega

/-- A byte that no thread has for a number stops the song, and every thread falls asleep. -/
theorem not_deadlockFree (hpos : 0 < N) (hN : N < 2 ^ 64) (h0 : (0 : UInt8) ∉ input)
    {b : UInt8} (hb : b ∈ input) (hbN : N ≤ b.toNat) :
    ∃ s, (machine N input).Reachable s ∧ ¬ s.DeadlockFree := by
  obtain ⟨t, -, ht, hstuck⟩ := Machine.exists_stuck_where (M := machine N input)
    (I := (machine N input).Reachable) (P := fun l _ => ∃ r, l = .run r) (State.measure input)
    (fun l s s' hs hl h => by
      obtain ⟨r, rfl⟩ := hl
      exact ⟨hs.act h, step_measure (reachable_song hN h0 hs).2 h⟩)
    (Machine.Reachable.of_init (rfl : (machine N input).init (initial N)))
  obtain ⟨hnum, hsong⟩ := reachable_song hN h0 ht
  obtain ⟨k, hk, rfl⟩ := List.getElem_of_mem hb
  have hind := strNextInd_le_of_byte hnum hsong hk (by rwa [List.getD_eq_getElem _ _ hk])
  have hexit : ∀ r, ¬ (t.control r).Exited := by
    intro r hr
    have := hsong.exited r hr
    omega
  refine ⟨t, ht, fun hfree => ?_⟩
  obtain ⟨r, -, hawake⟩ := hfree ⟨⟨0, hpos⟩, hexit _⟩
  have hr : step input (.run r) t = none := hstuck _ ⟨r, rfl⟩
  have he := hexit r
  cases hc : t.control r <;> rw [hc] at hawake he <;>
    first | exact hawake trivial | exact he trivial | simp [step, hc] at hr

/-- **Deadlock.** On the string of a line, `N` threads are never all asleep exactly when each of
its bytes is below `N`. -/
theorem threads_deadlockFree_iff (N : ℕ) (hpos : 0 < N) (hN : N < 2 ^ 64) (stdin input : List UInt8)
    (hinput : readString stdin = some input) :
    (∀ s, (machine N input).Reachable s → s.DeadlockFree) ↔ ∀ b ∈ input, b.toNat < N := by
  have h0 := not_mem_of_readString hinput
  constructor
  · intro hfree b hb
    by_contra hbN
    obtain ⟨s, hs, hnot⟩ := not_deadlockFree hpos hN h0 hb (not_lt.1 hbN)
    exact hnot (hfree s hs)
  · intro hbytes s hs
    exact deadlockFree hN h0 hbytes hs

/-- On an ASCII line the 128 threads are never all asleep. -/
theorem ascii_deadlockFree : readString [65, 10] = some [65, 10] ∧
    ((∀ s, (machine 128 [65, 10]).Reachable s → s.DeadlockFree) ↔
      ∀ b ∈ ([65, 10] : List UInt8), b.toNat < 128) := by
  have hinput : readString [65, 10] = some [65, 10] := by decide +kernel
  exact ⟨hinput, threads_deadlockFree_iff 128 (by decide) (by decide) [65, 10] [65, 10] hinput⟩

/-- The two bytes of a Cyrillic letter are no thread's number. -/
theorem cyrillic_deadlocks : ¬ ∀ stdin input : List UInt8, readString stdin = some input →
    ∀ s, (machine 128 input).Reachable s → s.DeadlockFree := by
  intro h
  have hinput : readString [208, 152, 10] = some [208, 152, 10] := by decide +kernel
  obtain ⟨s, hs, hnot⟩ := not_deadlockFree (N := 128) (by decide) (by decide)
    (not_mem_of_readString hinput) (List.mem_cons_self (a := 208)) (by decide)
  exact hnot (h _ _ hinput s hs)

end SemOS.Bogatyri.Threads
