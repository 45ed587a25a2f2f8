import Mathlib.Data.Nat.Basic
import Mathlib.Order.Basic
import SemOS.Foundations.Machine
import SemOS.Wc.Count

/-!
# The counters of two streams

The loop of `main` of `sems/wc/wc.c`: an event tells that a pipe can be read, `count` reads a piece
of it, and the pipe is closed when the answer is 0 or -1. The pieces, and the order of the events,
are up to the child and the system.

* `Event.splits`: a read ends inside a word.
* `step_expected`: what is counted and what is still to be counted stay together the same, except
  that an event that splits a word makes two of it.
* **`wc_counts_iff`**: the counters are right exactly when no read ends inside a word.
-/

namespace SemOS.Wc

open Function

/-- The pipes from the child. -/
inductive Pipe
  | stdout
  | stderr
  deriving DecidableEq

/-- What is still to be read of each stream, which descriptors are open, and the counters. -/
structure State where
  unread : Pipe → List UInt8
  isOpen : Pipe → Bool
  info : Pipe → WcCtx
  activeFds : ℤ

/-- An event, and how many bytes the `read` returns, or `none` if it fails. -/
structure Event where
  fd : Pipe
  readBytes : Option ℕ

/-- The handling of an event, where `read` answers `answer` and leaves `rest`. -/
def handle (fd : Pipe) (answer : Option (List UInt8)) (rest : List UInt8) (s : State) : State :=
  let result := count answer (s.info fd)
  { unread := update s.unread fd rest
    isOpen := if result.1 ≤ 0 then update s.isOpen fd false else s.isOpen
    info := update s.info fd result.2
    activeFds := if result.1 ≤ 0 then s.activeFds - 1 else s.activeFds }

/-- One event. `read` returns nothing only at the end of the stream. -/
def step (l : Event) (s : State) : Option State :=
  if 0 < s.activeFds ∧ s.isOpen l.fd = true then
    match l.readBytes with
    | none => some (handle l.fd none (s.unread l.fd) s)
    | some n =>
      if n ≤ bufferSize ∧ n ≤ (s.unread l.fd).length ∧ (n = 0 → s.unread l.fd = []) then
        some (handle l.fd (some ((s.unread l.fd).take n)) ((s.unread l.fd).drop n) s)
      else none
  else none

/-- Before the loop, for what the child writes to each stream. -/
def initial (stream : Pipe → List UInt8) : State :=
  ⟨stream, fun _ => true, fun _ => ⟨0, 0, 0⟩, 2⟩

/-- The loop. -/
def machine : Machine Event State where
  init s := ∃ stream, s = initial stream
  act := step

/-- The read ends between two bytes of a word. -/
def Event.splits (l : Event) (s : State) : Bool :=
  match l.readBytes with
  | none => false
  | some n => joined nonspace ((s.unread l.fd).take n) ((s.unread l.fd).drop n)

/-- What is counted of a stream, and what is still to be counted. -/
def State.expected (s : State) (fd : Pipe) : WcCtx := (s.info fd).plus (totals (s.unread fd))

variable {s t : State} {l : Event} {fd : Pipe}

/-! ## One event -/

@[simp] theorem handle_unread (fd : Pipe) (answer : Option (List UInt8)) (rest : List UInt8)
    (s : State) : (handle fd answer rest s).unread = update s.unread fd rest := rfl

@[simp] theorem handle_info (fd : Pipe) (answer : Option (List UInt8)) (rest : List UInt8)
    (s : State) : (handle fd answer rest s).info = update s.info fd (count answer (s.info fd)).2 :=
  rfl

/-- An empty answer closes the descriptor, -/
theorem handle_nil (fd : Pipe) (rest : List UInt8) (s : State) :
    (handle fd (some []) rest s).isOpen = update s.isOpen fd false ∧
      (handle fd (some []) rest s).activeFds = s.activeFds - 1 :=
  ⟨rfl, rfl⟩

/-- and another one does not. -/
theorem handle_of_ne_nil {buffer : List UInt8} (h : buffer ≠ []) (fd : Pipe) (rest : List UInt8)
    (s : State) : (handle fd (some buffer) rest s).isOpen = s.isOpen ∧
      (handle fd (some buffer) rest s).activeFds = s.activeFds := by
  have hle := mt (count_nonpos_iff buffer (s.info fd)).1 h
  exact ⟨if_neg hle, if_neg hle⟩

/-- An event reads a piece, not empty unless the stream has ended, or its `read` fails. -/
theorem step_cases (h : step l s = some t) : s.isOpen l.fd = true ∧
    ((l.readBytes = none ∧ t = handle l.fd none (s.unread l.fd) s) ∨
      ∃ buffer rest, s.unread l.fd = buffer ++ rest ∧ (buffer = [] → rest = []) ∧
        l.splits s = joined nonspace buffer rest ∧ t = handle l.fd (some buffer) rest s) := by
  unfold step at h
  split_ifs at h with hopen
  refine ⟨hopen.2, ?_⟩
  cases hread : l.readBytes with
  | none =>
    simp only [hread] at h
    exact .inl ⟨rfl, (Option.some.inj h).symm⟩
  | some n =>
    simp only [hread] at h
    split_ifs at h with hn
    refine .inr ⟨_, _, (List.take_append_drop n _).symm, fun hnil => ?_, ?_,
      (Option.some.inj h).symm⟩
    · obtain hn0 | hunread := List.take_eq_nil_iff.1 hnil
      · rw [hn.2.2 hn0, List.drop_nil]
      · rw [hunread, List.drop_nil]
    · rw [Event.splits, hread]

/-- Two pieces, of which a word may be counted in both. -/
theorem totals_append (info : WcCtx) (buffer rest : List UInt8) :
    (info.plus (totals buffer)).plus (totals rest) =
      (info.plus (totals (buffer ++ rest))).plus ⟨0, (joined nonspace buffer rest).toNat, 0⟩ := by
  have hruns := runs_append (p := nonspace) buffer rest
  apply WcCtx.ext
  · simp only [WcCtx.plus, totals, List.length_append]
    omega
  · simp only [WcCtx.plus, totals]
    omega
  · simp only [WcCtx.plus, totals, List.count_append]
    omega

/-- An event that splits a word makes two of it; nothing else changes what is expected. -/
theorem step_expected (h : step l s = some t) (fd : Pipe) :
    t.expected fd = (s.expected fd).plus ⟨0, if l.fd = fd then (l.splits s).toNat else 0, 0⟩ := by
  obtain ⟨-, ⟨hread, rfl⟩ | ⟨buffer, rest, hunread, -, hsplits, rfl⟩⟩ := step_cases h
  · have hsplits : l.splits s = false := by
      rw [Event.splits, hread]
    rw [hsplits, State.expected, handle_unread, handle_info, update_eq_self]
    simp only [count, update_eq_self]
    split_ifs <;> rfl
  · by_cases hfd : l.fd = fd
    · subst hfd
      rw [if_pos rfl, hsplits, State.expected, State.expected, hunread, handle_unread, handle_info,
        update_self, update_self, count_eq, totals_append]
    · rw [if_neg hfd, State.expected, State.expected, handle_unread, handle_info,
        update_of_ne (Ne.symm hfd), update_of_ne (Ne.symm hfd)]
      rfl

/-! ## The whole loop -/

/-- A descriptor is closed at the end of its stream, and `active_fds` counts the open ones. -/
structure Consistent (s : State) : Prop where
  active : s.activeFds = (s.isOpen .stdout).toNat + (s.isOpen .stderr).toNat
  ended : ∀ fd, s.isOpen fd = false → s.unread fd = []

theorem initial_consistent (stream : Pipe → List UInt8) : Consistent (initial stream) :=
  ⟨rfl, fun _ h => Bool.noConfusion h⟩

/-- While no `read` fails. -/
theorem step_consistent (hs : Consistent s) (hread : l.readBytes ≠ none) (h : step l s = some t) :
    Consistent t := by
  obtain ⟨hopen, ⟨hnone, -⟩ | ⟨buffer, rest, hunread, hrest, -, rfl⟩⟩ := step_cases h
  · exact absurd hnone hread
  · by_cases hnil : buffer = []
    · obtain rfl := hnil
      obtain ⟨hisOpen, hactiveFds⟩ := handle_nil l.fd rest s
      constructor
      · rw [hisOpen, hactiveFds, hs.active]
        cases hfd : l.fd with
        | stdout =>
          rw [hfd] at hopen
          rw [update_self, update_of_ne (by decide), hopen, Bool.toNat_true, Bool.toNat_false]
          omega
        | stderr =>
          rw [hfd] at hopen
          rw [update_self, update_of_ne (by decide), hopen, Bool.toNat_true, Bool.toNat_false]
          omega
      · intro fd hclosed
        rw [hisOpen] at hclosed
        rw [handle_unread]
        by_cases hfd : fd = l.fd
        · rw [hfd, update_self, hrest rfl]
        · rw [update_of_ne hfd] at hclosed ⊢
          exact hs.ended fd hclosed
    · obtain ⟨hisOpen, hactiveFds⟩ := handle_of_ne_nil hnil l.fd rest s
      constructor
      · rw [hisOpen, hactiveFds]
        exact hs.active
      · intro fd hclosed
        rw [hisOpen] at hclosed
        have hfd : fd ≠ l.fd := by
          rintro rfl
          exact Bool.noConfusion (hopen.symm.trans hclosed)
        rw [handle_unread, update_of_ne hfd]
        exact hs.ended fd hclosed

/-- When the loop has ended, everything is counted. -/
theorem Consistent.expected_eq (hs : Consistent s) (hend : s.activeFds = 0) (fd : Pipe) :
    s.expected fd = s.info fd := by
  have hactive := hs.active
  have hclosed : (s.isOpen fd).toNat = 0 := by
    cases fd <;> omega
  rw [State.expected, hs.ended fd (Bool.toNat_eq_zero.1 hclosed)]
  rfl

theorem initial_expected (stream : Pipe → List UInt8) (fd : Pipe) :
    (initial stream).expected fd = totals (stream fd) := by
  apply WcCtx.ext <;> exact Nat.zero_add _

/-- The bytes and the lines are right, however the streams arrive. -/
theorem expected_bytes_lines {ls : List Event} (h : machine.run ls s = some t) (fd : Pipe) :
    (t.expected fd).bytes = (s.expected fd).bytes ∧
      (t.expected fd).lines = (s.expected fd).lines := by
  apply Machine.invariant_of_run
    (I := fun u => (u.expected fd).bytes = (s.expected fd).bytes ∧
      (u.expected fd).lines = (s.expected fd).lines) h ⟨rfl, rfl⟩
  intro l _ u v hu hl
  rw [step_expected hl fd]
  exact hu

/-- A piece has at most as many words and lines as bytes. -/
theorem totals_le (buffer : List UInt8) :
    (totals buffer).words ≤ buffer.length ∧ (totals buffer).lines ≤ buffer.length :=
  ⟨runs_le_length buffer, List.count_le_length⟩

/-- **No counter is larger than the number of bytes of its stream**, even where a `read` fails. -/
theorem counters_le {stream : Pipe → List UInt8} {ls : List Event}
    (h : machine.run ls (initial stream) = some t) (fd : Pipe) :
    (t.info fd).words ≤ (t.info fd).bytes ∧ (t.info fd).lines ≤ (t.info fd).bytes ∧
      (t.info fd).bytes ≤ (stream fd).length := by
  suffices hsum : (t.info fd).words ≤ (t.info fd).bytes ∧ (t.info fd).lines ≤ (t.info fd).bytes ∧
      (t.info fd).bytes + (t.unread fd).length = (stream fd).length from
    ⟨hsum.1, hsum.2.1, Nat.le.intro hsum.2.2⟩
  apply Machine.invariant_of_run
    (I := fun u => (u.info fd).words ≤ (u.info fd).bytes ∧ (u.info fd).lines ≤ (u.info fd).bytes ∧
      (u.info fd).bytes + (u.unread fd).length = (stream fd).length) h
    ⟨Nat.le_refl _, Nat.le_refl _, Nat.zero_add _⟩
  intro l _ u v hu hl
  obtain ⟨-, ⟨-, rfl⟩ | ⟨buffer, rest, hunread, -, -, rfl⟩⟩ := step_cases hl
  · rw [handle_info, handle_unread, update_eq_self, show (count none (u.info l.fd)).2 = u.info l.fd
      from rfl, update_eq_self]
    exact hu
  · rw [handle_info, handle_unread, count_eq]
    by_cases hfd : fd = l.fd
    · subst hfd
      obtain ⟨hwords, hlines⟩ := totals_le buffer
      obtain ⟨hu₁, hu₂, hu₃⟩ := hu
      rw [hunread, List.length_append] at hu₃
      rw [update_self, update_self]
      simp only [WcCtx.plus, show (totals buffer).bytes = buffer.length from rfl]
      omega
    · rw [update_of_ne hfd, update_of_ne hfd]
      exact hu

/-- The words that are expected of each stream. -/
def State.words (s : State) (fd : Pipe) : ℕ := (s.expected fd).words

theorem step_words (h : step l s = some t) (fd : Pipe) :
    t.words fd = s.words fd + if l.fd = fd then (l.splits s).toNat else 0 := by
  rw [State.words, step_expected h fd]
  rfl

/-- An event does not change the words expected unless it splits one. -/
theorem step_words_eq_iff (h : step l s = some t) : t.words = s.words ↔ l.splits s = false := by
  refine ⟨fun heq => ?_, fun hsplits => ?_⟩
  · have hfd := step_words h l.fd
    rw [heq, if_pos rfl] at hfd
    exact Bool.toNat_eq_zero.1 (by omega)
  · funext fd
    rw [step_words h fd, hsplits]
    simp

/-- **Counters.** When the loop ends and no `read` has failed, the counters of both streams are
right exactly when no `read` has ended between two bytes of a word. -/
theorem wc_counts_iff (stream : Pipe → List UInt8) (ls : List Event) (t : State)
    (hrun : machine.run ls (initial stream) = some t) (hread : ∀ l ∈ ls, l.readBytes ≠ none)
    (hend : t.activeFds = 0) :
    (∀ fd, t.info fd = totals (stream fd)) ↔
      machine.Along (fun l s => l.splits s = false) ls (initial stream) := by
  have hconsistent : Consistent t := Machine.invariant_of_run hrun (initial_consistent stream)
    fun l hl s t hs h => step_consistent hs (hread l hl) h
  have hwords : t.words = (initial stream).words ↔
      machine.Along (fun l s => l.splits s = false) ls (initial stream) :=
    Machine.run_eq_iff_along
      (fun l s t h fd => by rw [step_words h fd]; exact Nat.le_add_right _ _)
      (fun l s t h => step_words_eq_iff h) hrun
  rw [← hwords]
  refine ⟨fun h => ?_, fun h fd => ?_⟩
  · funext fd
    rw [State.words, State.words, hconsistent.expected_eq hend, h fd, initial_expected]
  · obtain ⟨hbytes, hlines⟩ := expected_bytes_lines hrun fd
    rw [← hconsistent.expected_eq hend, ← initial_expected]
    exact WcCtx.ext hbytes (congrFun h fd) hlines

/-- `"1\n 2 3 4 5 6 7\n"` and `"a b cde\n"`, what `test.c` writes. -/
def testOutput : Pipe → List UInt8
  | .stdout => [49, 10, 32, 50, 32, 51, 32, 52, 32, 53, 32, 54, 32, 55, 10]
  | .stderr => [97, 32, 98, 32, 99, 100, 101, 10]

/-- Its reads, of four bytes while there are four. -/
def testEvents : List Event :=
  [⟨.stderr, some 4⟩, ⟨.stdout, some 4⟩, ⟨.stdout, some 4⟩, ⟨.stderr, some 4⟩, ⟨.stderr, some 0⟩,
    ⟨.stdout, some 4⟩, ⟨.stdout, some 3⟩, ⟨.stdout, some 0⟩]

/-- They do not split its words. -/
theorem wc_counts_test : ∃ t, machine.run testEvents (initial testOutput) = some t ∧
    ∀ fd, t.info fd = totals (testOutput fd) := by
  obtain ⟨t, ht⟩ : ∃ t, machine.run testEvents (initial testOutput) = some t :=
    Option.isSome_iff_exists.1 (by decide +kernel)
  have hend : (machine.run testEvents (initial testOutput)).map State.activeFds = some 0 := by
    decide +kernel
  rw [ht] at hend
  refine ⟨t, ht, ?_⟩
  apply (wc_counts_iff testOutput testEvents t ht (by decide) (Option.some.inj hend)).2
  decide +kernel

/-- One word of five bytes, on the standard output. -/
def helloOutput : Pipe → List UInt8
  | .stdout => [104, 101, 108, 108, 111]
  | .stderr => []

/-- Its reads, of four bytes and of one. -/
def helloEvents : List Event :=
  [⟨.stdout, some 4⟩, ⟨.stdout, some 1⟩, ⟨.stdout, some 0⟩, ⟨.stderr, some 0⟩]

/-- It is counted as two words. -/
theorem split_word_counts_twice : ¬ ∀ stream ls t, machine.run ls (initial stream) = some t →
    (∀ l ∈ ls, l.readBytes ≠ none) → t.activeFds = 0 →
      ∀ fd, t.info fd = totals (stream fd) := by
  intro h
  obtain ⟨t, ht⟩ : ∃ t, machine.run helloEvents (initial helloOutput) = some t :=
    Option.isSome_iff_exists.1 (by decide +kernel)
  have hend : (machine.run helloEvents (initial helloOutput)).map
      (fun t => (t.activeFds, (t.info .stdout).words)) = some (0, 2) := by
    decide +kernel
  rw [ht] at hend
  obtain ⟨hactive, hwords⟩ := Prod.mk.inj (Option.some.inj hend)
  rw [h helloOutput helloEvents t ht (by decide) hactive .stdout] at hwords
  revert hwords
  decide +kernel

end SemOS.Wc
