import Mathlib.Data.Nat.Find
import SemOS.Pcat.Wakeups

/-!
# When pcat deadlocks

Each side waits for the room or the bytes of a whole file at once. `deadlockFree_iff`: no run gets
stuck exactly when every file fits into the buffer and no block of consecutive files fills it
exactly (`SizesPass`), with semaphores and with the monitor, where no file reaches `buffer_t`
(`Sheltered`).

* `finished_of_blocked`: with such sizes the size recorded is the number of unread bytes, so a
  reader that waits has read everything published, and the buffer is empty for the writer.
* `stuck_of_large`: a file larger than the buffer is never granted to the writer.
* `stuck_of_exact`: if the reader stops before a block that fills the buffer exactly, the writer
  publishes the whole block; the size recorded is then at least `capacity` behind the truth
  (`Overrun`), and stays so.
* `work_lt`: every step other than a spurious wake-up decreases a measure, so runs reach a state in
  which nobody moves.
-/

namespace SemOS.Pcat

open Function

variable {v : Version} {inp : Input} {s t : State} {l : Move} {a : Side} {i j : ℕ} {f : File}

/-- The side that a step moves. -/
def Move.side : Move → Side
  | .run a | .copy a _ | .wakeUp a => a

/-- The step is not a return from a wait without a wake-up. -/
def Move.Own : Move → Prop
  | .run _ | .copy _ _ => True
  | .wakeUp _ => False

/-- As long as some side has files left, some side can take a step of its own. -/
def DeadlockFree (v : Version) (inp : Input) : Prop :=
  ∀ s, (machine v inp).Reachable s → ¬ s.Finished inp → ∃ l, l.Own ∧ step v inp l s ≠ none

/-- Every file fits into the buffer, and no block of consecutive files fills it exactly. -/
def SizesPass (inp : Input) : Prop :=
  (∀ f ∈ inp.files, f.size ≤ inp.capacity) ∧
    ∀ j ≤ inp.files.length, ∀ i < j, inp.total j ≠ inp.total i + inp.capacity

instance (inp : Input) : Decidable (SizesPass inp) :=
  inferInstanceAs (Decidable ((∀ f ∈ inp.files, f.size ≤ inp.capacity) ∧
    ∀ j ≤ inp.files.length, ∀ i < j, inp.total j ≠ inp.total i + inp.capacity))

/-! ## Who is blocked -/

/-- A side that cannot take a step of its own has no file left, or waits and has to. -/
theorem asleep (hs : Located inp s) (hin : Beside v inp s) (hh : Heard inp s)
    (h : ∀ l : Move, l.side = a → l.Own → step v inp l s = none) :
    inp.files[(s.process a).file]? = none ∨
      ∃ f, inp.files[(s.process a).file]? = some f ∧ (s.process a).phase = .waiting ∧
        waits inp.capacity f.size s.buffer a = true := by
  have hrun := h (.run a) rfl trivial
  have hcopy := h (.copy a 1) rfl trivial
  cases hf : inp.files[(s.process a).file]? with
  | none => exact .inl rfl
  | some f =>
    right
    simp only [step, hf, Option.bind_some] at hrun hcopy
    cases hp : (s.process a).phase with
    | checking =>
      simp only [hp] at hrun
      split_ifs at hrun
    | waiting =>
      simp only [hp] at hrun
      split_ifs at hrun with hw
      exact ⟨f, rfl, rfl, hh a f hf hp (by omega)⟩
    | granted =>
      simp only [hp] at hrun
      cases hrun
    | transfer o k =>
      have hk := (hs a f o k hf hp).2
      simp only [hp] at hrun hcopy
      split_ifs at hrun hcopy with hne hlt
      · rw [hin.overwrite_eq hf hp hlt.2] at hcopy
        cases hcopy
      · omega

/-- The same where the file indices are bounded. -/
theorem blocked (hs : Placed inp s) (hin : Beside v inp s) (hh : Heard inp s)
    (h : ∀ l : Move, l.side = a → l.Own → step v inp l s = none) :
    (s.process a).file = inp.files.length ∨
      ∃ f, inp.files[(s.process a).file]? = some f ∧
        waits inp.capacity f.size s.buffer a = true := by
  obtain hf | ⟨f, hf, -, hw⟩ := asleep hs.transfer hin hh h
  · exact .inl (le_antisymm (hs.file_le a) (List.getElem?_eq_none_iff.1 hf))
  · exact .inr ⟨f, hf, hw⟩

/-- Less than the capacity is unread, unless a block of files fills the buffer exactly. -/
theorem Room.unread_lt (hroom : Room inp s)
    (hne : ∀ i < (s.process .writer).file,
      inp.total (s.process .writer).file ≠ inp.total i + inp.capacity) :
    inp.total (s.process .writer).file < inp.total (s.process .reader).file + inp.capacity := by
  have hle := (inp.total_mono (s.process .writer).file_le_claimed).trans hroom
  have hpos := inp.pos
  apply lt_of_le_of_ne hle
  intro heq
  exact hne _ (inp.lt_of_total_lt (by omega)) heq

/-- A reader that has to wait has read everything published. -/
theorem Placed.drained (hs : Placed inp s)
    (hlt : inp.total (s.process .writer).file <
      inp.total (s.process .reader).file + inp.capacity)
    (hf : inp.files[(s.process .reader).file]? = some f)
    (hw : waits inp.capacity f.size s.buffer .reader = true) :
    (s.process .writer).file ≤ (s.process .reader).file := by
  have hle := hs.retired_le
  have hn := hs.waits_reader.1 hw
  rw [Nat.mod_eq_of_lt (by omega)] at hn
  have hsucc := Input.total_succ hf
  exact Nat.lt_succ_iff.1 (inp.lt_of_total_lt
    (show inp.total _ < inp.total ((s.process .reader).file + 1) by omega))

/-- A writer does not wait for a file that fits beside the unread bytes. -/
theorem Placed.not_waits_writer (hs : Placed inp s) {n : ℕ}
    (hn : inp.total (s.process .writer).file + n ≤
      inp.total (s.process .reader).file + inp.capacity) :
    waits inp.capacity n s.buffer .writer ≠ true := by
  rw [Ne, hs.waits_writer]
  have hmod := Nat.mod_le
    (inp.total (s.process .writer).file - inp.total (s.process .reader).file) inp.capacity
  have := hs.retired_le
  omega

/-! ## Sizes that pass -/

/-- Where both sides are blocked, both have finished. -/
theorem finished_of_blocked (hpass : SizesPass inp) (hs : Placed inp s) (hin : Beside v inp s)
    (hh : Heard inp s) (hroom : Room inp s) (h : ∀ l : Move, l.Own → step v inp l s = none) :
    s.Finished inp := by
  have hlt := hroom.unread_lt (hpass.2 _ (hs.file_le .writer))
  have hblocked := fun a => blocked hs hin hh (a := a) fun l _ => h l
  have hdrained : (s.process .writer).file ≤ (s.process .reader).file := by
    obtain hr | ⟨f, hf, hw⟩ := hblocked .reader
    · rw [hr]
      exact hs.file_le .writer
    · exact hs.drained hlt hf hw
  have htotal := inp.total_mono hdrained
  obtain hw | ⟨f, hf, hw⟩ := hblocked .writer
  · have hr := hs.file_le .reader
    intro a
    cases a with
    | writer => exact hw
    | reader => omega
  · have hn := hpass.1 f (List.mem_of_getElem? hf)
    exact absurd hw (hs.not_waits_writer (by omega))

/-- Along every run, positions, wake-ups and room are as they should be. -/
theorem reachable_invariants (hfit : PositionsFit inp) (hin : Sheltered v inp)
    (hpass : SizesPass inp) (hs : (machine v inp).Reachable s) :
    Placed inp s ∧ Heard inp s ∧ Room inp s := by
  apply hs.invariant
  · rintro _ rfl
    exact ⟨initial_placed inp, initial_heard inp, initial_room inp⟩
  · rintro l s s' ⟨hpl, hh, hroom⟩ h
    have hapart := (hpl.beside_of_sheltered hin).storesApart h
    refine ⟨step_placed hfit hpl hapart h, step_heard hh hapart h, step_room hpl hroom ?_ h⟩
    intro _ _ _ _ _
    exact .inr (hroom.unread_lt (hpass.2 _ (hpl.file_le .writer))).ne

theorem deadlockFree_of_sizesPass (hfit : PositionsFit inp) (hin : Sheltered v inp)
    (hpass : SizesPass inp) : DeadlockFree v inp := by
  intro s hs hne
  obtain ⟨hpl, hh, hroom⟩ := reachable_invariants hfit hin hpass hs
  by_contra hstuck
  push Not at hstuck
  exact hne (finished_of_blocked hpass hpl (hpl.beside_of_sheltered hin) hh hroom hstuck)

/-! ## Every run gets stuck or finishes -/

/-- How far a side is with its file. -/
def Phase.rank : Phase → ℕ
  | .checking => 0
  | .waiting => 1
  | .granted => 2
  | .transfer _ k => 3 + k

/-- What there is to do from file `i` on. -/
def Input.remaining (inp : Input) (i : ℕ) : ℕ :=
  ((inp.files.drop i).map fun f => f.size + 12).sum

/-- What a side can still do: its files, and a return from its wait for every wake-up. -/
def weight (inp : Input) (k : Process) : ℕ :=
  inp.remaining k.file - k.phase.rank + 3 * k.wakeups

/-- What both sides can still do. -/
def work (inp : Input) (s : State) : ℕ :=
  weight inp (s.process .writer) + weight inp (s.process .reader)

theorem remaining_succ (hf : inp.files[i]? = some f) :
    inp.remaining i = f.size + 12 + inp.remaining (i + 1) := by
  obtain ⟨hi, rfl⟩ := List.getElem?_eq_some_iff.1 hf
  unfold Input.remaining
  rw [List.drop_eq_getElem_cons hi, List.map_cons, List.sum_cons]

theorem work_update (inp : Input) {k : Process} (ht : t.process = update s.process a k) :
    work inp t + weight inp (s.process a) = work inp s + weight inp k := by
  unfold work
  rw [ht]
  cases a with
  | writer =>
    rw [update_self, update_of_ne (by simp)]
    omega
  | reader =>
    rw [update_self, update_of_ne (by simp)]
    omega

theorem weight_post_le (v : Version) (inp : Input) (k : Process) :
    weight inp (v.post k) ≤ weight inp k + 3 := by
  have := v.post_wakeups_le k
  simp only [weight, Version.post_file, Version.post_phase]
  omega

/-- Every step of its own takes a side further. -/
theorem work_lt (hs : Located inp s) (hl : l.Own) (h : step v inp l s = some t) :
    work inp t < work inp s := by
  have hm := step_moves h
  cases hm with
  | @block a f hf hp hw =>
    have hrem := remaining_succ hf
    have := work_update inp (s := s) (t := s.goto a .waiting) rfl
    simp only [weight, hp, Phase.rank] at this
    omega
  | @grant a f hf hp hw =>
    have hrem := remaining_succ hf
    have := work_update inp (s := s) (t := s.goto a (v.grant (s.buffer.offset a))) rfl
    cases v <;>
    simp only [weight, hp, Phase.rank, Version.grant] at this ⊢ <;> omega
  | @wake a f hf hp hw =>
    have hrem := remaining_succ hf
    have := work_update inp (s := s) (t := s.wake a) rfl
    simp only [weight, hp, Phase.rank] at this
    omega
  | @locate a f hf hp =>
    have hrem := remaining_succ hf
    have := work_update inp (s := s)
      (t := s.goto a (.transfer (s.buffer.offset a) 0)) rfl
    simp only [weight, hp, Phase.rank] at this
    omega
  | @complete a f o hf hp =>
    have hrem := remaining_succ hf
    have hk := (hs a f o _ hf hp).2
    have hmoved := f.moved_le a
    have hpost := weight_post_le v inp (s.process a.other)
    cases a <;>
    simp only [work, weight, State.complete, Side.other, update_self, ne_eq, reduceCtorEq,
      not_false_eq_true, update_of_ne, hp, Phase.rank, Version.post_file,
      Version.post_phase] at hpost hmoved ⊢ <;> omega
  | @copy a f o k c hf hp hc hk =>
    have hrem := remaining_succ hf
    have hmoved := f.moved_le a
    have := work_update inp (s := s) (t := s.copy v inp f o k c a) (a := a)
      (k := ⟨(s.process a).file, .transfer o (k + c), (s.process a).wakeups⟩) (by cases a <;> rfl)
    simp only [weight, hp, Phase.rank] at this
    omega
  | @overwrite f o k c q b hf hp hc hk hq hreach =>
    have hrem := remaining_succ hf
    have hmoved := f.moved_le .writer
    have := work_update inp (s := s) (a := .writer)
      (t := State.copy v inp { s with buffer := b } f o k c .writer)
      (k := ⟨(s.process .writer).file, .transfer o (k + c), (s.process .writer).wakeups⟩) rfl
    simp only [weight, hp, Phase.rank] at this
    omega
  | spurious hp => exact hl.elim

/-- From every state that meets the invariants `I` a run goes on to one where nobody moves. -/
theorem exists_blocked (hfit : PositionsFit inp) (hin : Sheltered v inp) {I : State → Prop}
    (hstep : ∀ l s t, Placed inp s → I s → step v inp l s = some t → I t)
    (hs : Placed inp s) (hh : Heard inp s) (hI : I s) :
    ∃ t, (machine v inp).Leads s t ∧ Placed inp t ∧ Heard inp t ∧ I t ∧
      ∀ l : Move, l.Own → step v inp l t = none := by
  obtain ⟨t, ht, ⟨hpl, hh, hI⟩, hstuck⟩ := Machine.exists_stuck_where (M := machine v inp)
    (I := fun s => Placed inp s ∧ Heard inp s ∧ I s) (P := fun l _ => l.Own) (work inp)
    (fun l s t ⟨hs, hh, hI⟩ hl h =>
      have hapart := (hs.beside_of_sheltered hin).storesApart h
      ⟨⟨step_placed hfit hs hapart h, step_heard hh hapart h, hstep l s t hs hI h⟩,
        work_lt hs.transfer hl h⟩)
    ⟨hs, hh, hI⟩
  exact ⟨t, ht, hpl, hh, hI, hstuck⟩

/-! ## A file larger than the buffer -/

/-- Somebody has files left, and nobody can take a step. -/
def Deadlocks (v : Version) (inp : Input) : Prop :=
  ∃ s, (machine v inp).Reachable s ∧ ¬ s.Finished inp ∧
    ∀ l : Move, l.Own → step v inp l s = none

theorem Deadlocks.not_deadlockFree (h : Deadlocks v inp) : ¬ DeadlockFree v inp := by
  intro hfree
  obtain ⟨s, hs, hne, hstuck⟩ := h
  obtain ⟨l, hl, hstep⟩ := hfree s hs hne
  exact hstep (hstuck l hl)

/-- The writer is never granted a file that is larger than the buffer. -/
theorem step_claimed_writer_le (hs : Placed inp s) (hf : inp.files[i]? = some f)
    (hlarge : inp.capacity < f.size) (hi : (s.process .writer).claimed ≤ i)
    (h : step v inp l s = some t) : (t.process .writer).claimed ≤ i := by
  obtain hsame | ⟨-, -, g, hg, hw, hnew⟩ := step_claimed h .writer
  · rwa [hsame]
  · have hle := (s.process .writer).file_le_claimed.trans hi
    have hne : (s.process .writer).file ≠ i := by
      rintro rfl
      obtain rfl : f = g := Option.some.inj (hf.symm.trans hg)
      apply Bool.eq_false_iff.1 hw
      rw [hs.waits_writer]
      omega
    rw [hnew]
    omega

theorem stuck_of_large (hfit : PositionsFit inp) (hin : Sheltered v inp)
    (hf : inp.files[i]? = some f) (hlarge : inp.capacity < f.size) : Deadlocks v inp := by
  obtain ⟨t, ht, -, -, hi, hstuck⟩ := exists_blocked (v := v) hfit hin
    (I := fun s => (s.process .writer).claimed ≤ i)
    (fun _ _ _ hs hi h => step_claimed_writer_le hs hf hlarge hi h)
    (initial_placed inp) (initial_heard inp) (Nat.zero_le _)
  refine ⟨t, ⟨initial, rfl, ht⟩, fun hfin => ?_, hstuck⟩
  have hlen := lt_length_of_file hf
  have hle := (t.process .writer).file_le_claimed
  rw [hfin .writer] at hle
  omega

/-! ## A block of files that fills the buffer exactly -/

/-- The unread bytes that are not granted yet are a whole turn or more. -/
def Overrun (inp : Input) (s : State) : Prop :=
  inp.total (s.process .reader).claimed + inp.capacity ≤ inp.total (s.process .writer).file

/-- A whole turn is never caught up: what is granted to the reader is within the last one. -/
theorem step_overrun (hs : Placed inp s) (ho : Overrun inp s) (h : step v inp l s = some t) :
    Overrun inp t := by
  have hwriter := inp.total_mono (step_file_le h .writer)
  unfold Overrun at ho ⊢
  obtain hsame | ⟨-, -, f, hf, hw, hnew⟩ := step_claimed h .reader
  · rw [hsame]
    omega
  · have hpos := inp.pos
    have hfile := inp.total_mono (s.process .reader).file_le_claimed
    have hn := mt hs.waits_reader.2 (Bool.eq_false_iff.1 hw)
    have hturn := Ring.le_sub_of_le_mod (not_lt.1 hn) (by omega)
    rw [hnew, Input.total_succ hf]
    omega

theorem Overrun.not_finished (ho : Overrun inp s) : ¬ s.Finished inp := by
  intro hfin
  have hpos := inp.pos
  have hle := inp.total_mono (s.process .reader).file_le_claimed
  unfold Overrun at ho
  rw [hfin .writer] at ho
  rw [hfin .reader] at hle
  omega

theorem deadlocks_of_overrun (hfit : PositionsFit inp) (hin : Sheltered v inp)
    (hs : (machine v inp).Reachable s) (hpl : Placed inp s) (hh : Heard inp s)
    (ho : Overrun inp s) : Deadlocks v inp := by
  obtain ⟨t, ht, -, -, hot, hstuck⟩ := exists_blocked (v := v) hfit hin (I := Overrun inp)
    (fun _ _ _ hs ho h => step_overrun hs ho h) hpl hh ho
  exact ⟨t, hs.leads ht, hot.not_finished, hstuck⟩

/-- The reader takes no step once it is at file `i`. -/
def StopsAt (i : ℕ) (l : Move) (s : State) : Prop :=
  l.Own ∧ (l.side = .reader → (s.process .reader).file < i)

/-- What holds while the reader stops at file `i` and no block of files before `j` fills the buffer
exactly. -/
structure Stopping (inp : Input) (i j : ℕ) (s : State) : Prop where
  placed : Placed inp s
  heard : Heard inp s
  reader : (s.process .reader).claimed ≤ i
  room : (s.process .writer).file < j → Room inp s

theorem step_stopping (hfit : PositionsFit inp) (hin : Sheltered v inp)
    (hmin : ∀ j' < j, ∀ i' < j', inp.total j' ≠ inp.total i' + inp.capacity)
    (hs : Stopping inp i j s) (hl : StopsAt i l s) (h : step v inp l s = some t) :
    Stopping inp i j t where
  placed := step_placed hfit hs.placed ((hs.placed.beside_of_sheltered hin).storesApart h) h
  heard := step_heard hs.heard ((hs.placed.beside_of_sheltered hin).storesApart h) h
  reader := by
    obtain hsame | ⟨hrun, -, -, -, -, hnew⟩ := step_claimed h .reader
    · rw [hsame]
      exact hs.reader
    · rw [hnew]
      exact hl.2 (by rw [hrun]; rfl)
  room hj := by
    have hlt := (step_file_le h .writer).trans_lt hj
    have hroom := hs.room hlt
    apply step_room hs.placed hroom _ h
    intro _ _ _ _ _
    exact .inr (hroom.unread_lt (hmin _ hlt)).ne

/-- Where nobody moves on before the block, the writer has published the block. -/
theorem Stopping.le_writer (hs : Stopping inp i j s) (hin : Beside v inp s)
    (hfits : ∀ f ∈ inp.files, f.size ≤ inp.capacity)
    (hmin : ∀ j' < j, ∀ i' < j', inp.total j' ≠ inp.total i' + inp.capacity)
    (hij : i < j) (hj : j ≤ inp.files.length) (hexact : inp.total j = inp.total i + inp.capacity)
    (hstuck : ∀ l, StopsAt i l s → step v inp l s = none) : j ≤ (s.process .writer).file := by
  by_contra hlt
  rw [not_le] at hlt
  have hunread := (hs.room hlt).unread_lt (hmin _ hlt)
  -- the writer waits for a file before the end of the block
  obtain hw | ⟨f, hf, hw⟩ := blocked hs.placed hin hs.heard (a := .writer) fun l hside hl =>
    hstuck l ⟨hl, fun h => by rw [hside] at h; cases h⟩
  · omega
  apply hs.placed.not_waits_writer _ hw
  have hnext := inp.total_mono (show (s.process .writer).file + 1 ≤ j from hlt)
  rw [Input.total_succ hf] at hnext
  have hle := (s.process .reader).file_le_claimed.trans hs.reader
  obtain hr | rfl := Nat.lt_or_eq_of_le hle
  · -- before file `i` the reader waits too, so it has read everything published
    obtain he | ⟨g, hg, hwait⟩ := blocked hs.placed hin hs.heard (a := .reader) fun l _ hl =>
      hstuck l ⟨hl, fun _ => hr⟩
    · omega
    have hdrained := inp.total_mono (hs.placed.drained hunread hg hwait)
    have := hfits f (List.mem_of_getElem? hf)
    omega
  · omega

theorem stuck_of_exact (hfit : PositionsFit inp) (hin : Sheltered v inp)
    (hfits : ∀ f ∈ inp.files, f.size ≤ inp.capacity)
    (h : ∃ j ≤ inp.files.length, ∃ i < j, inp.total j = inp.total i + inp.capacity) :
    Deadlocks v inp := by
  -- the first block that fills the buffer
  obtain ⟨hj, i, hij, hexact⟩ := Nat.find_spec h
  have hmin : ∀ j' < Nat.find h, ∀ i' < j', inp.total j' ≠ inp.total i' + inp.capacity :=
    fun j' hj' i' hi' he => Nat.find_min h hj' ⟨by omega, i', hi', he⟩
  obtain ⟨s, hs, hstop, hstuck⟩ := Machine.exists_stuck_where (M := machine v inp)
    (I := Stopping inp i (Nat.find h)) (P := StopsAt i) (work inp)
    (fun l s t hs hl h =>
      ⟨step_stopping hfit hin hmin hs hl h, work_lt hs.placed.transfer hl.1 h⟩)
    (s := initial) ⟨initial_placed inp, initial_heard inp, Nat.zero_le _, fun _ => initial_room inp⟩
  apply deadlocks_of_overrun hfit hin ⟨initial, rfl, hs⟩ hstop.placed hstop.heard
  have hbeside := hstop.placed.beside_of_sheltered hin
  have hwriter := inp.total_mono (hstop.le_writer hbeside hfits hmin hij hj hexact hstuck)
  have hreader := inp.total_mono hstop.reader
  unfold Overrun
  omega

/-! ## Deadlock freedom -/

theorem deadlocks_of_not_sizesPass (hfit : PositionsFit inp) (hin : Sheltered v inp)
    (hpass : ¬ SizesPass inp) : Deadlocks v inp := by
  by_cases hfits : ∀ f ∈ inp.files, f.size ≤ inp.capacity
  · apply stuck_of_exact hfit hin hfits
    by_contra hexact
    push Not at hexact
    exact hpass ⟨hfits, hexact⟩
  · push Not at hfits
    obtain ⟨f, hf, hlarge⟩ := hfits
    obtain ⟨i, hi⟩ := List.mem_iff_getElem?.1 hf
    exact stuck_of_large hfit hin hi hlarge

/-- **pcat never deadlocks exactly when every file fits into the buffer and no block of consecutive
files fills it exactly**, where no file is stored into `buffer_t`. -/
theorem deadlockFree_iff (v : Version) (inp : Input) (hfit : PositionsFit inp)
    (hin : Sheltered v inp) : DeadlockFree v inp ↔ SizesPass inp := by
  constructor
  · intro hfree
    by_contra hpass
    exact (deadlocks_of_not_sizesPass hfit hin hpass).not_deadlockFree hfree
  · exact deadlockFree_of_sizesPass hfit hin

/-- Three files that the buffer of the program passes on. -/
def threeFiles : Input where
  capacity := 4096
  files := [.uniform 1000 (by decide) 97, .uniform 0 (by decide) 98, .uniform 3095 (by decide) 99]
  outside _ := 0
  control := mappings
  pos := page_pos
  lt := page_lt
  apart := page_apart

/-- One file as large as the buffer of the program. -/
def oneFull : Input where
  capacity := 4096
  files := [.uniform 4096 page_lt_max 97]
  outside _ := 0
  control := mappings
  pos := page_pos
  lt := page_lt
  apart := page_apart

theorem samples_pass : DeadlockFree .semaphors threeFiles ∧ ¬ DeadlockFree .monitors oneFull :=
  ⟨(deadlockFree_iff _ _ (positionsFit_of_capacity_le (by decide)) (by decide)).2 (by decide),
    mt (deadlockFree_iff _ _ (positionsFit_of_capacity_le (by decide)) (by decide)).1 (by decide)⟩

/-- After a file of exactly the capacity the buffer is recorded as empty, and the reader waits for
ever. -/
theorem full_file_deadlocks : ¬ ∀ v inp, DeadlockFree v inp := by
  intro h
  have hstuck : Deadlocks .semaphors oneFull :=
    deadlocks_of_not_sizesPass (positionsFit_of_capacity_le (by decide)) (by decide) (by decide)
  exact hstuck.not_deadlockFree (h .semaphors oneFull)

end SemOS.Pcat
