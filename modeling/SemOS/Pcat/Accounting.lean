import Mathlib.Data.Int.ModEq
import SemOS.Pcat.Wakeups

/-!
# What the size of the buffer says

`upd_buffer_size` computes the size from `start` and `end`, which do not tell a full buffer from an
empty one, and which are `int`.

* `Counted`: the positions are cells of the buffer, and the size is the number of bytes published
  and not retired.
* `SoundPublish`: what is published does not fill the buffer exactly, and the new end is an `int`.
* `counted_iff`: a run that does not store into `buffer_t` visits only states with the first exactly
  when its steps meet the second.
* `full_buffer_counted_empty`: one file that fills the buffer.
-/

namespace SemOS.Pcat

open Function

variable {v : Version} {inp : Input} {s t : State} {l : Move} {a : Side} {f : File} {C : ℕ}
  {b : Buffer}

/-- The positions are in the storage, and the size is the amount of unread data. -/
structure Counted (inp : Input) (s : State) : Prop where
  start : 0 ≤ s.buffer.start ∧ s.buffer.start < inp.capacity
  end_ : 0 ≤ s.buffer.end_ ∧ s.buffer.end_ < inp.capacity
  le_capacity : s.buffer.size ≤ inp.capacity
  size : (s.buffer.size : ℤ) =
    inp.total (s.process .writer).file - inp.total (s.process .reader).file

/-- If the writer is about to publish a file, the bytes that are then published and not retired do
not fill the buffer, and their end is representable as an `int`. -/
def SoundPublish (inp : Input) (l : Move) (s : State) : Prop :=
  l = .run .writer → ∀ f o, inp.files[(s.process .writer).file]? = some f →
    (s.process .writer).phase = .transfer o f.stored →
      inp.total ((s.process .writer).file + 1) ≠
        inp.total (s.process .reader).file + inp.capacity ∧
      inp.Fits ((s.process .writer).file + 1)

/-- A transfer of which `n` bytes have been moved. -/
instance (n : ℕ) : ∀ p : Phase, Decidable (∃ o, p = .transfer o n)
  | .transfer o k =>
    decidable_of_iff (k = n) ⟨fun h => ⟨o, by rw [h]⟩, fun ⟨_, h⟩ => (Phase.transfer.inj h).2⟩
  | .checking => isFalse (by simp)
  | .waiting => isFalse (by simp)
  | .granted => isFalse (by simp)

instance (inp : Input) (l : Move) (s : State) : Decidable (SoundPublish inp l s) :=
  decidable_of_iff (l = .run .writer → ∀ f ∈ inp.files[(s.process .writer).file]?,
    (∃ o, (s.process .writer).phase = .transfer o f.stored) →
      inp.total ((s.process .writer).file + 1) ≠
        inp.total (s.process .reader).file + inp.capacity ∧
      inp.total ((s.process .writer).file + 1) % inp.capacity < 2 ^ 31)
    ⟨fun h hl f o hf hp => h hl f hf ⟨o, hp⟩, fun h hl f hf ⟨o, hp⟩ => h hl f o hf hp⟩

/-! ## The size as a difference -/

theorem toInt_lt (x : ℤ) : toInt x < 2 ^ 31 := by
  unfold toInt
  rw [BitVec.toInt_ofInt]
  exact Int.bmod_lt (by decide)

/-- From two positions in the storage the size is computed that a buffer which is not full has. -/
theorem updBufferSize_modEq (hlt : C < 2 ^ 64) (hs : 0 ≤ b.start ∧ b.start < C)
    (he : 0 ≤ b.end_ ∧ b.end_ < C) (hint : b.start < 2 ^ 31 ∧ b.end_ < 2 ^ 31) :
    (updBufferSize C b).size < C ∧ (updBufferSize C b).size ≡ b.end_ - b.start [ZMOD C] := by
  obtain ⟨x, hx⟩ := Int.eq_ofNat_of_zero_le hs.1
  obtain ⟨y, hy⟩ := Int.eq_ofNat_of_zero_le he.1
  simp only [updBufferSize, hx, hy] at hs he hint ⊢
  split_ifs with h
  · have hsub : (y : ℤ) - x = (y - x : ℕ) := by omega
    rw [hsub, toInt_of_lt (by omega), toULong_of_lt (by omega)]
    exact ⟨by omega, Int.ModEq.refl _⟩
  · have hsub : (C : ℤ) - x + y = (C - x + y : ℕ) := by omega
    rw [hsub, toULong_of_lt (by omega), ← hsub]
    refine ⟨by omega, ?_⟩
    rw [show (C : ℤ) - x + y = y - x + C by omega]
    exact Int.add_modEq_right ..

/-! ## The invariant -/

/-- The positions are what the files say, the buffer is not full, and every total up to what is
published has a cell that is an `int`. -/
structure Accounted (inp : Input) (s : State) : Prop where
  placed : Placed inp s
  room : Room inp s
  partly : inp.total (s.process .writer).file <
    inp.total (s.process .reader).file + inp.capacity
  fits : ∀ i, inp.total i ≤ inp.total (s.process .writer).file → inp.Fits i

theorem initial_accounted (inp : Input) : Accounted inp initial where
  placed := initial_placed inp
  room := initial_room inp
  partly := by simpa [initial] using inp.pos
  fits i hi := by
    have hzero : inp.total i = 0 := Nat.le_zero.1 hi
    simp [Input.Fits, hzero]

theorem Accounted.counted (hs : Accounted inp s) : Counted inp s := by
  have hcells := hs.placed.cells
  have hle := hs.placed.retired_le
  have hpartly := hs.partly
  have hx := Nat.mod_lt (inp.total (s.process .reader).file) inp.pos
  have hy := Nat.mod_lt (inp.total (s.process .writer).file) inp.pos
  have hsize := hcells.size
  rw [Nat.mod_eq_of_lt (by omega)] at hsize
  refine ⟨?_, ?_, by omega, by omega⟩
  · rw [hcells.start]
    omega
  · rw [hcells.end_]
    omega

/-- What holds of the size after a file is published says that the step was sound. -/
theorem Accounted.sound_of_counted (hs : Accounted inp s)
    (ht : Counted inp (s.complete v inp.capacity .writer f.size)) :
    inp.total ((s.process .writer).file + 1) < inp.total (s.process .reader).file + inp.capacity ∧
      inp.Fits ((s.process .writer).file + 1) := by
  have hsize := ht.size
  rw [complete_file, complete_file_other s _ _ (by decide)] at hsize
  have hstart : (shiftEndByK inp.capacity f.size s.buffer).start =
      (inp.total (s.process .reader).file % inp.capacity : ℕ) := hs.placed.cells.start
  have hfit : inp.total (s.process .reader).file % inp.capacity < 2 ^ 31 :=
    hs.fits _ hs.placed.retired_le
  obtain ⟨hlt, hmod⟩ := updBufferSize_modEq (b := shiftEndByK inp.capacity f.size s.buffer)
    inp.lt ht.start ht.end_ ⟨by rw [hstart]; omega, toInt_lt _⟩
  change ((updBufferSize inp.capacity _).size : ℤ) = _ at hsize
  refine ⟨by omega, ?_⟩
  -- the new end is the cell of the new total, and it is an `int`
  rw [hsize, hstart, Int.natCast_mod] at hmod
  have hend : (inp.total ((s.process .writer).file + 1) : ℤ) ≡
      (shiftEndByK inp.capacity f.size s.buffer).end_ [ZMOD inp.capacity] := by
    have hcell := Int.mod_modEq (inp.total (s.process .reader).file) inp.capacity
    simpa using (hmod.add hcell.symm).trans (Int.ModEq.refl _)
  have hmodeq : (inp.total ((s.process .writer).file + 1) % inp.capacity : ℤ) =
      (shiftEndByK inp.capacity f.size s.buffer).end_ := by
    rw [hend]
    exact Int.emod_eq_of_lt ht.end_.1 ht.end_.2
  have := toInt_lt (toULong (s.buffer.end_ + f.size) % inp.capacity : ℕ)
  have hcell : (shiftEndByK inp.capacity f.size s.buffer).end_ < 2 ^ 31 := toInt_lt _
  unfold Input.Fits
  omega

/-- A step that publishes soundly keeps the invariant. -/
theorem step_accounted (hs : Accounted inp s) (hin : StoresApart v inp l s)
    (hl : SoundPublish inp l s) (h : step v inp l s = some t) : Accounted inp t := by
  have hplaced : Placed inp t := by
    refine step_placed_of_fits (hs.fits _ hs.placed.retired_le) (hs.fits _ (le_refl _)) ?_
      hs.placed hin h
    rintro a f o rfl hf hp
    cases a with
    | writer => exact (hl rfl f o hf hp).2
    | reader =>
      have hbehind := hs.placed.behind
      rw [claimed_of_transfer hp] at hbehind
      exact hs.fits _ hbehind
  have hroom : Room inp t :=
    step_room hs.placed hs.room (fun _ _ _ _ _ => .inr hs.partly.ne) h
  have hreader := inp.total_mono (step_file_le h .reader)
  have hpartly := hs.partly
  obtain hsame | ⟨f, o, rfl, hf, hp, rfl⟩ := step_file h .writer
  · refine ⟨hplaced, hroom, ?_, ?_⟩
    · rw [hsame]
      omega
    · rw [hsame]
      exact hs.fits
  · obtain ⟨hne, hfit⟩ := hl rfl f o hf hp
    have hclaim := hs.room
    rw [Room, claimed_of_transfer hp] at hclaim
    refine ⟨hplaced, hroom, ?_, ?_⟩
    · rw [complete_file, complete_file_other s _ _ (by decide)]
      omega
    · rw [complete_file]
      intro i hi
      by_cases hle : inp.total i ≤ inp.total (s.process .writer).file
      · exact hs.fits i hle
      · -- above the old total there is only the new one
        have hnext := inp.total_mono (inp.lt_of_total_lt (not_le.1 hle))
        rw [Input.Fits, Nat.le_antisymm hi hnext]
        exact hfit

/-- Only the writer's publishing can make the size wrong. -/
theorem counted_step (hs : Accounted inp s) (hin : StoresApart v inp l s)
    (h : step v inp l s = some t) : Counted inp t ↔ SoundPublish inp l s := by
  refine ⟨fun ht => ?_, fun hl => (step_accounted hs hin hl h).counted⟩
  rintro rfl f o hf hp
  have hstep : step v inp (.run .writer) s = some (s.complete v inp.capacity .writer f.size) := by
    simp [step, hf, hp, File.moved]
  obtain rfl := Option.some.inj (h.symm.trans hstep)
  obtain ⟨hlt, hfit⟩ := hs.sound_of_counted ht
  exact ⟨hlt.ne, hfit⟩

/-- **The size is the amount of unread data** in every state of a run that does not store into
`buffer_t` exactly when all that the run publishes is published soundly, with semaphores and with
the monitor. -/
theorem counted_iff (v : Version) (inp : Input) (ls : List Move)
    (hin : (machine v inp).Along (StoresApart v inp) ls initial) :
    (machine v inp).Throughout (Counted inp) ls initial ↔
      (machine v inp).Along (SoundPublish inp) ls initial :=
  Machine.throughout_iff_along_where (I := Accounted inp)
    (fun _ _ _ hs hin hl h => step_accounted hs hin hl h)
    (fun _ _ _ hs hin _ h => counted_step hs hin h) ls (initial_accounted inp)
    (initial_accounted inp).counted hin

/-- The writer and the reader move one file of two bytes through four cells. -/
theorem counted_onePair : (machine .semaphors onePair).Throughout (Counted onePair)
    [.run .writer, .copy .writer 2, .run .writer, .run .reader, .copy .reader 2, .run .reader]
    initial :=
  (counted_iff .semaphors onePair _ (by decide +kernel)).2 (by decide +kernel)

/-- One file that is as large as the buffer. -/
def exactFit : Input where
  capacity := 4096
  files := [.uniform 4096 page_lt_max 97]
  outside _ := 0
  control := mappings
  pos := page_pos
  lt := page_lt
  apart := page_apart

/-- When the file is published, its size is recorded as 0. -/
theorem full_buffer_counted_empty :
    ¬ ∀ v inp s, (machine v inp).Reachable s → Counted inp s := by
  intro h
  have hrun : ((machine .semaphors exactFit).run [.run .writer, .copy .writer 4096, .run .writer]
      initial).map (fun s => (s.buffer.size, (s.process .writer).file, (s.process .reader).file)) =
        some (0, 1, 0) := by
    decide +kernel
  obtain ⟨s, hs, ho⟩ := Option.map_eq_some_iff.1 hrun
  have hsize := (h .semaphors exactFit s (Machine.reachable_of_run rfl hs)).size
  simp only [Prod.mk.injEq] at ho
  rw [ho.1, ho.2.1, ho.2.2] at hsize
  exact absurd hsize (by decide)

end SemOS.Pcat
