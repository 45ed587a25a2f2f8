import Mathlib.Data.List.GetD
import SemOS.Pcat.Positions

/-!
# What pcat prints

`pcat_prints_contents`: the standard output is always a prefix of the concatenation of the files,
and all of it in the end, along the runs in which the writer is never granted a region that runs
over the end of the storage, nor anything while the buffer is exactly full (`SoundGrant`).

* The check of `get_write` compares totals, the transfer is one contiguous region behind `end`; so
  a file may be granted although the room is split by the end of the storage.
* A buffer that is exactly full has `start = end`, and `upd_buffer_size` records it as empty
  (`full_buffer_overwritten`).
* `Laid`: the regions of the files are beside each other and in one piece.
* `Carries`: the ring holds the stream of all files from the retired bytes on up to the last byte
  stored, and the output is the stream up to the last byte written.
-/

namespace SemOS.Pcat

open Function

variable {v : Version} {inp : Input} {s t : State} {l : Move} {a : Side} {i : ℕ} {f : File}

/-! ## The stream of the files -/

def File.contents (f : File) : List UInt8 := (List.range f.size).map f.byte

/-- The concatenation of the files in argument order. -/
def Input.contents (inp : Input) : List UInt8 := inp.files.flatMap File.contents

/-- The byte at a position of the concatenation. -/
def Input.stream (inp : Input) (x : ℕ) : UInt8 := inp.contents.getD x 0

@[simp] theorem File.length_contents (f : File) : f.contents.length = f.size := by
  simp [File.contents]

theorem length_flatMap_contents (files : List File) :
    (files.flatMap File.contents).length = (files.map File.size).sum := by
  rw [List.length_flatMap]
  congr 1
  exact List.map_congr_left fun f _ => f.length_contents

theorem Input.length_contents (inp : Input) :
    inp.contents.length = inp.total inp.files.length := by
  unfold Input.contents Input.total
  rw [length_flatMap_contents, List.take_length]

/-- The bytes of a file in the stream. -/
theorem stream_total (hf : inp.files[i]? = some f) {k : ℕ} (hk : k < f.size) :
    inp.stream (inp.total i + k) = f.byte k := by
  obtain ⟨hi, rfl⟩ := List.getElem?_eq_some_iff.1 hf
  have hsplit : inp.contents = (inp.files.take i).flatMap File.contents ++
      (inp.files[i].contents ++ (inp.files.drop (i + 1)).flatMap File.contents) := by
    unfold Input.contents
    rw [← List.flatMap_cons, ← List.drop_eq_getElem_cons hi, ← List.flatMap_append,
      List.take_append_drop]
  have hlen : ((inp.files.take i).flatMap File.contents).length = inp.total i :=
    length_flatMap_contents _
  unfold Input.stream
  rw [hsplit, List.getD_append_right _ _ _ _ (by omega), hlen, Nat.add_sub_cancel_left,
    List.getD_append _ _ _ _ (by simpa using hk)]
  simp [File.contents, List.getD_eq_getElem?_getD, hk]

/-- The next `c` bytes of the stream. -/
theorem Input.take_add (inp : Input) {x c : ℕ} (h : x + c ≤ inp.contents.length) :
    inp.contents.take (x + c) =
      inp.contents.take x ++ (List.range c).map fun d => inp.stream (x + d) := by
  induction c with
  | zero => simp
  | succ c ih =>
    have hlt : x + c < inp.contents.length := by omega
    rw [← Nat.add_assoc, List.take_add_one, ih (by omega), List.range_succ, List.map_append,
      ← List.append_assoc, List.getElem?_eq_getElem hlt]
    simp [Input.stream, List.getElem?_eq_getElem hlt]

/-! ## The run-time condition -/

/-- Every file is read and written as long as its size says. -/
def Input.Whole (inp : Input) : Prop := ∀ f ∈ inp.files, f.stored = f.size ∧ f.written = f.size

instance (inp : Input) : Decidable inp.Whole :=
  inferInstanceAs (Decidable (∀ f ∈ inp.files, f.stored = f.size ∧ f.written = f.size))

/-- If the writer is about to be granted a file of `n` bytes, they fit between `end` and the end of
the storage; and unless `n` is 0, the bytes published and not retired do not fill the buffer. -/
def SoundGrant (inp : Input) : Move → State → Prop
  | .run .writer, s =>
    ∀ f ∈ inp.files[(s.process .writer).file]?, (s.process .writer).phase = .checking →
      waits inp.capacity f.size s.buffer .writer = false →
        s.buffer.end_ + f.size ≤ inp.capacity ∧ (f.size = 0 ∨
          inp.total (s.process .writer).file ≠
            inp.total (s.process .reader).file + inp.capacity)
  | _, _ => True

instance (inp : Input) : ∀ l s, Decidable (SoundGrant inp l s)
  | .run .writer, s =>
    inferInstanceAs (Decidable (∀ f ∈ inp.files[(s.process .writer).file]?,
      (s.process .writer).phase = .checking →
        waits inp.capacity f.size s.buffer .writer = false →
          s.buffer.end_ + f.size ≤ inp.capacity ∧ (f.size = 0 ∨
            inp.total (s.process .writer).file ≠
              inp.total (s.process .reader).file + inp.capacity)))
  | .run .reader, _ => isTrue trivial
  | .copy _ _, _ => isTrue trivial
  | .wakeUp _, _ => isTrue trivial

/-! ## The invariant -/

/-- How many bytes of its file a side has moved. -/
def Process.progress (k : Process) : ℕ :=
  match k.phase with
  | .transfer _ c => c
  | _ => 0

@[simp] theorem Version.post_progress (v : Version) (k : Process) :
    (v.post k).progress = k.progress := by
  simp only [Process.progress, Version.post_phase]

@[simp] theorem progress_grant (v : Version) (o : ℤ) (i w : ℕ) :
    (Process.mk i (v.grant o) w).progress = 0 := by
  cases v <;> rfl

/-- The first `n` files lie in one piece each. -/
def Straight (inp : Input) (n : ℕ) : Prop :=
  ∀ i f, i < n → inp.files[i]? = some f → inp.total i % inp.capacity + f.size ≤ inp.capacity

/-- A file that is granted to the reader has been published, so it is one of these. -/
theorem Straight.reader (hstraight : Straight inp (s.process .writer).claimed) (hs : Placed inp s)
    (hf : inp.files[(s.process .reader).file]? = some f)
    (hclaimed : (s.process .reader).claimed = (s.process .reader).file + 1) (hpos : 0 < f.size) :
    inp.total (s.process .reader).file % inp.capacity + f.size ≤ inp.capacity := by
  have hbehind := hs.behind
  rw [hclaimed, Input.total_succ hf] at hbehind
  apply hstraight _ _ _ hf
  exact (inp.lt_of_total_lt (by omega)).trans_le (s.process .writer).file_le_claimed

/-- The files claimed stay in one piece, if the next one is granted so. -/
theorem step_straight (hstraight : Straight inp (s.process .writer).claimed) (hs : Placed inp s)
    (hpiece : l = .run .writer → ∀ f, inp.files[(s.process .writer).file]? = some f →
      (s.process .writer).phase = .checking → waits inp.capacity f.size s.buffer .writer = false →
        s.buffer.end_ + f.size ≤ inp.capacity)
    (h : step v inp l s = some t) : Straight inp (t.process .writer).claimed := by
  obtain hsame | ⟨hl, hp, f, hf, hw, hnew⟩ := step_claimed h .writer
  · rw [hsame]
    exact hstraight
  · have hfits := hpiece hl f hf hp hw
    rw [hnew]
    intro i g hi hg
    obtain hi | rfl := Nat.lt_succ_iff_lt_or_eq.1 hi
    · exact hstraight i g (hi.trans_le (s.process .writer).file_le_claimed) hg
    · obtain rfl : f = g := Option.some.inj (hf.symm.trans hg)
      rw [hs.cells.end_] at hfits
      omega

/-- A file that lies in one piece does not reach `buffer_t`. -/
theorem Straight.beside (hstraight : Straight inp (s.process .writer).claimed)
    (hs : Placed inp s) (v : Version) : Beside v inp s := by
  refine hs.beside fun q hq h0 f hf _ hclaimed => ?_
  have hone := hstraight _ f (by omega) hf
  have hstored := f.stored_le
  obtain hbehind | hbefore := inp.apart v q hq
  · omega
  · omega

/-- The regions of the files are beside each other and in one piece. -/
structure Laid (inp : Input) (s : State) : Prop where
  placed : Placed inp s
  room : Room inp s
  straight : Straight inp (s.process .writer).claimed

/-- The ring carries what is published and not retired, and the output what has been written. -/
structure Carries (inp : Input) (s : State) : Prop extends Laid inp s where
  cells : Ring.Holds inp.capacity s.buffer.storage inp.stream
    (inp.total (s.process .reader).file)
    (inp.total (s.process .writer).file + (s.process .writer).progress)
  output : s.output = inp.contents.take
    (inp.total (s.process .reader).file + (s.process .reader).progress)

theorem initial_carries (inp : Input) : Carries inp initial where
  placed := initial_placed inp
  room := initial_room inp
  straight i _ hi := absurd hi (Nat.not_lt_zero i)
  cells := Ring.Holds.empty _ _ _ _
  output := rfl

/-- A step under the condition keeps the regions. -/
theorem step_laid (hfit : PositionsFit inp) (hs : Laid inp s) (hl : SoundGrant inp l s)
    (h : step v inp l s = some t) : Laid inp t := by
  have hin := (hs.straight.beside hs.placed v).storesApart h
  refine ⟨step_placed hfit hs.placed hin h, step_room hs.placed hs.room ?_ h,
    step_straight hs.straight hs.placed ?_ h⟩
  · rintro rfl f hf hp hw
    exact (hl f hf hp hw).2
  · rintro rfl f hf hp hw
    exact (hl f hf hp hw).1

/-- A file that is granted to the reader lies in one piece. -/
theorem Laid.straight_reader (hs : Laid inp s) (hf : inp.files[(s.process .reader).file]? = some f)
    (hclaimed : (s.process .reader).claimed = (s.process .reader).file + 1) (hpos : 0 < f.size) :
    inp.total (s.process .reader).file % inp.capacity + f.size ≤ inp.capacity :=
  hs.straight.reader hs.placed hf hclaimed hpos

/-- A step of one side within its file that moves no byte. -/
theorem Carries.of_update (hs : Carries inp s) (hlaid : Laid inp t) {k : Process}
    (ht : t.process = update s.process a k) (hstorage : t.buffer.storage = s.buffer.storage)
    (houtput : t.output = s.output) (hfile : k.file = (s.process a).file)
    (hprogress : k.progress = (s.process a).progress) : Carries inp t := by
  have hfiles := process_eq_of_update Process.file ht hfile
  have hmoved := process_eq_of_update Process.progress ht hprogress
  refine ⟨hlaid, ?_, ?_⟩
  · rw [hfiles, hfiles, hmoved, hstorage]
    exact hs.cells
  · rw [hfiles, hmoved, houtput]
    exact hs.output

/-- `saferead` stores bytes of the writer's file. -/
theorem Carries.copy_writer (hs : Carries inp s) {o : ℤ} {k c : ℕ}
    (hf : inp.files[(s.process .writer).file]? = some f)
    (hp : (s.process .writer).phase = .transfer o k) (hc : 0 < c) (hk : k + c ≤ f.stored)
    (hlaid : Laid inp (s.copy v inp f o k c .writer)) :
    Carries inp (s.copy v inp f o k c .writer) := by
  have hclaimed := claimed_of_transfer hp
  have hprogress : (s.process .writer).progress = k := by simp only [Process.progress, hp]
  have hle := f.stored_le
  have hretired := hs.placed.retired_le.trans (Nat.le_add_right _ k)
  have hroom : inp.total (s.process .writer).claimed ≤
      inp.total (s.process .reader).file + inp.capacity := hs.room
  rw [hclaimed, Input.total_succ hf] at hroom
  have hone := hs.straight _ f (by rw [hclaimed]; exact Nat.lt_succ_self _) hf
  -- the region of this call starts `k` bytes behind `end`
  have hregion : (inp.total (s.process .writer).file + k) % inp.capacity =
      inp.total (s.process .writer).file % inp.capacity + k :=
    Ring.add_mod_of_fits (by omega)
  have ho : o = (inp.total (s.process .writer).file % inp.capacity : ℕ) :=
    (hs.placed.transfer .writer f o k hf hp).1.trans hs.placed.cells.end_
  have hcells := hs.cells
  rw [hprogress] at hcells
  have hput : Ring.Holds inp.capacity (s.copy v inp f o k c .writer).buffer.storage inp.stream
      (inp.total (s.process .reader).file) (inp.total (s.process .writer).file + k + c) := by
    apply hcells.put hretired (by omega) (by omega)
    · intro d hd
      rw [hregion, Nat.add_assoc (inp.total _) k d, stream_total hf (by omega)]
      simp only [State.copy, Buffer.store, ho]
      rw [if_pos (by omega)]
      congr 1
      omega
    · intro p hp
      simp only [State.copy, Buffer.store, ho]
      rw [if_neg (by omega)]
  refine ⟨hlaid, ?_, ?_⟩
  · simpa [State.copy, State.goto, Process.progress, Nat.add_assoc] using hput
  · simpa [State.copy, State.goto] using hs.output

/-- `safewrite` prints bytes of the reader's file. -/
theorem Carries.copy_reader (hs : Carries inp s) {o : ℤ} {k c : ℕ}
    (hf : inp.files[(s.process .reader).file]? = some f)
    (hp : (s.process .reader).phase = .transfer o k) (hc : 0 < c) (hk : k + c ≤ f.written)
    (hlaid : Laid inp (s.copy v inp f o k c .reader)) :
    Carries inp (s.copy v inp f o k c .reader) := by
  have hclaimed := claimed_of_transfer hp
  have hprogress : (s.process .reader).progress = k := by simp only [Process.progress, hp]
  have hle := f.written_le
  have hbehind := hs.placed.behind
  rw [hclaimed, Input.total_succ hf] at hbehind
  have hone := hs.straight_reader hf hclaimed (by omega)
  have ho : o = (inp.total (s.process .reader).file % inp.capacity : ℕ) :=
    (hs.placed.transfer .reader f o k hf hp).1.trans hs.placed.cells.start
  have hlen : inp.total (s.process .reader).file + f.size ≤ inp.contents.length := by
    rw [inp.length_contents, ← Input.total_succ hf]
    exact inp.total_mono (lt_length_of_file hf)
  -- the region of this call is in the ring, and in one piece
  have hload : ∀ d < c, s.buffer.load inp.capacity inp.outside (inp.control v) (o + k + d) =
      inp.stream (inp.total (s.process .reader).file + k + d) := by
    intro d hd
    have hget := hs.cells.get (d := k + d) (by omega) (by omega)
    rw [Nat.add_assoc, ← hget, ho]
    unfold Buffer.load
    rw [if_pos (by omega)]
    congr 1
    omega
  have hmap : ((List.range c).map fun d : ℕ =>
      s.buffer.load inp.capacity inp.outside (inp.control v) (o + k + d)) =
      (List.range c).map fun d => inp.stream (inp.total (s.process .reader).file + k + d) := by
    apply List.map_congr_left
    intro d hd
    exact hload d (List.mem_range.1 hd)
  refine ⟨hlaid, ?_, ?_⟩
  · simpa [State.copy, State.goto] using hs.cells
  · have houtput := hs.output
    rw [hprogress] at houtput
    simp only [State.copy, State.goto, Process.progress, update_self, hmap, houtput]
    rw [← Nat.add_assoc, inp.take_add (x := inp.total _ + k) (by omega)]

/-- The end of a file that was moved as a whole. -/
theorem Carries.complete (hs : Carries inp s) {o : ℤ}
    (hf : inp.files[(s.process a).file]? = some f)
    (hp : (s.process a).phase = .transfer o f.size)
    (hlaid : Laid inp (s.complete v inp.capacity a f.size)) :
    Carries inp (s.complete v inp.capacity a f.size) := by
  have hprogress : (s.process a).progress = f.size := by simp only [Process.progress, hp]
  have hcells := hs.cells
  have houtput := hs.output
  cases a with
  | writer =>
    rw [hprogress, ← Input.total_succ hf] at hcells
    refine ⟨hlaid, ?_, ?_⟩
    · simpa [State.complete, Side.other, Process.progress, shift, updBufferSize, shiftEndByK]
        using hcells
    · simpa [State.complete, Side.other] using houtput
  | reader =>
    have hdrop := hcells.drop f.size
    rw [← Input.total_succ hf] at hdrop
    rw [hprogress, ← Input.total_succ hf] at houtput
    refine ⟨hlaid, ?_, ?_⟩
    · simpa [State.complete, Side.other, shift, updBufferSize, shiftStartByK] using hdrop
    · simpa [State.complete, Side.other, Process.progress] using houtput

/-- A step under the condition keeps the invariant. -/
theorem step_carries (hwhole : inp.Whole) (hfit : PositionsFit inp) (hs : Carries inp s)
    (hl : SoundGrant inp l s) (h : step v inp l s = some t) : Carries inp t := by
  have hlaid := step_laid hfit hs.toLaid hl h
  have hm := step_moves h
  cases hm with
  | block hf hp hw =>
    apply hs.of_update hlaid rfl rfl rfl rfl
    simp only [Process.progress, hp]
  | grant hf hp hw =>
    apply hs.of_update hlaid rfl rfl rfl rfl
    rw [progress_grant]
    simp only [Process.progress, hp]
  | wake hf hp hw =>
    apply hs.of_update hlaid rfl rfl rfl rfl
    simp only [Process.progress, hp]
  | locate hf hp =>
    apply hs.of_update hlaid rfl rfl rfl rfl
    simp only [Process.progress, hp]
  | @complete a f o hf hp =>
    have hmoved : f.moved a = f.size := by
      obtain ⟨hst, hwr⟩ := hwhole f (List.mem_of_getElem? hf)
      cases a with
      | writer => exact hst
      | reader => exact hwr
    exact hs.complete hf (hmoved ▸ hp) hlaid
  | @copy a f o k c hf hp hc hk =>
    cases a with
    | writer => exact hs.copy_writer hf hp hc hk hlaid
    | reader => exact hs.copy_reader hf hp hc hk hlaid
  | overwrite hf hp hc hk hq hreach =>
    exact ((hs.straight.beside hs.placed v).storesApart h).absurd hp hq hreach
  | spurious hp =>
    apply hs.of_update hlaid rfl rfl rfl rfl
    simp only [Process.progress, hp]

/-! ## The output -/

/-- The output is a prefix of the concatenation of the files, and all of it when both sides are
through. -/
def PrintsContents (inp : Input) (s : State) : Prop :=
  s.output <+: inp.contents ∧ (s.Finished inp → s.output = inp.contents)

theorem Carries.printsContents (hs : Carries inp s) : PrintsContents inp s := by
  constructor
  · rw [hs.output]
    exact List.take_prefix _ _
  · intro hfin
    rw [hs.output, hfin .reader]
    apply List.take_of_length_le
    rw [inp.length_contents]
    exact Nat.le_add_right _ _

/-- **pcat prints the concatenation of its files** in every run all of whose write grants are
sound, with semaphores and with the monitor. -/
theorem pcat_prints_contents (v : Version) (inp : Input) (hwhole : inp.Whole)
    (hfit : PositionsFit inp) {s : State}
    (hs : (machine v inp).ReachableWhere (SoundGrant inp) s) : PrintsContents inp s := by
  have hcarries : Carries inp s := by
    apply hs.invariant
    · rintro _ rfl
      exact initial_carries inp
    · intro l s s' hi hP h
      exact step_carries hwhole hfit hi hP h
  exact hcarries.printsContents

/-- Three files of two bytes through four cells: the third one goes around the end. -/
def threePairs : Input where
  capacity := 4
  files := [.uniform 2 pair_lt_max 97, .uniform 2 pair_lt_max 98, .uniform 2 pair_lt_max 99]
  outside _ := 0
  control := mappings
  pos := small_pos
  lt := small_lt
  apart := small_apart

/-- The writer and the reader take turns, file by file. -/
def takingTurns : List Move :=
  (List.replicate 3 [.run .writer, .copy .writer 2, .run .writer, .run .reader, .copy .reader 2,
    .run .reader]).flatten

/-- All three pairs come out. -/
theorem threePairs_printed : ∃ s, (machine .semaphors threePairs).runWhere (SoundGrant threePairs)
    takingTurns initial = some s ∧ s.Finished threePairs ∧ PrintsContents threePairs s := by
  have hrun : ((machine .semaphors threePairs).runWhere (SoundGrant threePairs) takingTurns
      initial).isSome = true := by decide +kernel
  obtain ⟨s, hs⟩ := Option.isSome_iff_exists.1 hrun
  refine ⟨s, hs, ?_, ?_⟩
  · have hfiles : ((machine .semaphors threePairs).runWhere (SoundGrant threePairs) takingTurns
        initial).map (fun s => ((s.process .writer).file, (s.process .reader).file)) =
          some (3, 3) := by decide +kernel
    simp only [hs, Option.map_some, Option.some.injEq, Prod.mk.injEq] at hfiles
    intro a
    cases a with
    | writer => exact hfiles.1
    | reader => exact hfiles.2
  · exact pcat_prints_contents .semaphors threePairs (by decide)
      (positionsFit_of_capacity_le (by decide)) (Machine.reachableWhere_of_run rfl hs)

/-- Three files of half the capacity: the second one fills the buffer, which is then recorded as
empty, and the third one is stored over the first, which is being printed. -/
def threeHalves : Input where
  capacity := 4096
  files := [.uniform 2048 (by decide) 97, .uniform 2048 (by decide) 98,
    .uniform 2048 (by decide) 99]
  outside _ := 0
  control := mappings
  pos := page_pos
  lt := page_lt
  apart := page_apart

theorem full_buffer_overwritten : ¬ ∀ v inp, inp.Whole → ∀ s, (machine v inp).Reachable s →
    PrintsContents inp s := by
  intro h
  have hrun : ((machine .semaphors threeHalves).run [.run .writer, .copy .writer 2048, .run .writer,
      .run .reader, .run .writer, .copy .writer 2048, .run .writer, .run .writer,
      .copy .writer 2048, .copy .reader 1] initial).map State.output = some [99] := by
    decide +kernel
  obtain ⟨s, hs, ho⟩ := Option.map_eq_some_iff.1 hrun
  have hprefix := (h .semaphors threeHalves (by decide) s
    (Machine.reachable_of_run rfl hs)).1
  rw [ho] at hprefix
  have hfirst : threeHalves.stream (threeHalves.total 0 + 0) = 97 :=
    stream_total (i := 0) (k := 0) (f := .uniform 2048 (by decide) 97) rfl (by decide)
  obtain ⟨rest, hrest⟩ := hprefix
  simp [Input.stream, ← hrest] at hfirst

end SemOS.Pcat
