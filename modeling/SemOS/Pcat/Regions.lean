import Mathlib.Data.Int.ConditionallyCompleteOrder
import Mathlib.Order.CompletePartialOrder
import Mathlib.Order.ConditionallyCompleteLattice.Basic
import Mathlib.Order.Interval.Set.Disjoint
import SemOS.Pcat.Output

/-!
# The regions that are granted

A side holds the region of its file from the grant on until it completes. The region is contiguous,
whereas the grant compares totals.

* `Apart`: the regions held are inside the storage, and the two do not overlap.
* `SoundRegion`: a region granted to the writer ends inside the storage, and it is not granted
  beside a region of the reader when `start = end`.
* `apart_iff`: a run visits only states with the first exactly when its steps meet the second.
* `Ringed`: the invariant. The size recorded is the number of unread bytes modulo the capacity; a
  region of the reader is among them, one of the writer among the others.
-/

namespace SemOS.Pcat

open Function

variable {v : Version} {inp : Input} {s t : State} {l : Move} {a : Side} {f : File}

/-- The size of the region that a side holds. -/
def Input.held (inp : Input) (k : Process) : ℕ :=
  match k.phase with
  | .checking | .waiting => 0
  | .granted | .transfer _ _ => inp.files[k.file]?.elim 0 File.size

/-- Where the region that a side holds starts. -/
def State.position (s : State) (a : Side) : ℤ :=
  match (s.process a).phase with
  | .transfer o _ => o
  | _ => s.buffer.offset a

/-- The cells of the region that a side holds, none if it holds no region. -/
def State.region (inp : Input) (s : State) (a : Side) : Set ℤ :=
  Set.Ico (s.position a) (s.position a + inp.held (s.process a))

/-- The regions are inside the storage and do not overlap. -/
structure Apart (inp : Input) (s : State) : Prop where
  inside : ∀ a, s.region inp a ⊆ Set.Ico 0 inp.capacity
  disjoint : Disjoint (s.region inp .writer) (s.region inp .reader)

/-- If the writer is about to be granted a file, the file fits between `end` and the end of the
storage; and unless it is empty, the reader does not hold a region at the same position. -/
def SoundRegion (inp : Input) (l : Move) (s : State) : Prop :=
  l = .run .writer → ∀ f ∈ inp.files[(s.process .writer).file]?,
    (s.process .writer).phase = .checking → waits inp.capacity f.size s.buffer .writer = false →
      s.buffer.end_ + f.size ≤ inp.capacity ∧
        (f.size = 0 ∨ inp.held (s.process .reader) = 0 ∨ s.buffer.start ≠ s.buffer.end_)

instance (inp : Input) (l : Move) (s : State) : Decidable (SoundRegion inp l s) :=
  inferInstanceAs (Decidable (l = .run .writer → ∀ f ∈ inp.files[(s.process .writer).file]?,
    (s.process .writer).phase = .checking → waits inp.capacity f.size s.buffer .writer = false →
      s.buffer.end_ + f.size ≤ inp.capacity ∧
        (f.size = 0 ∨ inp.held (s.process .reader) = 0 ∨ s.buffer.start ≠ s.buffer.end_)))

/-! ## Held regions -/

@[simp] theorem Version.post_held (v : Version) (k : Process) :
    inp.held (v.post k) = inp.held k := by
  simp only [Input.held, Version.post_phase, Version.post_file]

theorem held_grant (v : Version) (o : ℤ) {i w : ℕ} (hf : inp.files[i]? = some f) :
    inp.held ⟨i, v.grant o, w⟩ = f.size := by
  cases v <;> simp [Input.held, Version.grant, hf]

theorem held_transfer {k : Process} {o : ℤ} {c : ℕ} (hf : inp.files[k.file]? = some f)
    (hp : k.phase = .transfer o c) : inp.held k = f.size := by
  simp [Input.held, hp, hf]

/-- Who holds cells has claimed its file. -/
theorem claimed_of_held {k : Process} (h : 0 < inp.held k) :
    ∃ f, inp.files[k.file]? = some f ∧ k.claimed = k.file + 1 ∧ inp.held k = f.size := by
  unfold Input.held at h ⊢
  unfold Process.claimed
  cases hf : inp.files[k.file]? with
  | none =>
    rw [hf] at h
    split at h <;> simp at h
  | some f =>
    refine ⟨f, rfl, ?_⟩
    split at h <;> simp_all

/-- Who has claimed its file holds a region of its size. -/
theorem held_of_claimed {k : Process} (hf : inp.files[k.file]? = some f)
    (hclaimed : k.claimed = k.file + 1) : inp.held k = f.size := by
  unfold Process.claimed at hclaimed
  cases hp : k.phase with
  | checking =>
    rw [hp] at hclaimed
    exact absurd hclaimed (Nat.ne_of_lt (Nat.lt_succ_self _))
  | waiting =>
    rw [hp] at hclaimed
    exact absurd hclaimed (Nat.ne_of_lt (Nat.lt_succ_self _))
  | granted => simp [Input.held, hp, hf]
  | transfer o c => exact held_transfer hf hp

/-- A region is where the position of its side is. -/
theorem Placed.position_eq (hs : Placed inp s) (a : Side) : s.position a = s.buffer.offset a := by
  unfold State.position
  split
  · rename_i o k hp
    have hlt := hs.bound a
    rw [claimed_of_transfer hp] at hlt
    exact (hs.transfer a _ o k (List.getElem?_eq_getElem hlt) hp).1
  · rfl

/-- A buffer that is recorded as empty has its two positions at one cell. -/
theorem Placed.start_eq_end (hs : Placed inp s) (h : s.buffer.size = 0) :
    s.buffer.start = s.buffer.end_ := by
  rw [hs.size_eq] at h
  have hmod : inp.total (s.process .reader).file ≡ inp.total (s.process .writer).file
      [MOD inp.capacity] :=
    (Nat.modEq_iff_dvd' hs.retired_le).2 (Nat.dvd_of_mod_eq_zero h)
  rw [hs.cells.start, hs.cells.end_, hmod]

/-! ## The invariant -/

/-- The region of the writer is among the cells that are not recorded as unread, that of the reader
among those that are, unless the buffer is full and recorded as empty. Then the writer holds none
beside the reader's. -/
structure Ringed (inp : Input) (s : State) : Prop where
  placed : Placed inp s
  straight : Straight inp (s.process .writer).claimed
  free : inp.held (s.process .writer) + s.buffer.size ≤ inp.capacity
  unread : inp.held (s.process .reader) ≤ s.buffer.size ∨ s.buffer.size = 0
  both : 0 < inp.held (s.process .writer) → inp.held (s.process .reader) ≤ s.buffer.size

theorem initial_ringed (inp : Input) : Ringed inp initial where
  placed := initial_placed inp
  straight _ _ hi := absurd hi (Nat.not_lt_zero _)
  free := Nat.zero_le _
  unread := .inr rfl
  both _ := Nat.zero_le _

/-- The region of a side, in cells of the ring. -/
theorem Ringed.region_writer (hs : Ringed inp s) (h : 0 < inp.held (s.process .writer)) :
    inp.total (s.process .writer).file % inp.capacity + inp.held (s.process .writer) ≤
      inp.capacity := by
  obtain ⟨f, hf, hclaimed, hheld⟩ := claimed_of_held h
  rw [hheld]
  exact hs.straight _ f (by rw [hclaimed]; exact Nat.lt_succ_self _) hf

theorem Ringed.region_reader (hs : Ringed inp s) (h : 0 < inp.held (s.process .reader)) :
    inp.total (s.process .reader).file % inp.capacity + inp.held (s.process .reader) ≤
      inp.capacity := by
  obtain ⟨f, hf, hclaimed, hheld⟩ := claimed_of_held h
  rw [hheld] at h ⊢
  exact hs.straight.reader hs.placed hf hclaimed h

/-- A region in one piece that starts at a cell is inside the storage. -/
theorem Ico_subset_storage {x n C : ℕ} (h : 0 < n → x + n ≤ C) :
    Set.Ico (x : ℤ) (x + n) ⊆ Set.Ico 0 (C : ℤ) := by
  intro p hp
  obtain ⟨hle, hlt⟩ := Set.mem_Ico.1 hp
  have := h (by omega)
  exact Set.mem_Ico.2 ⟨by omega, by omega⟩

theorem Ringed.apart (hs : Ringed inp s) : Apart inp s := by
  have hstart : s.position .reader =
      (inp.total (s.process .reader).file % inp.capacity : ℕ) :=
    (hs.placed.position_eq .reader).trans hs.placed.cells.start
  have hend : s.position .writer =
      (inp.total (s.process .writer).file % inp.capacity : ℕ) :=
    (hs.placed.position_eq .writer).trans hs.placed.cells.end_
  refine ⟨fun a => ?_, ?_⟩
  · unfold State.region
    cases a with
    | writer =>
      rw [hend]
      exact Ico_subset_storage hs.region_writer
    | reader =>
      rw [hstart]
      exact Ico_subset_storage hs.region_reader
  · refine Set.disjoint_left.2 fun p hw hr => ?_
    unfold State.region at hw hr
    rw [hend] at hw
    rw [hstart] at hr
    obtain ⟨hwle, hwlt⟩ := Set.mem_Ico.1 hw
    obtain ⟨hrle, hrlt⟩ := Set.mem_Ico.1 hr
    -- both hold cells, so the region of the reader is recorded as unread
    have hunread := hs.both (by omega)
    have hfree := hs.free
    rw [hs.placed.size_eq] at hunread hfree
    have := Ring.before_or_after inp.pos hs.placed.retired_le hunread hfree
    omega

/-! ## Steps -/

/-- A step of one side within its file, which leaves the size and what the side holds. -/
theorem Ringed.of_update (hs : Ringed inp s) (hplaced : Placed inp t)
    (hstraight : Straight inp (t.process .writer).claimed) {k : Process}
    (ht : t.process = update s.process a k) (hheld : inp.held k = inp.held (s.process a))
    (hsize : t.buffer.size = s.buffer.size) : Ringed inp t := by
  have hsame := process_eq_of_update inp.held ht hheld
  refine ⟨hplaced, hstraight, ?_, ?_, ?_⟩
  · rw [hsame, hsize]
    exact hs.free
  · rw [hsame, hsize]
    exact hs.unread
  · rw [hsame, hsame, hsize]
    exact hs.both

/-- A grant to the writer. -/
theorem Ringed.grant_writer (hs : Ringed inp s)
    (hplaced : Placed inp (s.goto .writer (v.grant (s.buffer.offset .writer))))
    (hstraight : Straight inp
      ((s.goto .writer (v.grant (s.buffer.offset .writer))).process .writer).claimed)
    (hf : inp.files[(s.process .writer).file]? = some f)
    (hw : waits inp.capacity f.size s.buffer .writer = false)
    (hsound : f.size = 0 ∨ inp.held (s.process .reader) = 0 ∨ s.buffer.start ≠ s.buffer.end_) :
    Ringed inp (s.goto .writer (v.grant (s.buffer.offset .writer))) := by
  have hroom := mt hs.placed.waits_writer.2 (Bool.eq_false_iff.1 hw)
  rw [← hs.placed.size_eq] at hroom
  have hlt : s.buffer.size < inp.capacity := by
    rw [hs.placed.size_eq]
    exact Nat.mod_lt _ inp.pos
  have hunread := hs.unread
  refine ⟨hplaced, hstraight, ?_, ?_, ?_⟩
  · simp only [State.goto, update_self, held_grant v _ hf]
    omega
  · simpa [State.goto] using hunread
  · simp only [State.goto, update_self, held_grant v _ hf, ne_eq, reduceCtorEq, not_false_eq_true,
      update_of_ne]
    intro hpos
    obtain h0 | h0 | hne := hsound
    · omega
    · omega
    · -- a buffer that is recorded as empty has `start = end`
      obtain hle | hzero := hunread
      · exact hle
      · exact absurd (hs.placed.start_eq_end hzero) hne

/-- A grant to the reader. -/
theorem Ringed.grant_reader (hs : Ringed inp s)
    (hplaced : Placed inp (s.goto .reader (v.grant (s.buffer.offset .reader))))
    (hstraight : Straight inp
      ((s.goto .reader (v.grant (s.buffer.offset .reader))).process .writer).claimed)
    (hf : inp.files[(s.process .reader).file]? = some f)
    (hw : waits inp.capacity f.size s.buffer .reader = false) :
    Ringed inp (s.goto .reader (v.grant (s.buffer.offset .reader))) := by
  have hle : f.size ≤ s.buffer.size := by simpa [waits] using hw
  refine ⟨hplaced, hstraight, ?_, ?_, ?_⟩
  · simpa [State.goto] using hs.free
  · simp only [State.goto, update_self, held_grant v _ hf]
    exact .inl hle
  · simp only [State.goto, update_self, held_grant v _ hf]
    exact fun _ => hle

/-- The end of a file of the writer: its cells are recorded as unread from now on. -/
theorem Ringed.complete_writer (hs : Ringed inp s)
    (hplaced : Placed inp (s.complete v inp.capacity .writer f.size))
    (hstraight : Straight inp ((s.complete v inp.capacity .writer f.size).process .writer).claimed)
    (hf : inp.files[(s.process .writer).file]? = some f) {o : ℤ} {k : ℕ}
    (hp : (s.process .writer).phase = .transfer o k) :
    Ringed inp (s.complete v inp.capacity .writer f.size) := by
  have hle := hs.placed.retired_le
  have hfree := hs.free
  have hunread := hs.unread
  have hboth := hs.both
  have hsize := hplaced.size_eq
  rw [complete_file, complete_file_other s _ _ (by decide), Input.total_succ hf,
    Nat.sub_add_comm hle] at hsize
  rw [held_transfer hf hp] at hfree hboth
  rw [hs.placed.size_eq, Nat.add_comm] at hfree
  have hnext := Ring.add_mod_of_le hfree
  rw [← hs.placed.size_eq, ← hsize] at hnext
  have hnone : inp.held ((s.complete v inp.capacity .writer f.size).process .writer) = 0 := by
    simp [State.complete, Side.other, Input.held]
  have hother : inp.held ((s.complete v inp.capacity .writer f.size).process .reader) =
      inp.held (s.process .reader) := by
    simp [State.complete, Side.other]
  refine ⟨hplaced, hstraight, ?_, ?_, ?_⟩
  · rw [hnone, hsize]
    have := Nat.mod_lt (inp.total (s.process .writer).file - inp.total (s.process .reader).file +
      f.size) inp.pos
    omega
  · rw [hother]
    omega
  · rw [hnone]
    exact fun h => absurd h (Nat.lt_irrefl 0)

/-- The end of a file of the reader: its cells are recorded as free from now on. -/
theorem Ringed.complete_reader (hs : Ringed inp s)
    (hplaced : Placed inp (s.complete v inp.capacity .reader f.size))
    (hstraight : Straight inp ((s.complete v inp.capacity .reader f.size).process .writer).claimed)
    (hf : inp.files[(s.process .reader).file]? = some f) {o : ℤ} {k : ℕ}
    (hp : (s.process .reader).phase = .transfer o k) :
    Ringed inp (s.complete v inp.capacity .reader f.size) := by
  have hbehind := hs.placed.behind
  have hfree := hs.free
  have hunread := hs.unread
  have hboth := hs.both
  have hsize := hplaced.size_eq
  rw [complete_file, complete_file_other s _ _ (by decide), Input.total_succ hf,
    ← Nat.sub_sub] at hsize
  rw [held_transfer hf hp] at hunread hboth
  have hnone : inp.held ((s.complete v inp.capacity .reader f.size).process .reader) = 0 := by
    simp [State.complete, Side.other, Input.held]
  have hother : inp.held ((s.complete v inp.capacity .reader f.size).process .writer) =
      inp.held (s.process .writer) := by
    simp [State.complete, Side.other]
  refine ⟨hplaced, hstraight, ?_, ?_, ?_⟩
  · rw [hother]
    by_cases hle : f.size ≤ s.buffer.size
    · rw [hs.placed.size_eq] at hle
      rw [Ring.sub_mod_of_le inp.pos hle, ← hs.placed.size_eq] at hsize
      omega
    · -- the buffer is full, and the writer holds nothing
      have := Nat.mod_lt (inp.total (s.process .writer).file -
        inp.total (s.process .reader).file - f.size) inp.pos
      omega
  · rw [hnone]
    exact .inl (Nat.zero_le _)
  · rw [hnone]
    exact fun _ => Nat.zero_le _

/-- A step under the condition keeps the invariant. -/
theorem step_ringed (hfit : PositionsFit inp) (hs : Ringed inp s) (hl : SoundRegion inp l s)
    (h : step v inp l s = some t) : Ringed inp t := by
  have hin := (hs.straight.beside hs.placed v).storesApart h
  have hplaced := step_placed hfit hs.placed hin h
  have hstraight := step_straight hs.straight hs.placed
    (fun hw f hf hp hwaits => (hl hw f hf hp hwaits).1) h
  have hm := step_moves h
  cases hm with
  | block hf hp hw =>
    exact hs.of_update hplaced hstraight rfl (by simp only [Input.held, hp]) rfl
  | @grant a f hf hp hw =>
    cases a with
    | writer => exact hs.grant_writer hplaced hstraight hf hw (hl rfl f hf hp hw).2
    | reader => exact hs.grant_reader hplaced hstraight hf hw
  | wake hf hp hw =>
    exact hs.of_update hplaced hstraight rfl (by simp only [Input.held, hp]) rfl
  | locate hf hp =>
    exact hs.of_update hplaced hstraight rfl (by simp only [Input.held, hp]) rfl
  | @complete a f o hf hp =>
    cases a with
    | writer => exact hs.complete_writer hplaced hstraight hf hp
    | reader => exact hs.complete_reader hplaced hstraight hf hp
  | @copy a f o k c hf hp hc hk =>
    cases a with
    | writer => exact hs.of_update hplaced hstraight rfl (by simp only [Input.held, hp]) rfl
    | reader => exact hs.of_update hplaced hstraight rfl (by simp only [Input.held, hp]) rfl
  | overwrite hf hp hc hk hq hreach => exact hin.absurd hp hq hreach
  | spurious hp =>
    exact hs.of_update hplaced hstraight rfl (by simp only [Input.held, hp]) rfl

/-- Regions that are apart after a grant to the writer were granted soundly. -/
theorem Ringed.sound_of_apart (hs : Ringed inp s)
    (hf : inp.files[(s.process .writer).file]? = some f)
    (ht : Apart inp (s.goto .writer (v.grant (s.buffer.offset .writer)))) :
    s.buffer.end_ + f.size ≤ inp.capacity ∧
      (f.size = 0 ∨ inp.held (s.process .reader) = 0 ∨ s.buffer.start ≠ s.buffer.end_) := by
  have hwriter : (s.goto .writer (v.grant (s.buffer.offset .writer))).region inp .writer =
      Set.Ico s.buffer.end_ (s.buffer.end_ + f.size) := by
    unfold State.region State.position
    cases v <;> simp [State.goto, Version.grant, Input.held, Buffer.offset, hf]
  have hreader : (s.goto .writer (v.grant (s.buffer.offset .writer))).region inp .reader =
      Set.Ico s.buffer.start (s.buffer.start + inp.held (s.process .reader)) := by
    rw [show s.buffer.start = s.position .reader from (hs.placed.position_eq .reader).symm]
    simp [State.region, State.position, State.goto]
  have hin := ht.inside .writer
  have hdisjoint := ht.disjoint
  rw [hwriter] at hin hdisjoint
  rw [hreader] at hdisjoint
  constructor
  · by_cases h0 : f.size = 0
    · have := Nat.mod_lt (inp.total (s.process .writer).file) inp.pos
      rw [h0, hs.placed.cells.end_]
      omega
    · -- the last cell of the region is inside
      have hlast := hin (Set.mem_Ico.2 ⟨by omega, by omega⟩ :
        s.buffer.end_ + f.size - 1 ∈ Set.Ico s.buffer.end_ (s.buffer.end_ + f.size))
      have := (Set.mem_Ico.1 hlast).2
      omega
  · by_contra hno
    simp only [not_or, ne_eq, not_not] at hno
    obtain ⟨hf0, hr0, heq⟩ := hno
    exact Set.disjoint_left.1 hdisjoint (Set.mem_Ico.2 ⟨le_refl _, by omega⟩)
      (Set.mem_Ico.2 ⟨by omega, by omega⟩)

/-- Only a grant to the writer can make the regions wrong. -/
theorem apart_step (hfit : PositionsFit inp) (hs : Ringed inp s) (h : step v inp l s = some t) :
    Apart inp t ↔ SoundRegion inp l s := by
  refine ⟨fun ht => ?_, fun hl => (step_ringed hfit hs hl h).apart⟩
  rintro rfl f hf hp hw
  have hstep : step v inp (.run .writer) s =
      some (s.goto .writer (v.grant (s.buffer.offset .writer))) := by
    simp [step, Option.mem_def.1 hf, hp, hw]
  obtain rfl := Option.some.inj (h.symm.trans hstep)
  exact hs.sound_of_apart hf ht

/-- **The regions granted are inside the storage and never overlap** in a run exactly when all
grants to the writer are sound, with semaphores and with the monitor. -/
theorem apart_iff (v : Version) (inp : Input) (hfit : PositionsFit inp) (ls : List Move) :
    (machine v inp).Throughout (Apart inp) ls initial ↔
      (machine v inp).Along (SoundRegion inp) ls initial :=
  Machine.throughout_iff_along (I := Ringed inp)
    (fun _ _ _ hs hl h => step_ringed hfit hs hl h) (fun _ _ _ hs _ h => apart_step hfit hs h) ls
    (initial_ringed inp) (initial_ringed inp).apart

/-- Three files of two bytes go through four cells in regions that are apart. -/
theorem apart_threePairs :
    (machine .semaphors threePairs).Throughout (Apart threePairs) takingTurns initial :=
  (apart_iff .semaphors threePairs (positionsFit_of_capacity_le (by decide)) takingTurns).2
    (by decide +kernel)

/-- Two files that fit the buffer one by one. -/
def twoFiles : Input where
  capacity := 4096
  files := [.uniform 3000 (by decide) 97, .uniform 3000 (by decide) 98]
  outside _ := 0
  control := mappings
  pos := page_pos
  lt := page_lt
  apart := page_apart

/-- When the first one has been printed, the second one is granted behind it, where 1096 bytes of
the storage are left. -/
theorem region_beyond_storage : ¬ ∀ v inp s, (machine v inp).Reachable s → Apart inp s := by
  intro h
  have hrun : ((machine .semaphors twoFiles).run [.run .writer, .copy .writer 3000, .run .writer,
      .run .reader, .copy .reader 3000, .run .reader, .run .writer] initial).map
      (fun s => (s.position .writer, twoFiles.held (s.process .writer))) = some (3000, 3000) := by
    decide +kernel
  obtain ⟨s, hs, ho⟩ := Option.map_eq_some_iff.1 hrun
  obtain ⟨hposition, hheld⟩ := Prod.mk.inj ho
  have hin := (h .semaphors twoFiles s (Machine.reachable_of_run rfl hs)).inside .writer
  have hcell : (5999 : ℤ) ∈ s.region twoFiles .writer := by
    rw [State.region, hposition, hheld]
    decide
  exact absurd (Set.mem_Ico.1 (hin hcell)).2 (by decide)

end SemOS.Pcat
