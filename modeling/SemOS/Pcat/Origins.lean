import SemOS.Pcat.Regions

/-!
# Where the printed bytes come from

`complete_write` publishes as many bytes as `fstat` has promised, without a look at the result of
`saferead`. To follow the bytes, a run is traced: every cell of the storage carries the index of the
file whose `saferead` has stored into it last.

* `FromOwnFile`: what the reader hands to `safewrite` was stored by the `saferead` of its file.
* `ReadInFull`: a file that is granted to the reader was stored as a whole.
* `fromOwnFile_iff_along`: a run with sound grants to the writer visits only states with the first
  exactly when its steps meet the second.
* `Recorded`: the invariant. In the window of one turn from the retired bytes on, a cell carries the
  index of a file exactly when it is one of the cells stored so far of this file.
-/

namespace SemOS.Pcat

open Function

variable {v : Version} {inp : Input} {l : Move} {a : Side} {f : File}

/-- A state, and the files whose `saferead` has stored into the cells. -/
structure Traced where
  state : State
  origin : ℕ → Option ℕ

/-- The cells that a step stores into. -/
def mark (l : Move) (s : State) (origin : ℕ → Option ℕ) (p : ℕ) : Option ℕ :=
  match l, (s.process .writer).phase with
  | .copy .writer c, .transfer o k =>
    if o + k ≤ p ∧ p < o + k + c then some (s.process .writer).file else origin p
  | _, _ => origin p

/-- The interleaving of the two sides, with the origins of the cells. -/
def traced (v : Version) (inp : Input) : Machine Move Traced where
  init x := x = ⟨initial, fun _ => none⟩
  act l x := (step v inp l x.state).map fun t => ⟨t, mark l x.state x.origin⟩

/-- The region that the reader holds lies in the storage, and all of it was stored by the `saferead`
of the reader's file. -/
def FromOwnFile (inp : Input) (x : Traced) : Prop :=
  ∀ d < inp.held (x.state.process .reader), ∃ p : ℕ, x.state.position .reader + d = p ∧
    p < inp.capacity ∧ x.origin p = some (x.state.process .reader).file

/-- If the reader is about to be granted a file, `saferead` has stored all of it. -/
def ReadInFull (inp : Input) (l : Move) (x : Traced) : Prop :=
  l = .run .reader → ∀ f ∈ inp.files[(x.state.process .reader).file]?,
    (x.state.process .reader).phase = .checking →
      waits inp.capacity f.size x.state.buffer .reader = false → f.stored = f.size

/-- The condition on grants to the writer, in a traced run. -/
def Traced.SoundGrant (inp : Input) (l : Move) (x : Traced) : Prop :=
  Pcat.SoundGrant inp l x.state

instance (inp : Input) (l : Move) (x : Traced) : Decidable (ReadInFull inp l x) :=
  inferInstanceAs (Decidable (l = .run .reader →
    ∀ f ∈ inp.files[(x.state.process .reader).file]?,
      (x.state.process .reader).phase = .checking →
        waits inp.capacity f.size x.state.buffer .reader = false → f.stored = f.size))

instance (inp : Input) (l : Move) (x : Traced) : Decidable (Traced.SoundGrant inp l x) :=
  inferInstanceAs (Decidable (Pcat.SoundGrant inp l x.state))

variable {s t : State} {x y : Traced} {i p : ℕ}

/-! ## Bytes stored so far -/

/-- How many bytes of the file `i` have been stored. -/
def State.readOf (inp : Input) (s : State) (i : ℕ) : ℕ :=
  if i < (s.process .writer).file then inp.files[i]?.elim 0 File.stored
  else if i = (s.process .writer).file then (s.process .writer).progress else 0

theorem readOf_of_update {k : Process} (ht : t.process = update s.process a k)
    (hfile : k.file = (s.process a).file) (hprogress : k.progress = (s.process a).progress) :
    t.readOf inp i = s.readOf inp i := by
  unfold State.readOf
  rw [process_eq_of_update Process.file ht hfile,
    process_eq_of_update Process.progress ht hprogress]

/-- The end of a file leaves what has been stored. -/
theorem readOf_complete (hf : inp.files[(s.process a).file]? = some f) {o : ℤ}
    (hp : (s.process a).phase = .transfer o (f.moved a)) :
    (s.complete v inp.capacity a f.size).readOf inp i = s.readOf inp i := by
  cases a with
  | reader => simp [State.readOf, State.complete, Side.other]
  | writer =>
    have hprogress : (s.process .writer).progress = f.stored := by
      simp only [Process.progress, hp, File.moved]
    have hnext : ((s.complete v inp.capacity .writer f.size).process .writer).progress = 0 := by
      simp [State.complete, Side.other, Process.progress]
    simp only [State.readOf, complete_file, hnext, hprogress]
    obtain hlt | rfl | hgt := Nat.lt_trichotomy i (s.process .writer).file
    · rw [if_pos hlt, if_pos (by omega)]
    · rw [if_pos (Nat.lt_succ_self _), if_neg (Nat.lt_irrefl _), if_pos rfl, hf]
      rfl
    · have h₁ : ¬ i < (s.process .writer).file + 1 := by omega
      have h₂ : ¬ i < (s.process .writer).file := by omega
      have h₃ : i ≠ (s.process .writer).file := by omega
      simp [h₁, h₂, h₃]

/-- What is stored of a file lies in what the writer has claimed. -/
theorem Placed.lt_claimed (hs : Placed inp s) (h : p < inp.total i + s.readOf inp i)
    (hi : inp.total i ≤ p) : i < (s.process .writer).claimed ∧ p < inp.total (i + 1) := by
  unfold State.readOf at h
  split_ifs at h with hlt heq
  · refine ⟨hlt.trans_le (s.process .writer).file_le_claimed, ?_⟩
    cases hf : inp.files[i]? with
    | none =>
      rw [hf] at h
      exact absurd h (not_lt.2 hi)
    | some f =>
      rw [hf] at h
      have hstored : p < inp.total i + f.stored := h
      have := f.stored_le
      rw [Input.total_succ hf]
      omega
  · subst heq
    unfold Process.progress at h
    split at h
    · rename_i o k hp
      have hclaimed := claimed_of_transfer hp
      have hbound := hs.bound .writer
      rw [hclaimed] at hbound
      have hf := List.getElem?_eq_getElem hbound
      have hk : k ≤ (inp.files[(s.process .writer).file]).stored :=
        (hs.transfer .writer _ o k hf hp).2
      have := (inp.files[(s.process .writer).file]).stored_le
      rw [Input.total_succ hf]
      omega
    · omega
  · omega

/-! ## The invariant -/

/-- The cells of the window carry the files that have been stored into them. -/
structure Recorded (inp : Input) (x : Traced) : Prop where
  laid : Laid inp x.state
  origin : ∀ i p, (x.state.process .reader).file ≤ i →
    inp.total (x.state.process .reader).file ≤ p →
      p < inp.total (x.state.process .reader).file + inp.capacity →
        (x.origin (p % inp.capacity) = some i ↔
          inp.total i ≤ p ∧ p < inp.total i + x.state.readOf inp i)

/-- What has been published is stored as far as its `saferead` went. -/
theorem readOf_published (hs : Placed inp s) (hf : inp.files[(s.process .reader).file]? = some f)
    (hclaimed : (s.process .reader).claimed = (s.process .reader).file + 1) (hpos : 0 < f.size) :
    s.readOf inp (s.process .reader).file = f.stored := by
  have hbehind := hs.behind
  rw [hclaimed, Input.total_succ hf] at hbehind
  have hlt := inp.lt_of_total_lt
    (show inp.total (s.process .reader).file < inp.total (s.process .writer).file by omega)
  rw [State.readOf, if_pos hlt, hf]
  rfl

/-- What the reader holds is its own file's exactly if this file was stored as a whole. -/
theorem Recorded.fromOwnFile_iff (hx : Recorded inp x) : FromOwnFile inp x ↔
    ∀ f ∈ inp.files[(x.state.process .reader).file]?,
      (x.state.process .reader).claimed = (x.state.process .reader).file + 1 →
        f.stored = f.size := by
  have hstart : x.state.position .reader =
      (inp.total (x.state.process .reader).file % inp.capacity : ℕ) :=
    (hx.laid.placed.position_eq .reader).trans hx.laid.placed.cells.start
  -- what is known of a cell of the region
  have hcell : ∀ f d, inp.files[(x.state.process .reader).file]? = some f →
      (x.state.process .reader).claimed = (x.state.process .reader).file + 1 → d < f.size →
      inp.total (x.state.process .reader).file % inp.capacity + d < inp.capacity ∧
        (x.origin (inp.total (x.state.process .reader).file % inp.capacity + d) =
          some (x.state.process .reader).file ↔ d < f.stored) := by
    intro f d hf hclaimed hd
    have hfits := hx.laid.straight_reader hf hclaimed (by omega)
    have horigin := hx.origin _ (inp.total (x.state.process .reader).file + d) (le_refl _)
      (Nat.le_add_right _ _) (by omega)
    rw [Ring.add_mod_of_fits (by omega),
      readOf_published hx.laid.placed hf hclaimed (by omega)] at horigin
    refine ⟨by omega, horigin.trans ?_⟩
    omega
  constructor
  · intro h f hf hclaimed
    refine Nat.le_antisymm f.stored_le (not_lt.1 fun hlt => ?_)
    obtain ⟨p, hp, -, horigin⟩ := h f.stored (by rwa [held_of_claimed hf hclaimed])
    rw [hstart] at hp
    obtain rfl : p = inp.total (x.state.process .reader).file % inp.capacity + f.stored := by omega
    exact absurd ((hcell f _ hf hclaimed hlt).2.1 horigin) (Nat.lt_irrefl _)
  · intro h d hd
    obtain ⟨f, hf, hclaimed, hheld⟩ := claimed_of_held (Nat.zero_lt_of_lt hd)
    rw [hheld] at hd
    obtain ⟨hlt, horigin⟩ := hcell f d hf hclaimed hd
    refine ⟨_, ?_, hlt, horigin.2 (by rwa [h f hf hclaimed])⟩
    rw [hstart]
    omega

/-! ## Steps -/

/-- A step that leaves the retired bytes, what has been stored and where. -/
theorem Recorded.of_same (hx : Recorded inp x) (hlaid : Laid inp y.state)
    (hfile : (y.state.process .reader).file = (x.state.process .reader).file)
    (hread : ∀ i, y.state.readOf inp i = x.state.readOf inp i) (horigin : y.origin = x.origin) :
    Recorded inp y := by
  refine ⟨hlaid, ?_⟩
  simp only [hfile, hread, horigin]
  exact hx.origin

/-- A step of one side within its file that stores nothing. -/
theorem Recorded.of_update (hx : Recorded inp x) (hlaid : Laid inp y.state) {k : Process}
    (ht : y.state.process = update x.state.process a k)
    (hfile : k.file = (x.state.process a).file)
    (hprogress : k.progress = (x.state.process a).progress) (horigin : y.origin = x.origin) :
    Recorded inp y :=
  hx.of_same hlaid (process_eq_of_update Process.file ht hfile .reader)
    (fun _ => readOf_of_update ht hfile hprogress) horigin

/-- The end of a file of the reader: the window moves on, over nothing that has been stored. -/
theorem Recorded.complete_reader (hx : Recorded inp x) {o : ℤ} {k : ℕ}
    (hf : inp.files[(x.state.process .reader).file]? = some f)
    (hp : (x.state.process .reader).phase = .transfer o k)
    (hread : ∀ i, (x.state.complete v inp.capacity .reader f.size).readOf inp i =
      x.state.readOf inp i)
    (hlaid : Laid inp (x.state.complete v inp.capacity .reader f.size)) :
    Recorded inp ⟨x.state.complete v inp.capacity .reader f.size, x.origin⟩ := by
  have hbehind := hx.laid.placed.behind
  have hroom : inp.total (x.state.process .writer).claimed ≤
      inp.total (x.state.process .reader).file + inp.capacity := hx.laid.room
  have hclaim := inp.total_mono (x.state.process .writer).file_le_claimed
  rw [claimed_of_transfer hp] at hbehind
  have hsize := Input.total_succ hf
  refine ⟨hlaid, fun i p hi hle hlt => ?_⟩
  simp only [complete_file, hread] at hi hle hlt ⊢
  have hnext := inp.total_mono hi
  by_cases hin : p < inp.total (x.state.process .reader).file + inp.capacity
  · exact hx.origin i p (by omega) (by omega) hin
  · -- the cell is that of a position which has been retired
    have hold := hx.origin i (p - inp.capacity) (by omega) (by omega) (by omega)
    rw [← Nat.mod_eq_sub_mod (by omega)] at hold
    rw [hold]
    refine iff_of_false (fun h => ?_) (fun h => ?_)
    · omega
    · obtain ⟨hi', hp'⟩ := hx.laid.placed.lt_claimed h.2 h.1
      have := inp.total_mono (show i + 1 ≤ (x.state.process .writer).claimed from hi')
      omega

/-- Of the writer's file, what `saferead` has stored by now is in the buffer. -/
theorem readOf_copy_writer (o : ℤ) (k c i : ℕ) :
    (s.copy v inp f o k c .writer).readOf inp i =
      if i = (s.process .writer).file then k + c else s.readOf inp i := by
  simp only [State.readOf, State.copy, State.goto, update_self, Process.progress]
  split_ifs <;> first | rfl | omega

/-- `saferead` marks the positions behind what it has stored, as the writer's file lies straight. -/
theorem mark_copy_writer (hs : Placed inp s) (origin : ℕ → Option ℕ) {o : ℤ} {k c : ℕ}
    (hf : inp.files[(s.process .writer).file]? = some f)
    (hp : (s.process .writer).phase = .transfer o k) (hc : 0 < c)
    (hstraight : inp.total (s.process .writer).file % inp.capacity + (k + c) ≤ inp.capacity)
    (hroom : inp.total (s.process .writer).file + (k + c) ≤
      inp.total (s.process .reader).file + inp.capacity)
    (hle : inp.total (s.process .reader).file ≤ p)
    (hlt : p < inp.total (s.process .reader).file + inp.capacity) :
    mark (.copy .writer c) s origin (p % inp.capacity) =
      if inp.total (s.process .writer).file + k ≤ p ∧
          p < inp.total (s.process .writer).file + k + c then
        some (s.process .writer).file
      else origin (p % inp.capacity) := by
  have hretired := hs.retired_le
  have ho : o = (inp.total (s.process .writer).file % inp.capacity : ℕ) :=
    (hs.transfer .writer f o k hf hp).1.trans hs.cells.end_
  -- the region of this call starts `k` bytes behind the end of what is published
  have hstart := Ring.add_mod_of_fits (C := inp.capacity) (d := k)
    (x := inp.total (s.process .writer).file) (by omega)
  have hregion := Ring.region_iff (y := inp.total (s.process .writer).file + k) (n := c)
    (by omega) (by omega) (by omega) hle hlt
  rw [hstart] at hregion
  simp only [mark, hp, ho, ← hregion]
  congr 1
  apply propext
  omega

/-- `saferead` stores bytes of the writer's file. -/
theorem Recorded.copy_writer (hx : Recorded inp x) {o : ℤ} {k c : ℕ}
    (hf : inp.files[(x.state.process .writer).file]? = some f)
    (hp : (x.state.process .writer).phase = .transfer o k) (hc : 0 < c) (hk : k + c ≤ f.stored)
    (hlaid : Laid inp (x.state.copy v inp f o k c .writer)) :
    Recorded inp ⟨x.state.copy v inp f o k c .writer,
      mark (.copy .writer c) x.state x.origin⟩ := by
  have hclaimed := claimed_of_transfer hp
  have hle := f.stored_le
  have hroom : inp.total (x.state.process .writer).claimed ≤
      inp.total (x.state.process .reader).file + inp.capacity := hx.laid.room
  rw [hclaimed, Input.total_succ hf] at hroom
  have hone := hx.laid.straight _ f (by rw [hclaimed]; exact Nat.lt_succ_self _) hf
  have hreader : ((x.state.copy v inp f o k c .writer).process .reader).file =
      (x.state.process .reader).file := by
    simp [State.copy, State.goto]
  have hold : x.state.readOf inp (x.state.process .writer).file = k := by
    simp [State.readOf, Process.progress, hp]
  refine ⟨hlaid, fun i p hi hle' hlt => ?_⟩
  simp only [hreader] at hi hle' hlt
  have horigin := hx.origin i p hi hle' hlt
  have hmark := mark_copy_writer hx.laid.placed x.origin hf hp hc (by omega) (by omega) hle' hlt
  simp only [hmark, readOf_copy_writer]
  split_ifs with hin hfile hfile
  · subst hfile
    exact iff_of_true rfl ⟨by omega, by omega⟩
  · -- the position is behind what any earlier file takes
    refine iff_of_false (fun h => hfile (Option.some.inj h).symm) (fun h => ?_)
    obtain ⟨hi', hp'⟩ := hx.laid.placed.lt_claimed h.2 h.1
    have := inp.total_mono (show i + 1 ≤ (x.state.process .writer).file by omega)
    omega
  · subst hfile
    rw [horigin, hold]
    omega
  · exact horigin

/-- A step with a sound grant keeps the invariant. -/
theorem step_recorded (hfit : PositionsFit inp) (hx : Recorded inp x)
    (hl : Traced.SoundGrant inp l x) (h : (traced v inp).act l x = some y) : Recorded inp y := by
  obtain ⟨t, ht, rfl⟩ := Option.map_eq_some_iff.1 h
  have hlaid := step_laid hfit hx.laid hl ht
  have hm := step_moves ht
  cases hm with
  | block hf hp hw =>
    exact hx.of_update hlaid rfl rfl (by simp only [Process.progress, hp]) rfl
  | grant hf hp hw =>
    refine hx.of_update hlaid rfl rfl ?_ rfl
    rw [progress_grant]
    simp only [Process.progress, hp]
  | wake hf hp hw =>
    exact hx.of_update hlaid rfl rfl (by simp only [Process.progress, hp]) rfl
  | locate hf hp =>
    exact hx.of_update hlaid rfl rfl (by simp only [Process.progress, hp]) rfl
  | @complete a f o hf hp =>
    have hread := fun i => readOf_complete (v := v) (i := i) hf hp
    cases a with
    | writer => exact hx.of_same hlaid (complete_file_other _ _ _ (by decide)) hread rfl
    | reader => exact hx.complete_reader hf hp hread hlaid
  | @copy a f o k c hf hp hc hk =>
    cases a with
    | writer => exact hx.copy_writer hf hp hc hk hlaid
    | reader =>
      refine hx.of_same hlaid ?_ (fun i => ?_) rfl
      · simp [State.copy, State.goto]
      · simp [State.readOf, State.copy, State.goto]
  | overwrite hf hp hc hk hq hreach =>
    exact ((hx.laid.straight.beside hx.laid.placed v).storesApart ht).absurd hp hq hreach
  | spurious hp =>
    exact hx.of_update hlaid rfl rfl (by simp only [Process.progress, hp]) rfl

/-- Only a grant to the reader can let it print what is not its file's. -/
theorem fromOwnFile_step (hfit : PositionsFit inp) (hx : Recorded inp x)
    (hl : Traced.SoundGrant inp l x) (hown : FromOwnFile inp x)
    (h : (traced v inp).act l x = some y) : FromOwnFile inp y ↔ ReadInFull inp l x := by
  rw [(step_recorded hfit hx hl h).fromOwnFile_iff]
  rw [hx.fromOwnFile_iff] at hown
  obtain ⟨t, ht, rfl⟩ := Option.map_eq_some_iff.1 h
  constructor
  · rintro hy rfl f hf hp hw
    have hstep : step v inp (.run .reader) x.state =
        some (x.state.goto .reader (v.grant (x.state.buffer.offset .reader))) := by
      simp [step, Option.mem_def.1 hf, hp, hw]
    obtain rfl := Option.some.inj (ht.symm.trans hstep)
    exact hy f (by simpa [State.goto] using hf) (by simp [State.goto])
  · intro hread f hf hclaimed
    obtain hsame | ⟨rfl, hp, g, hg, hw, -⟩ := step_claimed ht .reader
    · obtain hfile | ⟨g, o, -, -, hp, rfl⟩ := step_file ht .reader
      · rw [hfile] at hf hclaimed
        exact hown f hf (hsame ▸ hclaimed)
      · -- the reader is through with its file
        rw [hsame, claimed_of_transfer hp, complete_file] at hclaimed
        omega
    · obtain hfile | ⟨g, o, -, -, hp', -⟩ := step_file ht .reader
      · rw [hfile] at hf
        obtain rfl : g = f := Option.some.inj (hg.symm.trans hf)
        exact hread rfl g hg hp hw
      · rw [hp] at hp'
        cases hp'

theorem initial_recorded (inp : Input) : Recorded inp ⟨initial, fun _ => none⟩ where
  laid := ⟨initial_placed inp, initial_room inp, fun _ _ hi => absurd hi (Nat.not_lt_zero _)⟩
  origin i p _ _ _ := by
    refine iff_of_false (fun h => by cases h) (fun h => ?_)
    have hnone : initial.readOf inp i = 0 := by
      unfold State.readOf
      split
      · rename_i hlt
        exact absurd hlt (Nat.not_lt_zero i)
      · split <;> rfl
    rw [hnone] at h
    omega

/-- **pcat prints only bytes that were read from the file it prints** in a run whose grants to the
writer are sound, exactly when every file that is granted to the reader has been read in full. -/
theorem fromOwnFile_iff_along (v : Version) (inp : Input) (hfit : PositionsFit inp)
    (ls : List Move)
    (hsound : (traced v inp).Along (Traced.SoundGrant inp) ls ⟨initial, fun _ => none⟩) :
    (traced v inp).Throughout (FromOwnFile inp) ls ⟨initial, fun _ => none⟩ ↔
      (traced v inp).Along (ReadInFull inp) ls ⟨initial, fun _ => none⟩ :=
  Machine.throughout_iff_along_where (I := Recorded inp)
    (fun _ _ _ hx hl _ h => step_recorded hfit hx hl h)
    (fun _ _ _ hx hl hown h => fromOwnFile_step hfit hx hl hown h) ls (initial_recorded inp)
    (fun _ hd => absurd hd (Nat.not_lt_zero _)) hsound

/-- Three files that are read in full are printed with their own bytes. -/
theorem fromOwnFile_threePairs : (traced .semaphors threePairs).Throughout
    (FromOwnFile threePairs) takingTurns ⟨initial, fun _ => none⟩ :=
  (fromOwnFile_iff_along .semaphors threePairs (positionsFit_of_capacity_le (by decide))
    takingTurns (by decide +kernel)).2 (by decide +kernel)

/-- A file of two bytes that is empty when it is read. -/
def shrunkFile : Input where
  capacity := 4096
  files := [⟨2, fun _ => 97, 0, 2, pair_lt_max, by decide, by decide⟩]
  outside _ := 0
  control := mappings
  pos := page_pos
  lt := page_lt
  apart := page_apart

/-- Two bytes are published, and the reader hands them to `safewrite`. -/
theorem unread_bytes_published :
    ¬ ∀ v inp x, (traced v inp).Reachable x → FromOwnFile inp x := by
  intro h
  have hrun : ((traced .semaphors shrunkFile).run [.run .writer, .run .writer, .run .reader]
      ⟨initial, fun _ => none⟩).map (fun x => (shrunkFile.held (x.state.process .reader),
        x.state.position .reader, x.origin 0)) = some (2, 0, none) := by
    decide +kernel
  obtain ⟨x, hx, ho⟩ := Option.map_eq_some_iff.1 hrun
  obtain ⟨hheld, ho⟩ := Prod.mk.inj ho
  obtain ⟨hposition, hnone⟩ := Prod.mk.inj ho
  obtain ⟨p, hp, -, horigin⟩ := h .semaphors shrunkFile x (Machine.reachable_of_run rfl hx) 0
    (by rw [hheld]; decide)
  obtain rfl : p = 0 := by omega
  rw [hnone] at horigin
  cases horigin

end SemOS.Pcat
