import SemOS.Pcat.Deadlock
import SemOS.Pcat.Output

/-!
# When pcat works

Every run ends, up to returns from a wait without a wake-up. It ends well exactly when the files
pass (`SizesPass`), as long as no store reaches `buffer_t` (`Sheltered`).

* A file may run over the end of the storage. What is stored there is read back from there, and two
  bytes that are in the buffer at the same time never have one address (`address_ne`): addresses are
  positions modulo the capacity, also behind the storage.
* `Holding`: the invariant. Every byte that is stored and not yet retired is at its address.
* **`pcat_correct_iff`** puts this and the result on deadlocks together.
-/

namespace SemOS.Pcat

open Function

variable {v : Version} {inp : Input} {s t : State} {l : Move} {a : Side} {i j : ℕ} {f g : File}

/-- The size of all files. -/
def Input.size (inp : Input) : ℕ := inp.total inp.files.length

/-- Where nobody can take a step of its own, both sides have finished, and everything is printed. -/
def Correct (v : Version) (inp : Input) : Prop :=
  ∀ s, (machine v inp).Reachable s → (∀ l : Move, l.Own → step v inp l s = none) →
    s.Finished inp ∧ s.output = inp.contents

/-! ## Bytes at their addresses -/

/-- The byte at an address, counted from the start of the storage, if one has been stored there. -/
def Buffer.cell (capacity : ℕ) (b : Buffer) (p : ℤ) : Option UInt8 :=
  if 0 ≤ p ∧ p < capacity then some (b.storage p.toNat) else b.beyond p

/-- The address of the byte `d` of file `i`. -/
def Input.address (inp : Input) (i d : ℕ) : ℕ := inp.total i % inp.capacity + d

theorem cell_store {C c : ℕ} {o : ℤ} (byte : ℕ → UInt8) (b : Buffer) (p : ℤ) :
    (b.store o c byte).cell C p =
      if o ≤ p ∧ p < o + c then some (byte (p - o).toNat) else b.cell C p := by
  unfold Buffer.cell Buffer.store
  by_cases hp : 0 ≤ p ∧ p < C
  · simp only [if_pos hp, Int.toNat_of_nonneg hp.1]
    split <;> rfl
  · simp only [if_neg hp]

/-- What has been stored beside `buffer_t` is read back. -/
theorem load_of_cell {C : ℕ} {outside : ℤ → UInt8} {control : Option ℤ} {b : Buffer} {p : ℤ}
    {x : UInt8} (h : b.cell C p = some x) (hp : ∀ q ∈ control, p < q ∨ q + 32 ≤ p) :
    b.load C outside control p = x := by
  unfold Buffer.cell at h
  unfold Buffer.load
  by_cases hin : 0 ≤ p ∧ p < C
  · rw [if_pos hin] at h ⊢
    exact Option.some.inj h
  · rw [if_neg hin] at h ⊢
    cases control with
    | none => simp only [h, Option.getD_some]
    | some q =>
      have := hp q rfl
      simp only [h, Option.getD_some]
      rw [if_neg (by omega)]

/-- Positions less than one turn apart have different addresses. -/
theorem address_ne {d e : ℕ} (hlt : inp.total i + d < inp.total j + e)
    (hturn : inp.total j + e < inp.total i + d + inp.capacity) :
    inp.address i d ≠ inp.address j e := by
  intro he
  apply Ring.mod_ne_mod hlt hturn
  unfold Input.address at he
  rw [← Nat.mod_add_mod, he, Nat.mod_add_mod]

/-! ## The invariant -/

/-- The output is the stream up to the last byte written, and every byte that is stored and not yet
retired is at its address. -/
structure Holding (inp : Input) (s : State) : Prop where
  placed : Placed inp s
  room : Room inp s
  cells : ∀ i f d, inp.files[i]? = some f → d < f.size → (s.process .reader).file ≤ i →
    inp.total i + d < inp.total (s.process .writer).file + (s.process .writer).progress →
      s.buffer.cell inp.capacity (inp.address i d) = some (f.byte d)
  output : s.output = inp.contents.take
    (inp.total (s.process .reader).file + (s.process .reader).progress)

theorem initial_holding (inp : Input) : Holding inp initial where
  placed := initial_placed inp
  room := initial_room inp
  cells _ _ _ _ _ _ h := absurd h (Nat.not_lt_zero _)
  output := rfl

/-- A step of one side within its file that moves no byte. -/
theorem Holding.of_update (hs : Holding inp s) (hplaced : Placed inp t) (hroom : Room inp t)
    {k : Process} (ht : t.process = update s.process a k)
    (hbuffer : ∀ p, t.buffer.cell inp.capacity p = s.buffer.cell inp.capacity p)
    (houtput : t.output = s.output) (hfile : k.file = (s.process a).file)
    (hprogress : k.progress = (s.process a).progress) : Holding inp t := by
  have hfiles := process_eq_of_update Process.file ht hfile
  have hmoved := process_eq_of_update Process.progress ht hprogress
  refine ⟨hplaced, hroom, ?_, ?_⟩
  · simp only [hfiles, hmoved, hbuffer]
    exact hs.cells
  · rw [hfiles, hmoved, houtput]
    exact hs.output

/-- A byte behind the writer's position in the stream is one of its file. -/
theorem eq_of_total_le {d n : ℕ} (hg : inp.files[i]? = some g) (hd : d < g.size)
    (hf : inp.files[j]? = some f) (hn : n ≤ f.size) (hle : inp.total j ≤ inp.total i + d)
    (hlt : inp.total i + d < inp.total j + n) : i = j := by
  have hi := Input.total_succ hg
  have hj := Input.total_succ hf
  apply le_antisymm
  · exact Nat.le_of_lt_succ (inp.lt_of_total_lt
      (show inp.total i < inp.total (j + 1) by omega))
  · exact Nat.le_of_lt_succ (inp.lt_of_total_lt
      (show inp.total j < inp.total (i + 1) by omega))

/-- `saferead` stores bytes of the writer's file. -/
theorem Holding.copy_writer (hs : Holding inp s) {o : ℤ} {k c : ℕ}
    (hf : inp.files[(s.process .writer).file]? = some f)
    (hp : (s.process .writer).phase = .transfer o k) (hk : k + c ≤ f.stored)
    (hplaced : Placed inp (s.copy v inp f o k c .writer))
    (hroom : Room inp (s.copy v inp f o k c .writer)) :
    Holding inp (s.copy v inp f o k c .writer) := by
  have hprogress : (s.process .writer).progress = k := by simp only [Process.progress, hp]
  have hstored := f.stored_le
  have hclaim : inp.total (s.process .writer).claimed ≤
      inp.total (s.process .reader).file + inp.capacity := hs.room
  rw [claimed_of_transfer hp, Input.total_succ hf] at hclaim
  have ho : o = (inp.total (s.process .writer).file % inp.capacity : ℕ) :=
    (hs.placed.transfer .writer f o k hf hp).1.trans hs.placed.cells.end_
  refine ⟨hplaced, hroom, ?_, ?_⟩
  · simp only [State.copy, State.goto, update_self, ne_eq, reduceCtorEq, not_false_eq_true,
      update_of_ne, Process.progress, cell_store]
    intro i g d hg hd hi hlt
    have hretired := inp.total_mono hi
    by_cases hold : inp.total i + d < inp.total (s.process .writer).file + k
    · -- a byte stored before is at another address than each of these
      rw [if_neg fun hin => ?_]
      · exact hs.cells i g d hg hd hi (by rw [hprogress]; exact hold)
      · unfold Input.address at hin
        refine (address_ne ?_ ?_ : inp.address i d ≠ inp.address (s.process .writer).file
          (inp.address i d - inp.total (s.process .writer).file % inp.capacity)) ?_ <;>
          unfold Input.address <;> omega
    · obtain rfl := eq_of_total_le hg hd hf (n := k + c) (by omega) (by omega) (by omega)
      obtain rfl : f = g := Option.some.inj (hf.symm.trans hg)
      unfold Input.address
      rw [if_pos (by omega)]
      congr 2
      omega
  · simpa [State.copy, State.goto, Process.progress] using hs.output

/-- `safewrite` prints bytes of the reader's file. -/
theorem Holding.copy_reader (hin : Sheltered v inp) (hwhole : inp.Whole) (hs : Holding inp s)
    {o : ℤ} {k c : ℕ} (hf : inp.files[(s.process .reader).file]? = some f)
    (hp : (s.process .reader).phase = .transfer o k) (hc : 0 < c) (hk : k + c ≤ f.written)
    (hplaced : Placed inp (s.copy v inp f o k c .reader))
    (hroom : Room inp (s.copy v inp f o k c .reader)) :
    Holding inp (s.copy v inp f o k c .reader) := by
  have hprogress : (s.process .reader).progress = k := by simp only [Process.progress, hp]
  have hwritten := f.written_le
  have hbehind := hs.placed.behind
  rw [claimed_of_transfer hp, Input.total_succ hf] at hbehind
  have ho : o = (inp.total (s.process .reader).file % inp.capacity : ℕ) :=
    (hs.placed.transfer .reader f o k hf hp).1.trans hs.placed.cells.start
  have hlen : inp.total (s.process .reader).file + f.size ≤ inp.contents.length := by
    rw [inp.length_contents, ← Input.total_succ hf]
    exact inp.total_mono (lt_length_of_file hf)
  have hclaimed : (s.process .reader).file < (s.process .writer).claimed :=
    (inp.lt_of_total_lt (by omega)).trans_le (s.process .writer).file_le_claimed
  have hsmall := hs.placed.small _ hclaimed f hf
  have hstored := (hwhole f (List.mem_of_getElem? hf)).1
  -- the region is beside `buffer_t`, so what has been stored there is read back
  have hload : ∀ d < c, s.buffer.load inp.capacity inp.outside (inp.control v) (o + k + d) =
      inp.stream (inp.total (s.process .reader).file + k + d) := by
    intro d hd
    have hcell := hs.cells _ f (k + d) hf (by omega) le_rfl (by omega)
    rw [Nat.add_assoc, stream_total hf (by omega)]
    apply load_of_cell
    · rw [← hcell, ho]
      congr 1
      unfold Input.address
      omega
    · intro q hq
      rw [ho]
      obtain hq0 | hq0 := inp.apart v q hq
      · have := hin q hq (by omega) _ (lt_length_of_file hf) f hf hsmall
        exact .inl (by omega)
      · exact .inr (by omega)
  have hmap : ((List.range c).map fun d : ℕ =>
      s.buffer.load inp.capacity inp.outside (inp.control v) (o + k + d)) =
      (List.range c).map fun d => inp.stream (inp.total (s.process .reader).file + k + d) :=
    List.map_congr_left fun d hd => hload d (List.mem_range.1 hd)
  refine ⟨hplaced, hroom, ?_, ?_⟩
  · simpa [State.copy, State.goto] using hs.cells
  · have houtput := hs.output
    rw [hprogress] at houtput
    simp only [State.copy, State.goto, Process.progress, update_self, hmap, houtput]
    rw [← Nat.add_assoc, inp.take_add (x := inp.total _ + k) (by omega)]

/-- The end of a file that was moved as a whole. -/
theorem Holding.complete (hs : Holding inp s) {o : ℤ}
    (hf : inp.files[(s.process a).file]? = some f)
    (hp : (s.process a).phase = .transfer o f.size)
    (hplaced : Placed inp (s.complete v inp.capacity a f.size))
    (hroom : Room inp (s.complete v inp.capacity a f.size)) :
    Holding inp (s.complete v inp.capacity a f.size) := by
  have hprogress : (s.process a).progress = f.size := by simp only [Process.progress, hp]
  have hcells := hs.cells
  have houtput := hs.output
  have hbuffer : ∀ p, (s.complete v inp.capacity a f.size).buffer.cell inp.capacity p =
      s.buffer.cell inp.capacity p := by
    intro p
    cases a <;> rfl
  refine ⟨hplaced, hroom, ?_, ?_⟩
  · simp only [hbuffer]
    cases a with
    | writer =>
      simp only [hprogress, ← Input.total_succ hf] at hcells
      simpa [State.complete, Side.other, Process.progress] using hcells
    | reader =>
      intro i g d hg hd hi
      simp only [State.complete, Side.other, update_self, Version.post_file, Version.post_progress,
        ne_eq, reduceCtorEq, not_false_eq_true, update_of_ne] at hi ⊢
      exact hcells i g d hg hd (by omega)
  · cases a with
    | writer => simpa [State.complete, Side.other] using houtput
    | reader =>
      rw [hprogress, ← Input.total_succ hf] at houtput
      simpa [State.complete, Side.other, Process.progress] using houtput

/-- A step keeps the invariant, if the files pass. -/
theorem step_holding (hwhole : inp.Whole) (hfit : PositionsFit inp) (hin : Sheltered v inp)
    (hpass : SizesPass inp) (hs : Holding inp s) (h : step v inp l s = some t) :
    Holding inp t := by
  have hapart := (hs.placed.beside_of_sheltered hin).storesApart h
  have hplaced := step_placed hfit hs.placed hapart h
  have hroom : Room inp t := by
    refine step_room hs.placed hs.room (fun _ _ _ _ _ => .inr ?_) h
    exact (hs.room.unread_lt (hpass.2 _ (hs.placed.file_le .writer))).ne
  have hm := step_moves h
  cases hm with
  | block hf hp hw =>
    apply hs.of_update hplaced hroom rfl (fun _ => rfl) rfl rfl
    simp only [Process.progress, hp]
  | grant hf hp hw =>
    apply hs.of_update hplaced hroom rfl (fun _ => rfl) rfl rfl
    rw [progress_grant]
    simp only [Process.progress, hp]
  | wake hf hp hw =>
    apply hs.of_update hplaced hroom rfl (fun _ => rfl) rfl rfl
    simp only [Process.progress, hp]
  | locate hf hp =>
    apply hs.of_update hplaced hroom rfl (fun _ => rfl) rfl rfl
    simp only [Process.progress, hp]
  | @complete a f o hf hp =>
    have hmoved : f.moved a = f.size := by
      obtain ⟨hst, hwr⟩ := hwhole f (List.mem_of_getElem? hf)
      cases a with
      | writer => exact hst
      | reader => exact hwr
    exact hs.complete hf (hmoved ▸ hp) hplaced hroom
  | @copy a f o k c hf hp hc hk =>
    cases a with
    | writer => exact hs.copy_writer hf hp hk hplaced hroom
    | reader => exact hs.copy_reader hin hwhole hf hp hc hk hplaced hroom
  | overwrite hf hp hc hk hq hreach => exact hapart.absurd hp hq hreach
  | spurious hp =>
    apply hs.of_update hplaced hroom rfl (fun _ => rfl) rfl rfl
    simp only [Process.progress, hp]

/-! ## Both versions as a whole -/

theorem correct_of_sizesPass (hwhole : inp.Whole) (hfit : PositionsFit inp)
    (hin : Sheltered v inp) (hpass : SizesPass inp) : Correct v inp := by
  intro s hs hstuck
  have hholding : Holding inp s := by
    refine hs.invariant (fun s h => ?_) fun l s t hs h => step_holding hwhole hfit hin hpass hs h
    rw [show s = initial from h]
    exact initial_holding inp
  obtain ⟨hplaced, hheard, hroom⟩ := reachable_invariants hfit hin hpass hs
  have hfinished := finished_of_blocked hpass hplaced (hplaced.beside_of_sheltered hin) hheard
    hroom hstuck
  refine ⟨hfinished, ?_⟩
  rw [hholding.output, hfinished .reader]
  apply List.take_of_length_le
  rw [inp.length_contents]
  exact Nat.le_add_right _ _

/-- How many steps there can be. -/
theorem work_initial (inp : Input) : work inp initial = 2 * (inp.size + 12 * inp.files.length) := by
  have hsum : ∀ files : List File, (files.map fun f => f.size + 12).sum =
      (files.map File.size).sum + 12 * files.length := by
    intro files
    induction files with
    | nil => rfl
    | cons f files ih =>
      simp only [List.map_cons, List.sum_cons, List.length_cons, ih]
      omega
  simp only [work, weight, initial, Input.remaining, List.drop_zero, hsum, Phase.rank, Input.size,
    Input.total, List.take_length]
  omega

/-- **When pcat works.** Where no store reaches `buffer_t`, a run without returns from a wait that
nobody has caused takes at most two steps for each byte and 24 for each file; and every such run
ends with both sides finished and the concatenation of the files printed exactly when every file
fits into the buffer and no block of consecutive files fills it exactly. -/
theorem pcat_correct_iff (v : Version) (inp : Input) (hwhole : inp.Whole) (hfit : PositionsFit inp)
    (hin : Sheltered v inp) :
    (∀ ls s, (∀ l ∈ ls, l.Own) → (machine v inp).run ls initial = some s →
      ls.length ≤ 2 * (inp.size + 12 * inp.files.length)) ∧
    (Correct v inp ↔ SizesPass inp) := by
  refine ⟨fun ls s hown hrun => ?_, fun h => ?_, correct_of_sizesPass hwhole hfit hin⟩
  · rw [← work_initial]
    exact Machine.length_le_of_run_where (M := machine v inp) (I := Placed inp) (work inp)
      (fun l s t hs hl h => ⟨step_placed hfit hs ((hs.beside_of_sheltered hin).storesApart h) h,
        work_lt hs.transfer hl h⟩) hrun hown (initial_placed inp)
  · by_contra hpass
    obtain ⟨s, hs, hfin, hstuck⟩ := deadlocks_of_not_sizesPass (v := v) hfit hin hpass
    exact hfin (h s hs hstuck).1

/-- Two files of two bytes, in a buffer of three cells and in one of four. -/
def twoPairs (capacity : ℕ) (hpos : 0 < capacity) (hle : capacity ≤ 4096) : Input where
  capacity := capacity
  files := [.uniform 2 pair_lt_max 97, .uniform 2 pair_lt_max 98]
  outside _ := 0
  control := mappings
  pos := hpos
  lt := hle.trans_lt page_lt
  apart := mappings_apart hle

/-- In three cells the second file runs over the end of the storage, and is printed all the same;
four cells are filled exactly. -/
theorem twoPairs_correct : Correct .semaphors (twoPairs 3 (by decide) (by decide)) ∧
    ¬ Correct .monitors (twoPairs 4 (by decide) (by decide)) :=
  ⟨(pcat_correct_iff .semaphors (twoPairs 3 (by decide) (by decide)) (by decide)
      (positionsFit_of_capacity_le (by decide)) (by decide)).2.2 (by decide),
    mt (pcat_correct_iff .monitors (twoPairs 4 (by decide) (by decide)) (by decide)
      (positionsFit_of_capacity_le (by decide)) (by decide)).2.1 (by decide)⟩

end SemOS.Pcat
