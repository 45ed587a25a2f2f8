import Mathlib.Algebra.BigOperators.Group.List.Basic
import Mathlib.Algebra.Order.BigOperators.Group.List
import SemOS.Pcat.Transfer

/-!
# Where the two sides of pcat stand

`total i` is the number of bytes of the first `i` files. The writer has published
`total` of its file index, the reader has retired `total` of its own.

* `Located`: what a side moves lies where its position is (`step_located`).
* `Placed`: `start` and `end` are the cells of these two totals, and the reader is never granted a
  byte that is not published. It is kept by every step (`step_placed`) where all totals have cells
  that are representable as an `int` (`PositionsFit`).
* `Room`: the writer is never granted more than the ring holds. It is kept by every step but a grant
  while the ring is exactly full (`step_room`).
* `Sheltered`: no file reaches `buffer_t`; then `Placed` says that no step does
  (`Placed.beside_of_sheltered`).
-/

namespace SemOS.Pcat

open Function

/-! ## Totals -/

/-- The bytes of the first `i` files. -/
def Input.total (inp : Input) (i : ℕ) : ℕ := ((inp.files.take i).map File.size).sum

variable {v : Version} {inp : Input} {s t : State} {l : Move} {a : Side} {i j : ℕ} {f : File}

@[simp] theorem Input.total_zero (inp : Input) : inp.total 0 = 0 := rfl

theorem Input.total_succ (hf : inp.files[i]? = some f) :
    inp.total (i + 1) = inp.total i + f.size := by
  unfold Input.total
  rw [List.take_add_one, hf]
  simp

theorem Input.total_mono (inp : Input) (h : i ≤ j) : inp.total i ≤ inp.total j := by
  obtain ⟨d, rfl⟩ := Nat.exists_eq_add_of_le h
  unfold Input.total
  rw [List.take_add, List.map_append, List.sum_append]
  exact Nat.le_add_right _ _

/-- A file index is below another one where its file ends below the other's start. -/
theorem Input.lt_of_total_lt (inp : Input) (h : inp.total i < inp.total j) : i < j := by
  by_contra hij
  exact absurd (inp.total_mono (not_lt.1 hij)) (not_le.2 h)

theorem lt_length_of_file (hf : inp.files[i]? = some f) : i < inp.files.length :=
  (List.getElem?_eq_some_iff.1 hf).1

/-- The cell of every total is representable as an `int`. -/
def PositionsFit (inp : Input) : Prop :=
  ∀ i ≤ inp.files.length, inp.total i % inp.capacity < 2 ^ 31

/-- The same for the total of the first `i` files. -/
def Input.Fits (inp : Input) (i : ℕ) : Prop := inp.total i % inp.capacity < 2 ^ 31

theorem positionsFit_of_capacity_le (h : inp.capacity ≤ 2 ^ 31) : PositionsFit inp :=
  fun _ _ => (Nat.mod_lt _ inp.pos).trans_le h

/-! ## Files granted -/

/-- How many files a side has been granted. -/
def Process.claimed (k : Process) : ℕ :=
  match k.phase with
  | .checking | .waiting => k.file
  | .granted | .transfer _ _ => k.file + 1

@[simp] theorem Version.post_file (v : Version) (k : Process) : (v.post k).file = k.file := by
  cases v with
  | semaphors => rfl
  | monitors => simp only [Version.post]; split <;> rfl

@[simp] theorem Version.post_phase (v : Version) (k : Process) : (v.post k).phase = k.phase := by
  cases v with
  | semaphors => rfl
  | monitors => simp only [Version.post]; split <;> rfl

@[simp] theorem Version.post_claimed (v : Version) (k : Process) :
    (v.post k).claimed = k.claimed := by
  simp only [Process.claimed, Version.post_phase, Version.post_file]

theorem Version.post_wakeups_pos (v : Version) {k : Process} (h : k.phase = .waiting) :
    0 < (v.post k).wakeups := by
  cases v with
  | semaphors => exact Nat.succ_pos _
  | monitors => simp [Version.post, h]

theorem Version.post_wakeups_le (v : Version) (k : Process) :
    (v.post k).wakeups ≤ k.wakeups + 1 := by
  cases v with
  | semaphors => exact le_refl _
  | monitors => simp only [Version.post]; split <;> simp

/-- With either version the region is claimed from the grant on. -/
@[simp] theorem claimed_grant (v : Version) (o : ℤ) (i w : ℕ) :
    (Process.mk i (v.grant o) w).claimed = i + 1 := by
  cases v <;> rfl

theorem Process.file_le_claimed (k : Process) : k.file ≤ k.claimed := by
  unfold Process.claimed
  split <;> omega

theorem claimed_of_transfer {k : Process} {o : ℤ} {c : ℕ} (h : k.phase = .transfer o c) :
    k.claimed = k.file + 1 := by
  simp only [Process.claimed, h]

/-- What a step of `a` leaves of its own process, it leaves of every process. -/
theorem process_eq_of_update {β : Type} (g : Process → β) {k : Process}
    (ht : t.process = update s.process a k) (hk : g k = g (s.process a)) (b : Side) :
    g (t.process b) = g (s.process b) := by
  rw [ht]
  by_cases hb : b = a
  · subst hb
    rw [update_self, hk]
  · rw [update_of_ne hb]

/-- Going to another phase within the file. -/
theorem goto_claimed (s : State) (a b : Side) {p : Phase}
    (h : (Process.mk (s.process a).file p (s.process a).wakeups).claimed = (s.process a).claimed) :
    ((s.goto a p).process b).claimed = (s.process b).claimed :=
  process_eq_of_update Process.claimed rfl h b

/-- A file is claimed by a grant only. -/
theorem step_claimed (h : step v inp l s = some t) (b : Side) :
    (t.process b).claimed = (s.process b).claimed ∨
      (l = .run b ∧ (s.process b).phase = .checking ∧ ∃ f,
        inp.files[(s.process b).file]? = some f ∧ waits inp.capacity f.size s.buffer b = false ∧
          (t.process b).claimed = (s.process b).file + 1) := by
  have hm := step_moves h
  cases hm with
  | block hf hp hw => exact .inl (goto_claimed _ _ _ (by simp only [Process.claimed, hp]))
  | @grant a f hf hp hw =>
    by_cases hb : b = a
    · subst hb
      refine .inr ⟨rfl, hp, f, hf, hw, ?_⟩
      simp only [State.goto, update_self, claimed_grant]
    · left
      simp only [State.goto, update_of_ne hb]
  | wake hf hp hw =>
    left
    apply process_eq_of_update Process.claimed rfl
    simp only [Process.claimed, hp]
  | locate hf hp => exact .inl (goto_claimed _ _ _ (by simp only [Process.claimed, hp]))
  | @complete a f o hf hp =>
    left
    cases a <;> cases b <;> simp [State.complete, Side.other, Process.claimed, hp]
  | @copy a f o k c hf hp hc hk =>
    have := claimed_of_transfer hp
    left
    cases a with
    | writer => exact goto_claimed s .writer b this.symm
    | reader => exact goto_claimed s .reader b this.symm
  | overwrite hf hp hc hk hq hreach =>
    exact .inl (goto_claimed s .writer b (claimed_of_transfer hp).symm)
  | spurious hp => exact .inl (goto_claimed _ _ _ (by simp only [Process.claimed, hp]))

/-- The end of a file moves its own side on. -/
@[simp] theorem complete_file (s : State) (C n : ℕ) :
    ((s.complete v C a n).process a).file = (s.process a).file + 1 := by
  cases a <;> simp [State.complete, Side.other]

/-- The end of a file leaves the file of the other side. -/
theorem complete_file_other (s : State) (C n : ℕ) {b : Side} (hb : b ≠ a) :
    ((s.complete v C a n).process b).file = (s.process b).file := by
  cases a <;> cases b <;> simp [State.complete, Side.other] at hb ⊢

/-- A side is through with a file only at the end of its transfer. -/
theorem step_file (h : step v inp l s = some t) (b : Side) :
    (t.process b).file = (s.process b).file ∨ ∃ f o, l = .run b ∧
      inp.files[(s.process b).file]? = some f ∧ (s.process b).phase = .transfer o (f.moved b) ∧
        t = s.complete v inp.capacity b f.size := by
  have hkeep : ∀ {u : State} {a k}, u.process = update s.process a k →
      k.file = (s.process a).file → (u.process b).file = (s.process b).file :=
    fun hu hk => process_eq_of_update Process.file hu hk b
  have hm := step_moves h
  cases hm with
  | block hf hp hw => exact .inl (hkeep rfl rfl)
  | grant hf hp hw => exact .inl (hkeep rfl rfl)
  | wake hf hp hw => exact .inl (hkeep rfl rfl)
  | locate hf hp => exact .inl (hkeep rfl rfl)
  | @complete a f o hf hp =>
    by_cases hb : b = a
    · subst hb
      exact .inr ⟨f, o, rfl, hf, hp, rfl⟩
    · exact .inl (complete_file_other s _ _ hb)
  | @copy a f o k c hf hp hc hk =>
    cases a with
    | writer => exact .inl (hkeep rfl rfl)
    | reader => exact .inl (hkeep rfl rfl)
  | overwrite hf hp hc hk hq hreach => exact .inl (hkeep rfl rfl)
  | spurious hp => exact .inl (hkeep rfl rfl)

/-- No side goes back to an earlier file. -/
theorem step_file_le (h : step v inp l s = some t) (b : Side) :
    (s.process b).file ≤ (t.process b).file := by
  obtain hsame | ⟨f, o, -, -, -, rfl⟩ := step_file h b
  · exact hsame.ge
  · rw [complete_file]
    exact Nat.le_succ _

/-! ## Regions -/

/-- A side moves its bytes where its position is, and no more than the file has. -/
def Located (inp : Input) (s : State) : Prop :=
  ∀ a f o k, inp.files[(s.process a).file]? = some f → (s.process a).phase = .transfer o k →
    o = s.buffer.offset a ∧ k ≤ f.moved a

theorem initial_located (inp : Input) : Located inp initial := fun _ _ _ _ _ h => by cases h

/-- The lock section of one side leaves the position of the other. -/
theorem shift_offset_other (C n : ℕ) (b : Buffer) (a : Side) :
    (shift C n b a).offset a.other = b.offset a.other := by
  cases a <;> rfl

/-- A step within the file of one side that leaves the positions. -/
theorem Located.of_update (hs : Located inp s) {k : Process} (ht : t.process = update s.process a k)
    (hoff : ∀ b, t.buffer.offset b = s.buffer.offset b) (hfile : k.file = (s.process a).file)
    (hk : ∀ f o c, inp.files[(s.process a).file]? = some f → k.phase = .transfer o c →
      o = s.buffer.offset a ∧ c ≤ f.moved a) : Located inp t := by
  intro b f o c hf hp
  rw [hoff]
  rw [ht] at hf hp
  by_cases hb : b = a
  · subst hb
    rw [update_self] at hf hp
    rw [hfile] at hf
    exact hk f o c hf hp
  · rw [update_of_ne hb] at hf hp
    exact hs b f o c hf hp

/-- **A region is used where it was granted**: only its own side moves a position. -/
theorem step_located (hs : Located inp s) (hl : StoresApart v inp l s)
    (h : step v inp l s = some t) : Located inp t := by
  have hm := step_moves h
  cases hm with
  | block hf hp hw => exact hs.of_update rfl (fun _ => rfl) rfl fun _ _ _ _ h => by cases h
  | grant hf hp hw =>
    refine hs.of_update rfl (fun _ => rfl) rfl fun _ _ _ _ h => ?_
    cases v with
    | semaphors =>
      cases h
      exact ⟨rfl, Nat.zero_le _⟩
    | monitors => cases h
  | wake hf hp hw => exact hs.of_update rfl (fun _ => rfl) rfl fun _ _ _ _ h => by cases h
  | locate hf hp =>
    refine hs.of_update rfl (fun _ => rfl) rfl fun _ _ _ _ h => ?_
    cases h
    exact ⟨rfl, Nat.zero_le _⟩
  | @complete a f o hf hp =>
    intro b g o' k hg hp'
    by_cases hb : b = a.other
    · subst hb
      simp only [State.complete, update_self, Version.post_file, Version.post_phase] at hg hp'
      obtain ⟨ho, hk⟩ := hs a.other g o' k hg hp'
      exact ⟨ho.trans (shift_offset_other ..).symm, hk⟩
    · obtain rfl : b = a := by
        cases a <;> cases b <;> simp_all [Side.other]
      simp only [State.complete, update_of_ne hb, update_self] at hp'
      cases hp'
  | @copy a f o k c hf hp hc hk =>
    have htr : ∀ g o' c', inp.files[(s.process a).file]? = some g →
        Phase.transfer o (k + c) = .transfer o' c' → o' = s.buffer.offset a ∧ c' ≤ g.moved a := by
      intro g o' c' hg he
      cases he
      obtain rfl : f = g := Option.some.inj (hf.symm.trans hg)
      exact ⟨(hs a f o k hf hp).1, hk⟩
    cases a with
    | writer => exact hs.of_update rfl (fun b => by cases b <;> rfl) rfl htr
    | reader => exact hs.of_update rfl (fun _ => rfl) rfl htr
  | overwrite hf hp hc hk hq hreach => exact hl.absurd hp hq hreach
  | spurious hp => exact hs.of_update rfl (fun _ => rfl) rfl fun _ _ _ _ h => by cases h

/-! ## Positions -/

/-- The writer has been granted only files that fit into the buffer. -/
def Small (inp : Input) (s : State) : Prop :=
  ∀ i < (s.process .writer).claimed, ∀ f, inp.files[i]? = some f → f.size ≤ inp.capacity

/-- The positions and the size are what the file indices of the two sides say. -/
structure Placed (inp : Input) (s : State) : Prop where
  cells : s.buffer.At inp.capacity (inp.total (s.process .reader).file)
    (inp.total (s.process .writer).file)
  behind : inp.total (s.process .reader).claimed ≤ inp.total (s.process .writer).file
  bound : ∀ a, (s.process a).claimed ≤ inp.files.length
  small : Small inp s
  transfer : ∀ a f o k, inp.files[(s.process a).file]? = some f →
    (s.process a).phase = .transfer o k → o = s.buffer.offset a ∧ k ≤ f.moved a

theorem Placed.file_le (hs : Placed inp s) (a : Side) : (s.process a).file ≤ inp.files.length :=
  (s.process a).file_le_claimed.trans (hs.bound a)

theorem Placed.retired_le (hs : Placed inp s) :
    inp.total (s.process .reader).file ≤ inp.total (s.process .writer).file :=
  (inp.total_mono (s.process .reader).file_le_claimed).trans hs.behind

/-- The size recorded in the buffer. -/
theorem Placed.size_eq (hs : Placed inp s) : s.buffer.size =
    (inp.total (s.process .writer).file - inp.total (s.process .reader).file) % inp.capacity :=
  hs.cells.size

/-- What the reader waits for. -/
theorem Placed.waits_reader (hs : Placed inp s) {n : ℕ} :
    waits inp.capacity n s.buffer .reader = true ↔
      (inp.total (s.process .writer).file - inp.total (s.process .reader).file) %
        inp.capacity < n := by
  simp only [waits, decide_eq_true_eq, hs.size_eq]

/-- What the writer waits for. -/
theorem Placed.waits_writer (hs : Placed inp s) {n : ℕ} :
    waits inp.capacity n s.buffer .writer = true ↔
      inp.capacity - (inp.total (s.process .writer).file - inp.total (s.process .reader).file) %
        inp.capacity < n := by
  simp only [waits, decide_eq_true_eq, hs.cells.room inp.pos inp.lt]

theorem initial_placed (inp : Input) : Placed inp initial where
  cells := Buffer.At.empty _
  behind := le_refl _
  bound _ := Nat.zero_le _
  small _ hi := absurd hi (Nat.not_lt_zero _)
  transfer := initial_located inp

/-- A step that moves one side within its file and leaves the positions. -/
theorem Placed.of_update (hs : Placed inp s) (hsmall : Small inp t) (ht : Located inp t)
    {k : Process}
    (hk : t.process = update s.process a k) (hstart : t.buffer.start = s.buffer.start)
    (hend : t.buffer.end_ = s.buffer.end_) (hsize : t.buffer.size = s.buffer.size)
    (hfile : k.file = (s.process a).file)
    (hbehind : a = .reader → inp.total k.claimed ≤ inp.total (s.process .writer).file)
    (hbound : k.claimed ≤ inp.files.length) : Placed inp t := by
  have hfiles := process_eq_of_update Process.file hk hfile
  refine ⟨?_, ?_, fun b => ?_, hsmall, ht⟩
  · simp only [hfiles]
    exact ⟨hstart.trans hs.cells.start, hend.trans hs.cells.end_, hsize.trans hs.cells.size⟩
  · rw [hfiles, hk]
    by_cases hb : Side.reader = a
    · subst hb
      rw [update_self]
      exact hbehind rfl
    · rw [update_of_ne hb]
      exact hs.behind
  · rw [hk]
    by_cases hb : b = a
    · subst hb
      rwa [update_self]
    · rw [update_of_ne hb]
      exact hs.bound b

/-- The end of a file: its side moves on by the size of the file. -/
theorem Placed.complete (hs : Placed inp s) (hx : inp.Fits (s.process .reader).file)
    (hy : inp.Fits (s.process .writer).file) (hnew : inp.Fits ((s.process a).file + 1))
    (hsmall : Small inp (s.complete v inp.capacity a f.size))
    (ht : Located inp (s.complete v inp.capacity a f.size))
    (hf : inp.files[(s.process a).file]? = some f)
    (hclaimed : (s.process a).claimed = (s.process a).file + 1) :
    Placed inp (s.complete v inp.capacity a f.size) := by
  unfold Input.Fits at hx hy hnew
  rw [Input.total_succ hf] at hnew
  have hbehind := hs.behind
  cases a with
  | writer =>
    refine ⟨?_, ?_, fun b => ?_, hsmall, ht⟩
    · have := hs.cells.publish inp.pos inp.lt hs.retired_le f.size_lt hx hy hnew
      simpa [State.complete, Side.other, shift, Input.total_succ hf] using this
    · simp only [State.complete, Side.other, update_self, Version.post_claimed, ne_eq, reduceCtorEq,
        not_false_eq_true, update_of_ne, Input.total_succ hf]
      omega
    · cases b with
      | writer => exact lt_length_of_file hf
      | reader => simpa [State.complete, Side.other] using hs.bound .reader
  | reader =>
    rw [hclaimed, Input.total_succ hf] at hbehind
    refine ⟨?_, ?_, fun b => ?_, hsmall, ht⟩
    · have := hs.cells.retire inp.pos inp.lt hbehind f.size_lt hx hy hnew
      simpa [State.complete, Side.other, shift, Input.total_succ hf] using this
    · simp only [State.complete, Side.other, update_self, Version.post_file, ne_eq, reduceCtorEq,
        not_false_eq_true, update_of_ne, Process.claimed, Input.total_succ hf]
      exact hbehind
    · cases b with
      | writer => simpa [State.complete, Side.other] using hs.bound .writer
      | reader => exact lt_length_of_file hf

/-- A granted read asks for published bytes. -/
theorem Placed.total_succ_le (hs : Placed inp s)
    (hf : inp.files[(s.process .reader).file]? = some f)
    (hw : waits inp.capacity f.size s.buffer .reader = false) :
    inp.total ((s.process .reader).file + 1) ≤ inp.total (s.process .writer).file := by
  have hle := hs.retired_le
  have hn := mt hs.waits_reader.2 (Bool.eq_false_iff.1 hw)
  have hmod := Nat.mod_le
    (inp.total (s.process .writer).file - inp.total (s.process .reader).file) inp.capacity
  rw [Input.total_succ hf]
  omega

/-- A file larger than the buffer is not granted. -/
theorem Placed.step_small (hs : Placed inp s) (h : step v inp l s = some t) : Small inp t := by
  obtain hsame | ⟨-, -, f, hf, hw, hnew⟩ := step_claimed h .writer
  · rw [Small, hsame]
    exact hs.small
  · have hn := mt hs.waits_writer.2 (Bool.eq_false_iff.1 hw)
    intro i hi g hg
    rw [hnew] at hi
    obtain hlt | rfl := Nat.lt_succ_iff_lt_or_eq.1 hi
    · exact hs.small i (hlt.trans_le (s.process .writer).file_le_claimed) g hg
    · obtain rfl : f = g := Option.some.inj (hf.symm.trans hg)
      omega

/-- **A step keeps the positions**, if they fit before it and what it shifts to fits, too. -/
theorem step_placed_of_fits (hx : inp.Fits (s.process .reader).file)
    (hy : inp.Fits (s.process .writer).file)
    (hnew : ∀ a f o, l = .run a → inp.files[(s.process a).file]? = some f →
      (s.process a).phase = .transfer o (f.moved a) → inp.Fits ((s.process a).file + 1))
    (hs : Placed inp s) (hl : StoresApart v inp l s) (h : step v inp l s = some t) :
    Placed inp t := by
  have hsmall := hs.step_small h
  have ht := step_located hs.transfer hl h
  have hm := step_moves h
  cases hm with
  | @block a f hf hp hw =>
    refine hs.of_update hsmall ht rfl rfl rfl rfl rfl ?_ (hs.file_le a)
    rintro rfl
    exact hs.retired_le
  | @grant a f hf hp hw =>
    refine hs.of_update hsmall ht rfl rfl rfl rfl rfl ?_ ?_
    · rintro rfl
      rw [claimed_grant]
      exact hs.total_succ_le hf hw
    · rw [claimed_grant]
      exact lt_length_of_file hf
  | @wake a f hf hp hw =>
    refine hs.of_update hsmall ht rfl rfl rfl rfl rfl ?_ (hs.file_le a)
    rintro rfl
    exact hs.retired_le
  | @locate a f hf hp =>
    have hclaimed : (s.process a).claimed = (s.process a).file + 1 := by
      simp only [Process.claimed, hp]
    refine hs.of_update hsmall ht rfl rfl rfl rfl rfl ?_ (lt_length_of_file hf)
    rintro rfl
    have := hs.behind
    rwa [hclaimed] at this
  | @complete a f o hf hp =>
    exact hs.complete hx hy (hnew a f o rfl hf hp) hsmall ht hf (claimed_of_transfer hp)
  | @copy a f o k c hf hp hc hk =>
    have hclaimed := claimed_of_transfer hp
    cases a with
    | writer =>
      exact hs.of_update hsmall ht rfl rfl rfl rfl rfl (fun h => by cases h) (lt_length_of_file hf)
    | reader =>
      refine hs.of_update hsmall ht rfl rfl rfl rfl rfl (fun _ => ?_) (lt_length_of_file hf)
      have := hs.behind
      rwa [hclaimed] at this
  | overwrite hf hp hc hk hq hreach => exact hl.absurd hp hq hreach
  | @spurious a hp =>
    refine hs.of_update hsmall ht rfl rfl rfl rfl rfl ?_ (hs.file_le a)
    rintro rfl
    exact hs.retired_le

/-- **Every step keeps the positions.** -/
theorem step_placed (hfit : PositionsFit inp) (hs : Placed inp s) (hl : StoresApart v inp l s)
    (h : step v inp l s = some t) : Placed inp t :=
  step_placed_of_fits (hfit _ (hs.file_le .reader)) (hfit _ (hs.file_le .writer))
    (fun _ _ _ _ hf _ => hfit _ (lt_length_of_file hf)) hs hl h

/-- No file that fits into the buffer reaches `buffer_t`, which is behind the storage. -/
def Sheltered (v : Version) (inp : Input) : Prop :=
  ∀ q ∈ inp.control v, 0 ≤ q → ∀ i < inp.files.length, ∀ f ∈ inp.files[i]?,
    f.size ≤ inp.capacity → ((inp.total i % inp.capacity : ℕ) : ℤ) + f.stored ≤ q

instance (v : Version) (inp : Input) : Decidable (Sheltered v inp) :=
  inferInstanceAs (Decidable (∀ q ∈ inp.control v, 0 ≤ q → ∀ i < inp.files.length,
    ∀ f ∈ inp.files[i]?, f.size ≤ inp.capacity →
      ((inp.total i % inp.capacity : ℕ) : ℤ) + f.stored ≤ q))

/-- What the writer stores lies from the cell of its total on. -/
theorem Placed.beside (hs : Placed inp s) (h : ∀ q ∈ inp.control v, 0 ≤ q → ∀ f,
      inp.files[(s.process .writer).file]? = some f → f.size ≤ inp.capacity →
        (s.process .writer).claimed = (s.process .writer).file + 1 →
          ((inp.total (s.process .writer).file % inp.capacity : ℕ) : ℤ) + f.stored ≤ q) :
    Beside v inp s := by
  intro f o k hf hp q hq
  have hclaimed := claimed_of_transfer hp
  have hstart : o = (inp.total (s.process .writer).file % inp.capacity : ℕ) :=
    (hs.transfer .writer f o k hf hp).1.trans hs.cells.end_
  rw [hstart]
  obtain hbehind | hbefore := inp.apart v q hq
  · exact .inl (h q hq (by omega) f hf (hs.small _ (by omega) f hf) hclaimed)
  · exact .inr (by omega)

theorem Placed.beside_of_sheltered (hin : Sheltered v inp) (hs : Placed inp s) : Beside v inp s :=
  hs.beside fun q hq h0 _ hf hsize _ => hin q hq h0 _ (lt_length_of_file hf) _ hf hsize

/-! ## Room -/

/-- What the writer has been granted fits beside what the reader has not retired. -/
def Room (inp : Input) (s : State) : Prop :=
  inp.total (s.process .writer).claimed ≤ inp.total (s.process .reader).file + inp.capacity

theorem initial_room (inp : Input) : Room inp initial := Nat.zero_le _

/-- A granted write fits beside the unread bytes, if the buffer is not exactly full. -/
theorem Room.total_succ_le (hroom : Room inp s) (hs : Placed inp s)
    (hf : inp.files[(s.process .writer).file]? = some f)
    (hw : waits inp.capacity f.size s.buffer .writer = false)
    (hfull : f.size = 0 ∨ inp.total (s.process .writer).file ≠
      inp.total (s.process .reader).file + inp.capacity) :
    inp.total ((s.process .writer).file + 1) ≤
      inp.total (s.process .reader).file + inp.capacity := by
  have hle := hs.retired_le
  have hclaim := (inp.total_mono (s.process .writer).file_le_claimed).trans hroom
  have hn := mt hs.waits_writer.2 (Bool.eq_false_iff.1 hw)
  rw [Input.total_succ hf]
  rcases hfull with h0 | hne
  · omega
  · rw [Nat.mod_eq_of_lt (by omega)] at hn
    omega

/-- The room is kept, unless something is granted while the buffer is exactly full. -/
theorem step_room (hs : Placed inp s) (hroom : Room inp s)
    (hfull : l = .run .writer → ∀ f, inp.files[(s.process .writer).file]? = some f →
      (s.process .writer).phase = .checking → waits inp.capacity f.size s.buffer .writer = false →
      f.size = 0 ∨ inp.total (s.process .writer).file ≠
        inp.total (s.process .reader).file + inp.capacity)
    (h : step v inp l s = some t) : Room inp t := by
  have hreader := inp.total_mono (step_file_le h .reader)
  unfold Room at hroom ⊢
  obtain hsame | ⟨hl, hp, f, hf, hw, hnew⟩ := step_claimed h .writer
  · rw [hsame]
    omega
  · have := Room.total_succ_le hroom hs hf hw (hfull hl f hf hp hw)
    rw [hnew]
    omega

end SemOS.Pcat
