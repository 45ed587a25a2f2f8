import Mathlib.Data.Finmap
import Mathlib.Data.Fintype.EquivFin
import Mathlib.Data.Nat.Find

/-!
# Descriptor tables

The descriptor table of a process: finitely many numbers are open, each naming a file. The calls
that a program makes on it are `close`, `dup2` and `pipe`; the last takes the two lowest unused
numbers. What names a file is left to the program.

* `lookup_close`, `lookup_dup2`, `lookup_pipe` say what each call leaves at every number.
* `lowestUnused_eq_iff` characterises the number that the next allocation takes.
* `lowestUnused_put`, `lowestUnused_put_next`: with one of the two lowest unused numbers
  taken, the next allocation takes the other one.
* `close_close_openLowest`: two files opened and closed again leave the table as it was.
-/

namespace SemOS

/-- A descriptor table: the files at the open numbers. -/
abbrev Table (φ : Type*) := Finmap fun _ : ℕ => φ

namespace Table

variable {φ : Type*} (t : Table φ)

theorem exists_unused : ∃ fd, t.lookup fd = none := by
  obtain ⟨fd, hfd⟩ := Infinite.exists_notMem_finset t.keys
  exact ⟨fd, Finmap.lookup_eq_none.2 (mt Finmap.mem_keys.2 hfd)⟩

theorem exists_nextUnused (low : ℕ) : ∃ fd, fd ≠ low ∧ t.lookup fd = none := by
  obtain ⟨fd, hfd⟩ := Infinite.exists_notMem_finset (insert low t.keys)
  rw [Finset.mem_insert, not_or] at hfd
  exact ⟨fd, hfd.1, Finmap.lookup_eq_none.2 (mt Finmap.mem_keys.2 hfd.2)⟩

/-- The lowest number that is not open. -/
def lowestUnused : ℕ := Nat.find t.exists_unused

/-- The second lowest one. -/
def nextUnused : ℕ := Nat.find (t.exists_nextUnused t.lowestUnused)

/-- Open `file` at `fd`, closing what was there. -/
def put (fd : ℕ) (file : φ) : Table φ := t.insert fd file

/-- `close`: a number that is not open stays as it is. -/
def close (fd : ℕ) : Table φ := t.erase fd

/-- `dup2`: `new` names the file of `old`. It fails, and changes nothing, when `old` is not open. -/
def dup2 (old new : ℕ) : Table φ :=
  match t.lookup old with
  | none => t
  | some file => t.put new file

/-- Open `file` at the lowest unused number. -/
def openLowest (file : φ) : ℕ × Table φ := (t.lowestUnused, t.put t.lowestUnused file)

/-- `pipe`: the two ends at the two lowest unused numbers. -/
def pipe (readEnd writeEnd : φ) : (ℕ × ℕ) × Table φ :=
  let (r, t₁) := t.openLowest readEnd
  let (w, t₂) := t₁.openLowest writeEnd
  ((r, w), t₂)

/-- Some number is open and names `file`. -/
def Names (file : φ) : Prop := ∃ fd ∈ t.keys, t.lookup fd = some file

instance [DecidableEq φ] (file : φ) : Decidable (t.Names file) :=
  inferInstanceAs (Decidable (∃ fd ∈ t.keys, t.lookup fd = some file))

variable {t}

/-! ## What the calls leave at every number -/

theorem lookup_put (fd : ℕ) (file : φ) (i : ℕ) :
    (t.put fd file).lookup i = if i = fd then some file else t.lookup i := by
  rw [put]
  split
  · rename_i h
    rw [h, Finmap.lookup_insert]
  · rename_i h
    rw [Finmap.lookup_insert_of_ne _ h]

@[simp] theorem lookup_put_self (fd : ℕ) (file : φ) : (t.put fd file).lookup fd = some file :=
  Finmap.lookup_insert t

theorem lookup_close (fd i : ℕ) : (t.close fd).lookup i = if i = fd then none else t.lookup i := by
  rw [close]
  split
  · rename_i h
    rw [h, Finmap.lookup_erase]
  · rename_i h
    rw [Finmap.lookup_erase_ne h]

theorem lookup_dup2 (old new i : ℕ) :
    (t.dup2 old new).lookup i =
      if i = new then (t.lookup old).or (t.lookup new) else t.lookup i := by
  cases h : t.lookup old with
  | none =>
    rw [dup2, h]
    by_cases hi : i = new
    · rw [if_pos hi, hi, Option.none_or]
    · rw [if_neg hi]
  | some file => rw [dup2, h, lookup_put, Option.some_or]

theorem names_iff {file : φ} : t.Names file ↔ ∃ fd, t.lookup fd = some file := by
  constructor
  · rintro ⟨fd, -, h⟩
    exact ⟨fd, h⟩
  · rintro ⟨fd, h⟩
    exact ⟨fd, Finmap.mem_keys.2 (Finmap.mem_of_lookup_eq_some h), h⟩

theorem Names.of_close {fd : ℕ} {file : φ} (h : (t.close fd).Names file) : t.Names file := by
  obtain ⟨i, hi⟩ := names_iff.1 h
  rw [lookup_close] at hi
  split at hi
  · cases hi
  · exact names_iff.2 ⟨i, hi⟩

theorem Names.of_dup2 {old new : ℕ} {file : φ} (h : (t.dup2 old new).Names file) :
    t.Names file := by
  obtain ⟨i, hi⟩ := names_iff.1 h
  rw [lookup_dup2] at hi
  split at hi
  · rcases Option.or_eq_some_iff.1 hi with hi | ⟨-, hi⟩
    · exact names_iff.2 ⟨old, hi⟩
    · exact names_iff.2 ⟨new, hi⟩
  · exact names_iff.2 ⟨i, hi⟩

theorem Names.of_put {fd : ℕ} {file file' : φ} (h : (t.put fd file').Names file) :
    file = file' ∨ t.Names file := by
  obtain ⟨i, hi⟩ := names_iff.1 h
  rw [lookup_put] at hi
  split at hi
  · exact Or.inl (Option.some.inj hi).symm
  · exact Or.inr (names_iff.2 ⟨i, hi⟩)

theorem names_put_self (fd : ℕ) (file : φ) : (t.put fd file).Names file :=
  names_iff.2 ⟨fd, lookup_put_self fd file⟩

theorem close_eq_self {fd : ℕ} (h : t.lookup fd = none) : t.close fd = t := by
  refine Finmap.ext_lookup fun i => ?_
  rw [lookup_close]
  split
  · rename_i hi
    rw [hi, h]
  · rfl

/-- Closing what was opened at an unused number gives the table back. -/
theorem close_put {fd : ℕ} (h : t.lookup fd = none) (file : φ) :
    (t.put fd file).close fd = t := by
  refine Finmap.ext_lookup fun i => ?_
  rw [lookup_close, lookup_put]
  split
  · rename_i hi
    rw [hi, h]
  · rfl

theorem close_put_of_ne {fd fd' : ℕ} (h : fd ≠ fd') (file : φ) :
    (t.put fd file).close fd' = (t.close fd').put fd file := by
  refine Finmap.ext_lookup fun i => ?_
  rw [lookup_close, lookup_put, lookup_put, lookup_close]
  split <;> split <;> simp_all

theorem close_comm (fd fd' : ℕ) : (t.close fd).close fd' = (t.close fd').close fd :=
  Finmap.erase_erase

/-! ## The numbers that the next allocations take -/

theorem lowestUnused_eq_iff {fd : ℕ} :
    t.lowestUnused = fd ↔ t.lookup fd = none ∧ ∀ i < fd, t.lookup i ≠ none :=
  Nat.find_eq_iff _

@[simp] theorem lookup_lowestUnused (t : Table φ) : t.lookup t.lowestUnused = none :=
  (lowestUnused_eq_iff.1 rfl).1

@[simp] theorem lookup_nextUnused (t : Table φ) : t.lookup t.nextUnused = none :=
  (Nat.find_spec (t.exists_nextUnused t.lowestUnused)).2

theorem nextUnused_ne : t.nextUnused ≠ t.lowestUnused :=
  (Nat.find_spec (t.exists_nextUnused t.lowestUnused)).1

/-- With the lowest unused number taken, the second lowest one is the next. -/
theorem lowestUnused_put (file : φ) :
    (t.put t.lowestUnused file).lowestUnused = t.nextUnused := by
  rw [lowestUnused_eq_iff, lookup_put, if_neg nextUnused_ne]
  refine ⟨t.lookup_nextUnused, fun i hi => ?_⟩
  rw [lookup_put]
  split
  · simp
  · rename_i hne
    exact fun h => Nat.find_min (t.exists_nextUnused t.lowestUnused) hi ⟨hne, h⟩

/-- With the second lowest unused number taken, the lowest one is still the next. -/
theorem lowestUnused_put_next (file : φ) :
    (t.put t.nextUnused file).lowestUnused = t.lowestUnused := by
  rw [lowestUnused_eq_iff, lookup_put, if_neg nextUnused_ne.symm]
  refine ⟨t.lookup_lowestUnused, fun i hi => ?_⟩
  rw [lookup_put]
  split
  · simp
  · exact (lowestUnused_eq_iff.1 rfl).2 i hi

theorem pipe_fst (readEnd writeEnd : φ) :
    (t.pipe readEnd writeEnd).1 = (t.lowestUnused, t.nextUnused) := by
  simp only [pipe, openLowest, lowestUnused_put]

theorem pipe_snd (readEnd writeEnd : φ) :
    (t.pipe readEnd writeEnd).2 =
      (t.put t.lowestUnused readEnd).put t.nextUnused writeEnd := by
  simp only [pipe, openLowest, lowestUnused_put]

/-- Two files are opened and closed again, the first one first. -/
theorem close_close_openLowest (file file' : φ) :
    ((((t.openLowest file).2.openLowest file').2.close t.lowestUnused).close
      (t.openLowest file).2.lowestUnused) = t := by
  simp only [openLowest, lowestUnused_put]
  rw [close_put_of_ne nextUnused_ne, close_put (lookup_lowestUnused t),
    close_put (lookup_nextUnused t)]

/-- An open file is not there before it is opened. -/
theorem openLowest_ne (file : φ) : (t.openLowest file).2 ≠ t := by
  intro h
  have hlookup := lookup_put_self (t := t) t.lowestUnused file
  rw [show t.put t.lowestUnused file = t from h, lookup_lowestUnused] at hlookup
  cases hlookup

/-- What `pipe` leaves at every number. -/
theorem lookup_pipe (readEnd writeEnd : φ) (i : ℕ) :
    (t.pipe readEnd writeEnd).2.lookup i =
      if i = t.nextUnused then some writeEnd
      else if i = t.lowestUnused then some readEnd else t.lookup i := by
  rw [pipe_snd, lookup_put, lookup_put]

theorem lookup_pipe_fst (readEnd writeEnd : φ) :
    (t.pipe readEnd writeEnd).2.lookup (t.pipe readEnd writeEnd).1.1 = some readEnd := by
  rw [lookup_pipe, pipe_fst, if_neg nextUnused_ne.symm, if_pos rfl]

theorem lookup_pipe_snd (readEnd writeEnd : φ) :
    (t.pipe readEnd writeEnd).2.lookup (t.pipe readEnd writeEnd).1.2 = some writeEnd := by
  rw [lookup_pipe, pipe_fst, if_pos rfl]

/-- The numbers of a pipe were not open before it. -/
theorem pipe_unused (readEnd writeEnd : φ) :
    t.lookup (t.pipe readEnd writeEnd).1.1 = none ∧
      t.lookup (t.pipe readEnd writeEnd).1.2 = none := by
  rw [pipe_fst]
  exact ⟨t.lookup_lowestUnused, t.lookup_nextUnused⟩

/-- What was open stays as it was. -/
theorem lookup_pipe_of_open {i : ℕ} {file : φ} (h : t.lookup i = some file)
    (readEnd writeEnd : φ) : (t.pipe readEnd writeEnd).2.lookup i = some file := by
  have hne : ∀ {j}, t.lookup j = none → i ≠ j := by
    rintro j hj rfl
    rw [hj] at h
    cases h
  rw [lookup_pipe, if_neg (hne t.lookup_nextUnused), if_neg (hne t.lookup_lowestUnused), h]

/-- Nothing else is opened. -/
theorem lookup_pipe_of_ne {i : ℕ} {readEnd writeEnd : φ}
    (hr : i ≠ (t.pipe readEnd writeEnd).1.1) (hw : i ≠ (t.pipe readEnd writeEnd).1.2) :
    (t.pipe readEnd writeEnd).2.lookup i = t.lookup i := by
  rw [pipe_fst] at hr hw
  rw [lookup_pipe, if_neg hw, if_neg hr]

end Table

end SemOS
