import Mathlib.Data.Nat.Notation
import Mathlib.Logic.Basic
import Mathlib.Logic.Function.Basic

/-!
# A file system with links

A path names a place, an entry in some directory; different paths may name one place. A place holds
a file, a directory or a symbolic link to a path, and two places may hold one file. What a file
contains is a list.

* `resolve` follows symbolic links, no more than a given number of them; `fileAt` is the file that
  a path leads to.
* `openRead` and `openWrite` are `open` for reading and for writing. `openWrite_cases`: the file
  opened for writing is the one that the path leads to, or a new one.
* `write` stores into a file at an offset.
-/

namespace SemOS

/-- What a place holds. -/
inductive Entry (Path : Type*)
  | file (id : ℕ)
  | directory
  | link (target : Path)

/-- What paths lead to, and what the files contain. The files from `next` on do not exist. -/
structure FileSystem (Path Place α : Type*) where
  place : Path → Option Place
  entry : Place → Option (Entry Path)
  contents : ℕ → List α
  next : ℕ
  unused : ∀ p id, entry p = some (.file id) → id < next

/-- What a descriptor for reading refers to. -/
inductive Opened
  | file (id : ℕ)
  | directory
  deriving DecidableEq

/-- The flags of `open` for writing. -/
structure OpenFlags where
  create : Bool
  exclusive : Bool
  truncate : Bool

namespace FileSystem

open Function

variable {Path Place α : Type*} {fs fs' : FileSystem Path Place α} {limit id dest : ℕ}
  {path : Path} {flags : OpenFlags}

/-! ## Following links -/

/-- The place that a path leads to through at most `limit` links. -/
def resolve (fs : FileSystem Path Place α) : ℕ → Path → Option Place
  | 0, path =>
    (fs.place path).bind fun p =>
      match fs.entry p with
      | some (.link _) => none
      | _ => some p
  | limit + 1, path =>
    (fs.place path).bind fun p =>
      match fs.entry p with
      | some (.link target) => fs.resolve limit target
      | _ => some p

/-- The file that a path leads to. -/
def fileAt (fs : FileSystem Path Place α) (limit : ℕ) (path : Path) : Option ℕ :=
  (fs.resolve limit path).bind fun p =>
    match fs.entry p with
    | some (.file id) => some id
    | _ => none

/-- `open` for reading. -/
def openRead (fs : FileSystem Path Place α) (limit : ℕ) (path : Path) : Option Opened :=
  (fs.resolve limit path).bind fun p =>
    match fs.entry p with
    | some (.file id) => some (.file id)
    | some .directory => some .directory
    | _ => none

theorem fileAt_lt (h : fs.fileAt limit path = some id) : id < fs.next := by
  obtain ⟨p, -, h⟩ := Option.bind_eq_some_iff.1 h
  split at h
  · rename_i hp
    cases h
    exact fs.unused p id hp
  · cases h

/-- What is opened for reading is the file that the path leads to. -/
theorem openRead_of_fileAt (h : fs.fileAt limit path = some id) :
    fs.openRead limit path = some (.file id) := by
  obtain ⟨p, hp, h⟩ := Option.bind_eq_some_iff.1 h
  rw [openRead, hp, Option.bind_some]
  split at h
  · rename_i he
    cases h
    rw [he]
  · cases h

/-- At a place that holds nothing there is no link to follow. -/
theorem resolve_of_empty {p : Place} (hp : fs.place path = some p) (he : fs.entry p = none) :
    fs.resolve limit path = some p := by
  cases limit with
  | zero => rw [resolve, hp, Option.bind_some, he]
  | succ limit => rw [resolve, hp, Option.bind_some, he]

theorem fileAt_of_empty {p : Place} (hp : fs.resolve limit path = some p)
    (he : fs.entry p = none) : fs.fileAt limit path = none := by
  rw [fileAt, hp, Option.bind_some, he]

/-! ## Contents -/

/-- The contents of one file are replaced. -/
def put (fs : FileSystem Path Place α) (id : ℕ) (l : List α) : FileSystem Path Place α :=
  { fs with contents := update fs.contents id l }

/-- `write` at an offset that is not behind the end. -/
def write (fs : FileSystem Path Place α) (id offset : ℕ) (l : List α) : FileSystem Path Place α :=
  fs.put id ((fs.contents id).take offset ++ l ++ (fs.contents id).drop (offset + l.length))

@[simp] theorem put_self (fs : FileSystem Path Place α) (id : ℕ) (l : List α) :
    (fs.put id l).contents id = l := update_self ..

theorem put_of_ne {other : ℕ} (h : other ≠ id) (l : List α) :
    (fs.put id l).contents other = fs.contents other := update_of_ne h ..

theorem write_of_ne {other : ℕ} (h : other ≠ id) (offset : ℕ) (l : List α) :
    (fs.write id offset l).contents other = fs.contents other := put_of_ne h _

/-- A write at the end of a file. -/
theorem write_append {offset : ℕ} (h : (fs.contents id).length = offset) (l : List α) :
    (fs.write id offset l).contents id = fs.contents id ++ l := by
  rw [write, put_self, ← h, List.take_length, List.drop_eq_nil_of_le (Nat.le_add_right _ _),
    List.append_nil]

/-! ## Opening for writing -/

variable [DecidableEq Place]

/-- A new file at a place. -/
def create (fs : FileSystem Path Place α) (p : Place) : FileSystem Path Place α where
  place := fs.place
  entry := update fs.entry p (some (.file fs.next))
  contents := update fs.contents fs.next []
  next := fs.next + 1
  unused q id h := by
    by_cases hq : q = p
    · rw [hq, update_self] at h
      cases h
      exact Nat.lt_succ_self _
    · rw [update_of_ne hq] at h
      exact Nat.lt_succ_of_lt (fs.unused q id h)

/-- `open` for writing. With `exclusive` nothing may exist under the path, not even a link. -/
def openWrite (fs : FileSystem Path Place α) (limit : ℕ) (flags : OpenFlags) (path : Path) :
    Option (ℕ × FileSystem Path Place α) :=
  if flags.create ∧ flags.exclusive then
    (fs.place path).bind fun p =>
      match fs.entry p with
      | none => some (fs.next, fs.create p)
      | some _ => none
  else
    (fs.resolve limit path).bind fun p =>
      match fs.entry p with
      | some (.file id) => some (id, if flags.truncate then fs.put id [] else fs)
      | none => if flags.create then some (fs.next, fs.create p) else none
      | _ => none

theorem create_of_lt {p : Place} (h : id < fs.next) :
    (fs.create p).contents id = fs.contents id := update_of_ne (Nat.ne_of_lt h) ..

@[simp] theorem create_next (fs : FileSystem Path Place α) (p : Place) :
    (fs.create p).contents fs.next = [] := update_self ..

/-- What is opened for writing is the file that the path leads to, truncated or as it is, if the
flags do not exclude this; or a new one, and then the path leads to no file. -/
theorem openWrite_cases (h : fs.openWrite limit flags path = some (dest, fs')) :
    (fs.fileAt limit path = some dest ∧ ¬ (flags.create ∧ flags.exclusive) ∧
        fs' = if flags.truncate then fs.put dest [] else fs) ∨
      dest = fs.next ∧ fs.fileAt limit path = none ∧ ∃ p, fs' = fs.create p := by
  unfold openWrite at h
  split at h
  · obtain ⟨p, hp, h⟩ := Option.bind_eq_some_iff.1 h
    split at h
    · rename_i he
      cases h
      exact .inr ⟨rfl, fileAt_of_empty (resolve_of_empty hp he) he, p, rfl⟩
    · cases h
  · rename_i hflags
    obtain ⟨p, hp, h⟩ := Option.bind_eq_some_iff.1 h
    split at h
    · rename_i he
      cases h
      exact .inl ⟨by rw [fileAt, hp, Option.bind_some, he], hflags, rfl⟩
    · rename_i he
      split at h
      · cases h
        exact .inr ⟨rfl, fileAt_of_empty hp he, p, rfl⟩
      · cases h
    · cases h

/-- A file that the path leads to is opened, unless the flags exclude it. -/
theorem openWrite_of_fileAt (h : fs.fileAt limit path = some id)
    (hflags : ¬ (flags.create ∧ flags.exclusive)) : fs.openWrite limit flags path =
      some (id, if flags.truncate then fs.put id [] else fs) := by
  obtain ⟨p, hp, h⟩ := Option.bind_eq_some_iff.1 h
  rw [openWrite, if_neg hflags, hp, Option.bind_some]
  split at h
  · rename_i he
    cases h
    rw [he]
  · cases h

end FileSystem

end SemOS
