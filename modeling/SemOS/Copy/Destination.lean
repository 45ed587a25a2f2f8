import SemOS.Copy.Stream
import SemOS.Foundations.Paths
import Mathlib.Data.List.OfFn

/-!
# The destination paths of mycp

`main` of `sems/3week/mycp/main.c` copies the name of the destination directory into an array,
without its terminating zero, and puts `./`, this name and the source together.

* `placed_iff`: what the path that is put together names, in given directories.
* `lands_iff`: it names what it should, wherever the destination directory may be, exactly if this
  is given by a relative path, the array ends it, and the source is a bare name.
-/

namespace SemOS.Mycp

open Copy (Bufsiz)
open Paths

/-- A byte in a buffer; `none` is the zero that ends a string. -/
abbrev Cell := Option Char

/-- `strncpy`, into a buffer that has room for `n` bytes. -/
def strncpy (dest : List Cell) (src : List Char) (n : ℕ) : List Cell :=
  (src.map some ++ List.replicate (n - src.length) none).take n ++ dest.drop n

/-- The string in a buffer, if it ends there. -/
def cString : List Cell → Option (List Char)
  | [] => none
  | none :: _ => some []
  | some c :: cells => (cString cells).map (c :: ·)

/-- `dest_dir`, which holds what was on the stack, after the call of `strncpy`. -/
def destDir (bufsiz : Bufsiz) (stack : Fin (bufsiz.size / 2) → Cell) (arg : List Char) :
    Option (List Cell) :=
  if arg.length ≤ bufsiz.size / 2 then some (strncpy (List.ofFn stack) arg arg.length) else none

/-- `snprintf(dest_file_path, BUFSIZ, "./%s/%s", dest_dir, argv[file_ind])`. There is no result if
the array `dest_dir` does not end its string. -/
def destFilePath (bufsiz : Bufsiz) (dir : List Cell) (source : List Char) : Option (List Char) :=
  (cString dir).map fun dir => (['.', '/'] ++ dir ++ ['/'] ++ source).take (bufsiz.size - 1)

/-- `OUT_path` for a source, when `arg` is the last argument. -/
def outPath (bufsiz : Bufsiz) (stack : Fin (bufsiz.size / 2) → Cell) (arg source : List Char) :
    Option (List Char) :=
  (destDir bufsiz stack arg).bind fun dir => destFilePath bufsiz dir source

/-- `OUT_path` names the entry with the last component of the source in the directory `d`. -/
def NamesEntry {Dir : Type*} (fs : Directories Dir) (d : Dir) (bufsiz : Bufsiz)
    (stack : Fin (bufsiz.size / 2) → Cell) (arg source : List Char) : Prop :=
  ∃ out name, outPath bufsiz stack arg source = some out ∧
    (components source).getLast? = some name ∧ fs.entryAt out = some (d, name)

/-- Every source is copied into the directory that `arg` names, wherever that is. -/
def Lands (bufsiz : Bufsiz) (stack : Fin (bufsiz.size / 2) → Cell) (arg : List Char)
    (sources : List (List Char)) : Prop :=
  ∀ (Dir : Type) (fs : Directories Dir) (d : Dir), fs.directoryAt arg = some d →
    ∀ source ∈ sources, NamesEntry fs d bufsiz stack arg source

/-- What the array contains behind a copy, up to the first zero. -/
def behindCopy {n : ℕ} (stack : Fin n → Cell) (arg : List Char) : Option (List Char) :=
  cString ((List.ofFn stack).drop arg.length)

/-- The whole of `OUT_path` fits into `dest_file_path`. -/
def Fits (bufsiz : Bufsiz) (stack : Fin (bufsiz.size / 2) → Cell) (arg source : List Char) : Prop :=
  ∀ behind, behindCopy stack arg = some behind →
    (['.', '/'] ++ (arg ++ behind) ++ ['/'] ++ source).length < bufsiz.size

/-- The directory is given by a relative path, which is not continued behind the copy (but for
slashes and `.`), and the source has no other component than its last one (but for `.`). -/
structure Bare {n : ℕ} (stack : Fin n → Cell) (arg source : List Char) : Prop where
  relative : ¬ Absolute arg
  ended : ∃ behind, behindCopy stack arg = some behind ∧
    significant (components (arg ++ behind)) = significant (components arg)
  named : components source ≠ []
  bare : significant (components source).dropLast = []

variable {Dir : Type*} {fs : Directories Dir} {d : Dir} {bufsiz : Bufsiz}
  {stack : Fin (bufsiz.size / 2) → Cell} {arg source behind : List Char}

/-! ## The string that is put together -/

theorem cString_append (s : List Char) (cells : List Cell) :
    cString (s.map some ++ cells) = (cString cells).map (s ++ ·) := by
  induction s with
  | nil => exact Option.map_id'.symm
  | cons c s ih =>
    show (cString (s.map some ++ cells)).map (c :: ·) = _
    rw [ih, Option.map_map]
    rfl

/-- A copy without the zero leaves the array as it is behind it. -/
theorem strncpy_length (dest : List Cell) (src : List Char) :
    strncpy dest src src.length = src.map some ++ dest.drop src.length := by
  rw [strncpy, Nat.sub_self, List.replicate_zero, List.append_nil, List.take_of_length_le]
  rw [List.length_map]

theorem outPath_eq (hlen : arg.length < bufsiz.size / 2) (hfits : Fits bufsiz stack arg source) :
    outPath bufsiz stack arg source = (behindCopy stack arg).map fun behind =>
      ['.', '/'] ++ (arg ++ behind) ++ ['/'] ++ source := by
  rw [outPath, destDir, if_pos (Nat.le_of_lt hlen), Option.bind_some, destFilePath, strncpy_length,
    cString_append, Option.map_map]
  show Option.map _ (behindCopy stack arg) = _
  cases hbehind : behindCopy stack arg with
  | none => rfl
  | some behind =>
    have hcut := Nat.le_sub_one_of_lt (hfits behind hbehind)
    exact congrArg some (List.take_of_length_le hcut)

theorem components_outPath (arg source : List Char) :
    components (['.', '/'] ++ arg ++ ['/'] ++ source) =
      dot :: (components arg ++ components source) := by
  have hslash : ['.', '/'] ++ arg ++ ['/'] ++ source = ['.'] ++ '/' :: (arg ++ '/' :: source) := by
    simp
  rw [hslash, components_append_slash, components_append_slash]
  rfl

/-- `OUT_path` is relative to the working directory. -/
theorem start_outPath (fs : Directories Dir) (arg source : List Char) :
    fs.start (['.', '/'] ++ arg ++ ['/'] ++ source) = fs.cwd :=
  if_neg fun habs => absurd (Option.some.inj habs) (by decide)

theorem entryAt_outPath {names : List Name} {name : Name}
    (h : components source = names ++ [name]) :
    fs.entryAt (['.', '/'] ++ arg ++ ['/'] ++ source) =
      (fs.walk fs.cwd (components arg ++ names)).map (·, name) := by
  have hout : components (['.', '/'] ++ arg ++ ['/'] ++ source) =
      (dot :: (components arg ++ names)) ++ [name] := by
    rw [components_outPath, h, List.cons_append, List.append_assoc]
  rw [entryAt_of_components hout, start_outPath, walk_dot]

/-- What the path names that is put together. -/
theorem namesEntry_iff (hlen : arg.length < bufsiz.size / 2)
    (hfits : Fits bufsiz stack arg source) :
    NamesEntry fs d bufsiz stack arg source ↔
      components source ≠ [] ∧ ∃ behind, behindCopy stack arg = some behind ∧
        fs.walk fs.cwd (components (arg ++ behind) ++ (components source).dropLast) = some d := by
  rw [NamesEntry, outPath_eq hlen hfits]
  constructor
  · rintro ⟨out, name, hout, hname, hentry⟩
    obtain ⟨behind, hbehind, rfl⟩ := Option.map_eq_some_iff.1 hout
    obtain ⟨names, hnames⟩ := List.getLast?_eq_some_iff.1 hname
    rw [entryAt_outPath hnames] at hentry
    obtain ⟨d', hwalk, heq⟩ := Option.map_eq_some_iff.1 hentry
    cases heq
    refine ⟨?_, behind, hbehind, ?_⟩
    · rw [hnames]
      exact List.append_ne_nil_of_right_ne_nil _ (List.cons_ne_nil _ _)
    · rwa [hnames, List.dropLast_concat]
  · rintro ⟨hne, behind, hbehind, hwalk⟩
    have hnames := (List.dropLast_append_getLast hne).symm
    refine ⟨_, _, congrArg _ hbehind, List.getLast?_eq_getLast_of_ne_nil hne, ?_⟩
    rw [entryAt_outPath hnames, hwalk]
    rfl

/-! ## Where it lands -/

/-- A bare name lands in the directory. -/
theorem namesEntry_of_bare (hlen : arg.length < bufsiz.size / 2)
    (hfits : Fits bufsiz stack arg source) (hbare : Bare stack arg source)
    (hd : fs.directoryAt arg = some d) : NamesEntry fs d bufsiz stack arg source := by
  obtain ⟨behind, hbehind, hended⟩ := hbare.ended
  refine (namesEntry_iff hlen hfits).2 ⟨hbare.named, behind, hbehind, ?_⟩
  obtain ⟨-, hd⟩ := Option.ite_none_left_eq_some.1 hd
  rw [Directories.start, if_neg hbare.relative] at hd
  rw [← walk_significant, significant_append, hbare.bare, List.append_nil, hended,
    walk_significant, hd]

/-- The components of `OUT_path` that lead to its last one. -/
def directoryPart {n : ℕ} (stack : Fin n → Cell) (arg source : List Char) : List Name :=
  components (arg ++ (behindCopy stack arg).getD []) ++ (components source).dropLast

theorem walk_of_lands (hlen : arg.length < bufsiz.size / 2) (hfits : Fits bufsiz stack arg source)
    {Dir : Type} {fs : Directories Dir} {d : Dir} (h : Lands bufsiz stack arg [source])
    (hd : fs.directoryAt arg = some d) : components source ≠ [] ∧
      (∃ behind, behindCopy stack arg = some behind) ∧
      fs.walk fs.cwd (directoryPart stack arg source) = some d := by
  obtain ⟨hne, behind, hbehind, hwalk⟩ := (namesEntry_iff hlen hfits).1
    (h Dir fs d hd source (List.mem_singleton_self _))
  refine ⟨hne, ⟨behind, hbehind⟩, ?_⟩
  rw [directoryPart, hbehind]
  exact hwalk

/-- An absolute path is looked for below the working directory, which may be far from it. -/
theorem relative_of_lands (harg : arg ≠ []) (hlen : arg.length < bufsiz.size / 2)
    (hfits : Fits bufsiz stack arg source) (h : Lands bufsiz stack arg [source]) :
    ¬ Absolute arg := by
  intro habs
  have hroot : ∀ depth, (far depth).directoryAt arg = some 0 := by
    intro depth
    rw [Directories.directoryAt, if_neg harg, Directories.start, if_pos habs]
    exact walk_far_root depth _
  obtain ⟨-, -, hwalk⟩ := walk_of_lands hlen hfits h
    (hroot ((directoryPart stack arg source).length + 1))
  have hle := le_of_walk_far hwalk
  rw [Nat.zero_add] at hle
  exact Nat.not_succ_le_self _ hle

/-- Where all components lead to different directories, only a bare name lands in the right one. -/
theorem bare_of_lands (harg : arg ≠ []) (hlen : arg.length < bufsiz.size / 2)
    (hfits : Fits bufsiz stack arg source) (h : Lands bufsiz stack arg [source]) :
    Bare stack arg source := by
  have hrel := relative_of_lands harg hlen hfits h
  obtain ⟨bound, hbound⟩ : ∃ bound, bound = (significant (components arg)).length +
    (significant (directoryPart stack arg source)).length := ⟨_, rfl⟩
  have hwalk : ∀ names : List Name, (significant names).length ≤ bound →
      (parting bound).walk (some []) names = some (some (significant names)) := by
    intro names hle
    rw [← walk_significant]
    exact walk_parting (dot_notMem_significant _) (Nat.le_trans (Nat.le_of_eq (Nat.zero_add _)) hle)
  have hd : (parting bound).directoryAt arg = some (some (significant (components arg))) := by
    rw [Directories.directoryAt, if_neg harg, Directories.start, if_neg hrel]
    exact hwalk _ (by omega)
  obtain ⟨hne, ⟨behind, hbehind⟩, htaken⟩ := walk_of_lands hlen hfits h hd
  have hsame := Option.some.inj (Option.some.inj ((hwalk _ (by omega)).symm.trans htaken))
  rw [directoryPart, hbehind, Option.getD_some, significant_append] at hsame
  -- what is appended takes nothing away, so that nothing can be added either
  have hle := length_significant_le arg behind
  have hlength := congrArg List.length hsame
  rw [List.length_append] at hlength
  have hbare : significant (components source).dropLast = [] :=
    List.length_eq_zero_iff.1 (by omega)
  rw [hbare, List.append_nil] at hsame
  exact ⟨hrel, ⟨behind, hbehind, hsame⟩, hne, hbare⟩

/-- **Every source lands in the destination directory, wherever that is, exactly if the directory is
given by a relative path that the array ends, and every source is a bare name.** -/
theorem lands_iff (bufsiz : Bufsiz) (stack : Fin (bufsiz.size / 2) → Cell) (arg : List Char)
    (sources : List (List Char)) (harg : arg ≠ []) (hlen : arg.length < bufsiz.size / 2)
    (hfits : ∀ source ∈ sources, Fits bufsiz stack arg source) :
    Lands bufsiz stack arg sources ↔ ∀ source ∈ sources, Bare stack arg source := by
  constructor
  · intro h source hsource
    refine bare_of_lands harg hlen (hfits source hsource) fun Dir fs d hd s hs => ?_
    rw [List.mem_singleton.1 hs]
    exact h Dir fs d hd source hsource
  · intro h Dir fs d hd source hsource
    exact namesEntry_of_bare hlen (hfits source hsource) (h source hsource) hd

/-- On a stack of zeros the copy is ended. -/
theorem behindCopy_zeros {n : ℕ} (h : arg.length < n) :
    behindCopy (fun _ : Fin n => none) arg = some [] := by
  obtain ⟨k, hk⟩ := Nat.exists_eq_add_of_lt h
  rw [behindCopy, List.ofFn_const, List.drop_replicate, hk,
    show arg.length + k + 1 - arg.length = k + 1 by omega, List.replicate_succ]
  rfl

/-- What is put together on a stack of zeros. -/
theorem fits_zeros (hlen : arg.length < bufsiz.size / 2)
    (h : (['.', '/'] ++ arg ++ ['/'] ++ source).length < bufsiz.size) :
    Fits bufsiz (fun _ => none) arg source := by
  intro behind hbehind
  rw [behindCopy_zeros hlen] at hbehind
  cases hbehind
  rwa [List.append_nil]

/-- `mycp a d`, on a stack of zeros. -/
theorem lands_bareName : Lands Copy.smallest (fun _ => none) ['d'] [['a']] :=
  (lands_iff Copy.smallest (fun _ => none) ['d'] [['a']] (List.cons_ne_nil _ _) (by decide)
    fun source hsource => by
      rw [List.mem_singleton.1 hsource]
      exact fits_zeros (by decide) (by decide)).2
    fun source hsource => by
      rw [List.mem_singleton.1 hsource]
      exact ⟨by decide, ⟨[], behindCopy_zeros (by decide), rfl⟩, by decide, by decide⟩

/-- `mycp s/a d`, on a stack of zeros: the path is `./d/s/a`. -/
theorem source_directory_misses : ¬ ∀ (stack : Fin (Copy.smallest.size / 2) → Cell)
    (arg : List Char) (sources : List (List Char)), arg ≠ [] →
      arg.length < Copy.smallest.size / 2 →
      (∀ source ∈ sources, Fits Copy.smallest stack arg source) →
        Lands Copy.smallest stack arg sources := by
  intro h
  have hfits : Fits Copy.smallest (fun _ => none) ['d'] ['s', '/', 'a'] :=
    fits_zeros (by decide) (by decide)
  have hlands := h (fun _ => none) ['d'] [['s', '/', 'a']] (List.cons_ne_nil _ _) (by decide)
    fun source hsource => by
      rw [List.mem_singleton.1 hsource]
      exact hfits
  have hbare := (bare_of_lands (List.cons_ne_nil _ _) (by decide) hfits hlands).bare
  exact absurd hbare (by decide)

end SemOS.Mycp
