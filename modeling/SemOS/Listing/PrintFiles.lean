import SemOS.Listing.Operands
import SemOS.Foundations.Paths

/-!
# Listing a directory

`print_files_in_dir` of `sems/myls/main.c` prints the entries of a directory while it descends into
the subdirectories.

* `Selected` and `subdirectories` say what is to be listed, `Printed` what is.
* `print_cons`: what is printed for one entry. `Entries.kinds`: induction over the entries.
* `Everywhere` and `EveryItem`: what holds in all directories.
-/

namespace SemOS.Myls

open Paths

variable {Stat : Type*}

/-- What `readdir` returns for a directory, in this order: the name of an entry, whether it is a
directory, whether `d_type` says so, what `lstat` says, and what it contains. -/
inductive Entries (Stat : Type*)
  | nil
  | cons (name : Name) (isDir typed : Bool) (stat : Option Stat) (contents rest : Entries Stat)

/-- What is printed: the line of an entry, which ends with its name, or a header. -/
inductive Event
  | line (name : Name)
  | header (path : Name)
  deriving DecidableEq

/-- The names that the loop skips. -/
def skipped (fs : FlagsStates) (name : Name) : Bool := isDot name && (!fs.all || name.length ≤ 2)

/-- `print_info`. The long format needs what `lstat` says. -/
def printInfo (fs : FlagsStates) (stat : Option Stat) (name : Name) : List Event :=
  if fs.longOpt && stat.isNone then [] else [.line name]

/-- `sub_path`. -/
def subPath (dirPath name : Name) : Name := dirPath ++ '/' :: name

/-- `print_files_in_dir`. -/
def printFilesInDir (fs : FlagsStates) (dirPath : Name) : Entries Stat → List Event
  | .nil => []
  | .cons name isDir typed stat contents rest =>
    (if skipped fs name then []
      else if pathMax ≤ (subPath dirPath name).length then []
      else if isDir && typed then
        printInfo fs stat name ++
          if fs.recursive then
            .header (subPath dirPath name) :: printFilesInDir fs (subPath dirPath name) contents
          else []
      else if fs.directory then []
      else printInfo fs stat name) ++
      printFilesInDir fs dirPath rest

/-! ## What is to be printed -/

/-- An entry of a directory. -/
structure Item where
  name : Name
  isDir : Bool
  typed : Bool

/-- The entries of a directory, other than itself and its parent. -/
def items : Entries Stat → List Item
  | .nil => []
  | .cons name isDir typed _ _ rest =>
    if isDot name then items rest else ⟨name, isDir, typed⟩ :: items rest

/-- The directories below a directory, with their paths. -/
def subdirectories (path : Name) : Entries Stat → List (Name × Entries Stat)
  | .nil => []
  | .cons name isDir _ _ contents rest =>
    if isDot name then subdirectories path rest
    else if isDir then
      (subPath path name, contents) ::
        (subdirectories (subPath path name) contents ++ subdirectories path rest)
    else subdirectories path rest

/-- A name that starts with a dot. -/
def Hidden (name : Name) : Prop := name.head? = some '.'

instance (name : Name) : Decidable (Hidden name) := inferInstanceAs (Decidable (_ = _))

/-- Hidden entries are selected with `all` only, and only directories with `directory`. -/
def Selected (fs : FlagsStates) (i : Item) : Prop :=
  (Hidden i.name → fs.all) ∧ (fs.directory → i.isDir)

instance (fs : FlagsStates) (i : Item) : Decidable (Selected fs i) :=
  inferInstanceAs (Decidable (_ ∧ _))

/-- The names of the selected entries. -/
def selected (fs : FlagsStates) (es : Entries Stat) : List Name :=
  ((items es).filter (Selected fs ·)).map Item.name

/-- All paths fit, and the long format gets what it needs. -/
def Printable (fs : FlagsStates) (path : Name) : Entries Stat → Prop
  | .nil => True
  | .cons name _ _ stat contents rest =>
    (subPath path name).length < pathMax ∧ (fs.longOpt → stat.isSome) ∧
      Printable fs (subPath path name) contents ∧ Printable fs path rest

/-- The entries that the loop prints. -/
def Printed (fs : FlagsStates) (i : Item) : Prop := fs.directory → i.isDir ∧ i.typed

instance (fs : FlagsStates) (i : Item) : Decidable (Printed fs i) :=
  inferInstanceAs (Decidable (_ → _))

/-- What holds of the entries of a directory and of all directories below. -/
def Everywhere (Q : List Item → Prop) (path : Name) (es : Entries Stat) : Prop :=
  ∀ d ∈ (path, es) :: subdirectories path es, Q (items d.2)

variable {fs : FlagsStates} {path name : Name} {isDir typed : Bool} {stat : Option Stat}
  {es contents rest : Entries Stat} {Q : List Item → Prop}

/-! ## One entry -/

theorem skipped_eq (fs : FlagsStates) (name : Name) : skipped fs name = isDot name := by
  rw [skipped]
  cases hdot : isDot name with
  | false => rfl
  | true =>
    have hlen : name.length ≤ 2 := by
      simp only [isDot, Bool.or_eq_true, decide_eq_true_eq] at hdot
      obtain rfl | rfl := hdot
      · exact Nat.le_succ 1
      · exact Nat.le_refl 2
    simp [hlen]

theorem items_cons (h : isDot name = false) : items (.cons name isDir typed stat contents rest) =
    ⟨name, isDir, typed⟩ :: items rest := by
  rw [items, h]
  exact if_neg Bool.false_ne_true

theorem items_cons_dot (h : isDot name) :
    items (.cons name isDir typed stat contents rest) = items rest := if_pos h

theorem subdirectories_cons_dot (h : isDot name) :
    subdirectories path (.cons name isDir typed stat contents rest) = subdirectories path rest :=
  if_pos h

theorem subdirectories_cons_dir (h : isDot name = false) :
    subdirectories path (.cons name true typed stat contents rest) =
      (subPath path name, contents) ::
        (subdirectories (subPath path name) contents ++ subdirectories path rest) := by
  rw [subdirectories, h]
  rfl

theorem subdirectories_cons_file (h : isDot name = false) :
    subdirectories path (.cons name false typed stat contents rest) = subdirectories path rest := by
  rw [subdirectories, h]
  rfl

theorem print_cons_dot (h : isDot name) :
    printFilesInDir fs path (.cons name isDir typed stat contents rest) =
      printFilesInDir fs path rest := by
  rw [printFilesInDir, skipped_eq, if_pos h, List.nil_append]

theorem printInfo_eq (h : fs.longOpt → stat.isSome) : printInfo fs stat name = [.line name] := by
  rw [printInfo, if_neg]
  rw [Bool.and_eq_true, Option.isNone_iff_eq_none]
  rintro ⟨hlong, rfl⟩
  exact Bool.false_ne_true (h hlong)

/-- What is printed for an entry. -/
theorem print_cons (h : isDot name = false)
    (hfits : Printable fs path (.cons name isDir typed stat contents rest)) :
    printFilesInDir fs path (.cons name isDir typed stat contents rest) =
      (if isDir && typed then
        .line name ::
          if fs.recursive then
            .header (subPath path name) :: printFilesInDir fs (subPath path name) contents
          else []
      else if fs.directory then [] else [.line name]) ++ printFilesInDir fs path rest := by
  obtain ⟨hpath, hstat, -, -⟩ := hfits
  rw [printFilesInDir, skipped_eq, h, if_neg Bool.false_ne_true, if_neg (Nat.not_le.2 hpath),
    printInfo_eq hstat]
  rfl

theorem print_cons_dir (hrec : fs.recursive) (h : isDot name = false)
    (hfits : Printable fs path (.cons name true true stat contents rest)) :
    printFilesInDir fs path (.cons name true true stat contents rest) =
      .line name :: .header (subPath path name) ::
        (printFilesInDir fs (subPath path name) contents ++ printFilesInDir fs path rest) := by
  rw [print_cons h hfits, if_pos hrec]
  rfl

theorem print_cons_other (h : isDot name = false) (hno : (isDir && typed) = false)
    (hfits : Printable fs path (.cons name isDir typed stat contents rest)) :
    printFilesInDir fs path (.cons name isDir typed stat contents rest) =
      (if fs.directory then [] else [.line name]) ++ printFilesInDir fs path rest := by
  rw [print_cons h hfits, hno, if_neg Bool.false_ne_true]

/-- Induction over the entries, which are directories, other entries, or the directory itself and
its parent. -/
@[elab_as_elim]
theorem Entries.kinds {motive : Entries Stat → Prop} (nil : motive .nil)
    (dot : ∀ name isDir typed stat contents rest, isDot name → motive rest →
      motive (.cons name isDir typed stat contents rest))
    (file : ∀ name typed stat contents rest, isDot name = false → motive rest →
      motive (.cons name false typed stat contents rest))
    (dir : ∀ name typed stat contents rest, isDot name = false → motive contents → motive rest →
      motive (.cons name true typed stat contents rest)) (es : Entries Stat) : motive es := by
  induction es with
  | nil => exact nil
  | cons name isDir typed stat contents rest ihContents ihRest =>
    cases hdot : isDot name with
    | true => exact dot _ _ _ _ _ _ hdot ihRest
    | false =>
      cases isDir with
      | false => exact file _ _ _ _ _ hdot ihRest
      | true => exact dir _ _ _ _ _ hdot ihContents ihRest

/-! ## All directories -/

theorem everywhere_nil : Everywhere Q path (.nil : Entries Stat) ↔ Q [] := by
  rw [Everywhere, subdirectories, List.forall_mem_singleton, items]

theorem everywhere_cons_dot (h : isDot name) :
    Everywhere Q path (.cons name isDir typed stat contents rest) ↔ Everywhere Q path rest := by
  rw [Everywhere, Everywhere, List.forall_mem_cons, List.forall_mem_cons,
    subdirectories_cons_dot h, items_cons_dot h]

theorem everywhere_cons_file (h : isDot name = false) (hQ : ∀ i is, Q (i :: is) → Q is) :
    Everywhere Q path (.cons name false typed stat contents rest) ↔
      Q (⟨name, false, typed⟩ :: items rest) ∧ Everywhere Q path rest := by
  rw [Everywhere, Everywhere, List.forall_mem_cons, List.forall_mem_cons,
    subdirectories_cons_file h, items_cons h]
  exact ⟨fun hall => ⟨hall.1, hQ _ _ hall.1, hall.2⟩, fun hall => ⟨hall.1, hall.2.2⟩⟩

theorem everywhere_cons_dir (h : isDot name = false) (hQ : ∀ i is, Q (i :: is) → Q is) :
    Everywhere Q path (.cons name true typed stat contents rest) ↔
      Q (⟨name, true, typed⟩ :: items rest) ∧ Everywhere Q (subPath path name) contents ∧
        Everywhere Q path rest := by
  simp only [Everywhere, List.forall_mem_cons, subdirectories_cons_dir h, items_cons h,
    List.forall_mem_append]
  exact ⟨fun hall => ⟨hall.1, ⟨hall.2.1, hall.2.2.1⟩, hQ _ _ hall.1, hall.2.2.2⟩,
    fun hall => ⟨hall.1, hall.2.1.1, hall.2.1.2, hall.2.2.2⟩⟩

/-- What holds of every entry in a directory and below. -/
def EveryItem (R : Item → Prop) (path : Name) (es : Entries Stat) : Prop :=
  Everywhere (fun is => ∀ i ∈ is, R i) path es

variable {R : Item → Prop}

theorem everyItem_nil : EveryItem R path (.nil : Entries Stat) :=
  everywhere_nil.2 fun _ h => (List.not_mem_nil h).elim

theorem EveryItem.here (h : EveryItem R path es) : ∀ i ∈ items es, R i :=
  (List.forall_mem_cons.1 h).1

theorem everyItem_cons_dot (h : isDot name) :
    EveryItem R path (.cons name isDir typed stat contents rest) ↔ EveryItem R path rest :=
  everywhere_cons_dot h

theorem everyItem_cons_file (h : isDot name = false) :
    EveryItem R path (.cons name false typed stat contents rest) ↔
      R ⟨name, false, typed⟩ ∧ EveryItem R path rest := by
  rw [EveryItem, everywhere_cons_file h fun _ _ h => (List.forall_mem_cons.1 h).2,
    List.forall_mem_cons, and_assoc]
  exact and_congr_right fun _ => and_iff_right_of_imp EveryItem.here

theorem everyItem_cons_dir (h : isDot name = false) :
    EveryItem R path (.cons name true typed stat contents rest) ↔
      R ⟨name, true, typed⟩ ∧ EveryItem R (subPath path name) contents ∧ EveryItem R path rest := by
  rw [EveryItem, everywhere_cons_dir h fun _ _ h => (List.forall_mem_cons.1 h).2,
    List.forall_mem_cons, and_assoc]
  exact and_congr_right fun _ => and_iff_right_of_imp fun h => EveryItem.here h.2

theorem selected_cons (h : isDot name = false) :
    selected fs (.cons name isDir typed stat contents rest) =
      if Selected fs ⟨name, isDir, typed⟩ then name :: selected fs rest else selected fs rest := by
  rw [selected, items_cons h, List.filter_cons]
  by_cases hsel : Selected fs ⟨name, isDir, typed⟩
  · rw [if_pos hsel, if_pos (decide_eq_true hsel)]
    rfl
  · rw [if_neg hsel, if_neg (mt of_decide_eq_true hsel)]
    rfl

theorem selected_cons_dot (h : isDot name) :
    selected fs (.cons name isDir typed stat contents rest) = selected fs rest := by
  rw [selected, items_cons_dot h]
  rfl

end SemOS.Myls
