import SemOS.Listing.PrintFiles
import Mathlib.Data.Multiset.Basic

/-!
# The sections of a recursive listing

What `print_files_in_dir` of `sems/myls/main.c` prints behind a subdirectory stands below another
header; and names that start with a dot are printed with `all` or without.

* `sections` divides what is printed at the headers.
* `headers_le`, `selectedCount_le`: there are enough headers and lines only if `readdir` tells what
  the directories are and nothing else is printed than what is selected.
* `separated_iff_last`: then the sections are right exactly if nothing is printed behind a
  subdirectory.
* `separated_iff`: the sections are right exactly if all this is so in every directory.
-/

namespace SemOS.Myls

open Paths

variable {Stat : Type*}

/-- The lines before the first header, and the headers with the lines behind them. -/
def sections : List Event → List Name × List (Name × List Name)
  | [] => ([], [])
  | .line name :: out => (name :: (sections out).1, (sections out).2)
  | .header path :: out => ([], (path, (sections out).1) :: (sections out).2)

/-- A directory with its path and its entries, in any order. -/
abbrev Listed := Name × Multiset Name

/-- The sections have the entries that are selected, and with `recursive` every directory has one
section. -/
structure Separated (fs : FlagsStates) (path : Name) (es : Entries Stat) : Prop where
  first : (sections (printFilesInDir fs path es)).1.Perm (selected fs es)
  others : List.Perm
    ((sections (printFilesInDir fs path es)).2.map fun s => ((s.1, (s.2 : Multiset Name)) : Listed))
    ((if fs.recursive then subdirectories path es else []).map fun d => (d.1, selected fs d.2))

/-- The entries of a directory are printed when and where they should be: nothing hidden is printed,
unless with `all`; `readdir` tells what the directories are, if this matters; and with `recursive`
nothing is printed behind a directory. -/
structure Tidy (fs : FlagsStates) (is : List Item) : Prop where
  visible : ∀ i ∈ is, Printed fs i → Hidden i.name → fs.all
  typed : ∀ i ∈ is, i.isDir → fs.recursive ∨ fs.directory ∧ Selected fs i → i.typed
  last : fs.recursive → is.Pairwise fun i j => i.isDir → ¬ Printed fs j

variable {fs : FlagsStates} {path name : Name} {isDir typed : Bool} {stat : Option Stat}
  {es contents rest : Entries Stat}

/-! ## Counting headers -/

/-- A header, not a line. -/
def Event.isHeader : Event → Bool
  | .line _ => false
  | .header _ => true

theorem length_sections (out : List Event) :
    (sections out).2.length = out.countP Event.isHeader := by
  induction out with
  | nil => rfl
  | cons e out ih =>
    cases e with
    | line name =>
      rw [List.countP_cons_of_neg Bool.false_ne_true]
      exact ih
    | header path =>
      rw [List.countP_cons_of_pos rfl, ← ih]
      rfl

/-- `readdir` tells if the entry is a directory. -/
def Typed (i : Item) : Prop := i.isDir → i.typed

theorem countP_line (name : Name) :
    (if fs.directory then [] else [Event.line name]).countP Event.isHeader = 0 := by
  split <;> rfl

/-- Every header is the one of a directory, and all have one only if `readdir` tells what they
are. -/
theorem headers_le (hrec : fs.recursive) (hfits : Printable fs path es) :
    (printFilesInDir fs path es).countP Event.isHeader ≤ (subdirectories path es).length ∧
      ((subdirectories path es).length ≤ (printFilesInDir fs path es).countP Event.isHeader →
        EveryItem Typed path es) := by
  induction es using Entries.kinds generalizing path with
  | nil => exact ⟨Nat.le_refl _, fun _ => everyItem_nil⟩
  | dot name isDir typed stat contents rest hdot ih =>
    rw [print_cons_dot hdot, subdirectories_cons_dot hdot, everyItem_cons_dot hdot]
    exact ih hfits.2.2.2
  | file name typed stat contents rest hdot ih =>
    rw [print_cons_other hdot rfl hfits, subdirectories_cons_file hdot, everyItem_cons_file hdot,
      List.countP_append, countP_line, Nat.zero_add]
    obtain ⟨hle, heq⟩ := ih hfits.2.2.2
    exact ⟨hle, fun h => ⟨fun hdir => (Bool.false_ne_true hdir).elim, heq h⟩⟩
  | dir name typed stat contents rest hdot ihContents ihRest =>
    obtain ⟨-, -, hcontents, hrest⟩ := id hfits
    obtain ⟨hleC, heqC⟩ := ihContents hcontents
    obtain ⟨hle, heq⟩ := ihRest hrest
    rw [subdirectories_cons_dir hdot, everyItem_cons_dir hdot, List.length_cons, List.length_append]
    cases typed with
    | false =>
      rw [print_cons_other hdot rfl hfits, List.countP_append, countP_line]
      exact ⟨by omega, fun h => absurd h (by omega)⟩
    | true =>
      rw [print_cons_dir hrec hdot hfits, List.countP_cons_of_neg Bool.false_ne_true,
        List.countP_cons_of_pos rfl, List.countP_append]
      exact ⟨by omega, fun h => ⟨fun _ => rfl, heqC (by omega), heq (by omega)⟩⟩

/-! ## Counting lines -/

/-- A line, not a header. -/
def Event.isLine : Event → Bool
  | .line _ => true
  | .header _ => false

theorem length_lines (out : List Event) :
    (sections out).1.length + ((sections out).2.map fun s => s.2.length).sum =
      out.countP Event.isLine := by
  induction out with
  | nil => rfl
  | cons e out ih =>
    cases e with
    | line name =>
      rw [List.countP_cons_of_pos rfl, ← ih, sections, List.length_cons, Nat.add_right_comm]
    | header path =>
      rw [List.countP_cons_of_neg Bool.false_ne_true, ← ih, sections, List.map_cons,
        List.sum_cons, List.length_nil, Nat.zero_add]

/-- How many entries are selected in a directory and below. -/
def selectedCount (fs : FlagsStates) (path : Name) (es : Entries Stat) : ℕ :=
  (selected fs es).length + ((subdirectories path es).map fun d => (selected fs d.2).length).sum

theorem selectedCount_cons_dot (h : isDot name) :
    selectedCount fs path (.cons name isDir typed stat contents rest) =
      selectedCount fs path rest := by
  rw [selectedCount, selected_cons_dot h, subdirectories_cons_dot h]
  rfl

theorem selectedCount_cons_file (h : isDot name = false) :
    selectedCount fs path (.cons name false typed stat contents rest) =
      (if Selected fs ⟨name, false, typed⟩ then 1 else 0) + selectedCount fs path rest := by
  rw [selectedCount, selected_cons h, subdirectories_cons_file h, selectedCount]
  split
  · rw [List.length_cons]
    omega
  · rw [Nat.zero_add]

theorem selectedCount_cons_dir (h : isDot name = false) :
    selectedCount fs path (.cons name true typed stat contents rest) =
      (if Selected fs ⟨name, true, typed⟩ then 1 else 0) +
        (selectedCount fs (subPath path name) contents + selectedCount fs path rest) := by
  rw [selectedCount, selected_cons h, subdirectories_cons_dir h, List.map_cons, List.sum_cons,
    List.map_append, List.sum_append, selectedCount, selectedCount]
  dsimp only
  split
  · rw [List.length_cons]
    omega
  · omega

/-- If the entry is printed, it is selected. -/
def Rightly (fs : FlagsStates) (i : Item) : Prop := Printed fs i → Selected fs i

/-- An entry that is no directory has a line if it is selected, and otherwise only if it is printed
wrongly. -/
theorem file_lines_le (fs : FlagsStates) (name : Name) (typed : Bool) :
    (if Selected fs ⟨name, false, typed⟩ then 1 else 0) ≤
        (if fs.directory then [] else [Event.line name]).countP Event.isLine ∧
      ((if fs.directory then [] else [Event.line name]).countP Event.isLine ≤
          (if Selected fs ⟨name, false, typed⟩ then 1 else 0) →
        Rightly fs ⟨name, false, typed⟩) := by
  by_cases hdirectory : fs.directory
  · rw [if_pos hdirectory, if_neg fun hsel => Bool.false_ne_true (hsel.2 hdirectory)]
    exact ⟨Nat.le_refl _, fun _ hprinted => (Bool.false_ne_true (hprinted hdirectory).1).elim⟩
  · rw [if_neg hdirectory, List.countP_cons_of_pos rfl, List.countP_nil]
    split
    · rename_i hsel
      exact ⟨Nat.le_refl _, fun _ _ => hsel⟩
    · exact ⟨Nat.zero_le _, fun h => absurd h (Nat.not_succ_le_zero _)⟩

/-- Where `readdir` tells what the directories are, all that is selected is printed, and no more
than this only if everything printed is selected. -/
theorem selectedCount_le (hrec : fs.recursive) (hfits : Printable fs path es)
    (htyped : EveryItem Typed path es) :
    selectedCount fs path es ≤ (printFilesInDir fs path es).countP Event.isLine ∧
      ((printFilesInDir fs path es).countP Event.isLine ≤ selectedCount fs path es →
        EveryItem (Rightly fs) path es) := by
  induction es using Entries.kinds generalizing path with
  | nil => exact ⟨Nat.le_refl _, fun _ => everyItem_nil⟩
  | dot name isDir typed stat contents rest hdot ih =>
    rw [everyItem_cons_dot hdot] at htyped
    rw [print_cons_dot hdot, selectedCount_cons_dot hdot, everyItem_cons_dot hdot]
    exact ih hfits.2.2.2 htyped
  | file name typed stat contents rest hdot ih =>
    rw [everyItem_cons_file hdot] at htyped
    obtain ⟨hle, heq⟩ := ih hfits.2.2.2 htyped.2
    obtain ⟨hleI, heqI⟩ := file_lines_le fs name typed
    rw [print_cons_other hdot rfl hfits, everyItem_cons_file hdot, selectedCount_cons_file hdot,
      List.countP_append]
    exact ⟨by omega, fun h => ⟨heqI (by omega), heq (by omega)⟩⟩
  | dir name typed stat contents rest hdot ihContents ihRest =>
    rw [everyItem_cons_dir hdot] at htyped
    obtain ⟨-, -, hcontents, hrest⟩ := id hfits
    obtain ⟨hleC, heqC⟩ := ihContents hcontents htyped.2.1
    obtain ⟨hle, heq⟩ := ihRest hrest htyped.2.2
    obtain rfl : typed = true := htyped.1 rfl
    rw [print_cons_dir hrec hdot hfits, everyItem_cons_dir hdot, selectedCount_cons_dir hdot,
      List.countP_cons_of_pos rfl, List.countP_cons_of_neg Bool.false_ne_true, List.countP_append]
    split
    · rename_i hsel
      exact ⟨by omega, fun h => ⟨fun _ => hsel, heqC (by omega), heq (by omega)⟩⟩
    · exact ⟨by omega, fun h => absurd h (by omega)⟩

/-! ## The sections -/

/-- Behind a directory nothing is printed. -/
def DirsLast (fs : FlagsStates) (is : List Item) : Prop :=
  is.Pairwise fun i j => i.isDir → ¬ Printed fs j

theorem dirsLast_of_silent {is : List Item} (hno : ∀ i ∈ is, ¬ Printed fs i) : DirsLast fs is :=
  List.pairwise_of_forall_mem_list fun _ _ j hj _ => hno j hj

/-- What is selected would be printed. -/
theorem selected_of_silent (htyped : EveryItem Typed path es)
    (hno : ∀ i ∈ items es, ¬ Printed fs i) : selected fs es = [] := by
  rw [selected, List.map_eq_nil_iff, List.filter_eq_nil_iff]
  intro i hi hsel
  have hdir := (of_decide_eq_true hsel).2
  exact hno i hi fun h => ⟨hdir h, htyped.here i hi (hdir h)⟩

theorem silent_of_selected (hrightly : EveryItem (Rightly fs) path es) (h : selected fs es = []) :
    ∀ i ∈ items es, ¬ Printed fs i := by
  rw [selected, List.map_eq_nil_iff, List.filter_eq_nil_iff] at h
  exact fun i hi hprinted => h i hi (decide_eq_true (hrightly.here i hi hprinted))

/-- What nothing is printed of has no sections. -/
theorem print_of_silent (hfits : Printable fs path es) (hno : ∀ i ∈ items es, ¬ Printed fs i) :
    printFilesInDir fs path es = [] := by
  induction es with
  | nil => rfl
  | cons name isDir typed stat contents rest _ ih =>
    cases hdot : isDot name with
    | true =>
      rw [items_cons_dot hdot] at hno
      rw [print_cons_dot hdot]
      exact ih hfits.2.2.2 hno
    | false =>
      rw [items_cons hdot, List.forall_mem_cons] at hno
      obtain ⟨hdirectory, hkind⟩ := Classical.not_imp.1 hno.1
      rw [print_cons_other hdot (by simpa using hkind) hfits, if_pos hdirectory, List.nil_append]
      exact ih hfits.2.2.2 hno.2

/-- Directories would be printed. -/
theorem subdirectories_of_silent (htyped : EveryItem Typed path es)
    (hno : ∀ i ∈ items es, ¬ Printed fs i) : subdirectories path es = [] := by
  induction es using Entries.kinds with
  | nil => rfl
  | dot name isDir typed stat contents rest hdot ih =>
    rw [everyItem_cons_dot hdot] at htyped
    rw [items_cons_dot hdot] at hno
    rw [subdirectories_cons_dot hdot]
    exact ih htyped hno
  | file name typed stat contents rest hdot ih =>
    rw [everyItem_cons_file hdot] at htyped
    rw [items_cons hdot, List.forall_mem_cons] at hno
    rw [subdirectories_cons_file hdot]
    exact ih htyped.2 hno.2
  | dir name typed stat contents rest hdot _ _ =>
    rw [everyItem_cons_dir hdot] at htyped
    rw [items_cons hdot, List.forall_mem_cons] at hno
    exact absurd (fun _ => ⟨rfl, htyped.1 rfl⟩) hno.1

theorem length_lt_subPath (path name : Name) : path.length < (subPath path name).length := by
  rw [subPath, List.length_append, List.length_cons]
  omega

/-- The paths of the directories below are longer. -/
theorem length_lt_of_mem_subdirectories {d : Name × Entries Stat}
    (h : d ∈ subdirectories path es) : path.length < d.1.length := by
  induction es using Entries.kinds generalizing path with
  | nil => exact (List.not_mem_nil h).elim
  | dot name isDir typed stat contents rest hdot ih =>
    rw [subdirectories_cons_dot hdot] at h
    exact ih h
  | file name typed stat contents rest hdot ih =>
    rw [subdirectories_cons_file hdot] at h
    exact ih h
  | dir name typed stat contents rest hdot ihContents ihRest =>
    rw [subdirectories_cons_dir hdot] at h
    obtain rfl | h := List.mem_cons.1 h
    · exact length_lt_subPath path name
    · obtain h | h := List.mem_append.1 h
      · exact Nat.lt_trans (length_lt_subPath path name) (ihContents h)
      · exact ihRest h

/-- The section of a directory can be told from those of the directories below it. -/
theorem perm_cons_iff (first chosen : Multiset Name) (others : List Listed) {below : List Listed}
    (hbelow : ∀ d ∈ below, path.length < d.1.length) :
    ((path, first) :: others).Perm ((path, chosen) :: below) ↔
      first = chosen ∧ others.Perm below := by
  constructor
  · intro h
    obtain heq | hmem := List.mem_cons.1 (h.subset List.mem_cons_self)
    · cases heq
      exact ⟨rfl, (List.perm_cons _).1 h⟩
    · exact absurd (hbelow _ hmem) (Nat.lt_irrefl _)
  · rintro ⟨rfl, h⟩
    exact h.cons _

theorem sections_lines (names : List Name) (out : List Event) :
    sections (names.map Event.line ++ out) = (names ++ (sections out).1, (sections out).2) := by
  induction names with
  | nil => rfl
  | cons name names ih =>
    rw [List.map_cons, List.cons_append, sections, ih]
    rfl

/-- Lines of selected entries belong to their section. -/
theorem separated_lines {es' : Entries Stat} (names : List Name)
    (hprint : printFilesInDir fs path es = names.map .line ++ printFilesInDir fs path es')
    (hsel : selected fs es = names ++ selected fs es')
    (hsub : subdirectories path es = subdirectories path es') :
    Separated fs path es ↔ Separated fs path es' := by
  constructor
  · rintro ⟨hfirst, hothers⟩
    rw [hprint, sections_lines, hsel] at hfirst
    rw [hprint, sections_lines, hsub] at hothers
    exact ⟨(List.perm_append_left_iff _).1 hfirst, hothers⟩
  · rintro ⟨hfirst, hothers⟩
    refine ⟨?_, ?_⟩
    · rw [hprint, sections_lines, hsel]
      exact hfirst.append_left _
    · rw [hprint, sections_lines, hsub]
      exact hothers

/-- A directory has a section of its own, if nothing is printed behind it. -/
theorem separated_cons_dir (hrec : fs.recursive) (hdot : isDot name = false)
    (hfits : Printable fs path (.cons name true true stat contents rest))
    (hsel : Selected fs ⟨name, true, true⟩) (hprint : printFilesInDir fs path rest = [])
    (hselected : selected fs rest = []) (hsub : subdirectories path rest = []) :
    Separated fs path (.cons name true true stat contents rest) ↔
      Separated fs (subPath path name) contents := by
  have hout : sections (printFilesInDir fs path (.cons name true true stat contents rest)) =
      ([name], (subPath path name,
        (sections (printFilesInDir fs (subPath path name) contents)).1) ::
          (sections (printFilesInDir fs (subPath path name) contents)).2) := by
    rw [print_cons_dir hrec hdot hfits, hprint, List.append_nil]
    rfl
  have hbelow : ∀ d ∈ (subdirectories (subPath path name) contents).map fun d =>
      ((d.1, (selected fs d.2 : Multiset Name)) : Listed),
        (subPath path name).length < d.1.length := by
    intro d hd
    obtain ⟨d', hd', rfl⟩ := List.mem_map.1 hd
    exact length_lt_of_mem_subdirectories hd'
  have hlisted := perm_cons_iff
    (sections (printFilesInDir fs (subPath path name) contents)).1 (selected fs contents)
    ((sections (printFilesInDir fs (subPath path name) contents)).2.map fun s => (s.1, s.2)) hbelow
  rw [Multiset.coe_eq_coe] at hlisted
  constructor
  · rintro ⟨-, hothers⟩
    rw [hout, if_pos hrec, subdirectories_cons_dir hdot, hsub, List.append_nil] at hothers
    obtain ⟨hfirst, hothers⟩ := hlisted.1 hothers
    exact ⟨hfirst, by rwa [if_pos hrec]⟩
  · rintro ⟨hfirst, hothers⟩
    rw [if_pos hrec] at hothers
    refine ⟨?_, ?_⟩
    · rw [hout, selected_cons hdot, if_pos hsel, hselected]
    · rw [hout, if_pos hrec, subdirectories_cons_dir hdot, hsub, List.append_nil]
      exact hlisted.2 ⟨hfirst, hothers⟩

/-- An entry that is no directory has its line in the section, if it has one. -/
theorem separated_cons_file (hdot : isDot name = false)
    (hfits : Printable fs path (.cons name false typed stat contents rest))
    (hrightly : Rightly fs ⟨name, false, typed⟩) :
    Separated fs path (.cons name false typed stat contents rest) ↔ Separated fs path rest := by
  by_cases hdirectory : fs.directory
  · refine separated_lines [] ?_ ?_ (subdirectories_cons_file hdot)
    · rw [print_cons_other hdot rfl hfits, if_pos hdirectory]
      rfl
    · rw [selected_cons hdot, if_neg fun hsel => Bool.false_ne_true (hsel.2 hdirectory)]
      rfl
  · refine separated_lines [name] ?_ ?_ (subdirectories_cons_file hdot)
    · rw [print_cons_other hdot rfl hfits, if_neg hdirectory]
      rfl
    · rw [selected_cons hdot, if_pos (hrightly fun h => absurd h hdirectory)]
      rfl

/-- Where everything printed is selected, nothing is printed behind a directory whose line ends the
section. -/
theorem silent_of_separated (hrec : fs.recursive) (hdot : isDot name = false)
    (hfits : Printable fs path (.cons name true true stat contents rest))
    (hsel : Selected fs ⟨name, true, true⟩) (hrightly : EveryItem (Rightly fs) path rest)
    (h : Separated fs path (.cons name true true stat contents rest)) :
    ∀ i ∈ items rest, ¬ Printed fs i := by
  have hfirst := h.first
  rw [print_cons_dir hrec hdot hfits, selected_cons hdot, if_pos hsel] at hfirst
  exact silent_of_selected hrightly ((List.perm_cons _).1 hfirst).nil_eq.symm

/-- Where everything printed is selected, each directory has its section exactly if nothing is
printed behind a directory. -/
theorem separated_iff_last (hrec : fs.recursive) (hfits : Printable fs path es)
    (htyped : EveryItem Typed path es) (hrightly : EveryItem (Rightly fs) path es) :
    Separated fs path es ↔ Everywhere (DirsLast fs) path es := by
  have hL : ∀ i is, DirsLast fs (i :: is) → DirsLast fs is := fun _ _ h => h.of_cons
  induction es using Entries.kinds generalizing path with
  | nil =>
    refine iff_of_true ⟨List.Perm.refl _, ?_⟩ (everywhere_nil.2 List.Pairwise.nil)
    rw [if_pos hrec]
    exact List.Perm.refl _
  | dot name isDir typed stat contents rest hdot ih =>
    rw [everyItem_cons_dot hdot] at htyped hrightly
    rw [everywhere_cons_dot hdot, separated_lines [] (print_cons_dot hdot) (selected_cons_dot hdot)
      (subdirectories_cons_dot hdot)]
    exact ih hfits.2.2.2 htyped hrightly
  | file name typed stat contents rest hdot ih =>
    rw [everyItem_cons_file hdot] at htyped hrightly
    rw [everywhere_cons_file hdot hL]
    refine (separated_cons_file hdot hfits hrightly.1).trans
      ((ih hfits.2.2.2 htyped.2 hrightly.2).trans ⟨fun h => ⟨?_, h⟩, And.right⟩)
    exact List.pairwise_cons.2 ⟨fun _ _ hdir => (Bool.false_ne_true hdir).elim,
      (List.forall_mem_cons.1 h).1⟩
  | dir name typed stat contents rest hdot ihContents _ =>
    rw [everyItem_cons_dir hdot] at htyped hrightly
    rw [everywhere_cons_dir hdot hL]
    obtain rfl : typed = true := htyped.1 rfl
    obtain ⟨-, -, hcontents, hrest⟩ := id hfits
    have hsel : Selected fs ⟨name, true, true⟩ := hrightly.1 fun _ => ⟨rfl, rfl⟩
    have hsilent : (∀ j ∈ items rest, ¬ Printed fs j) →
        (Separated fs path (.cons name true true stat contents rest) ↔
          Everywhere (DirsLast fs) (subPath path name) contents) := by
      intro hno
      exact (separated_cons_dir hrec hdot hfits hsel (print_of_silent hrest hno)
        (selected_of_silent htyped.2.2 hno) (subdirectories_of_silent htyped.2.2 hno)).trans
          (ihContents hcontents htyped.2.1 hrightly.2.1)
    constructor
    · intro h
      have hno := silent_of_separated hrec hdot hfits hsel hrightly.2.2 h
      refine ⟨List.pairwise_cons.2 ⟨fun j hj _ => hno j hj, dirsLast_of_silent hno⟩,
        (hsilent hno).1 h, ?_⟩
      rw [Everywhere, subdirectories_of_silent htyped.2.2 hno, List.forall_mem_singleton]
      exact dirsLast_of_silent hno
    · rintro ⟨hlast, hbelow, -⟩
      exact (hsilent fun j hj => (List.pairwise_cons.1 hlast).1 j hj rfl).2 hbelow

theorem tidy_iff_of_recursive (hrec : fs.recursive) (is : List Item) :
    Tidy fs is ↔ (∀ i ∈ is, Typed i) ∧ (∀ i ∈ is, Rightly fs i) ∧ DirsLast fs is := by
  constructor
  · intro h
    exact ⟨fun i hi hdir => h.typed i hi hdir (.inl hrec),
      fun i hi hprinted => ⟨h.visible i hi hprinted, fun hdirectory => (hprinted hdirectory).1⟩,
      h.last hrec⟩
  · rintro ⟨htyped, hrightly, hlast⟩
    exact ⟨fun i hi hprinted => (hrightly i hi hprinted).1, fun i hi hdir _ => htyped i hi hdir,
      fun _ => hlast⟩

/-- **With `recursive` the sections are right exactly if all directories are tidy.** -/
theorem separated_iff_of_recursive (hrec : fs.recursive) (hfits : Printable fs path es) :
    Separated fs path es ↔ Everywhere (Tidy fs) path es := by
  have htidy : Everywhere (Tidy fs) path es ↔ EveryItem Typed path es ∧
      EveryItem (Rightly fs) path es ∧ Everywhere (DirsLast fs) path es := by
    simp only [EveryItem, Everywhere, tidy_iff_of_recursive hrec, forall_and]
  rw [htidy]
  constructor
  · intro h
    have hothers := h.others
    rw [if_pos hrec] at hothers
    -- there are as many headers as directories, and as many lines as selected entries
    have hheaders := hothers.length_eq
    rw [List.length_map, List.length_map, length_sections] at hheaders
    have htyped := (headers_le hrec hfits).2 (Nat.le_of_eq hheaders.symm)
    have hsums := (hothers.map fun l => Multiset.card l.2).sum_nat
    rw [List.map_map, List.map_map] at hsums
    have hlines := length_lines (printFilesInDir fs path es)
    have hrightly := (selectedCount_le hrec hfits htyped).2 (by
      rw [← hlines, selectedCount, h.first.length_eq]
      exact Nat.add_le_add_left (Nat.le_of_eq hsums) _)
    exact ⟨htyped, hrightly, (separated_iff_last hrec hfits htyped hrightly).1 h⟩
  · rintro ⟨htyped, hrightly, hlast⟩
    exact (separated_iff_last hrec hfits htyped hrightly).2 hlast

/-! ## Without `recursive` -/

/-- The line of an entry. -/
theorem print_cons_flat (hrec : ¬ fs.recursive) (hdot : isDot name = false)
    (hfits : Printable fs path (.cons name isDir typed stat contents rest)) :
    printFilesInDir fs path (.cons name isDir typed stat contents rest) =
      (if Printed fs ⟨name, isDir, typed⟩ then [.line name] else []) ++
        printFilesInDir fs path rest := by
  rw [print_cons hdot hfits, if_neg hrec]
  congr 1
  by_cases hkind : (isDir && typed) = true
  · have hprinted : Printed fs ⟨name, isDir, typed⟩ := fun _ => Bool.and_eq_true_iff.1 hkind
    rw [if_pos hkind, if_pos hprinted]
  · rw [if_neg hkind]
    by_cases hdirectory : fs.directory
    · have hprinted : ¬ Printed fs ⟨name, isDir, typed⟩ :=
        fun h => hkind (Bool.and_eq_true_iff.2 (h hdirectory))
      rw [if_pos hdirectory, if_neg hprinted]
    · have hprinted : Printed fs ⟨name, isDir, typed⟩ := fun h => absurd h hdirectory
      rw [if_neg hdirectory, if_pos hprinted]

theorem print_flat (hrec : ¬ fs.recursive) (hfits : Printable fs path es) :
    printFilesInDir fs path es =
      (((items es).filter (Printed fs ·)).map Item.name).map Event.line := by
  induction es with
  | nil => rfl
  | cons name isDir typed stat contents rest _ ih =>
    cases hdot : isDot name with
    | true =>
      rw [print_cons_dot hdot, items_cons_dot hdot]
      exact ih hfits.2.2.2
    | false =>
      rw [print_cons_flat hrec hdot hfits, items_cons hdot, List.filter_cons, ih hfits.2.2.2]
      by_cases hprinted : Printed fs ⟨name, isDir, typed⟩
      · rw [if_pos hprinted, if_pos (decide_eq_true hprinted)]
        rfl
      · rw [if_neg hprinted, if_neg (mt of_decide_eq_true hprinted)]
        rfl

theorem tidy_iff_of_not_recursive (hrec : ¬ fs.recursive) (is : List Item) :
    Tidy fs is ↔ ∀ i ∈ is, Printed fs i ↔ Selected fs i := by
  constructor
  · intro h i hi
    refine ⟨fun hprinted => ⟨h.visible i hi hprinted, fun hdirectory => (hprinted hdirectory).1⟩,
      fun hsel hdirectory => ?_⟩
    have hdir := hsel.2 hdirectory
    exact ⟨hdir, h.typed i hi hdir (.inr ⟨hdirectory, hsel⟩)⟩
  · intro h
    refine ⟨fun i hi hprinted => ((h i hi).1 hprinted).1, fun i hi _ hwhy => ?_,
      fun h => absurd h hrec⟩
    obtain hr | ⟨hdirectory, hsel⟩ := hwhy
    · exact absurd hr hrec
    · exact ((h i hi).2 hsel hdirectory).2

/-- The names that are printed and those that are selected are the same only if the entries are:
whether an entry is hidden is visible in its name. -/
theorem filter_perm_iff (fs : FlagsStates) (is : List Item) :
    ((is.filter (Printed fs ·)).map Item.name).Perm
        ((is.filter (Selected fs ·)).map Item.name) ↔ ∀ i ∈ is, Printed fs i ↔ Selected fs i := by
  constructor
  · intro h
    have hsub : ∀ i ∈ is, Printed fs i → Selected fs i := by
      intro i hi hprinted
      have hmem := h.subset (List.mem_map_of_mem
        (List.mem_filter.2 ⟨hi, decide_eq_true hprinted⟩))
      obtain ⟨j, hj, hname⟩ := List.mem_map.1 hmem
      have hsel := of_decide_eq_true (List.mem_filter.1 hj).2
      exact ⟨hname ▸ hsel.1, fun hdirectory => (hprinted hdirectory).1⟩
    have htwice : is.filter (Printed fs ·) = (is.filter (Selected fs ·)).filter (Printed fs ·) := by
      rw [List.filter_filter]
      refine List.filter_congr fun i hi => ?_
      rw [Bool.eq_iff_iff, Bool.and_eq_true_iff, decide_eq_true_eq, decide_eq_true_eq]
      exact (and_iff_left_of_imp (hsub i hi)).symm
    have hlength := h.length_eq
    rw [List.length_map, List.length_map, htwice] at hlength
    have hall := List.length_filter_eq_length_iff.1 hlength
    exact fun i hi => ⟨hsub i hi, fun hsel =>
      of_decide_eq_true (hall i (List.mem_filter.2 ⟨hi, decide_eq_true hsel⟩))⟩
  · intro h
    rw [List.filter_congr fun i hi => decide_eq_decide.2 (h i hi)]

/-- **Without `recursive` the one section is right exactly if the directory is tidy.** -/
theorem separated_iff_of_not_recursive (hrec : ¬ fs.recursive) (hfits : Printable fs path es) :
    Separated fs path es ↔ Tidy fs (items es) := by
  have hsections : sections (printFilesInDir fs path es) =
      (((items es).filter (Printed fs ·)).map Item.name, []) := by
    have h := sections_lines (((items es).filter (Printed fs ·)).map Item.name) []
    rw [List.append_nil] at h
    rw [print_flat hrec hfits, h]
    exact congrArg (·, []) (List.append_nil _)
  rw [tidy_iff_of_not_recursive hrec, ← filter_perm_iff]
  constructor
  · intro h
    have hfirst := h.first
    rwa [hsections] at hfirst
  · intro h
    refine ⟨?_, ?_⟩
    · rwa [hsections]
    · rw [hsections, if_neg hrec]
      exact List.Perm.refl _

/-- **The entries of each directory are listed below its header, each once, exactly if every
directory that is listed is tidy.** -/
theorem separated_iff (fs : FlagsStates) (path : Name) (es : Entries Stat)
    (hfits : Printable fs path es) :
    Separated fs path es ↔
      ∀ d ∈ (path, es) :: (if fs.recursive then subdirectories path es else []),
        Tidy fs (items d.2) := by
  by_cases hrec : fs.recursive
  · rw [if_pos hrec]
    exact separated_iff_of_recursive hrec hfits
  · rw [if_neg hrec, List.forall_mem_singleton]
    exact separated_iff_of_not_recursive hrec hfits

/-- A file and, behind it, a directory with a file. -/
def fileFirst : Entries Unit :=
  .cons ['f'] false true (some ()) .nil
    (.cons ['d'] true true (some ()) (.cons ['g'] false true (some ()) .nil .nil) .nil)

/-- `myls -R`. -/
def recursively : FlagsStates := ⟨false, false, false, false, false, true⟩

theorem separated_fileFirst : Separated recursively dot fileFirst :=
  (separated_iff recursively dot fileFirst (by
    simp only [fileFirst, Printable, recursively]
    decide)).2 (by
      intro d hd
      obtain rfl | hd := List.mem_cons.1 hd
      · exact ⟨by decide, by decide, fun _ => by decide⟩
      · obtain rfl := List.mem_singleton.1 hd
        exact ⟨by decide, by decide, fun _ => by decide⟩)

/-- A directory and, behind it, a file. -/
def directoryFirst : Entries Unit :=
  .cons ['d'] true true (some ()) .nil (.cons ['f'] false true (some ()) .nil .nil)

/-- `myls -R` prints the file below the header of the directory. -/
theorem file_below_header : ¬ ∀ (fs : FlagsStates) (path : Name) (es : Entries Unit),
    Printable fs path es → Separated fs path es := by
  intro h
  have hfits : Printable recursively dot directoryFirst := by
    simp only [directoryFirst, Printable, recursively]
    decide
  have hlength := (h recursively dot directoryFirst hfits).first.length_eq
  exact absurd hlength (by decide)

end SemOS.Myls
