import SemOS.Foundations.Paths
import Mathlib.Data.List.Nodup

/-!
# The search for symbolic links

`find_symlinks_recursive` of `sems/symlinks_recursive/sym.c` prints the symbolic links in a
directory and calls itself for the subdirectories, down to a depth. What it cannot open and what it
learns nothing of it leaves out, and also what has too long a path, with a message on `stderr`.

* `findSymlinksRecursive_eq`: the recursion of the source.
* `mem_search`: what is printed. `nodup_search`: it is printed once. `tooLong_mem_search`: the
  messages.
* `search_exact`: the search finds the links in the directories that can be reached, opened and
  searched.
-/

namespace SemOS.Symlinks

open Paths

/-- `DEPTH_MAX`. -/
def depthMax : ℕ := 100

/-- What an entry of a directory is. -/
inductive Kind
  | link (target : List Char)
  | directory
  | other

/-- `full_path`. -/
def fullPath (dirPath name : Name) : Name := dirPath ++ '/' :: name

/-- The files, by their paths: the names in the directory that a path leads to, through links or
not; what the entry with this path is, whatever it leads to; and whether the directory may be opened
and searched. -/
structure Files where
  names : Name → List Name
  kind : Name → Kind
  readable : Name → Bool
  searchable : Name → Bool
  names_nodup : ∀ path, (names path).Nodup
  names_valid : ∀ path, ∀ name ∈ names path, '/' ∉ name

/-- `opendir` and the calls of `readdir`. -/
def Files.opendir (fs : Files) (dirPath : Name) : Option (List Name) :=
  if fs.readable dirPath then some (fs.names dirPath) else none

/-- `lstat` of an entry, which needs permission to search its directory. -/
def Files.lstat (fs : Files) (dirPath name : Name) : Option Kind :=
  if fs.searchable dirPath then some (fs.kind (fullPath dirPath name)) else none

/-- A directory that has been opened, a line with the path that it is about, and the message
`Path too long: ` with its path. -/
inductive Event
  | opened (path : Name)
  | printed (path : Name) (text : List Char)
  | tooLong (path : Name)

/-- The line of a link. `readlink` fills a buffer with at most 1023 bytes. -/
def linkText (name target : List Char) : List Char := name ++ " -> ".toList ++ target.take 1023

/-- `print_info`. -/
def printInfo (fs : Files) (dirPath name : Name) : List Event :=
  match fs.lstat dirPath name with
  | none => []
  | some (.link target) => [.printed (fullPath dirPath name) (linkText name target)]
  | some _ => [.printed (fullPath dirPath name) name]

/-- The body of the loop of `find_symlinks_recursive`, where `descend` is what it does with a
subdirectory. -/
def visitEntry (fs : Files) (descend : Name → List Event) (dirPath name : Name) : List Event :=
  if isDot name then []
  else if pathMax ≤ (fullPath dirPath name).length then [.tooLong (fullPath dirPath name)]
  else match fs.lstat dirPath name with
    | none => []
    | some (.link _) => printInfo fs dirPath name
    | some .directory => descend (fullPath dirPath name)
    | some .other => []

/-- `find_symlinks_recursive` without its recursion. -/
def visit (fs : Files) (descend : Name → List Event) (dirPath : Name) : List Event :=
  match fs.opendir dirPath with
  | none => []
  | some names => .opened dirPath :: names.flatMap (visitEntry fs descend dirPath)

/-- `find_symlinks_recursive`, with the number of levels that it may still go down. -/
def search (fs : Files) : ℕ → Name → List Event
  | 0 => visit fs fun _ => []
  | left + 1 => visit fs (search fs left)

/-- `find_symlinks_recursive`. -/
def findSymlinksRecursive (fs : Files) (dirPath : Name) (depth : ℕ) : List Event :=
  search fs (depthMax - depth) dirPath

/-- The recursion of the source. -/
theorem findSymlinksRecursive_eq (fs : Files) (dirPath : Name) (depth : ℕ) :
    findSymlinksRecursive fs dirPath depth =
      visit fs
        (fun path => if depth < depthMax then findSymlinksRecursive fs path (depth + 1) else [])
        dirPath := by
  rw [findSymlinksRecursive]
  by_cases h : depth < depthMax
  · obtain ⟨left, hleft⟩ := Nat.exists_eq_add_of_lt h
    rw [show depthMax - depth = left + 1 by omega, search]
    congr 1
    funext path
    rw [if_pos h, findSymlinksRecursive, show depthMax - (depth + 1) = left by omega]
  · rw [Nat.sub_eq_zero_of_le (Nat.not_lt.1 h), search]
    congr 1
    funext path
    rw [if_neg h]

/-! ## What is to be found -/

/-- An entry of a directory that is not left out for its name or the length of its path. -/
structure Listed (fs : Files) (dir name : Name) : Prop where
  mem : name ∈ fs.names dir
  notDot : isDot name = false
  fits : (fullPath dir name).length < pathMax

/-- The directory `dir'` is `depth` levels below `dir`, by way of directories with `may`. -/
inductive Below (fs : Files) (may : Name → Prop) : Name → Name → ℕ → Prop
  | here (dir) : Below fs may dir dir 0
  | down {dir name dir' depth} (hmay : may dir) (hlisted : Listed fs dir name)
      (hkind : fs.kind (fullPath dir name) = .directory)
      (hbelow : Below fs may (fullPath dir name) dir' depth) : Below fs may dir dir' (depth + 1)

/-- A line that is to be printed: the one of a link in a directory with `may`, not too deep. -/
def Found (fs : Files) (may : Name → Prop) (levels : ℕ) (dir path text : Name) : Prop :=
  ∃ dir' depth name target, Below fs may dir dir' depth ∧ depth ≤ levels ∧ may dir' ∧
    Listed fs dir' name ∧ fs.kind (fullPath dir' name) = .link target ∧
      path = fullPath dir' name ∧ text = linkText name target

/-- The path that a line is about. -/
def Event.printedPath : Event → Option Name
  | .opened _ | .tooLong _ => none
  | .printed path _ => some path

/-- An entry of a directory whose path is too long. -/
structure Overlong (fs : Files) (dir name : Name) : Prop where
  mem : name ∈ fs.names dir
  notDot : isDot name = false
  tooLong : pathMax ≤ (fullPath dir name).length

/-- The search from `root` prints every link once that lies in a directory which is reached by way
of directories with `may`, at depth `depthMax` at most; and nothing else; and it descends into real
directories only. -/
structure Exact (fs : Files) (may : Name → Prop) (root : Name) : Prop where
  found : ∀ path text, .printed path text ∈ findSymlinksRecursive fs root 0 ↔
    Found fs may depthMax root path text
  once : ((findSymlinksRecursive fs root 0).filterMap Event.printedPath).Nodup
  descends : ∀ path, .opened path ∈ findSymlinksRecursive fs root 0 →
    path = root ∨ fs.kind path = .directory

/-- The directories that may be opened and searched. -/
def Files.Permits (fs : Files) (dir : Name) : Prop := fs.readable dir ∧ fs.searchable dir

/-- An entry with too long a path, in a directory that is reached and may be opened. -/
def Reported (fs : Files) (levels : ℕ) (dir path : Name) : Prop :=
  ∃ dir' depth name, Below fs fs.Permits dir dir' depth ∧ depth ≤ levels ∧ fs.readable dir' ∧
    Overlong fs dir' name ∧ path = fullPath dir' name

variable {fs : Files} {may : Name → Prop} {descend : Name → List Event} {dir name path text : Name}
  {levels left : ℕ} {e : Event}

/-! ## What is printed -/

theorem mem_visitEntry : e ∈ visitEntry fs descend dir name ↔
    isDot name = false ∧
      (pathMax ≤ (fullPath dir name).length ∧ e = .tooLong (fullPath dir name) ∨
        (fullPath dir name).length < pathMax ∧ fs.searchable dir ∧
          ((∃ target, fs.kind (fullPath dir name) = .link target ∧
              e = .printed (fullPath dir name) (linkText name target)) ∨
            fs.kind (fullPath dir name) = .directory ∧ e ∈ descend (fullPath dir name))) := by
  rw [visitEntry, printInfo, Files.lstat]
  cases hdot : isDot name with
  | true => simp
  | false =>
    by_cases hlen : pathMax ≤ (fullPath dir name).length
    · simp [hlen, Nat.not_lt.2 hlen]
    · cases hsearch : fs.searchable dir with
      | false => simp
      | true => cases hkind : fs.kind (fullPath dir name) <;> simp [hlen, Nat.not_le.1 hlen]

theorem mem_visit : e ∈ visit fs descend dir ↔
    fs.readable dir ∧
      (e = .opened dir ∨ ∃ name ∈ fs.names dir, e ∈ visitEntry fs descend dir name) := by
  rw [visit, Files.opendir]
  cases fs.readable dir with
  | false => simp
  | true => simp

/-- The lines of a directory: those of its links, and those of its subdirectories. -/
theorem printed_mem_visit : .printed path text ∈ visit fs descend dir ↔
    fs.Permits dir ∧ ∃ name, Listed fs dir name ∧
      ((∃ target, fs.kind (fullPath dir name) = .link target ∧ path = fullPath dir name ∧
          text = linkText name target) ∨
        fs.kind (fullPath dir name) = .directory ∧
          .printed path text ∈ descend (fullPath dir name)) := by
  rw [mem_visit]
  constructor
  · rintro ⟨hread, heq | ⟨name, hmem, he⟩⟩
    · cases heq
    · obtain ⟨hdot, ⟨-, heq⟩ | ⟨hfits, hsearch, hcase⟩⟩ := mem_visitEntry.1 he
      · cases heq
      refine ⟨⟨hread, hsearch⟩, name, ⟨hmem, hdot, hfits⟩, hcase.imp_left ?_⟩
      rintro ⟨target, hkind, heq⟩
      cases heq
      exact ⟨target, hkind, rfl, rfl⟩
  · rintro ⟨⟨hread, hsearch⟩, name, ⟨hmem, hdot, hfits⟩, hcase⟩
    refine ⟨hread, .inr ⟨name, hmem,
      mem_visitEntry.2 ⟨hdot, .inr ⟨hfits, hsearch, hcase.imp_left ?_⟩⟩⟩⟩
    rintro ⟨target, hkind, rfl, rfl⟩
    exact ⟨target, hkind, rfl⟩

/-- What is to be found from a directory lies in it, or is to be found from a subdirectory. -/
theorem found_iff : Found fs may levels dir path text ↔
    may dir ∧ ∃ name, Listed fs dir name ∧
      ((∃ target, fs.kind (fullPath dir name) = .link target ∧ path = fullPath dir name ∧
          text = linkText name target) ∨
        fs.kind (fullPath dir name) = .directory ∧
          ∃ left, levels = left + 1 ∧ Found fs may left (fullPath dir name) path text) := by
  constructor
  · rintro ⟨dir', depth, name, target, hbelow, hdepth, hmay, hlisted, hkind, hpath, htext⟩
    cases hbelow with
    | here => exact ⟨hmay, name, hlisted, .inl ⟨target, hkind, hpath, htext⟩⟩
    | down hmay' hlisted' hkind' hbelow =>
      obtain ⟨left, rfl⟩ := Nat.exists_eq_add_one_of_ne_zero (Nat.ne_zero_of_lt hdepth)
      exact ⟨hmay', _, hlisted', .inr ⟨hkind', left, rfl, dir', _, name, target, hbelow,
        Nat.le_of_succ_le_succ hdepth, hmay, hlisted, hkind, hpath, htext⟩⟩
  · rintro ⟨hmay, name, hlisted, ⟨target, hkind, hpath, htext⟩ | ⟨hkind, left, rfl, dir', depth,
      name', target, hbelow, hdepth, hmay', hlisted', hkind', hpath, htext⟩⟩
    · exact ⟨dir, 0, name, target, .here dir, Nat.zero_le _, hmay, hlisted, hkind, hpath, htext⟩
    · exact ⟨dir', depth + 1, name', target, .down hmay hlisted hkind hbelow,
        Nat.succ_le_succ hdepth, hmay', hlisted', hkind', hpath, htext⟩

/-- The search prints the lines that are to be found. -/
theorem mem_search : .printed path text ∈ search fs left dir ↔
    Found fs fs.Permits left dir path text := by
  induction left generalizing dir with
  | zero =>
    rw [search, printed_mem_visit, found_iff]
    simp
  | succ left ih =>
    rw [search, printed_mem_visit, found_iff]
    simp only [ih, Nat.add_right_cancel_iff, exists_eq_left']

/-- The messages of a directory: those of its entries, and those of its subdirectories. -/
theorem tooLong_mem_visit : .tooLong path ∈ visit fs descend dir ↔
    fs.readable dir ∧ ∃ name, Overlong fs dir name ∧ path = fullPath dir name ∨
      fs.searchable dir ∧ Listed fs dir name ∧ fs.kind (fullPath dir name) = .directory ∧
        .tooLong path ∈ descend (fullPath dir name) := by
  rw [mem_visit]
  refine and_congr_right fun _ => ?_
  constructor
  · rintro (heq | ⟨name, hmem, he⟩)
    · cases heq
    · obtain ⟨hdot, ⟨hlong, heq⟩ | ⟨hfits, hsearch, ⟨target, -, heq⟩ | ⟨hkind, hin⟩⟩⟩ :=
        mem_visitEntry.1 he
      · cases heq
        exact ⟨name, .inl ⟨⟨hmem, hdot, hlong⟩, rfl⟩⟩
      · cases heq
      · exact ⟨name, .inr ⟨hsearch, ⟨hmem, hdot, hfits⟩, hkind, hin⟩⟩
  · rintro ⟨name, ⟨⟨hmem, hdot, hlong⟩, rfl⟩ | ⟨hsearch, ⟨hmem, hdot, hfits⟩, hkind, hin⟩⟩
    · exact .inr ⟨name, hmem, mem_visitEntry.2 ⟨hdot, .inl ⟨hlong, rfl⟩⟩⟩
    · exact .inr ⟨name, hmem, mem_visitEntry.2 ⟨hdot, .inr ⟨hfits, hsearch, .inr ⟨hkind, hin⟩⟩⟩⟩

/-- A message from below a directory is about one of its entries, or comes from below a
subdirectory. -/
theorem reported_iff : Reported fs levels dir path ↔
    fs.readable dir ∧ ∃ name, Overlong fs dir name ∧ path = fullPath dir name ∨
      fs.searchable dir ∧ Listed fs dir name ∧ fs.kind (fullPath dir name) = .directory ∧
        ∃ left, levels = left + 1 ∧ Reported fs left (fullPath dir name) path := by
  constructor
  · rintro ⟨dir', depth, name, hbelow, hdepth, hread, hlong, hpath⟩
    cases hbelow with
    | here => exact ⟨hread, name, .inl ⟨hlong, hpath⟩⟩
    | down hmay hlisted hkind hbelow =>
      obtain ⟨left, rfl⟩ := Nat.exists_eq_add_one_of_ne_zero (Nat.ne_zero_of_lt hdepth)
      exact ⟨hmay.1, _, .inr ⟨hmay.2, hlisted, hkind, left, rfl, dir', _, name, hbelow,
        Nat.le_of_succ_le_succ hdepth, hread, hlong, hpath⟩⟩
  · rintro ⟨hread, name, ⟨hlong, hpath⟩ | ⟨hsearch, hlisted, hkind, left, rfl, dir', depth, name',
      hbelow, hdepth, hread', hlong, hpath⟩⟩
    · exact ⟨dir, 0, name, .here dir, Nat.zero_le _, hread, hlong, hpath⟩
    · exact ⟨dir', depth + 1, name', .down ⟨hread, hsearch⟩ hlisted hkind hbelow,
        Nat.succ_le_succ hdepth, hread', hlong, hpath⟩

/-- **There is a message for every entry with too long a path** in the directories that are reached
and may be opened, whether or not they may be searched, and no other message. -/
theorem tooLong_mem_search : .tooLong path ∈ search fs left dir ↔ Reported fs left dir path := by
  induction left generalizing dir with
  | zero =>
    rw [search, tooLong_mem_visit, reported_iff]
    simp
  | succ left ih =>
    rw [search, tooLong_mem_visit, reported_iff]
    simp only [ih, Nat.add_right_cancel_iff, exists_eq_left']

/-! ## Nothing is printed twice -/

/-- The paths of the lines. -/
def printedPaths (out : List Event) : List Name := out.filterMap Event.printedPath

theorem mem_printedPaths {out : List Event} :
    path ∈ printedPaths out ↔ ∃ text, .printed path text ∈ out := by
  rw [printedPaths, List.mem_filterMap]
  constructor
  · rintro ⟨e, he, hpath⟩
    cases e with
    | opened _ | tooLong _ => cases hpath
    | printed path' text =>
      cases hpath
      exact ⟨text, he⟩
  · rintro ⟨text, h⟩
    exact ⟨_, h, rfl⟩

/-- A path in the entry of a directory: the entry itself, or something below it. -/
theorem path_of_visitEntry
    (hdescend : ∀ d, ∀ path ∈ printedPaths (descend d), ∃ rest, path = d ++ '/' :: rest)
    (h : path ∈ printedPaths (visitEntry fs descend dir name)) :
    ∃ rest, path = fullPath dir name ++ rest ∧ (rest = [] ∨ ∃ more, rest = '/' :: more) := by
  obtain ⟨text, htext⟩ := mem_printedPaths.1 h
  obtain ⟨-, ⟨-, heq⟩ | ⟨-, -, ⟨target, -, heq⟩ | ⟨-, hin⟩⟩⟩ := mem_visitEntry.1 htext
  · cases heq
  · cases heq
    exact ⟨[], (List.append_nil _).symm, .inl rfl⟩
  · obtain ⟨rest, rfl⟩ := hdescend _ _ (mem_printedPaths.2 ⟨text, hin⟩)
    exact ⟨_, rfl, .inr ⟨rest, rfl⟩⟩

theorem path_of_visit
    (hdescend : ∀ d, ∀ path ∈ printedPaths (descend d), ∃ rest, path = d ++ '/' :: rest)
    (h : path ∈ printedPaths (visit fs descend dir)) : ∃ rest, path = dir ++ '/' :: rest := by
  obtain ⟨text, htext⟩ := mem_printedPaths.1 h
  obtain ⟨-, heq | ⟨name, -, hin⟩⟩ := mem_visit.1 htext
  · cases heq
  · obtain ⟨rest, rfl, -⟩ := path_of_visitEntry hdescend (mem_printedPaths.2 ⟨text, hin⟩)
    exact ⟨name ++ rest, List.append_assoc dir ('/' :: name) rest⟩

theorem nodup_visitEntry (hdescend : ∀ d, (printedPaths (descend d)).Nodup) :
    (printedPaths (visitEntry fs descend dir name)).Nodup := by
  rw [visitEntry, printInfo, Files.lstat]
  split
  · exact List.nodup_nil
  · split
    · exact List.nodup_nil
    · cases fs.searchable dir with
      | false => exact List.nodup_nil
      | true =>
        cases hkind : fs.kind (fullPath dir name) with
        | link target => exact List.nodup_singleton _
        | directory => exact hdescend _
        | other => exact List.nodup_nil

/-- Different entries of a directory have different paths below them. -/
theorem nodup_visit
    (hbelow : ∀ d, ∀ path ∈ printedPaths (descend d), ∃ rest, path = d ++ '/' :: rest)
    (hdescend : ∀ d, (printedPaths (descend d)).Nodup) :
    (printedPaths (visit fs descend dir)).Nodup := by
  rw [visit, Files.opendir]
  cases fs.readable dir with
  | false => exact List.nodup_nil
  | true =>
    show (((fs.names dir).flatMap (visitEntry fs descend dir)).filterMap Event.printedPath).Nodup
    rw [List.filterMap_flatMap, List.nodup_flatMap]
    refine ⟨fun name _ => nodup_visitEntry hdescend,
      (fs.names_nodup dir).pairwise_of_forall_ne fun name hname name' hname' hne => ?_⟩
    intro path h h'
    obtain ⟨rest, rfl, hrest⟩ := path_of_visitEntry hbelow h
    obtain ⟨rest', heq, hrest'⟩ := path_of_visitEntry hbelow h'
    rw [fullPath, fullPath, List.append_assoc, List.append_assoc] at heq
    have hsame : name ++ rest = name' ++ rest' :=
      List.tail_eq_of_cons_eq (List.append_cancel_left heq)
    have hnames := congrArg (List.takeWhile (· ≠ '/')) hsame
    rw [takeWhile_name (fs.names_valid dir name hname) hrest,
      takeWhile_name (fs.names_valid dir name' hname') hrest'] at hnames
    exact hne hnames

theorem nodup_search (fs : Files) (left : ℕ) (dir : Name) :
    (printedPaths (search fs left dir)).Nodup ∧
      ∀ path ∈ printedPaths (search fs left dir), ∃ rest, path = dir ++ '/' :: rest := by
  induction left generalizing dir with
  | zero =>
    refine ⟨nodup_visit ?_ fun _ => List.nodup_nil, fun path h => path_of_visit ?_ h⟩ <;>
      exact fun _ _ h => (List.not_mem_nil h).elim
  | succ left ih =>
    exact ⟨nodup_visit (fun d => (ih d).2) fun d => (ih d).1,
      fun path h => path_of_visit (fun d => (ih d).2) h⟩

/-! ## What is opened -/

/-- Only real directories are opened below the first one. -/
theorem opened_mem_search (h : .opened path ∈ search fs left dir) :
    path = dir ∨ fs.kind path = .directory := by
  induction left generalizing dir with
  | zero =>
    obtain ⟨-, heq | ⟨name, -, hin⟩⟩ := mem_visit.1 h
    · cases heq
      exact .inl rfl
    · obtain ⟨-, ⟨-, heq⟩ | ⟨-, -, ⟨target, -, heq⟩ | ⟨-, hin⟩⟩⟩ := mem_visitEntry.1 hin
      · cases heq
      · cases heq
      · exact (List.not_mem_nil hin).elim
  | succ left ih =>
    obtain ⟨-, heq | ⟨name, -, hin⟩⟩ := mem_visit.1 h
    · cases heq
      exact .inl rfl
    · obtain ⟨-, ⟨-, heq⟩ | ⟨-, -, ⟨target, -, heq⟩ | ⟨hkind, hin⟩⟩⟩ := mem_visitEntry.1 hin
      · cases heq
      · cases heq
      · obtain rfl | hdir := ih hin
        · exact .inr hkind
        · exact .inr hdir

/-- **The search finds exactly the links in directories which are reached by way of directories that
may be opened and searched.** -/
theorem search_exact (fs : Files) (root : Name) : Exact fs fs.Permits root where
  found _ _ := mem_search
  once := (nodup_search fs depthMax root).1
  descends _ := opened_mem_search

/-- A directory that may be opened but not searched, with a link in it. -/
def unsearchable : Files where
  names path := if path = ['r'] then [['l']] else []
  kind path := if path = fullPath ['r'] ['l'] then .link ['t'] else .directory
  readable _ := true
  searchable _ := false
  names_nodup path := by split <;> simp
  names_valid path name h := by
    split at h
    · rw [List.mem_singleton.1 h]
      decide
    · cases h

/-- `lstat` says nothing of the link, which is not printed. -/
theorem unsearchable_link_missed : ¬ ∀ (fs : Files) (root : Name),
    Exact fs (fun dir => fs.readable dir) root := by
  intro h
  have hfound : Found unsearchable (fun dir => unsearchable.readable dir) depthMax ['r']
      (fullPath ['r'] ['l']) (linkText ['l'] ['t']) :=
    ⟨['r'], 0, ['l'], ['t'], .here _, Nat.zero_le _, rfl, ⟨by decide, rfl, by decide⟩, rfl, rfl,
      rfl⟩
  have hprinted := ((h unsearchable ['r']).found _ _).2 hfound
  obtain ⟨⟨-, hsearch⟩, -⟩ := found_iff.1 (mem_search.1 hprinted)
  exact Bool.false_ne_true hsearch

end SemOS.Symlinks
