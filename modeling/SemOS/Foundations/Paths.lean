import Mathlib.Data.Nat.Notation
import Mathlib.Logic.Function.Iterate

/-!
# Paths and directories

A path consists of components, separated by slashes; each component but the last leads from one
directory to another, and the last one names an entry there.

* `Directories` says where the components lead, through links or not.
* `components_append_slash`: putting paths together. `entryAt_join`: what a path under a directory
  names.
* `significant` are the components that are not `.`; the others lead nowhere else
  (`walk_significant`).
-/

namespace SemOS.Paths

/-- A name, and a path. -/
abbrev Name := List Char

/-- The names of a directory in itself and of its parent. -/
abbrev dot : Name := ['.']
abbrev dotDot : Name := ['.', '.']

/-- The directory itself and its parent. -/
def isDot (name : Name) : Bool := name = dot || name = dotDot

/-- `PATH_MAX`, the size of a buffer for a path with its terminating zero. -/
def pathMax : ℕ := 4096

/-- The components of a path. Slashes that follow each other count as one. -/
def components (path : List Char) : List Name := (path.splitOn '/').filter (· ≠ [])

/-- The components that are not `.`. -/
def significant (names : List Name) : List Name := names.filter (· ≠ dot)

/-- A path that starts with a slash. -/
def Absolute (path : List Char) : Prop := path.head? = some '/'

instance (path : List Char) : Decidable (Absolute path) := inferInstanceAs (Decidable (_ = _))

/-- The directories, and where the names in them lead. -/
structure Directories (Dir : Type*) where
  root : Dir
  cwd : Dir
  parent : Dir → Dir
  enter : Dir → Name → Option Dir
  enter_dot : ∀ d, enter d dot = some d
  enter_dotDot : ∀ d, enter d dotDot = some (parent d)
  parent_root : parent root = root
  rooted : ∀ d, ∃ n, parent^[n] d = root

namespace Directories

variable {Dir : Type*}

/-- The directory that the names lead to, one after the other. -/
def walk (fs : Directories Dir) (d : Dir) (names : List Name) : Option Dir :=
  names.foldlM fs.enter d

/-- Where a path starts. -/
def start (fs : Directories Dir) (path : List Char) : Dir :=
  if Absolute path then fs.root else fs.cwd

/-- The directory that a path names. -/
def directoryAt (fs : Directories Dir) (path : List Char) : Option Dir :=
  if path = [] then none else fs.walk (fs.start path) (components path)

/-- The entry that a path names: a directory, and the name in it. -/
def entryAt (fs : Directories Dir) (path : List Char) : Option (Dir × Name) :=
  (components path).getLast?.bind fun name =>
    (fs.walk (fs.start path) (components path).dropLast).map (·, name)

end Directories

variable {Dir : Type*} {fs : Directories Dir} {d : Dir} {name : Name} {names names' : List Name}
  {path rest : List Char}

/-! ## Components -/

theorem components_append_slash (path rest : List Char) :
    components (path ++ '/' :: rest) = components path ++ components rest := by
  rw [components, List.splitOn_append_cons_self, List.filter_append]
  rfl

/-- What is appended to a path is appended to its last component, up to a slash. -/
theorem splitOn_append (path rest : List Char) :
    ∃ (init : List Name) (last more : Name) (others : List Name),
      path.splitOn '/' = init ++ [last] ∧
      (path ++ rest).splitOn '/' = init ++ (last ++ more) :: others := by
  induction path with
  | nil =>
    obtain ⟨more, others, h⟩ := List.exists_cons_of_ne_nil (List.splitOn_ne_nil '/' rest)
    exact ⟨[], [], more, others, List.splitOn_nil '/', h⟩
  | cons c path ih =>
    obtain ⟨init, last, more, others, hpath, happend⟩ := ih
    rw [List.cons_append, List.splitOn_cons_eq_if_modifyHead, List.splitOn_cons_eq_if_modifyHead,
      hpath, happend]
    split
    · exact ⟨[] :: init, last, more, others, rfl, rfl⟩
    · cases init with
      | nil => exact ⟨[], c :: last, more, others, rfl, rfl⟩
      | cons first init => exact ⟨(c :: first) :: init, last, more, others, rfl, rfl⟩

theorem significant_append (names names' : List Name) :
    significant (names ++ names') = significant names ++ significant names' := List.filter_append ..

theorem dot_notMem_significant (names : List Name) : dot ∉ significant names :=
  fun h => of_decide_eq_true (List.mem_filter.1 h).2 rfl

theorem significant_components (path : List Char) : significant (components path) =
    (path.splitOn '/').filter fun name => name ≠ [] ∧ name ≠ dot := by
  rw [significant, components, List.filter_filter]
  congr 1
  funext name
  simp [Bool.and_comm]

/-- Appending to a path does not take away a significant component. -/
theorem length_significant_le (path rest : List Char) :
    (significant (components path)).length ≤
      (significant (components (path ++ rest))).length := by
  obtain ⟨init, last, more, others, hpath, happend⟩ := splitOn_append path rest
  rw [significant_components, significant_components, hpath, happend, List.filter_append,
    List.filter_append, List.length_append, List.length_append, List.filter_cons,
    List.filter_cons]
  apply Nat.add_le_add_left
  split
  · rename_i hlast
    rw [if_pos]
    · simp
    · simp only [decide_eq_true_eq] at hlast ⊢
      refine ⟨List.append_ne_nil_of_left_ne_nil hlast.1 _, fun heq => ?_⟩
      obtain ⟨h, -⟩ | ⟨h, -⟩ := List.append_eq_singleton_iff.1 heq
      · exact hlast.1 h
      · exact hlast.2 h
  · exact Nat.zero_le _

/-- A name ends at the first slash behind it. -/
theorem takeWhile_name (h : '/' ∉ name) (hrest : rest = [] ∨ ∃ more, rest = '/' :: more) :
    (name ++ rest).takeWhile (· ≠ '/') = name := by
  have hname : ∀ c ∈ name, decide (c ≠ '/') := fun c hc => decide_eq_true fun heq => h (heq ▸ hc)
  rw [List.takeWhile_append_of_pos hname]
  obtain rfl | ⟨more, rfl⟩ := hrest <;> exact List.append_nil _

/-! ## Walking -/

theorem walk_dot (fs : Directories Dir) (d : Dir) (names : List Name) :
    fs.walk d (dot :: names) = fs.walk d names :=
  congrArg (·.bind (fs.walk · names)) (fs.enter_dot d)

/-- Only the significant components matter. -/
theorem walk_significant (fs : Directories Dir) (d : Dir) (names : List Name) :
    fs.walk d (significant names) = fs.walk d names := by
  induction names generalizing d with
  | nil => rfl
  | cons name names ih =>
    rw [significant, List.filter_cons]
    split
    · exact congrArg (fs.enter d name).bind (funext fun d' => ih d')
    · rename_i hdot
      have hdot : name = dot := by simpa using hdot
      rw [hdot, walk_dot]
      exact ih d

/-- What a path names whose last component is `name`. -/
theorem entryAt_of_components (h : components path = names ++ [name]) :
    fs.entryAt path = (fs.walk (fs.start path) names).map (·, name) := by
  rw [Directories.entryAt, h, List.getLast?_concat, List.dropLast_concat, Option.bind_some]

/-! ## Directories that tell paths apart -/

/-- The parent of a directory that is named by the components which lead to it. -/
def partingParent (bound : ℕ) : Option (List Name) → Option (List Name)
  | none => none
  | some names => if names.length < bound then some (names ++ [dotDot]) else none

theorem partingParent_rooted (bound : ℕ) (d : Option (List Name)) :
    ∃ n, (partingParent bound)^[n] d = none := by
  cases d with
  | none => exact ⟨0, rfl⟩
  | some names =>
    induction h : bound - names.length generalizing names with
    | zero => exact ⟨1, if_neg (by omega)⟩
    | succ n ih =>
      have hlen : (names ++ [dotDot]).length = names.length + 1 := by
        rw [List.length_append, List.length_singleton]
      obtain ⟨k, hk⟩ := ih (names ++ [dotDot]) (by omega)
      refine ⟨k + 1, ?_⟩
      rw [Function.iterate_succ_apply, partingParent, if_pos (by omega)]
      exact hk

/-- From the working directory, each sequence of up to `bound` components leads to another
directory. -/
def parting (bound : ℕ) : Directories (Option (List Name)) where
  root := none
  cwd := some []
  parent := partingParent bound
  enter d name :=
    if name = dot then some d
    else if name = dotDot then some (partingParent bound d)
    else d.bind fun names => if names.length < bound then some (some (names ++ [name])) else none
  enter_dot _ := if_pos rfl
  enter_dotDot _ := by rw [if_neg (by decide), if_pos rfl]
  parent_root := rfl
  rooted := partingParent_rooted bound

theorem walk_parting {bound : ℕ} (hdot : dot ∉ names')
    (h : names.length + names'.length ≤ bound) :
    (parting bound).walk (some names) names' = some (some (names ++ names')) := by
  induction names' generalizing names with
  | nil => exact congrArg (some ∘ some) (List.append_nil names).symm
  | cons name names' ih =>
    rw [List.mem_cons, not_or] at hdot
    rw [List.length_cons] at h
    have henter : (parting bound).enter (some names) name = some (some (names ++ [name])) := by
      have hlen : names.length < bound := by omega
      show (if name = dot then _ else if name = dotDot then _ else _) = _
      rw [if_neg (Ne.symm hdot.1)]
      split
      · rename_i hname
        rw [hname, partingParent, if_pos hlen]
      · rw [Option.bind_some, if_pos hlen]
    show ((parting bound).enter (some names) name).bind _ = _
    rw [henter, Option.bind_some]
    have hrest := @ih (names ++ [name]) hdot.2
      (by rw [List.length_append, List.length_singleton]; omega)
    rwa [List.append_assoc] at hrest

/-- Every name in the root leads to the root; the working directory is `depth` levels below and
empty. -/
def far (depth : ℕ) : Directories ℕ where
  root := 0
  cwd := depth
  parent d := d - 1
  enter d name :=
    if name = dot then some d
    else if d = 0 then some 0
    else if name = dotDot then some (d - 1) else none
  enter_dot d := if_pos rfl
  enter_dotDot d := by
    rw [if_neg (by decide), if_pos rfl]
    split
    · rename_i h
      rw [h]
    · rfl
  parent_root := rfl
  rooted d := ⟨d, by
    induction d with
    | zero => rfl
    | succ d ih => exact ih⟩

/-- From the root every path leads to the root. -/
theorem walk_far_root (depth : ℕ) (names : List Name) : (far depth).walk 0 names = some 0 := by
  induction names with
  | nil => rfl
  | cons name names ih =>
    have henter : (far depth).enter 0 name = some 0 := by
      show (if name = dot then _ else if 0 = 0 then _ else _) = _
      split <;> rfl
    show ((far depth).enter 0 name).bind _ = _
    rw [henter]
    exact ih

/-- A path leads up no more levels than it has components. -/
theorem le_of_walk_far {depth d' : ℕ} {d : ℕ} (h : (far depth).walk d names = some d') :
    d ≤ d' + names.length := by
  induction names generalizing d with
  | nil =>
    cases h
    exact Nat.le_refl _
  | cons name names ih =>
    obtain ⟨next, hnext, h⟩ := Option.bind_eq_some_iff.1 h
    have hle := ih h
    have hstep : d ≤ next + 1 := by
      change (if name = dot then _ else if d = 0 then _ else _) = _ at hnext
      split at hnext
      · cases hnext
        exact Nat.le_succ _
      · split at hnext
        · omega
        · obtain ⟨-, hnext⟩ := Option.ite_none_right_eq_some.1 hnext
          cases hnext
          omega
    rw [List.length_cons]
    omega

end SemOS.Paths
