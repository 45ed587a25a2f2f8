import SemOS.Copy.Mycp
import SemOS.Foundations.Descriptors

/-!
# The descriptors of mycp

`main` of `sems/3week/mycp/main.c` calls `pstream` for every source file that is copied into a
directory. `pstream` opens two descriptors and closes them, but returns early when the second one
cannot be opened.

* `open` takes the lowest unused number, and fails when there is none below the limit of the
  process. Apart from this, `pstreamAt` is `pstream` (`pstreamAt_result`).
* `descriptors_kept_iff`: a run of the loop leaves the descriptors as they were exactly if no
  source is opened whose destination is not.
-/

namespace SemOS.Mycp

open Copy (Bufsiz)

variable {Path Place α : Type*}

/-- What an open descriptor refers to: what was open before, or a file of `pstream`. -/
inductive Description
  | inherited
  | source (opened : Opened)
  | dest (id : ℕ)
  deriving DecidableEq

/-- The open descriptors and the files. -/
structure System (Path Place α : Type*) where
  table : Table Description
  files : FileSystem Path Place α

/-- A call of `pstream`: its paths, whether `open` is denied for a reason that is neither in the
files nor in the descriptors, and the results of `read` and `write`. -/
structure Call (Path : Type*) where
  inPath : Path
  outPath : Path
  inDenied : Bool
  outDenied : Bool
  answers : List Answer

/-- A new descriptor: the lowest unused number, if it is below `maxOpen`. -/
def allocate (maxOpen : ℕ) (table : Table Description) (d : Description) :
    Option (ℕ × Table Description) :=
  if table.lowestUnused < maxOpen then some (table.openLowest d) else none

/-- `open(IN_path, O_RDONLY)`. -/
def openIn (limit maxOpen : ℕ) (call : Call Path) (s : System Path Place α) :
    Option (ℕ × Opened × Table Description) :=
  if call.inDenied then none
  else (s.files.openRead limit call.inPath).bind fun source =>
    (allocate maxOpen s.table (.source source)).map fun (fd, table) => (fd, source, table)

theorem openIn_eq (limit maxOpen : ℕ) (call : Call Path) (s : System Path Place α) :
    openIn limit maxOpen call s =
      if call.inDenied || maxOpen ≤ s.table.lowestUnused then none
      else (s.files.openRead limit call.inPath).map fun source =>
        (s.table.lowestUnused, source, (s.table.openLowest (.source source)).2) := by
  rw [openIn]
  cases call.inDenied <;> cases s.files.openRead limit call.inPath <;>
    by_cases hfull : maxOpen ≤ s.table.lowestUnused <;> simp [allocate, hfull, Table.openLowest]

theorem openIn_eq_some {limit maxOpen fd : ℕ} {call : Call Path} {s : System Path Place α}
    {source : Opened} {table : Table Description}
    (h : openIn limit maxOpen call s = some (fd, source, table)) :
    fd = s.table.lowestUnused ∧ table = (s.table.openLowest (.source source)).2 := by
  rw [openIn_eq] at h
  obtain ⟨-, h⟩ := Option.ite_none_left_eq_some.1 h
  obtain ⟨source', -, heq⟩ := Option.map_eq_some_iff.1 h
  cases heq
  exact ⟨rfl, rfl⟩

section Pstream

variable [DecidableEq Place]

/-- `open(OUT_path, open_flags, 0666)`. -/
def openOut (limit maxOpen : ℕ) (flags : OpenFlags) (call : Call Path)
    (s : System Path Place α) : Option (ℕ × ℕ × System Path Place α) :=
  if call.outDenied then none
  else (s.files.openWrite limit flags call.outPath).bind fun (dest, files) =>
    (allocate maxOpen s.table (.dest dest)).map fun (fd, table) => (fd, dest, ⟨table, files⟩)

/-- `pstream` with its descriptors. When `OUT_path` cannot be opened, `fd_IN` stays open. -/
def pstreamAt (bufsiz : Bufsiz) (limit maxOpen : ℕ) (flags : OpenFlags) (call : Call Path)
    (s : System Path Place α) : Option (ℤ × System Path Place α × List ℕ) :=
  match openIn limit maxOpen call s with
  | none => if call.answers = [] then some (-1, s, []) else none
  | some (fdIn, source, table) =>
    match openOut limit maxOpen flags call { s with table := table } with
    | none => if call.answers = [] then some (-1, { s with table := table }, []) else none
    | some (fdOut, dest, s') =>
      ((stream bufsiz ⟨source, dest⟩).run call.answers (start s'.files)).bind fun c =>
        match c.loop with
        | .returned => some (0, ⟨(s'.table.close fdIn).close fdOut, c.files⟩, c.written)
        | _ => none

/-- The loop of `main` over the source files. -/
def directoryLoop (bufsiz : Bufsiz) (limit maxOpen : ℕ) (force : Bool) :
    Machine (Call Path) (System Path Place α) where
  init _ := True
  act call s := (pstreamAt bufsiz limit maxOpen (combineOpenFlags force) call s).map (·.2.1)

/-- `IN_path` can be opened, and then `OUT_path` cannot. -/
def LeavesOpen (limit maxOpen : ℕ) (force : Bool) (call : Call Path) (s : System Path Place α) :
    Prop :=
  ∃ fdIn source table, openIn limit maxOpen call s = some (fdIn, source, table) ∧
    openOut limit maxOpen (combineOpenFlags force) call { s with table := table } = none

variable {bufsiz : Bufsiz} {limit maxOpen : ℕ} {force : Bool} {flags : OpenFlags}
  {call : Call Path} {s t : System Path Place α} {fd dest : ℕ} {source : Opened}
  {table : Table Description}

/-! ## Opening -/

theorem openOut_eq (limit maxOpen : ℕ) (flags : OpenFlags) (call : Call Path)
    (s : System Path Place α) : openOut limit maxOpen flags call s =
      if call.outDenied || maxOpen ≤ s.table.lowestUnused then none
      else (s.files.openWrite limit flags call.outPath).map fun (dest, files) =>
        (s.table.lowestUnused, dest, ⟨(s.table.openLowest (.dest dest)).2, files⟩) := by
  rw [openOut]
  cases call.outDenied <;> cases s.files.openWrite limit flags call.outPath <;>
    by_cases hfull : maxOpen ≤ s.table.lowestUnused <;> simp [allocate, hfull, Table.openLowest]

theorem openOut_eq_some (h : openOut limit maxOpen flags call s = some (fd, dest, t)) :
    fd = s.table.lowestUnused ∧ t.table = (s.table.openLowest (.dest dest)).2 := by
  rw [openOut_eq] at h
  obtain ⟨-, h⟩ := Option.ite_none_left_eq_some.1 h
  obtain ⟨⟨dest', files⟩, -, heq⟩ := Option.map_eq_some_iff.1 h
  cases heq
  exact ⟨rfl, rfl⟩

/-! ## The table after a call -/

/-- The source that is left open. -/
theorem table_of_leavesOpen (h : (directoryLoop bufsiz limit maxOpen force).act call s = some t)
    (hleaves : LeavesOpen limit maxOpen force call s) : t.table ≠ s.table := by
  obtain ⟨fdIn, source, table, hin, hout⟩ := hleaves
  obtain ⟨⟨r, t', written⟩, hcall, rfl⟩ := Option.map_eq_some_iff.1 h
  rw [pstreamAt, hin] at hcall
  simp only [hout] at hcall
  obtain ⟨-, hcall⟩ := Option.ite_none_right_eq_some.1 hcall
  cases hcall
  obtain ⟨-, rfl⟩ := openIn_eq_some hin
  exact Table.openLowest_ne _

/-- In every other case what was opened is closed. -/
theorem table_of_not_leavesOpen
    (h : (directoryLoop bufsiz limit maxOpen force).act call s = some t)
    (hno : ¬ LeavesOpen limit maxOpen force call s) : t.table = s.table := by
  obtain ⟨⟨r, t', written⟩, hcall, rfl⟩ := Option.map_eq_some_iff.1 h
  unfold pstreamAt at hcall
  split at hcall
  · obtain ⟨-, hcall⟩ := Option.ite_none_right_eq_some.1 hcall
    cases hcall
    rfl
  · rename_i fdIn source table hin
    split at hcall
    · rename_i hout
      exact absurd ⟨fdIn, source, table, hin, hout⟩ hno
    · rename_i fdOut dest s' hout
      obtain ⟨c, -, hcall⟩ := Option.bind_eq_some_iff.1 hcall
      split at hcall
      · cases hcall
        obtain ⟨rfl, rfl⟩ := openIn_eq_some hin
        obtain ⟨rfl, htable⟩ := openOut_eq_some hout
        simp only [htable]
        exact Table.close_close_openLowest _ _
      · cases hcall

/-- **The loop leaves the descriptors as they were after every call exactly if no call opens its
source but not its destination.** -/
theorem descriptors_kept_iff (bufsiz : Bufsiz) (limit maxOpen : ℕ) (force : Bool)
    (calls : List (Call Path)) (s : System Path Place α) :
    (directoryLoop bufsiz limit maxOpen force).Throughout (fun t => t.table = s.table) calls s ↔
      (directoryLoop bufsiz limit maxOpen force).Along
        (fun call t => ¬ LeavesOpen limit maxOpen force call t) calls s := by
  refine Machine.throughout_iff_along (I := fun _ => True) (fun _ _ _ _ _ _ => trivial) ?_ calls
    trivial rfl
  intro call t u _ ht hact
  constructor
  · intro hu hleaves
    exact table_of_leavesOpen hact hleaves (hu.trans ht.symm)
  · intro hno
    exact (table_of_not_leavesOpen hact hno).trans ht

/-! ## The result of a call -/

/-- A call returns and writes what `pstream` does, where `open` is also denied for want of a
descriptor. So it depends on the open descriptors by the next two unused numbers only. -/
theorem pstreamAt_result (bufsiz : Bufsiz) (limit maxOpen : ℕ) (flags : OpenFlags)
    (call : Call Path) (s : System Path Place α) :
    (pstreamAt bufsiz limit maxOpen flags call s).map (fun r => (r.1, r.2.1.files, r.2.2)) =
      pstream bufsiz limit s.files call.inPath call.outPath flags
        (call.inDenied || maxOpen ≤ s.table.lowestUnused)
        (call.outDenied || maxOpen ≤ s.table.nextUnused) call.answers := by
  have hnext : ∀ source, (s.table.openLowest (.source source)).2.lowestUnused =
      s.table.nextUnused := fun source => Table.lowestUnused_put _
  have hfailed : ∀ s' : System Path Place α, s'.files = s.files →
      (if call.answers = [] then some ((-1 : ℤ), s', ([] : List ℕ)) else none).map
          (fun r => (r.1, r.2.1.files, r.2.2)) =
        if call.answers = [] then some (-1, s.files, []) else none := by
    intro s' hs'
    split
    · rw [Option.map_some, hs']
    · rfl
  rw [pstreamAt, pstream, opened, openIn_eq]
  by_cases hin : (call.inDenied || maxOpen ≤ s.table.lowestUnused) = true
  · rw [if_pos hin, if_pos hin]
    exact hfailed s rfl
  · rw [if_neg hin, if_neg hin]
    cases s.files.openRead limit call.inPath with
    | none => exact hfailed s rfl
    | some source =>
      simp only [Option.map_some, Option.bind_some, openOut_eq, hnext]
      by_cases hout : (call.outDenied || maxOpen ≤ s.table.nextUnused) = true
      · rw [if_pos hout, if_pos hout]
        exact hfailed _ rfl
      · rw [if_neg hout, if_neg hout]
        cases s.files.openWrite limit flags call.outPath with
        | none => exact hfailed _ rfl
        | some out =>
          -- both copy with the same descriptors, and close what they opened
          simp only [Option.map_some, Option.map_bind]
          congr 1
          funext c
          cases hloop : c.loop <;> simp [Function.comp, hloop]

end Pstream

/-- The descriptors 0, 1 and 2. -/
def standard : Table Description :=
  (((∅ : Table Description).put 0 .inherited).put 1 .inherited).put 2 .inherited

theorem lowestUnused_standard : standard.lowestUnused = 3 := by
  rw [Table.lowestUnused_eq_iff]
  simp only [standard, Table.lookup_put, Finmap.lookup_empty]
  refine ⟨rfl, fun i hi => ?_⟩
  split_ifs
  all_goals first | omega | simp

/-- A file is to be copied to a name that exists, without `force`. -/
theorem existing_destination_leaks : ¬ ∀ (maxOpen : ℕ) (force : Bool) (calls : List (Call (Fin 3)))
    (s : System (Fin 3) (Fin 3) UInt8),
    (directoryLoop Copy.smallest 40 maxOpen force).Throughout (fun t => t.table = s.table)
      calls s := by
  intro h
  let call : Call (Fin 3) := ⟨0, 2, false, false, []⟩
  let s : System (Fin 3) (Fin 3) UInt8 := ⟨standard, oneFile⟩
  have hread : oneFile.openRead 40 0 = some (.file 0) := FileSystem.openRead_of_fileAt rfl
  have hexists : oneFile.openWrite 40 (combineOpenFlags false) 2 = none := rfl
  have hin : openIn 40 1024 call s =
      some (3, .file 0, (standard.openLowest (.source (.file 0))).2) := by
    rw [openIn_eq]
    simp [call, s, hread, lowestUnused_standard]
  have hout : openOut 40 1024 (combineOpenFlags false) call
      { s with table := (standard.openLowest (.source (.file 0))).2 } = none := by
    simp [openOut, call, s, hexists]
  have hact : (directoryLoop Copy.smallest 40 1024 false).act call s =
      some { s with table := (standard.openLowest (.source (.file 0))).2 } := by
    simp [directoryLoop, pstreamAt, hin, hout, call]
  have hkept := (h 1024 false [call] s).2 _ hact
  exact table_of_leavesOpen hact ⟨_, _, _, hin, hout⟩ hkept

end SemOS.Mycp
