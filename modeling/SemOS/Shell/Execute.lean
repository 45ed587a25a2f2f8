import SemOS.Foundations.Descriptors
import SemOS.Shell.CommandLine

/-!
# Execution of command lines

`execute_cmd` forks a child for every command of a line, gives it the read end of the pipe that
the command before it writes to, and waits for it. The descriptor number of that read end is kept
in a static variable, which nothing sets back after the last command of a line.
`executeCommandLine` walks one line, `runSession` the lines of one shell process.
-/

namespace SemOS.Shell

/-- What a descriptor names: a file that the shell was started with, or an end of a pipe. -/
inductive OpenFile
  | inherited (file : ℕ)
  | readEnd (pipe : ℕ)
  | writeEnd (pipe : ℕ)
  deriving DecidableEq

/-- The table that a shell is started with: its standard input and output are open, and no pipe of
its own is. -/
structure StartTable where
  fds : Table OpenFile
  stdin : ℕ
  stdout : ℕ
  lookup_zero : fds.lookup 0 = some (.inherited stdin)
  lookup_one : fds.lookup 1 = some (.inherited stdout)
  inherited : ∀ fd file, fds.lookup fd = some file → ∃ n, file = .inherited n

/-- The shell process: its descriptors, the static `input_fd`, and how many pipes it has made. -/
structure State where
  fds : Table OpenFile
  inputFd : ℕ
  pipes : ℕ

/-- A shell that has executed nothing. -/
def start (init : StartTable) : State := ⟨init.fds, 0, 0⟩

/-- A child at its `execvp`: the command and the descriptors that it is run with. -/
structure Child where
  command : Command
  fds : Table OpenFile

/-- `is_next_pipe`, of the expressions after the current one. -/
def isNextPipe : CommandLine → Bool
  | .pipe :: _ => true
  | _ => false

/-! ## The parts of `execute_cmd` -/

/-- `pipe(fildes)`, or the zeroed `fildes` of a last command. -/
def openPipe (notLast : Bool) (s : State) : (ℕ × ℕ) × State :=
  if notLast then
    let (fildes, fds) := s.fds.pipe (.readEnd s.pipes) (.writeEnd s.pipes)
    (fildes, { s with fds, pipes := s.pipes + 1 })
  else ((0, 0), s)

/-- The child's branch: its descriptors from the fork, with a copy of the parent's, to `execvp`. -/
def childBranch (notLast : Bool) (fildes : ℕ × ℕ) (inputFd : ℕ) (fds : Table OpenFile) :
    Table OpenFile :=
  let fds := if inputFd ≠ 0 then (fds.dup2 inputFd 0).close inputFd else fds
  if notLast then ((fds.dup2 fildes.2 1).close fildes.1).close fildes.2 else fds

/-- The parent's branch: its descriptors and `input_fd` when it waits for the child. -/
def parentBranch (notLast : Bool) (fildes : ℕ × ℕ) (s : State) : State :=
  let fds := if s.inputFd ≠ 0 then s.fds.close s.inputFd else s.fds
  if notLast then { s with fds := fds.close fildes.2, inputFd := fildes.1 } else { s with fds }

/-- `execute_cmd`, on a command and the expressions after it. -/
def executeCmd (c : Command) (next : CommandLine) (s : State) : Child × State :=
  let notLast := isNextPipe next
  let (fildes, s) := openPipe notLast s
  (⟨c, childBranch notLast fildes s.inputFd s.fds⟩, parentBranch notLast fildes s)

/-- `execute_command_line`: the children that it starts, in order. -/
def executeCommandLine : CommandLine → State → List Child × State
  | [], s => ([], s)
  | .command c :: next, s =>
    let (child, s) := executeCmd c next s
    let (children, s) := executeCommandLine next s
    (child :: children, s)
  | .pipe :: next, s => executeCommandLine next s

/-- The lines of a session one after another: the children of every line. -/
def runSession : List CommandLine → State → List (List Child)
  | [], _ => []
  | line :: lines, s =>
    let (children, s) := executeCommandLine line s
    children :: runSession lines s

/-! ## What one command does to the descriptors -/

theorem executeCmd_last (c : Command) (s : State) :
    executeCmd c [] s =
      (⟨c, childBranch false (0, 0) s.inputFd s.fds⟩, parentBranch false (0, 0) s) := rfl

theorem executeCmd_pipe (c : Command) (next : CommandLine) (s : State) :
    executeCmd c (.pipe :: next) s =
      (⟨c, childBranch true (openPipe true s).1 (openPipe true s).2.inputFd
          (openPipe true s).2.fds⟩,
        parentBranch true (openPipe true s).1 (openPipe true s).2) := rfl

variable {s : State} {fds : Table OpenFile} {fd r w : ℕ}

theorem openPipe_true (s : State) :
    openPipe true s = ((s.fds.lowestUnused, s.fds.nextUnused),
      ⟨(s.fds.pipe (.readEnd s.pipes) (.writeEnd s.pipes)).2, s.inputFd, s.pipes + 1⟩) := by
  simp only [openPipe, if_true,
    ← Table.pipe_fst (OpenFile.readEnd s.pipes) (OpenFile.writeEnd s.pipes)]

theorem openPipe_false (s : State) : openPipe false s = ((0, 0), s) := rfl

theorem executeCmd_pipes (c : Command) (next : CommandLine) (s : State) :
    (executeCmd c (.pipe :: next) s).2.pipes = s.pipes + 1 := by
  rw [executeCmd_pipe, openPipe_true]
  rfl

/-- `pipe` adds the two ends of a new pipe. -/
theorem names_of_openPipe {notLast : Bool} {file : OpenFile}
    (h : (openPipe notLast s).2.fds.Names file) :
    file = .readEnd s.pipes ∨ file = .writeEnd s.pipes ∨ s.fds.Names file := by
  cases notLast with
  | false => exact Or.inr (Or.inr h)
  | true =>
    rw [openPipe_true, Table.pipe_snd] at h
    rcases h.of_put with h | h
    · exact Or.inr (Or.inl h)
    · exact h.of_put.imp_right Or.inr

/-- The child's branch names no file that it was not forked with. -/
theorem names_of_childBranch {notLast : Bool} {fildes : ℕ × ℕ} {file : OpenFile}
    (h : (childBranch notLast fildes fd fds).Names file) : fds.Names file := by
  have hin : (if fd ≠ 0 then (fds.dup2 fd 0).close fd else fds).Names file → fds.Names file := by
    intro h
    split at h
    · exact h.of_close.of_dup2
    · exact h
  cases notLast with
  | false => exact hin h
  | true => exact hin h.of_close.of_close.of_dup2

/-- Nor does the parent's. -/
theorem names_of_parentBranch {notLast : Bool} {fildes : ℕ × ℕ} {file : OpenFile}
    (h : (parentBranch notLast fildes s).fds.Names file) : s.fds.Names file := by
  have hin : (if s.inputFd ≠ 0 then s.fds.close s.inputFd else s.fds).Names file →
      s.fds.Names file := by
    intro h
    split at h
    · exact h.of_close
    · exact h
  cases notLast with
  | false => exact hin h
  | true => exact hin h.of_close

/-- The child's standard input: the file in `input_fd`, when that is set and open. -/
theorem childBranch_stdin (notLast : Bool) (hrw : notLast = true → r ≠ 0 ∧ w ≠ 0) :
    (childBranch notLast (r, w) fd fds).lookup 0 =
      if fd = 0 then fds.lookup 0 else (fds.lookup fd).or (fds.lookup 0) := by
  have hfd : fd ≠ 0 → 0 ≠ fd := Ne.symm
  cases notLast with
  | false => by_cases h0 : fd = 0 <;> simp_all [childBranch, Table.lookup_close, Table.lookup_dup2]
  | true =>
    obtain ⟨hr, hw⟩ := hrw rfl
    by_cases h0 : fd = 0 <;>
      simp_all [childBranch, Table.lookup_close, Table.lookup_dup2, hr.symm, hw.symm]

/-- The child's standard output before a pipe: the file at the number of the write end. -/
theorem childBranch_stdout_next (hr : r ≠ 1) (hw : w ≠ 1) (hw0 : w ≠ 0) (hfd : w ≠ fd)
    {file : OpenFile} (hfile : fds.lookup w = some file) :
    (childBranch true (r, w) fd fds).lookup 1 = some file := by
  by_cases h0 : fd = 0 <;>
    simp [childBranch, h0, Table.lookup_close, Table.lookup_dup2, hr.symm, hw.symm, hw0, hfd, hfile]

/-- The child's standard output after the last pipe: the shell's. -/
theorem childBranch_stdout_last (hfd : fd ≠ 1) :
    (childBranch false (r, w) fd fds).lookup 1 = fds.lookup 1 := by
  by_cases h0 : fd = 0 <;>
    simp [childBranch, h0, Table.lookup_close, Table.lookup_dup2, hfd.symm]

/-- The parent of a child before a pipe, made over the table `t`: it closes `input_fd`, keeps the
read end and closes the write end. -/
theorem parentBranch_next {t : Table OpenFile} {file file' : OpenFile} (hw : t.lookup w = none)
    (hrw : r ≠ w) (hfd : s.inputFd ≠ r) (hfds : s.fds = (t.put r file).put w file') :
    parentBranch true (r, w) s =
      ⟨(if s.inputFd = 0 then t else t.close s.inputFd).put r file, r, s.pipes⟩ := by
  have hclose : s.fds.close w = t.put r file := by
    rw [hfds, Table.close_put]
    rw [Table.lookup_put, if_neg hrw.symm, hw]
  by_cases h0 : s.inputFd = 0
  · simp [parentBranch, h0, hclose]
  · simp [parentBranch, h0, Table.close_comm s.inputFd w, hclose,
      Table.close_put_of_ne (Ne.symm hfd)]

/-- The parent of a child after the last pipe: it closes `input_fd`. -/
theorem parentBranch_last (fildes : ℕ × ℕ) :
    parentBranch false fildes s =
      ⟨if s.inputFd = 0 then s.fds else s.fds.close s.inputFd, s.inputFd, s.pipes⟩ := by
  by_cases h0 : s.inputFd = 0 <;> simp [parentBranch, h0]

end SemOS.Shell
