import SemOS.Foundations.Machine
import SemOS.Shell.Execute

/-!
# A pipeline and its children, step by step

The shell process and the children of one line as a machine. A step of the shell is one of `pipe`
and `fork`, the parent's branch up to `waitpid`, a `waitpid` that returns, or the way to the next
expression; a child takes its own branch up to `execvp` and then runs a command that reads its
standard input to the end and writes a number of bytes to its standard output, in any order. A pipe
holds at most `K` bytes: a write to a full one blocks, and a read from an empty one blocks as long
as some process has its write end open.

`childStep_moves` says once what a step of a child can do; `childStep_eq_none` and
`shellStep_eq_none` say when a process cannot move.
-/

namespace SemOS.Shell

/-- What a child is doing: its branch of `execute_cmd`, with the parent's variables, then the
command, which is between two calls, in `read` or in `write`. -/
inductive Activity
  | starting (notLast : Bool) (fildes : ℕ × ℕ) (inputFd : ℕ)
  | between
  | reading
  | writing
  | exited
  deriving DecidableEq

/-- A child: the bytes that it has still to write, and whether its input has ended. -/
structure Process where
  fds : Table OpenFile
  unwritten : ℕ
  eof : Bool
  activity : Activity

/-- Where the shell is in `execute_command_line`, with the expressions after the current one. -/
inductive Control
  | walking (next : CommandLine)
  | forked (notLast : Bool) (fildes : ℕ × ℕ) (pid : ℕ) (next : CommandLine)
  | waiting (pid : ℕ) (next : CommandLine)

/-- The shell, its children in the order of their forks, the bytes in every pipe and the bytes left
in every file that the shell was started with. -/
structure System where
  shell : State
  control : Control
  children : List Process
  contents : ℕ → ℕ
  unread : ℕ → ℕ

/-- Some process has `file` open. -/
def System.IsOpen (s : System) (file : OpenFile) : Prop :=
  s.shell.fds.Names file ∨ ∃ k ∈ s.children, k.activity ≠ .exited ∧ k.fds.Names file

instance (s : System) (file : OpenFile) : Decidable (s.IsOpen file) :=
  inferInstanceAs (Decidable (_ ∨ ∃ k ∈ s.children, _))

/-- The system with the child `pid` replaced. -/
def System.setChild (s : System) (pid : ℕ) (k : Process) : System :=
  { s with children := s.children.set pid k }

/-- The commands of the line have all been started and have all exited. -/
def System.AllExited (s : System) (line : Pipeline) : Prop :=
  s.children.length = line.commands.length ∧ ∀ k ∈ s.children, k.activity = .exited

/-! ## The shell -/

/-- A step of the shell. The command forked as the child `pid` has `output pid` bytes to write. -/
def shellStep (output : ℕ → ℕ) (s : System) : Option System :=
  match s.control with
  | .walking [] => none
  | .walking (.pipe :: next) => some { s with control := .walking next }
  | .walking (.command _ :: next) =>
    let notLast := isNextPipe next
    let (fildes, shell) := openPipe notLast s.shell
    let pid := s.children.length
    let child : Process := ⟨shell.fds, output pid, false, .starting notLast fildes shell.inputFd⟩
    some { s with
      shell
      control := .forked notLast fildes pid next
      children := s.children ++ [child] }
  | .forked notLast fildes pid next =>
    some { s with shell := parentBranch notLast fildes s.shell, control := .waiting pid next }
  | .waiting pid next =>
    if (s.children[pid]?).map Process.activity = some .exited then
      some { s with control := .walking next }
    else none

/-! ## The children -/

/-- `read` of the child `pid`: a byte, the end of the input, or nothing yet. A descriptor that
cannot be read ends the input. -/
def readStep (s : System) (pid : ℕ) (k : Process) : Option System :=
  match k.fds.lookup 0 with
  | some (.inherited file) =>
    if s.unread file = 0 then some (s.setChild pid { k with eof := true, activity := .between })
    else some { s.setChild pid { k with activity := .between } with
      unread := Function.update s.unread file (s.unread file - 1) }
  | some (.readEnd p) =>
    if s.contents p = 0 then
      if s.IsOpen (.writeEnd p) then none
      else some (s.setChild pid { k with eof := true, activity := .between })
    else some { s.setChild pid { k with activity := .between } with
      contents := Function.update s.contents p (s.contents p - 1) }
  | _ => some (s.setChild pid { k with eof := true, activity := .between })

/-- `write` of the child `pid`: a byte goes out, or there is no room yet. Without a reader the child
is killed by a signal; a descriptor that cannot be written loses the byte. -/
def writeStep (K : ℕ) (s : System) (pid : ℕ) (k : Process) : Option System :=
  let k' := { k with unwritten := k.unwritten - 1, activity := .between }
  match k.fds.lookup 1 with
  | some (.writeEnd p) =>
    if ¬ s.IsOpen (.readEnd p) then some (s.setChild pid { k with activity := .exited })
    else if s.contents p < K then
      some { s.setChild pid k' with contents := Function.update s.contents p (s.contents p + 1) }
    else none
  | _ => some (s.setChild pid k')

/-- A step of the child `pid`; between two calls it chooses to read or to write, and exits when
there is nothing left to do. -/
def childStep (K : ℕ) (writes : Bool) (s : System) (pid : ℕ) (k : Process) : Option System :=
  match k.activity with
  | .starting notLast fildes inputFd =>
    some (s.setChild pid
      { k with fds := childBranch notLast fildes inputFd k.fds, activity := .between })
  | .between =>
    if k.eof ∧ k.unwritten = 0 then some (s.setChild pid { k with activity := .exited })
    else if writes then
      if 0 < k.unwritten then some (s.setChild pid { k with activity := .writing }) else none
    else if k.eof then none else some (s.setChild pid { k with activity := .reading })
  | .reading => readStep s pid k
  | .writing => writeStep K s pid k
  | .exited => none

/-! ## The machine -/

/-- Who moves: the shell, or a child with its choice. -/
inductive Mover
  | shell
  | child (pid : ℕ) (writes : Bool)

/-- One step of the system. -/
def step (K : ℕ) (output : ℕ → ℕ) : Mover → System → Option System
  | .shell, s => shellStep output s
  | .child pid writes, s => (s.children[pid]?).bind (childStep K writes s pid)

/-- A fresh shell before the line, with `unread` bytes in its files. -/
def launch (init : StartTable) (line : Pipeline) (unread : ℕ → ℕ) : System :=
  ⟨start init, .walking line.line, [], fun _ => 0, unread⟩

/-- One pipeline of a fresh shell, over pipes of `K` bytes. -/
def pipelineMachine (init : StartTable) (line : Pipeline) (K : ℕ) (output unread : ℕ → ℕ) :
    Machine Mover System where
  init := (· = launch init line unread)
  act := step K output

/-- The shell cannot move when it is done, or waits for a child that has not exited. -/
theorem shellStep_eq_none {output : ℕ → ℕ} {s : System} (h : shellStep output s = none) :
    s.control = .walking [] ∨ ∃ pid next, s.control = .waiting pid next ∧
      (s.children[pid]?).map Process.activity ≠ some .exited := by
  simp only [shellStep] at h
  split at h
  · exact Or.inl ‹_›
  · cases h
  · cases h
  · cases h
  · split at h
    · cases h
    · exact Or.inr ⟨_, _, ‹_›, ‹_›⟩

/-! ## What a child can do -/

/-- The ways of the child `k` in `s`: what becomes of it, of the pipes and of the files. -/
inductive Moves (K : ℕ) (s : System) (k : Process) : Process → (ℕ → ℕ) → (ℕ → ℕ) → Prop
  | start {notLast fildes inputFd} (h : k.activity = .starting notLast fildes inputFd) :
    Moves K s k { k with fds := childBranch notLast fildes inputFd k.fds, activity := .between }
      s.contents s.unread
  | exit (h : k.activity = .between) (heof : k.eof = true) (hu : k.unwritten = 0) :
    Moves K s k { k with activity := .exited } s.contents s.unread
  | write (h : k.activity = .between) (hu : 0 < k.unwritten) :
    Moves K s k { k with activity := .writing } s.contents s.unread
  | read (h : k.activity = .between) (heof : k.eof = false) :
    Moves K s k { k with activity := .reading } s.contents s.unread
  | getFile {file} (h : k.activity = .reading) (hin : k.fds.lookup 0 = some (.inherited file))
      (hu : s.unread file ≠ 0) :
    Moves K s k { k with activity := .between } s.contents
      (Function.update s.unread file (s.unread file - 1))
  | getPipe {p} (h : k.activity = .reading) (hin : k.fds.lookup 0 = some (.readEnd p))
      (hp : s.contents p ≠ 0) :
    Moves K s k { k with activity := .between }
      (Function.update s.contents p (s.contents p - 1)) s.unread
  | endOfInput (h : k.activity = .reading) :
    Moves K s k { k with eof := true, activity := .between } s.contents s.unread
  | putPipe {p} (h : k.activity = .writing) (hout : k.fds.lookup 1 = some (.writeEnd p))
      (hp : s.contents p < K) :
    Moves K s k { k with unwritten := k.unwritten - 1, activity := .between }
      (Function.update s.contents p (s.contents p + 1)) s.unread
  | putFile (h : k.activity = .writing) (hout : ∀ p, k.fds.lookup 1 ≠ some (.writeEnd p)) :
    Moves K s k { k with unwritten := k.unwritten - 1, activity := .between } s.contents s.unread
  | killed {p} (h : k.activity = .writing) (hout : k.fds.lookup 1 = some (.writeEnd p))
      (hopen : ¬ s.IsOpen (.readEnd p)) :
    Moves K s k { k with activity := .exited } s.contents s.unread

variable {K pid : ℕ} {writes : Bool} {s t : System} {k : Process}

theorem readStep_moves (hk : k.activity = .reading) (h : readStep s pid k = some t) :
    ∃ k' contents unread, Moves K s k k' contents unread ∧
      t = ⟨s.shell, s.control, s.children.set pid k', contents, unread⟩ := by
  simp only [readStep] at h
  split at h
  · rename_i hin
    split at h
    · exact ⟨_, _, _, .endOfInput hk, (Option.some.inj h).symm⟩
    · exact ⟨_, _, _, .getFile hk hin ‹_›, (Option.some.inj h).symm⟩
  · rename_i hin
    split at h
    · split at h
      · cases h
      · exact ⟨_, _, _, .endOfInput hk, (Option.some.inj h).symm⟩
    · exact ⟨_, _, _, .getPipe hk hin ‹_›, (Option.some.inj h).symm⟩
  · exact ⟨_, _, _, .endOfInput hk, (Option.some.inj h).symm⟩

theorem writeStep_moves (hk : k.activity = .writing) (h : writeStep K s pid k = some t) :
    ∃ k' contents unread, Moves K s k k' contents unread ∧
      t = ⟨s.shell, s.control, s.children.set pid k', contents, unread⟩ := by
  simp only [writeStep] at h
  split at h
  · rename_i hout
    split at h
    · exact ⟨_, _, _, .killed hk hout ‹_›, (Option.some.inj h).symm⟩
    · split at h
      · exact ⟨_, _, _, .putPipe hk hout ‹_›, (Option.some.inj h).symm⟩
      · cases h
  · rename_i hout
    exact ⟨_, _, _, .putFile hk hout, (Option.some.inj h).symm⟩

/-- A step of a child is one of its ways. -/
theorem childStep_moves (h : childStep K writes s pid k = some t) :
    ∃ k' contents unread, Moves K s k k' contents unread ∧
      t = ⟨s.shell, s.control, s.children.set pid k', contents, unread⟩ := by
  simp only [childStep] at h
  split at h
  · rename_i hk
    exact ⟨_, _, _, .start hk, (Option.some.inj h).symm⟩
  · rename_i hk
    split at h
    · rename_i hend
      exact ⟨_, _, _, .exit hk hend.1 hend.2, (Option.some.inj h).symm⟩
    · split at h
      · split at h
        · exact ⟨_, _, _, .write hk ‹_›, (Option.some.inj h).symm⟩
        · cases h
      · split at h
        · cases h
        · exact ⟨_, _, _, .read hk (by simpa using ‹¬ k.eof = true›), (Option.some.inj h).symm⟩
  · exact readStep_moves ‹_› h
  · exact writeStep_moves ‹_› h
  · cases h

/-- A child that cannot move has exited, reads from an empty pipe that some process may still write
to, or writes to a full one. -/
theorem childStep_eq_none (h : ∀ writes, childStep K writes s pid k = none) :
    k.activity = .exited ∨
      (k.activity = .reading ∧ ∃ p, k.fds.lookup 0 = some (.readEnd p) ∧ s.IsOpen (.writeEnd p)) ∨
      (k.activity = .writing ∧ ∃ p, k.fds.lookup 1 = some (.writeEnd p) ∧ K ≤ s.contents p) := by
  cases hk : k.activity with
  | starting notLast fildes inputFd => simpa [childStep, hk] using h true
  | between =>
    have hw := h true
    have hr := h false
    simp only [childStep, hk, if_true, Bool.false_eq_true, if_false] at hw hr
    split at hw
    · cases hw
    · split at hw
      · cases hw
      · simp_all
  | reading =>
    have hr := h true
    simp only [childStep, hk, readStep] at hr
    split at hr
    · split at hr <;> cases hr
    · rename_i p hin
      split at hr
      · split at hr
        · exact Or.inr (Or.inl ⟨rfl, p, hin, ‹_›⟩)
        · cases hr
      · cases hr
    · cases hr
  | writing =>
    have hw := h true
    simp only [childStep, hk, writeStep] at hw
    split at hw
    · rename_i p hout
      split at hw
      · cases hw
      · split at hw
        · cases hw
        · exact Or.inr (Or.inr ⟨rfl, p, hout, not_lt.1 ‹_›⟩)
    · cases hw
  | exited => exact Or.inl rfl

end SemOS.Shell
