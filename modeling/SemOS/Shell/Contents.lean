import SemOS.Foundations.Transducer
import SemOS.Shell.Children

/-!
# A pipeline with what its pipes carry

The machine of `Shell.Children` with bytes in place of numbers of bytes. What a program writes goes
by what it has read (`Transducer`); the pipes hold bytes, and so do the files that the shell was
started with. The shell moves as there, and so do the children between their calls.

`System.count` forgets the bytes again: what is left of a child is the number of the bytes that it
has still to write, for which one has to know how many there will be.
-/

namespace SemOS.Shell.Contents

/-- A child: its program, what it has read, whether its input has ended, and how much it has
written of what is due. -/
structure Process where
  fds : Table OpenFile
  program : Transducer UInt8
  input : List UInt8
  eof : Bool
  written : ℕ
  activity : Activity

/-- The shell and its children, the bytes in every pipe, what is left in every file that the shell
was started with, and what has been written to it. -/
structure System where
  shell : State
  control : Control
  children : List Process
  contents : ℕ → List UInt8
  files : ℕ → List UInt8
  output : ℕ → List UInt8

/-- What the child is to write so far. -/
def Process.due (k : Process) : List UInt8 := k.program.due k.eof k.input

/-- Some process has `file` open. -/
def System.IsOpen (s : System) (file : OpenFile) : Prop :=
  s.shell.fds.Names file ∨ ∃ k ∈ s.children, k.activity ≠ .exited ∧ k.fds.Names file

instance (s : System) (file : OpenFile) : Decidable (s.IsOpen file) :=
  inferInstanceAs (Decidable (_ ∨ ∃ k ∈ s.children, _))

/-- The system with the child `pid` replaced. -/
def System.setChild (s : System) (pid : ℕ) (k : Process) : System :=
  { s with children := s.children.set pid k }

/-- The commands of the line have all been started and have all exited. -/
def System.AllExited (s : System) (line : Pipeline) : Prop :=
  s.children.length = line.commands.length ∧ ∀ k ∈ s.children, k.activity = .exited

/-- A step of the shell; `execvp` of a command runs its program. -/
def shellStep (programs : Command → Transducer UInt8) (s : System) : Option System :=
  match s.control with
  | .walking [] => none
  | .walking (.pipe :: next) => some { s with control := .walking next }
  | .walking (.command c :: next) =>
    let notLast := isNextPipe next
    let (fildes, shell) := openPipe notLast s.shell
    let pid := s.children.length
    let child : Process :=
      ⟨shell.fds, programs c, [], false, 0, .starting notLast fildes shell.inputFd⟩
    some { s with
      shell
      control := .forked notLast fildes pid next
      children := s.children ++ [child] }
  | .forked notLast fildes pid next =>
    some { s with shell := parentBranch notLast fildes s.shell, control := .waiting pid next }
  | .waiting pid next =>
    if (s.children[pid]?).map Process.activity = some .exited then
      some { s with control := .walking next }
    else none

/-- `read` of the child `pid`: a byte, the end of the input, or nothing yet. -/
def readStep (s : System) (pid : ℕ) (k : Process) : Option System :=
  match k.fds.lookup 0 with
  | some (.inherited file) =>
    match s.files file with
    | [] => some (s.setChild pid { k with eof := true, activity := .between })
    | b :: rest =>
      some { s.setChild pid { k with input := k.input ++ [b], activity := .between } with
        files := Function.update s.files file rest }
  | some (.readEnd p) =>
    match s.contents p with
    | [] =>
      if s.IsOpen (.writeEnd p) then none
      else some (s.setChild pid { k with eof := true, activity := .between })
    | b :: rest =>
      some { s.setChild pid { k with input := k.input ++ [b], activity := .between } with
        contents := Function.update s.contents p rest }
  | _ => some (s.setChild pid { k with eof := true, activity := .between })

/-- `write` of the child `pid`: its next byte goes out, or there is no room yet. -/
def writeStep (K : ℕ) (s : System) (pid : ℕ) (k : Process) : Option System :=
  let b := k.due.getD k.written 0
  let k' := { k with written := k.written + 1, activity := .between }
  match k.fds.lookup 1 with
  | some (.writeEnd p) =>
    if ¬ s.IsOpen (.readEnd p) then some (s.setChild pid { k with activity := .exited })
    else if (s.contents p).length < K then
      some { s.setChild pid k' with contents := Function.update s.contents p (s.contents p ++ [b]) }
    else none
  | some (.inherited file) =>
    some { s.setChild pid k' with output := Function.update s.output file (s.output file ++ [b]) }
  | _ => some (s.setChild pid k')

/-- A step of the child `pid`; between two calls it chooses to read or to write what is due, and
exits when there is nothing left to do. -/
def childStep (K : ℕ) (writes : Bool) (s : System) (pid : ℕ) (k : Process) : Option System :=
  match k.activity with
  | .starting notLast fildes inputFd =>
    some (s.setChild pid
      { k with fds := childBranch notLast fildes inputFd k.fds, activity := .between })
  | .between =>
    if k.eof ∧ k.due.length ≤ k.written then some (s.setChild pid { k with activity := .exited })
    else if writes then
      if k.written < k.due.length then some (s.setChild pid { k with activity := .writing })
      else none
    else if k.eof then none else some (s.setChild pid { k with activity := .reading })
  | .reading => readStep s pid k
  | .writing => writeStep K s pid k
  | .exited => none

/-- One step of the system. -/
def step (K : ℕ) (programs : Command → Transducer UInt8) : Mover → System → Option System
  | .shell, s => shellStep programs s
  | .child pid writes, s => (s.children[pid]?).bind (childStep K writes s pid)

/-- A fresh shell before the line, with the files as they are. -/
def launch (init : StartTable) (line : Pipeline) (files : ℕ → List UInt8) : System :=
  ⟨start init, .walking line.line, [], fun _ => [], files, fun _ => []⟩

/-- One pipeline of a fresh shell, over pipes of `K` bytes. -/
def pipelineMachine (init : StartTable) (line : Pipeline) (K : ℕ)
    (programs : Command → Transducer UInt8) (files : ℕ → List UInt8) : Machine Mover System where
  init := (· = launch init line files)
  act := step K programs

/-! ## The numbers of bytes -/

/-- The child as a number of bytes to write, out of `total`. -/
def Process.count (total : ℕ) (k : Process) : Shell.Process :=
  ⟨k.fds, total - k.written, k.eof, k.activity⟩

/-- The system with numbers for bytes; the child `i` has `output i` bytes to write in all. -/
def System.count (output : ℕ → ℕ) (s : System) : Shell.System where
  shell := s.shell
  control := s.control
  children := s.children.mapIdx fun i k => k.count (output i)
  contents p := (s.contents p).length
  unread file := (s.files file).length

variable {output : ℕ → ℕ} {s t : System} {k k' : Process} {i : ℕ}

theorem count_children (s : System) (i : ℕ) :
    (s.count output).children[i]? = (s.children[i]?).map (Process.count (output i)) := by
  simp [System.count]

theorem length_count (s : System) : (s.count output).children.length = s.children.length := by
  simp [System.count]

theorem count_set (l : List Process) (i : ℕ) (k : Process) :
    (l.set i k).mapIdx (fun i k => k.count (output i)) =
      (l.mapIdx fun i k => k.count (output i)).set i (k.count (output i)) := by
  refine List.ext_getElem? fun j => ?_
  simp only [List.getElem?_mapIdx, List.getElem?_set, List.length_mapIdx]
  split_ifs with hj hi
  · subst hj
    rfl
  · rfl
  · rfl

/-- What is open does not depend on the bytes. -/
theorem count_isOpen (file : OpenFile) : (s.count output).IsOpen file ↔ s.IsOpen file := by
  refine or_congr Iff.rfl ⟨?_, ?_⟩
  · rintro ⟨m, hm, he, hn⟩
    obtain ⟨i, hi⟩ := List.getElem?_of_mem hm
    rw [count_children] at hi
    obtain ⟨k, hk, rfl⟩ := Option.map_eq_some_iff.1 hi
    exact ⟨k, List.mem_of_getElem? hk, he, hn⟩
  · rintro ⟨k, hk, he, hn⟩
    obtain ⟨i, hi⟩ := List.getElem?_of_mem hk
    refine ⟨k.count (output i), List.mem_of_getElem? (i := i) ?_, he, hn⟩
    rw [count_children, hi]
    rfl

theorem count_allExited (line : Pipeline) :
    (s.count output).AllExited line ↔ s.AllExited line := by
  rw [System.AllExited, Shell.System.AllExited, length_count]
  refine and_congr Iff.rfl ⟨fun h k hk => ?_, fun h m hm => ?_⟩
  · obtain ⟨i, hi⟩ := List.getElem?_of_mem hk
    refine h (k.count (output i)) (List.mem_of_getElem? (i := i) ?_)
    rw [count_children, hi]
    rfl
  · obtain ⟨i, hi⟩ := List.getElem?_of_mem hm
    rw [count_children] at hi
    obtain ⟨k, hk, rfl⟩ := Option.map_eq_some_iff.1 hi
    exact h k (List.mem_of_getElem? hk)

theorem count_setChild (s : System) (i : ℕ) (k : Process) :
    (s.setChild i k).count output = (s.count output).setChild i (k.count (output i)) := by
  rw [System.setChild, System.count, count_set]
  rfl

/-- The lengths, after a change of one list. -/
theorem length_update (c : ℕ → List UInt8) (p : ℕ) (l : List UInt8) :
    (fun q => (Function.update c p l q).length) =
      Function.update (fun q => (c q).length) p l.length := by
  funext q
  exact Function.apply_update (fun _ => List.length) c p l q

/-! ## What a child can do -/

/-- The ways of the child `k` in `s`: what becomes of it, of the pipes, of the files and of the
output. -/
inductive Moves (K : ℕ) (s : System) (k : Process) :
    Process → (ℕ → List UInt8) → (ℕ → List UInt8) → (ℕ → List UInt8) → Prop
  | start {notLast fildes inputFd} (h : k.activity = .starting notLast fildes inputFd) :
    Moves K s k { k with fds := childBranch notLast fildes inputFd k.fds, activity := .between }
      s.contents s.files s.output
  | exit (h : k.activity = .between) (heof : k.eof = true) (hw : k.due.length ≤ k.written) :
    Moves K s k { k with activity := .exited } s.contents s.files s.output
  | write (h : k.activity = .between) (hw : k.written < k.due.length) :
    Moves K s k { k with activity := .writing } s.contents s.files s.output
  | read (h : k.activity = .between) (heof : k.eof = false) :
    Moves K s k { k with activity := .reading } s.contents s.files s.output
  | getFile {file b rest} (h : k.activity = .reading)
      (hin : k.fds.lookup 0 = some (.inherited file)) (hf : s.files file = b :: rest) :
    Moves K s k { k with input := k.input ++ [b], activity := .between } s.contents
      (Function.update s.files file rest) s.output
  | getPipe {p b rest} (h : k.activity = .reading) (hin : k.fds.lookup 0 = some (.readEnd p))
      (hp : s.contents p = b :: rest) :
    Moves K s k { k with input := k.input ++ [b], activity := .between }
      (Function.update s.contents p rest) s.files s.output
  | endOfFile {file} (h : k.activity = .reading) (hin : k.fds.lookup 0 = some (.inherited file))
      (hf : s.files file = []) :
    Moves K s k { k with eof := true, activity := .between } s.contents s.files s.output
  | endOfPipe {p} (h : k.activity = .reading) (hin : k.fds.lookup 0 = some (.readEnd p))
      (hp : s.contents p = []) :
    Moves K s k { k with eof := true, activity := .between } s.contents s.files s.output
  | endOfNothing (h : k.activity = .reading)
      (hfile : ∀ file, k.fds.lookup 0 ≠ some (.inherited file))
      (hpipe : ∀ p, k.fds.lookup 0 ≠ some (.readEnd p)) :
    Moves K s k { k with eof := true, activity := .between } s.contents s.files s.output
  | putPipe {p} (h : k.activity = .writing) (hout : k.fds.lookup 1 = some (.writeEnd p))
      (hp : (s.contents p).length < K) :
    Moves K s k { k with written := k.written + 1, activity := .between }
      (Function.update s.contents p (s.contents p ++ [k.due.getD k.written 0])) s.files s.output
  | putFile {file} (h : k.activity = .writing) (hout : k.fds.lookup 1 = some (.inherited file)) :
    Moves K s k { k with written := k.written + 1, activity := .between } s.contents s.files
      (Function.update s.output file (s.output file ++ [k.due.getD k.written 0]))
  | lose (h : k.activity = .writing) (hfile : ∀ file, k.fds.lookup 1 ≠ some (.inherited file))
      (hpipe : ∀ p, k.fds.lookup 1 ≠ some (.writeEnd p)) :
    Moves K s k { k with written := k.written + 1, activity := .between } s.contents s.files
      s.output
  | killed {p} (h : k.activity = .writing) (hout : k.fds.lookup 1 = some (.writeEnd p))
      (hopen : ¬ s.IsOpen (.readEnd p)) :
    Moves K s k { k with activity := .exited } s.contents s.files s.output

variable {K pid : ℕ} {writes : Bool}

theorem readStep_moves (hk : k.activity = .reading) (h : readStep s pid k = some t) :
    ∃ k' contents files output, Moves K s k k' contents files output ∧
      t = ⟨s.shell, s.control, s.children.set pid k', contents, files, output⟩ := by
  simp only [readStep] at h
  split at h
  · rename_i hin
    split at h
    · exact ⟨_, _, _, _, .endOfFile hk hin ‹_›, (Option.some.inj h).symm⟩
    · exact ⟨_, _, _, _, .getFile hk hin ‹_›, (Option.some.inj h).symm⟩
  · rename_i hin
    split at h
    · split at h
      · cases h
      · exact ⟨_, _, _, _, .endOfPipe hk hin ‹_›, (Option.some.inj h).symm⟩
    · exact ⟨_, _, _, _, .getPipe hk hin ‹_›, (Option.some.inj h).symm⟩
  · rename_i hfile hpipe
    exact ⟨_, _, _, _, .endOfNothing hk hfile hpipe, (Option.some.inj h).symm⟩

theorem writeStep_moves (hk : k.activity = .writing) (h : writeStep K s pid k = some t) :
    ∃ k' contents files output, Moves K s k k' contents files output ∧
      t = ⟨s.shell, s.control, s.children.set pid k', contents, files, output⟩ := by
  simp only [writeStep] at h
  split at h
  · rename_i hout
    split at h
    · exact ⟨_, _, _, _, .killed hk hout ‹_›, (Option.some.inj h).symm⟩
    · split at h
      · exact ⟨_, _, _, _, .putPipe hk hout ‹_›, (Option.some.inj h).symm⟩
      · cases h
  · rename_i hout
    exact ⟨_, _, _, _, .putFile hk hout, (Option.some.inj h).symm⟩
  · rename_i hpipe hfile
    exact ⟨_, _, _, _, .lose hk hfile hpipe, (Option.some.inj h).symm⟩

/-- A step of a child is one of its ways. -/
theorem childStep_moves (h : childStep K writes s pid k = some t) :
    ∃ k' contents files output, Moves K s k k' contents files output ∧
      t = ⟨s.shell, s.control, s.children.set pid k', contents, files, output⟩ := by
  simp only [childStep] at h
  split at h
  · rename_i hk
    exact ⟨_, _, _, _, .start hk, (Option.some.inj h).symm⟩
  · rename_i hk
    split at h
    · rename_i hend
      exact ⟨_, _, _, _, .exit hk hend.1 hend.2, (Option.some.inj h).symm⟩
    · split at h
      · split at h
        · exact ⟨_, _, _, _, .write hk ‹_›, (Option.some.inj h).symm⟩
        · cases h
      · split at h
        · cases h
        · exact ⟨_, _, _, _, .read hk (by simpa using ‹¬ k.eof = true›), (Option.some.inj h).symm⟩
  · exact readStep_moves ‹_› h
  · exact writeStep_moves ‹_› h
  · cases h

/-! ## The steps with numbers for bytes -/

/-- What the child is to write in all is `total`, and it has not written more than what is due. -/
structure Process.Within (total : ℕ) (k : Process) : Prop where
  due : k.due.length ≤ total
  ended : k.eof = true → k.due.length = total
  written : k.written ≤ k.due.length
  writing : k.activity = .writing → k.written < k.due.length

theorem count_readStep (h : readStep s pid k = some t) :
    Shell.readStep (s.count output) pid (k.count (output pid)) = some (t.count output) := by
  have hfds : (k.count (output pid)).fds = k.fds := rfl
  rw [readStep] at h
  rw [Shell.readStep, hfds]
  cases hin : k.fds.lookup 0 with
  | none =>
    rw [hin] at h
    obtain rfl := Option.some.inj h
    rw [count_setChild]
    rfl
  | some file =>
    rw [hin] at h
    cases file with
    | inherited file =>
      dsimp only at h ⊢
      cases hf : s.files file with
      | nil =>
        rw [hf] at h
        obtain rfl := Option.some.inj h
        have hu : (s.count output).unread file = 0 := congrArg List.length hf
        rw [if_pos hu, count_setChild]
        rfl
      | cons b rest =>
        rw [hf] at h
        obtain rfl := Option.some.inj h
        have hu : (s.count output).unread file = rest.length + 1 := congrArg List.length hf
        rw [if_neg (by omega), hu]
        simp only [System.count, System.setChild, length_update, count_set]
        rfl
    | readEnd p =>
      dsimp only at h ⊢
      cases hp : s.contents p with
      | nil =>
        rw [hp] at h
        have hc : (s.count output).contents p = 0 := congrArg List.length hp
        dsimp only at h
        split_ifs at h with hopen
        obtain rfl := Option.some.inj h
        rw [if_pos hc, if_neg (mt (count_isOpen _).1 hopen), count_setChild]
        rfl
      | cons b rest =>
        rw [hp] at h
        obtain rfl := Option.some.inj h
        have hc : (s.count output).contents p = rest.length + 1 := congrArg List.length hp
        rw [if_neg (by omega), hc]
        simp only [System.count, System.setChild, length_update, count_set]
        rfl
    | writeEnd p =>
      obtain rfl := Option.some.inj h
      rw [count_setChild]
      rfl

/-- What is left to write after one more byte. -/
theorem count_written (total : ℕ) (k : Process) :
    ({ k with written := k.written + 1, activity := .between } : Process).count total =
      { k.count total with
        unwritten := (k.count total).unwritten - 1, activity := .between } := by
  simp only [Process.count, Nat.sub_sub]

theorem count_writeStep (h : writeStep K s pid k = some t) :
    Shell.writeStep K (s.count output) pid (k.count (output pid)) = some (t.count output) := by
  have hfds : (k.count (output pid)).fds = k.fds := rfl
  rw [writeStep] at h
  rw [Shell.writeStep, hfds]
  cases hout : k.fds.lookup 1 with
  | none =>
    rw [hout] at h
    obtain rfl := Option.some.inj h
    simp only [System.count, System.setChild, count_set, Shell.System.setChild, count_written]
    rfl
  | some file =>
    rw [hout] at h
    cases file with
    | writeEnd p =>
      dsimp only at h ⊢
      by_cases hopen : s.IsOpen (.readEnd p)
      · rw [if_neg (not_not.2 hopen)] at h
        split_ifs at h with hroom
        obtain rfl := Option.some.inj h
        rw [if_neg (not_not.2 ((count_isOpen _).2 hopen)),
          if_pos (show (s.count output).contents p < K from hroom)]
        simp only [System.count, System.setChild, length_update, count_set, List.length_append,
          List.length_singleton, Shell.System.setChild, count_written]
        rfl
      · rw [if_pos hopen] at h
        obtain rfl := Option.some.inj h
        rw [if_pos (mt (count_isOpen _).1 hopen), count_setChild]
        rfl
    | inherited file | readEnd p =>
      obtain rfl := Option.some.inj h
      simp only [System.count, System.setChild, count_set, Shell.System.setChild, count_written]
      rfl

theorem count_childStep (hw : k.Within (output pid)) (h : childStep K writes s pid k = some t) :
    Shell.childStep K writes (s.count output) pid (k.count (output pid)) =
      some (t.count output) := by
  rw [childStep] at h
  rw [Shell.childStep, show (k.count (output pid)).activity = k.activity from rfl]
  cases hk : k.activity with
  | starting notLast fildes inputFd =>
    rw [hk] at h
    obtain rfl := Option.some.inj h
    dsimp only
    rw [count_setChild]
    rfl
  | between =>
    rw [hk] at h
    dsimp only at h ⊢
    have hdue := hw.due
    have hwritten := hw.written
    by_cases hend : k.eof = true ∧ k.due.length ≤ k.written
    · have htotal := hw.ended hend.1
      have hcount : (k.count (output pid)).eof = true ∧ (k.count (output pid)).unwritten = 0 :=
        ⟨hend.1, show output pid - k.written = 0 by omega⟩
      rw [if_pos hend] at h
      obtain rfl := Option.some.inj h
      rw [if_pos hcount, count_setChild]
      rfl
    · have hcount : ¬ ((k.count (output pid)).eof = true ∧
          (k.count (output pid)).unwritten = 0) := by
        rintro ⟨heof, hu⟩
        have htotal := hw.ended heof
        have hzero : output pid - k.written = 0 := hu
        exact hend ⟨heof, by omega⟩
      rw [if_neg hend] at h
      rw [if_neg hcount]
      cases writes with
      | true =>
        rw [if_pos rfl] at h ⊢
        split_ifs at h with hlt
        obtain rfl := Option.some.inj h
        have hleft : 0 < (k.count (output pid)).unwritten := Nat.sub_pos_of_lt (by omega)
        rw [if_pos hleft, count_setChild]
        rfl
      | false =>
        rw [if_neg (by simp)] at h ⊢
        split_ifs at h with heof
        obtain rfl := Option.some.inj h
        rw [if_neg (show ¬ (k.count (output pid)).eof = true from heof), count_setChild]
        rfl
  | reading =>
    rw [hk] at h
    exact count_readStep h
  | writing =>
    rw [hk] at h
    exact count_writeStep h
  | exited =>
    rw [hk] at h
    cases h

theorem count_shellStep {programs : Command → Transducer UInt8}
    (h : shellStep programs s = some t) :
    Shell.shellStep output (s.count output) = some (t.count output) := by
  obtain ⟨shell, control, children, contents, files, out⟩ := s
  cases control with
  | walking next =>
    match next with
    | [] => cases h
    | .pipe :: next =>
      cases h
      rfl
    | .command c :: next =>
      cases h
      simp only [Shell.shellStep, System.count, List.mapIdx_concat, List.length_mapIdx]
      rfl
  | forked notLast fildes pid next =>
    cases h
    rfl
  | waiting pid next =>
    simp only [shellStep] at h
    split at h
    · rename_i he
      cases h
      have hsame : ((System.mk shell (.waiting pid next) children contents files out).count
          output).children[pid]?.map Shell.Process.activity = some .exited := by
        rw [count_children, Option.map_map]
        exact he
      simp only [Shell.shellStep]
      rw [show (System.count output ⟨shell, .waiting pid next, children, contents, files,
        out⟩).control = .waiting pid next from rfl]
      dsimp only
      rw [if_pos hsame]
      rfl
    · cases h

end SemOS.Shell.Contents
