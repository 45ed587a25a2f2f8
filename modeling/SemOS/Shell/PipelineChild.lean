import SemOS.Shell.Contents
import SemOS.Shell.PipelineProgress

/-!
# What the last child of a pipeline makes of its input

Each command of a pipeline reads what the one before it has written, all of it and nothing else.
`Follows` is the invariant of the bytes: the last child has read a part of its input, the rest of
which is where it reads from, and has written a part of what is due. `Follows.child` is a step of
this child.
-/

namespace SemOS.Shell.Contents

variable {init : StartTable} {line : Pipeline} {K : ℕ} {programs : Command → Transducer UInt8}
  {files : ℕ → List UInt8} {s t : System} {k k' : Process} {i : ℕ}

/-- What the first `i` of the commands make of the input. -/
def piped (programs : Command → Transducer UInt8) (cs : List Command) (input : List UInt8) (i : ℕ) :
    List UInt8 :=
  Transducer.through ((cs.take i).map programs) input

/-- What the pipeline is to write. -/
def Pipeline.result (programs : Command → Transducer UInt8) (line : Pipeline)
    (input : List UInt8) : List UInt8 :=
  Transducer.through (line.commands.map programs) input

theorem piped_succ {cs : List Command} {c : Command} (hc : cs[i]? = some c) (input : List UInt8) :
    piped programs cs input (i + 1) = (programs c).result (piped programs cs input i) := by
  rw [piped, List.take_add_one, hc, Option.toList_some, List.map_append, List.map_singleton,
    Transducer.through_concat, piped]

theorem piped_length (input : List UInt8) :
    piped programs line.commands input line.commands.length =
      Pipeline.result programs line input := by
  rw [piped, List.take_length, Pipeline.result]

/-- How much each command is to write. -/
def outputs (programs : Command → Transducer UInt8) (cs : List Command) (input : List UInt8)
    (i : ℕ) : ℕ :=
  (piped programs cs input (i + 1)).length

/-! ## The invariant -/

/-- The descriptors that a child will have at its `execvp`. -/
def Process.table (k : Process) : Table OpenFile := (k.count 0).table

/-- What the command `i` reads from. -/
def source (init : StartTable) : ℕ → OpenFile
  | 0 => .inherited init.stdin
  | p + 1 => .readEnd p

/-- What is left of the input of the command `i`. -/
def System.left (init : StartTable) (s : System) : ℕ → List UInt8
  | 0 => s.files init.stdin
  | p + 1 => s.contents p

/-- What is to be found of the output of the command `i`. -/
def System.sunk (init : StartTable) (line : Pipeline) (s : System) (i : ℕ) : List UInt8 :=
  if i + 1 = line.commands.length then s.output init.stdout else s.contents i

/-- The last child that was forked: the command `i`. -/
structure Last (init : StartTable) (line : Pipeline) (programs : Command → Transducer UInt8)
    (input : List UInt8) (s : System) (i : ℕ) (k : Process) : Prop where
  program : ∃ c, line.commands[i]? = some c ∧ k.program = programs c
  stdin : k.table.lookup 0 = some (source init i)
  source : k.input ++ s.left init i = piped programs line.commands input i
  ended : k.eof = true → s.left init i = []
  written : k.written ≤ k.due.length
  writing : k.activity = .writing → k.written < k.due.length
  sink : s.sunk init line i = (piped programs line.commands input (i + 1)).take k.written
  exited : k.activity = .exited → k.eof = true ∧ k.due.length ≤ k.written

/-- **What the pipeline computes, so far.** -/
structure Follows (init : StartTable) (line : Pipeline) (programs : Command → Transducer UInt8)
    (input : List UInt8) (s : System) : Prop where
  fresh : s.children = [] → s.files init.stdin = input
  quiet : ∀ file, file ≠ init.stdout ∨ s.children.length < line.commands.length →
    s.output file = []
  last : ∀ i k, s.children[i]? = some k → i + 1 = s.children.length →
    Last init line programs input s i k

variable {input : List UInt8}

theorem Last.result_eq (h : Last init line programs input s i k) :
    k.program.result (piped programs line.commands input i) =
      piped programs line.commands input (i + 1) := by
  obtain ⟨c, hc, hk⟩ := h.program
  rw [piped_succ hc, hk]

theorem Last.input_of_eof (h : Last init line programs input s i k) (heof : k.eof = true) :
    k.input = piped programs line.commands input i := by
  have := h.source
  rwa [h.ended heof, List.append_nil] at this

theorem Last.due_prefix (h : Last init line programs input s i k) :
    k.due <+: piped programs line.commands input (i + 1) := by
  rw [← h.result_eq]
  exact k.program.due_prefix ⟨_, h.source⟩ h.input_of_eof

theorem Last.due_of_eof (h : Last init line programs input s i k) (heof : k.eof = true) :
    k.due = piped programs line.commands input (i + 1) := by
  rw [Process.due, heof, Transducer.due, if_pos rfl, h.input_of_eof heof, h.result_eq]

/-- The child has not written more than it has to. -/
theorem Last.within (h : Last init line programs input s i k) :
    k.Within (outputs programs line.commands input i) where
  due := h.due_prefix.length_le
  ended heof := by rw [h.due_of_eof heof, outputs]
  written := h.written
  writing := h.writing

/-- The byte that the child writes next. -/
theorem Last.take_succ (h : Last init line programs input s i k)
    (hw : k.written < k.due.length) :
    (piped programs line.commands input (i + 1)).take k.written ++ [k.due.getD k.written 0] =
      (piped programs line.commands input (i + 1)).take (k.written + 1) := by
  obtain ⟨m, hm⟩ := h.due_prefix
  rw [← hm, List.take_add_one, List.getElem?_append_left hw, List.getD_eq_getElem?_getD,
    List.getElem?_eq_getElem hw]
  rfl

/-! ## Steps of the last child -/

theorem table_eq_fds (h : ∀ n f fd, k.activity ≠ .starting n f fd) : k.table = k.fds :=
  Shell.table_eq_fds (k := k.count 0) h

/-- The child goes on without a byte. -/
theorem Last.keep (h : Last init line programs input s i k) (hprogram : k'.program = k.program)
    (hinput : k'.input = k.input) (heof : k'.eof = k.eof) (hwritten : k'.written = k.written)
    (htable : k'.table = k.table) (hleft : t.left init i = s.left init i)
    (hsunk : t.sunk init line i = s.sunk init line i)
    (hwriting : k'.activity = .writing → k.written < k.due.length)
    (hexited : k'.activity = .exited → k.eof = true ∧ k.due.length ≤ k.written) :
    Last init line programs input t i k' := by
  have hdue : k'.due = k.due := by rw [Process.due, Process.due, hprogram, hinput, heof]
  refine ⟨by rw [hprogram]; exact h.program, by rw [htable]; exact h.stdin,
    by rw [hinput, hleft]; exact h.source, by rw [heof, hleft]; exact h.ended,
    by rw [hwritten, hdue]; exact h.written, by rw [hwritten, hdue]; exact hwriting,
    by rw [hsunk, hwritten]; exact h.sink, by rw [heof, hdue, hwritten]; exact hexited⟩

/-- The child reads a byte. -/
theorem Last.get (h : Last init line programs input s i k) {b : UInt8}
    (hb : s.left init i = b :: t.left init i) (hsunk : t.sunk init line i = s.sunk init line i)
    (htable : k.table = k.fds) :
    Last init line programs input t i
      { k with input := k.input ++ [b], activity := .between } := by
  have heof : k.eof = false := by
    by_contra he
    have := h.ended (by simpa using he)
    rw [hb] at this
    cases this
  have hdue : k.due <+: ({ k with input := k.input ++ [b], activity := .between } : Process).due :=
    by simpa [Process.due, Transducer.due, heof] using k.program.sofar_concat k.input b
  refine ⟨h.program, ?_, ?_, fun he => ?_, h.written.trans hdue.length_le, (by simp), ?_, (by simp)⟩
  · rw [table_eq_fds (by simp), ← htable]
    exact h.stdin
  · have := h.source
    rw [hb] at this
    rw [← this, List.append_assoc, List.singleton_append]
  · rw [heof] at he
    cases he
  · rw [hsunk]
    exact h.sink

/-- The child comes to the end of its input. -/
theorem Last.end (h : Last init line programs input s i k) (hleft : s.left init i = [])
    (htleft : t.left init i = s.left init i) (hsunk : t.sunk init line i = s.sunk init line i)
    (htable : k.table = k.fds) :
    Last init line programs input t i { k with eof := true, activity := .between } := by
  have hdue : k.due <+: ({ k with eof := true, activity := .between } : Process).due := by
    rw [Process.due, Process.due, Transducer.due, Transducer.due]
    cases k.eof with
    | true => exact List.prefix_rfl
    | false => exact k.program.sofar_result k.input
  refine ⟨h.program, ?_, by rw [htleft]; exact h.source, fun _ => by rw [htleft, hleft],
    h.written.trans hdue.length_le, (by simp), ?_, (by simp)⟩
  · rw [table_eq_fds (by simp), ← htable]
    exact h.stdin
  · rw [hsunk]
    exact h.sink

/-- The child writes the next byte. -/
theorem Last.put (h : Last init line programs input s i k) (ha : k.activity = .writing)
    (hleft : t.left init i = s.left init i)
    (hsunk : t.sunk init line i = s.sunk init line i ++ [k.due.getD k.written 0]) :
    Last init line programs input t i
      { k with written := k.written + 1, activity := .between } := by
  have hw := h.writing ha
  refine ⟨h.program, ?_, by rw [hleft]; exact h.source, by rw [hleft]; exact h.ended, hw, nofun, ?_,
    nofun⟩
  · rw [table_eq_fds (by simp)]
    have := h.stdin
    rwa [table_eq_fds (by simp [ha])] at this
  · rw [hsunk, h.sink, h.take_succ hw]

/-- The last child changes, and the rest with it. -/
theorem Follows.setChild {contents files out : ℕ → List UInt8} (hi : i + 1 = s.children.length)
    (hquiet : ∀ file, file ≠ init.stdout ∨ s.children.length < line.commands.length →
      out file = [])
    (hlast : Last init line programs input
      ⟨s.shell, s.control, s.children.set i k', contents, files, out⟩ i k') :
    Follows init line programs input
      ⟨s.shell, s.control, s.children.set i k', contents, files, out⟩ := by
  have hlt : i < s.children.length := by omega
  refine ⟨fun hnil => ?_, fun file hf => ?_, fun j m hm hj => ?_⟩
  · have := congrArg List.length hnil
    rw [List.length_set, List.length_nil] at this
    omega
  · rw [List.length_set] at hf
    exact hquiet file hf
  · rw [List.length_set] at hj
    obtain rfl : j = i := by omega
    rw [List.getElem?_set_self hlt] at hm
    rwa [← Option.some.inj hm]

/-- What the machine of numbers knows of a child that has not exited. -/
theorem live_of_stage
    (hs : Stage init line.commands K (outputs programs line.commands input)
      (s.count (outputs programs line.commands input)))
    (hk : s.children[i]? = some k) (hne : k.activity ≠ .exited) :
    i + 1 = s.children.length ∧ Live init line.commands.length
      (outputs programs line.commands input) (s.count (outputs programs line.commands input)) i
      (k.count (outputs programs line.commands input i)) := by
  have hl := hs.live i (k.count (outputs programs line.commands input i)) (by
    rw [count_children, hk]
    rfl) hne
  have := hs.awaited i hl.awaited
  rw [length_count] at this
  exact ⟨this, hl⟩

/-- A file that the last child reads is the standard input of the shell. -/
theorem Last.file_of_stdin (h : Last init line programs input s i k) (htable : k.table = k.fds)
    {file : ℕ} (hin : k.fds.lookup 0 = some (.inherited file)) : i = 0 ∧ file = init.stdin := by
  have hsource := h.stdin
  rw [htable, hin] at hsource
  cases i with
  | zero => exact ⟨rfl, by simpa [Contents.source] using hsource⟩
  | succ p => simp [Contents.source] at hsource

/-- A pipe that the last child reads is the one before it. -/
theorem Last.pipe_of_stdin (h : Last init line programs input s i k) (htable : k.table = k.fds)
    {p : ℕ} (hin : k.fds.lookup 0 = some (.readEnd p)) : i = p + 1 := by
  have hsource := h.stdin
  rw [htable, hin] at hsource
  cases i with
  | zero => simp [Contents.source] at hsource
  | succ q =>
    obtain rfl : p = q := by simpa [Contents.source] using hsource
    rfl

/-- The last child reads from a file or from a pipe. -/
theorem Last.reads (h : Last init line programs input s i k) (htable : k.table = k.fds) :
    (∃ file, k.fds.lookup 0 = some (.inherited file)) ∨
      ∃ p, k.fds.lookup 0 = some (.readEnd p) := by
  have hsource := h.stdin
  rw [htable] at hsource
  cases i with
  | zero => exact .inl ⟨_, hsource⟩
  | succ p => exact .inr ⟨_, hsource⟩

/-- The child writes a byte to the standard output of the shell. -/
theorem Follows.putFile (h : Follows init line programs input s) (hi : i + 1 = s.children.length)
    (hlast : Last init line programs input s i k) (ha : k.activity = .writing)
    (hn : i + 1 = line.commands.length) :
    Follows init line programs input
      ⟨s.shell, s.control,
        s.children.set i { k with written := k.written + 1, activity := .between }, s.contents,
        s.files, Function.update s.output init.stdout
          (s.output init.stdout ++ [k.due.getD k.written 0])⟩ := by
  refine Follows.setChild hi (fun g hg => ?_) (hlast.put ha ?_ ?_)
  · have hne : g ≠ init.stdout := hg.resolve_right (by omega)
    rw [Function.update_of_ne hne]
    exact h.quiet g (Or.inl hne)
  · cases i <;> rfl
  · simp [System.sunk, hn]

/-- **A step of the last child keeps the invariant.** -/
theorem Follows.child
    (hs : Stage init line.commands K (outputs programs line.commands input)
      (s.count (outputs programs line.commands input)))
    (h : Follows init line programs input s) (hk : s.children[i]? = some k)
    {contents files out : ℕ → List UInt8} (hm : Moves K s k k' contents files out) :
    Follows init line programs input
      ⟨s.shell, s.control, s.children.set i k', contents, files, out⟩ := by
  have hne : k.activity ≠ .exited := by
    intro he
    cases hm <;> simp_all
  obtain ⟨hi, hl⟩ := live_of_stage hs hk hne
  have hlast := h.last i k hk hi
  have hfds : (∀ n f fd, k.activity ≠ .starting n f fd) → k.table = k.fds := table_eq_fds
  cases hm with
  | start ha =>
    refine Follows.setChild hi h.quiet (hlast.keep rfl rfl rfl rfl ?_ rfl rfl (by simp) (by simp))
    simp only [Process.table, Shell.Process.table, Process.count, ha]
  | exit ha heof hw =>
    exact Follows.setChild hi h.quiet (hlast.keep rfl rfl rfl rfl (hfds (by simp [ha])).symm rfl rfl
      (by simp) fun _ => ⟨heof, hw⟩)
  | write ha hw =>
    exact Follows.setChild hi h.quiet (hlast.keep rfl rfl rfl rfl (hfds (by simp [ha])).symm rfl rfl
      (fun _ => hw) (by simp))
  | read ha heof =>
    exact Follows.setChild hi h.quiet (hlast.keep rfl rfl rfl rfl (hfds (by simp [ha])).symm rfl rfl
      (by simp) (by simp))
  | getFile ha hin hf =>
    have htable := hfds (by simp [ha])
    obtain ⟨rfl, rfl⟩ := hlast.file_of_stdin htable hin
    refine Follows.setChild hi h.quiet (hlast.get ?_ rfl htable)
    simpa [System.left] using hf
  | getPipe ha hin hp =>
    have htable := hfds (by simp [ha])
    obtain rfl := hlast.pipe_of_stdin htable hin
    refine Follows.setChild hi h.quiet (hlast.get ?_ ?_ htable)
    · simpa [System.left] using hp
    · simp [System.sunk]
  | endOfFile ha hin hf =>
    have htable := hfds (by simp [ha])
    obtain ⟨rfl, rfl⟩ := hlast.file_of_stdin htable hin
    exact Follows.setChild hi h.quiet (hlast.end hf rfl rfl htable)
  | endOfPipe ha hin hp =>
    have htable := hfds (by simp [ha])
    obtain rfl := hlast.pipe_of_stdin htable hin
    exact Follows.setChild hi h.quiet (hlast.end hp rfl rfl htable)
  | endOfNothing ha hfile hpipe =>
    obtain ⟨f, hf⟩ | ⟨p, hp⟩ := hlast.reads (hfds (by simp [ha]))
    · exact absurd hf (hfile f)
    · exact absurd hp (hpipe p)
  | @putPipe p ha hout hp =>
    obtain ⟨rfl, hn, -⟩ := hl.pipe_of_stdout (hfds (by simp [ha])) hout
    refine Follows.setChild hi h.quiet (hlast.put ha ?_ ?_)
    · cases p with
      | zero => rfl
      | succ q => simp [System.left]
    · simp [System.sunk, hn.ne]
  | putFile ha hout =>
    obtain ⟨rfl, hn⟩ := hl.file_of_stdout (hfds (by simp [ha])) hout
    exact h.putFile hi hlast ha hn
  | lose ha hfile hpipe =>
    obtain ⟨f, hf⟩ | ⟨p, hp⟩ := hl.writes (hfds (by simp [ha]))
    · exact absurd hf (hfile f)
    · exact absurd hp (hpipe p)
  | killed ha hout hopen =>
    obtain ⟨rfl, hn, -⟩ := hl.pipe_of_stdout (hfds (by simp [ha])) hout
    exact absurd ((count_isOpen _).1 (hs.reader_open (by rw [length_count]; exact hi) hn)) hopen

end SemOS.Shell.Contents
