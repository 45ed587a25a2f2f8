import SemOS.Foundations.Decimal
import SemOS.Foundations.Descriptors
import SemOS.Foundations.Stdio
import SemOS.Wc.Events

/-!
# The whole of the program that counts

`main` of `sems/wc/wc.c`, from the two pipes to the last `wait`, together with the child it forks.

* `makePipes`, `redirect`, `childTable` and `parentTable` are the calls on the descriptors on both
  sides of the `fork`.
* The child is any program that writes the bytes of `stream` to its standard output and its standard
  error, over pipes of `K` bytes, in pieces and in an order of its own; it may close either of them
  when nothing is left for it, and exits when nothing is left for both.
* `epoll_wait` answers with some of the pipes that are ready, in any order, and `read` with some of
  the bytes that are there. A `read` fails neither here nor in a pipe with a reader of its own.
* `main` prints the lines of `DBG_PRINT` in every call of `count`, and the counters at the end.

`Wired` says which descriptors the program leaves in the two tables (`wired_childTable`,
`plumbed_parentTable`).
-/

namespace SemOS.Wc.Program

open Function Stdio

/-- What a descriptor is open on. -/
inductive OpenFile
  | inherited (file : ℕ)
  | readEnd (q : Pipe)
  | writeEnd (q : Pipe)
  deriving DecidableEq

/-- A table to start with: the three standard descriptors are open, and nothing is a pipe of the
program. -/
structure StartTable where
  fds : Table OpenFile
  inherited : ∀ fd file, fds.lookup fd = some file → ∃ i, file = .inherited i
  standard : ∀ fd < 3, fds.lookup fd ≠ none

/-- `STDOUT_pipefds` and `STDERR_pipefds`. -/
abbrev PipeFds := Pipe → ℕ × ℕ

/-- The descriptor of the child that the bytes of a stream are written to. -/
def number : Pipe → ℕ
  | .stdout => 1
  | .stderr => 2

/-- The two calls of `pipe`. -/
def makePipes (fds : Table OpenFile) : PipeFds × Table OpenFile :=
  let out := fds.pipe (.readEnd .stdout) (.writeEnd .stdout)
  let err := out.2.pipe (.readEnd .stderr) (.writeEnd .stderr)
  (fun
    | .stdout => out.1
    | .stderr => err.1, err.2)

/-- What the child does with each pipe. -/
def redirect (pipefds : ℕ × ℕ) (number : ℕ) (fds : Table OpenFile) : Table OpenFile :=
  ((fds.close pipefds.1).dup2 pipefds.2 number).close pipefds.2

/-- The descriptors of the child before `execvp`. -/
def childTable (p : PipeFds) (fds : Table OpenFile) : Table OpenFile :=
  redirect (p .stderr) 2 (redirect (p .stdout) 1 fds)

/-- The descriptors of the parent after it has closed the write ends. -/
def parentTable (p : PipeFds) (fds : Table OpenFile) : Table OpenFile :=
  (fds.close (p .stdout).2).close (p .stderr).2

/-- Where the child is. -/
inductive Child
  | unborn
  /-- Before `execvp`. -/
  | forked (p : PipeFds) (fds : Table OpenFile)
  /-- The program that it runs. -/
  | running (fds : Table OpenFile)
  | exited

/-- Where `main` is. -/
inductive Main
  | start
  /-- After `fork`. -/
  | forked (p : PipeFds)
  /-- Before `epoll_wait`. -/
  | waiting (p : PipeFds)
  /-- In the loop over the events. -/
  | handling (p : PipeFds) (events : List Pipe)
  /-- In the loop over `wait`. -/
  | reaping
  | finished

/-- The two processes, what the pipes hold, what the child has still to write, the counters and what
`main` has printed. -/
structure State where
  main : Main
  fds : Table OpenFile
  child : Child
  pipe : Pipe → List UInt8
  toWrite : Pipe → List UInt8
  info : Pipe → WcCtx
  activeFds : ℤ
  output : List UInt8

/-- The child has `file` open. -/
def Child.Holds (file : OpenFile) : Child → Prop
  | .forked _ fds | .running fds => fds.Names file
  | .unborn | .exited => False

instance (file : OpenFile) : (c : Child) → Decidable (c.Holds file)
  | .forked _ fds | .running fds => inferInstanceAs (Decidable (fds.Names file))
  | .unborn | .exited => inferInstanceAs (Decidable False)

/-- Some process has `file` open. -/
def State.IsOpen (s : State) (file : OpenFile) : Prop := s.fds.Names file ∨ s.child.Holds file

instance (s : State) (file : OpenFile) : Decidable (s.IsOpen file) :=
  inferInstanceAs (Decidable (_ ∨ _))

/-- A `read` of the pipe would not block. -/
def State.Ready (s : State) (p : PipeFds) (q : Pipe) : Prop :=
  s.fds.lookup (p q).1 ≠ none ∧ (s.pipe q ≠ [] ∨ ¬ s.IsOpen (.writeEnd q))

instance (s : State) (p : PipeFds) (q : Pipe) : Decidable (s.Ready p q) :=
  inferInstanceAs (Decidable (_ ∧ _))

/-- `dump_wc_info`. -/
def dumpWcInfo (info : WcCtx) (msg : List UInt8) : List UInt8 :=
  msg ++ [newline] ++
    (ascii "bytes: " ++ Decimal.decimal info.bytes ++ [newline]) ++
    (ascii "words: " ++ Decimal.decimal info.words ++ [newline]) ++
    (ascii "lines: " ++ Decimal.decimal info.lines ++ [newline])

/-- `DBG_PRINT` in `count`: the function, the line of the source, and the text. -/
def dbgPrint (line : ℕ) (text : List UInt8) : List UInt8 :=
  ascii "count:" ++ Decimal.decimal line ++ ascii " " ++ text

/-- What `count` prints, given the bytes that `read` returns, and the counters before. -/
def countPrints (answer : Option (List UInt8)) (info : WcCtx) : List UInt8 :=
  dbgPrint 63 [newline] ++ dbgPrint 68 [newline] ++
    match answer with
    | none => []
    | some buffer =>
      if buffer.length = 0 then dbgPrint 73 (ascii "file end" ++ [newline])
      else
        dbgPrint 81 (ascii "read success" ++ [newline]) ++
          dbgPrint 104 (ascii "info->bytes: " ++ Decimal.decimal (count answer info).2.bytes ++
            [newline])

/-- What `main` prints of the counters. -/
def dumped (info : Pipe → WcCtx) : List UInt8 :=
  dumpWcInfo (info .stdout) (ascii "STDOUT:") ++ dumpWcInfo (info .stderr) (ascii "STDERR:")

/-- The head of the loop. -/
def loopHead (p : PipeFds) (s : State) : State :=
  if 0 < s.activeFds then { s with main := .waiting p }
  else { s with main := .reaping, output := s.output ++ dumped s.info }

/-- The end of a turn of the loop over the events. -/
def nextEvent (p : PipeFds) (events : List Pipe) (s : State) : State :=
  if events = [] then loopHead p s else { s with main := .handling p events }

/-- The turn for a descriptor, where `read` returns `n` bytes. -/
def handleEvent (p : PipeFds) (q : Pipe) (n : ℕ) (s : State) : State :=
  let answer := some ((s.pipe q).take n)
  let result := count answer (s.info q)
  { s with
    fds := if result.1 ≤ 0 then s.fds.close (p q).1 else s.fds
    pipe := update s.pipe q ((s.pipe q).drop n)
    info := update s.info q result.2
    activeFds := if result.1 ≤ 0 then s.activeFds - 1 else s.activeFds
    output := s.output ++ countPrints answer (s.info q) }

/-- A step of `main` outside of the loop. -/
def mainStep (succeeds : Bool) (s : State) : Option State :=
  match s.main with
  | .start =>
    let pipes := makePipes s.fds
    some { s with
      main := .forked pipes.1
      fds := pipes.2
      child := if succeeds then .forked pipes.1 pipes.2 else .unborn }
  | .forked p => some (loopHead p { s with fds := parentTable p s.fds })
  | .waiting _ | .handling _ _ => none
  | .reaping =>
    match s.child with
    | .unborn | .exited => some { s with main := .finished }
    | .forked _ _ | .running _ => none
  | .finished => none

/-- `epoll_wait`. -/
def epollStep (events : List Pipe) (s : State) : Option State :=
  match s.main with
  | .waiting p =>
    if events ≠ [] ∧ events.Nodup ∧ ∀ q ∈ events, s.Ready p q then
      some { s with main := .handling p events }
    else none
  | _ => none

/-- One turn of the loop over the events. -/
def readStep (n : ℕ) (s : State) : Option State :=
  match s.main with
  | .handling p (q :: events) =>
    if n ≤ bufferSize ∧ n ≤ (s.pipe q).length ∧
        (n = 0 → s.pipe q = [] ∧ ¬ s.IsOpen (.writeEnd q)) then
      some (nextEvent p events (handleEvent p q n s))
    else none
  | _ => none

/-- The child up to `execvp`. -/
def execStep (s : State) : Option State :=
  match s.child with
  | .forked p fds => some { s with child := .running (childTable p fds) }
  | _ => none

/-- A `write` of the child, of `n` bytes. -/
def writeStep (K : ℕ) (q : Pipe) (n : ℕ) (s : State) : Option State :=
  match s.child with
  | .running fds =>
    if 0 < n ∧ n ≤ (s.toWrite q).length then
      let t := { s with toWrite := update s.toWrite q ((s.toWrite q).drop n) }
      match fds.lookup (number q) with
      | some (.writeEnd r) =>
        if s.IsOpen (.readEnd r) then
          if (s.pipe r).length + n ≤ K then
            some { t with pipe := update s.pipe r (s.pipe r ++ (s.toWrite q).take n) }
          else none
        else some { s with child := .exited }
      | _ => some t
    else none
  | _ => none

/-- A `close` of the child. -/
def closeStep (q : Pipe) (s : State) : Option State :=
  match s.child with
  | .running fds =>
    if s.toWrite q = [] ∧ fds.lookup (number q) ≠ none then
      some { s with child := .running (fds.close (number q)) }
    else none
  | _ => none

/-- The exit of the child. -/
def exitStep (s : State) : Option State :=
  match s.child with
  | .running _ =>
    if s.toWrite .stdout = [] ∧ s.toWrite .stderr = [] then some { s with child := .exited }
    else none
  | _ => none

/-- Who moves, and how the calls are answered. -/
inductive Label
  | main
  | epoll (events : List Pipe)
  | read (n : ℕ)
  | exec
  | write (q : Pipe) (n : ℕ)
  | close (q : Pipe)
  | exit

/-- One step; `succeeds` says whether `fork` does. -/
def step (K : ℕ) (succeeds : Bool) : Label → State → Option State
  | .main => mainStep succeeds
  | .epoll events => epollStep events
  | .read n => readStep n
  | .exec => execStep
  | .write q n => writeStep K q n
  | .close q => closeStep q
  | .exit => exitStep

/-- What is written to the pipes: without a child nothing. -/
def written (succeeds : Bool) (stream : Pipe → List UInt8) : Pipe → List UInt8 :=
  if succeeds then stream else fun _ => []

/-- Before the first call. -/
def initial (init : StartTable) (toWrite : Pipe → List UInt8) : State where
  main := .start
  fds := init.fds
  child := .unborn
  pipe := fun _ => []
  toWrite
  info := fun _ => ⟨0, 0, 0⟩
  activeFds := 2
  output := []

/-- The two processes over pipes of `K` bytes. -/
def machine (init : StartTable) (K : ℕ) (succeeds : Bool) (stream : Pipe → List UInt8) :
    Machine Label State where
  init s := s = initial init (written succeeds stream)
  act := step K succeeds

/-! ## The descriptors -/

variable {init : StartTable} {p : PipeFds} {fds : Table OpenFile} {q r : Pipe} {i : ℕ}
  {toWrite : Pipe → List UInt8}

/-- A table with the two pipes, each end at its number, and nothing else new. -/
structure Piped (init : StartTable) (p : PipeFds) (fds : Table OpenFile) : Prop where
  lookup_read : ∀ q, fds.lookup (p q).1 = some (.readEnd q)
  lookup_write : ∀ q, fds.lookup (p q).2 = some (.writeEnd q)
  others : ∀ i, (∀ q, i ≠ (p q).1 ∧ i ≠ (p q).2) → fds.lookup i = init.fds.lookup i
  fresh : ∀ q, 3 ≤ (p q).1 ∧ 3 ≤ (p q).2

/-- The table of a child in which each stream that it has still to write to is its pipe. -/
structure Wired (toWrite : Pipe → List UInt8) (fds : Table OpenFile) : Prop where
  stream : ∀ q, toWrite q ≠ [] → fds.lookup (number q) = some (.writeEnd q)
  reads : ∀ i q, fds.lookup i ≠ some (.readEnd q)
  writes : ∀ i q, fds.lookup i = some (.writeEnd q) → i = number q

/-- The table of the parent, which has nothing but the read ends. -/
structure Plumbed (p : PipeFds) (fds : Table OpenFile) : Prop where
  reads : ∀ i q, fds.lookup i = some (.readEnd q) → i = (p q).1
  own : ∀ q file, fds.lookup (p q).1 = some file → file = .readEnd q
  writes : ∀ i q, fds.lookup i ≠ some (.writeEnd q)

theorem StartTable.three_le_of_unused (h : init.fds.lookup i = none) : 3 ≤ i := by
  by_contra hlt
  exact init.standard i (not_le.1 hlt) h

theorem piped_makePipes (init : StartTable) :
    Piped init (makePipes init.fds).1 (makePipes init.fds).2 := by
  set out := init.fds.pipe (.readEnd .stdout) (.writeEnd .stdout)
  set err := out.2.pipe (.readEnd .stderr) (.writeEnd .stderr)
  have hout := Table.pipe_unused (t := init.fds) (.readEnd .stdout) (.writeEnd .stdout)
  have herr := Table.pipe_unused (t := out.2) (.readEnd .stderr) (.writeEnd .stderr)
  -- what is not open after the first pipe was not open before it
  have hunused : ∀ {j}, out.2.lookup j = none → init.fds.lookup j = none := by
    intro j hj
    by_contra hopen
    obtain ⟨file, hfile⟩ := Option.ne_none_iff_exists'.1 hopen
    have := Table.lookup_pipe_of_open hfile (.readEnd .stdout) (.writeEnd .stdout)
    rw [hj] at this
    cases this
  constructor
  · intro q
    cases q with
    | stdout => exact Table.lookup_pipe_of_open (Table.lookup_pipe_fst _ _) _ _
    | stderr => exact Table.lookup_pipe_fst _ _
  · intro q
    cases q with
    | stdout => exact Table.lookup_pipe_of_open (Table.lookup_pipe_snd _ _) _ _
    | stderr => exact Table.lookup_pipe_snd _ _
  · intro j hj
    exact (Table.lookup_pipe_of_ne (hj .stderr).1 (hj .stderr).2).trans
      (Table.lookup_pipe_of_ne (hj .stdout).1 (hj .stdout).2)
  · intro q
    cases q with
    | stdout => exact ⟨init.three_le_of_unused hout.1, init.three_le_of_unused hout.2⟩
    | stderr =>
      exact ⟨init.three_le_of_unused (hunused herr.1), init.three_le_of_unused (hunused herr.2)⟩

/-- What the calls for a pipe leave at every number. -/
theorem lookup_redirect {pipefds : ℕ × ℕ} {n : ℕ} {file : OpenFile}
    (hw : fds.lookup pipefds.2 = some file) (hne : pipefds.2 ≠ pipefds.1) (i : ℕ) :
    (redirect pipefds n fds).lookup i = if i = pipefds.2 then none else if i = n then some file
      else if i = pipefds.1 then none else fds.lookup i := by
  rw [redirect, Table.lookup_close, Table.lookup_dup2, Table.lookup_close, if_neg hne, hw,
    Option.some_or, Table.lookup_close]

namespace Piped

theorem fst_injective (h : Piped init p fds) (hqr : (p q).1 = (p r).1) : q = r := by
  have := (h.lookup_read q).symm.trans ((congrArg fds.lookup hqr).trans (h.lookup_read r))
  simpa using this

theorem snd_injective (h : Piped init p fds) (hqr : (p q).2 = (p r).2) : q = r := by
  have := (h.lookup_write q).symm.trans ((congrArg fds.lookup hqr).trans (h.lookup_write r))
  simpa using this

theorem fst_ne_snd (h : Piped init p fds) : (p q).1 ≠ (p r).2 := by
  intro hqr
  have := (h.lookup_read q).symm.trans ((congrArg fds.lookup hqr).trans (h.lookup_write r))
  simp at this

/-- What is not inherited is at one of the four numbers. -/
theorem number_of_not_inherited {file : OpenFile} (h : Piped init p fds)
    (hi : fds.lookup i = some file) (hfile : ∀ j, file ≠ .inherited j) :
    ∃ r, i = (p r).1 ∨ i = (p r).2 := by
  by_contra hnone
  simp only [not_exists, not_or] at hnone
  obtain ⟨j, hj⟩ := init.inherited i file ((h.others i hnone).symm.trans hi)
  exact hfile j hj

/-- The numbers at which there is an end of a pipe. -/
theorem eq_of_readEnd (h : Piped init p fds) (hi : fds.lookup i = some (.readEnd q)) :
    i = (p q).1 := by
  obtain ⟨r, rfl | rfl⟩ := h.number_of_not_inherited hi (by simp)
  · rw [h.lookup_read r] at hi
    cases hi
    rfl
  · rw [h.lookup_write r] at hi
    cases hi

theorem eq_of_writeEnd (h : Piped init p fds) (hi : fds.lookup i = some (.writeEnd q)) :
    i = (p q).2 := by
  obtain ⟨r, rfl | rfl⟩ := h.number_of_not_inherited hi (by simp)
  · rw [h.lookup_read r] at hi
    cases hi
  · rw [h.lookup_write r] at hi
    cases hi
    rfl

/-- What the child leaves at every number. -/
theorem lookup_childTable (h : Piped init p fds) (i : ℕ) :
    (childTable p fds).lookup i =
      if i = (p .stderr).2 then none else if i = 2 then some (.writeEnd .stderr)
      else if i = (p .stderr).1 then none
      else if i = (p .stdout).2 then none else if i = 1 then some (.writeEnd .stdout)
      else if i = (p .stdout).1 then none else fds.lookup i := by
  have hfirst := lookup_redirect (n := 1) (h.lookup_write .stdout) h.fst_ne_snd.symm
  have hsecond : (redirect (p .stdout) 1 fds).lookup (p .stderr).2 = some (.writeEnd .stderr) := by
    have hne : (p .stderr).2 ≠ (p .stdout).2 := fun heq => Pipe.noConfusion (h.snd_injective heq)
    have hfresh := (h.fresh .stderr).2
    rw [hfirst, if_neg hne, if_neg (by omega), if_neg h.fst_ne_snd.symm, h.lookup_write]
  rw [childTable, lookup_redirect hsecond h.fst_ne_snd.symm, hfirst]

end Piped

/-- **The wiring.** The child writes to the two pipes and has no other end of them, -/
theorem wired_childTable (h : Piped init p fds) (toWrite : Pipe → List UInt8) :
    Wired toWrite (childTable p fds) := by
  have hout := h.fresh .stdout
  have herr := h.fresh .stderr
  refine ⟨fun q _ => ?_, fun i q hi => ?_, fun i q hi => ?_⟩
  · rw [h.lookup_childTable]
    cases q with
    | stdout =>
      rw [show number .stdout = 1 from rfl, if_neg (by omega), if_neg (by omega),
        if_neg (by omega), if_neg (by omega), if_pos rfl]
    | stderr => rw [show number .stderr = 2 from rfl, if_neg (by omega), if_pos rfl]
  · rw [h.lookup_childTable] at hi
    split_ifs at hi with h₁ h₂ h₃ h₄ h₅ h₆
    · cases hi
    · cases hi
    · have := h.eq_of_readEnd hi
      cases q with
      | stdout => exact h₆ this
      | stderr => exact h₃ this
  · rw [h.lookup_childTable] at hi
    split_ifs at hi with h₁ h₂ h₃ h₄ h₅ h₆
    · cases hi
      exact h₂
    · cases hi
      exact h₅
    · have := h.eq_of_writeEnd hi
      cases q with
      | stdout => exact absurd this h₄
      | stderr => exact absurd this h₁

/-- and the parent has the two read ends. -/
theorem plumbed_parentTable (h : Piped init p fds) :
    Plumbed p (parentTable p fds) ∧
      ∀ q, (parentTable p fds).lookup (p q).1 = some (.readEnd q) := by
  have hread : ∀ q, (parentTable p fds).lookup (p q).1 = some (.readEnd q) := by
    intro q
    rw [parentTable, Table.lookup_close, if_neg h.fst_ne_snd, Table.lookup_close,
      if_neg h.fst_ne_snd, h.lookup_read]
  refine ⟨⟨fun i q hi => ?_, fun q file hi => ?_, fun i q hi => ?_⟩, hread⟩
  · rw [parentTable, Table.lookup_close, Table.lookup_close] at hi
    split_ifs at hi
    exact h.eq_of_readEnd hi
  · rw [hread q] at hi
    exact (Option.some.inj hi).symm
  · rw [parentTable, Table.lookup_close, Table.lookup_close] at hi
    split_ifs at hi with h₁ h₂
    have := h.eq_of_writeEnd hi
    cases q with
    | stdout => exact h₂ this
    | stderr => exact h₁ this

end SemOS.Wc.Program
