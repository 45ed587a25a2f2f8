import SemOS.Shell.Wiring

/-!
# The descriptors of the shell over a session

`closedNumbers` lists the numbers that the parent passes to `close` in `execute_command_line`:
`input_fd`, which may be out of date, and the write end of a new pipe.

Inside a line the table is the one the shell was started with, but for a read end at `input_fd`
(`Between`), and `input_fd` is never a number of that table. With an out of date `input_fd` the
parent closes an end of the pipe that it has just made: the write end, and then a second time, or
the read end, which nobody opens again. In both cases the line ends with the table that it began
with.

**`shell_keeps_descriptors`**: after every line the table is the initial one, and none of its
numbers has ever been closed.
-/

namespace SemOS.Shell

variable {init : StartTable} {s : State} {c : Command} {next : CommandLine}

/-! ## The calls of `close` -/

/-- The calls of `close` in the parent's branch. -/
def parentCloses (notLast : Bool) (fildes : ℕ × ℕ) (inputFd : ℕ) : List ℕ :=
  (if inputFd ≠ 0 then [inputFd] else []) ++ if notLast then [fildes.2] else []

/-- Those of `execute_cmd`, on the expressions after the command. -/
def cmdCloses (next : CommandLine) (s : State) : List ℕ :=
  let notLast := isNextPipe next
  let (fildes, s) := openPipe notLast s
  parentCloses notLast fildes s.inputFd

/-- Those of `execute_command_line`. -/
def lineCloses : CommandLine → State → List ℕ
  | [], _ => []
  | .command c :: next, s => cmdCloses next s ++ lineCloses next (executeCmd c next s).2
  | .pipe :: next, s => lineCloses next s

/-- The shell after the lines of a session. -/
def afterLines : List CommandLine → State → State
  | [], s => s
  | line :: lines, s => afterLines lines (executeCommandLine line s).2

/-- The numbers that the parent closes in a session. -/
def closedNumbers : List CommandLine → State → List ℕ
  | [], _ => []
  | line :: lines, s => lineCloses line s ++ closedNumbers lines (executeCommandLine line s).2

/-- The parent's branch changes its table by these calls, and by nothing else. -/
theorem parentBranch_fds (notLast : Bool) (fildes : ℕ × ℕ) (s : State) :
    (parentBranch notLast fildes s).fds =
      (parentCloses notLast fildes s.inputFd).foldl Table.close s.fds := by
  cases notLast <;> by_cases h0 : s.inputFd = 0 <;> simp [parentBranch, parentCloses, h0]

/-- So does `execute_cmd`, after `pipe`. -/
theorem executeCmd_fds (c : Command) (next : CommandLine) (s : State) :
    (executeCmd c next s).2.fds =
      (cmdCloses next s).foldl Table.close (openPipe (isNextPipe next) s).2.fds :=
  parentBranch_fds ..

/-! ## Between two commands -/

/-- Between lines: the table is the start table, and `input_fd` is 0 or a spare number. -/
def Rests (init : StartTable) (s : State) : Prop :=
  s.fds = init.fds ∧ (s.inputFd = 0 ∨ Spare init s.inputFd)

/-- Inside a line: the same, or `input_fd` holds the read end of the last pipe. -/
def Between (init : StartTable) (s : State) : Prop := Rests init s ∨ ∃ p, Carries init p s

theorem rests_start (init : StartTable) : Rests init (start init) := ⟨rfl, Or.inl rfl⟩

theorem Stale.rests (h : Stale init s) : Rests init s := ⟨h.1, Or.inr h.2⟩

theorem Between.inputFd (h : Between init s) : s.inputFd = 0 ∨ Spare init s.inputFd := by
  rcases h with h | ⟨p, h⟩
  · exact h.2
  · exact Or.inr h.2

/-- The write end of the next pipe has a number that the start table leaves unused. -/
theorem Between.nextUnused (h : Between init s) : init.fds.lookup s.fds.nextUnused = none := by
  rcases h with ⟨h, -⟩ | ⟨p, h, -⟩
  · rw [h]
    exact init.fds.lookup_nextUnused
  · rw [h]
    exact (unused_of_put (Table.lookup_nextUnused _)).2

/-- **The parent closes no number of the start table.** -/
theorem Between.cmdCloses (h : Between init s) (next : CommandLine) :
    ∀ fd ∈ cmdCloses next s, init.fds.lookup fd = none := by
  intro fd hfd
  have hinput : s.inputFd ≠ 0 → init.fds.lookup s.inputFd = none := fun h0 =>
    (h.inputFd.resolve_left h0).unused
  cases hn : isNextPipe next with
  | false =>
    simp only [Shell.cmdCloses, hn, openPipe_false, parentCloses, Bool.false_eq_true, if_false,
      List.append_nil] at hfd
    split at hfd
    · rename_i h0
      rw [List.mem_singleton.1 hfd]
      exact hinput h0
    · cases hfd
  | true =>
    simp only [Shell.cmdCloses, hn, openPipe_true, parentCloses, if_true] at hfd
    rcases List.mem_append.1 hfd with hfd | hfd
    · split at hfd
      · rename_i h0
        rw [List.mem_singleton.1 hfd]
        exact hinput h0
      · cases hfd
    · rw [List.mem_singleton.1 hfd]
      exact h.nextUnused

/-- A first command before a pipe, with an out of date `input_fd`: the parent closes the write end
of the new pipe, and its read end as well if `input_fd` is that number. -/
theorem Stale.between (h : Stale init s) (c : Command) (next : CommandLine) :
    Between init (executeCmd c (.pipe :: next) s).2 := by
  obtain ⟨ht, hfd⟩ := h
  have hfd0 := ne_zero_of_unused hfd.unused
  have hunused := init.fds.lookup_lowestUnused
  have hnext := init.fds.lookup_nextUnused
  have hne := Table.nextUnused_ne (t := init.fds)
  rw [executeCmd_pipe, openPipe_true, parentBranch]
  simp only [ht, hfd0, ne_eq, not_false_eq_true, if_true, Table.pipe_snd]
  have hclose : ∀ file : OpenFile, (init.fds.put init.fds.lowestUnused file).lookup
      init.fds.nextUnused = none := by
    intro file
    rw [Table.lookup_put, if_neg hne, hnext]
  rcases hfd with hfd | hfd
  · -- both ends are closed
    refine Or.inl ⟨?_, Or.inr (Or.inl rfl)⟩
    simp only [hfd]
    rw [Table.close_comm, Table.close_put (hclose _), Table.close_put hunused]
  · -- the write end is closed twice, and the read end stays
    refine Or.inr ⟨s.pipes, ?_, Or.inl rfl⟩
    simp only [hfd]
    rw [Table.close_put (hclose _), Table.close_eq_self (hclose _)]

/-- **A command before a pipe**, whatever was before it. -/
theorem Between.executeCmd_next (h : Between init s) (c : Command) (next : CommandLine) :
    Between init (executeCmd c (.pipe :: next) s).2 := by
  rcases h with ⟨ht, h0 | hfd⟩ | ⟨p, h⟩
  · obtain ⟨k, s', hk, -, -, -, hs'⟩ := Fresh.executeCmd_next (c := c) ⟨ht, h0⟩ next
    rw [hk]
    exact Or.inr ⟨_, hs'⟩
  · exact Stale.between ⟨ht, hfd⟩ c next
  · obtain ⟨k, s', hk, -, -, -, hs'⟩ := h.executeCmd_next (c := c) next
    rw [hk]
    exact Or.inr ⟨_, hs'⟩

/-- **The last command of a line.** -/
theorem Between.executeCmd_last (h : Between init s) (c : Command) :
    Rests init (executeCmd c [] s).2 := by
  rcases h with h | ⟨p, h⟩
  · rw [executeCmd_only h.1 h.2]
    exact h
  · obtain ⟨k, s', hk, -, -, -, hs'⟩ := h.executeCmd_last (c := c)
    rw [hk]
    exact hs'.rests

/-! ## Lines -/

/-- A line ends with the table that it began with, and closes none of its numbers. -/
theorem Between.line (c : Command) (cs : List Command) (h : Between init s) :
    Rests init (executeCommandLine (alternate (c :: cs)) s).2 ∧
      ∀ fd ∈ lineCloses (alternate (c :: cs)) s, init.fds.lookup fd = none := by
  induction cs generalizing c s with
  | nil =>
    refine ⟨h.executeCmd_last c, fun fd hfd => ?_⟩
    simp only [alternate, lineCloses, List.append_nil] at hfd
    exact h.cmdCloses [] fd hfd
  | cons d cs ih =>
    obtain ⟨hrests, hcloses⟩ := ih d (h.executeCmd_next c (alternate (d :: cs)))
    refine ⟨hrests, fun fd hfd => ?_⟩
    simp only [alternate, lineCloses] at hfd
    rcases List.mem_append.1 hfd with hfd | hfd
    · exact h.cmdCloses _ fd hfd
    · exact hcloses fd hfd

theorem Rests.line (line : Pipeline) (h : Rests init s) :
    Rests init (executeCommandLine line.line s).2 ∧
      ∀ fd ∈ lineCloses line.line s, init.fds.lookup fd = none := by
  obtain ⟨cs, hne⟩ := line
  match cs, hne with
  | c :: cs, _ => exact Between.line c cs (Or.inl h)

/-- All lines of a session. -/
theorem Rests.session (h : Rests init s) (lines : List Pipeline) :
    Rests init (afterLines (lines.map Pipeline.line) s) ∧
      ∀ fd ∈ closedNumbers (lines.map Pipeline.line) s, init.fds.lookup fd = none := by
  induction lines generalizing s with
  | nil => exact ⟨h, fun fd hfd => by cases hfd⟩
  | cons line lines ih =>
    obtain ⟨hrests, hcloses⟩ := h.line line
    obtain ⟨hrests', hcloses'⟩ := ih hrests
    refine ⟨hrests', fun fd hfd => ?_⟩
    rcases List.mem_append.1 hfd with hfd | hfd
    · exact hcloses fd hfd
    · exact hcloses' fd hfd

/-- **The shell leaks no descriptor and closes none that it was started with**: after every line its
table is the initial one, and the parent has never closed a number that was open in it. -/
theorem shell_keeps_descriptors (init : StartTable) (lines : List Pipeline) :
    (afterLines (lines.map Pipeline.line) (start init)).fds = init.fds ∧
      ∀ fd ∈ closedNumbers (lines.map Pipeline.line) (start init), fd ∉ init.fds.keys := by
  obtain ⟨hrests, hcloses⟩ := (rests_start init).session lines
  refine ⟨hrests.1, fun fd hfd hmem => ?_⟩
  exact Finmap.lookup_eq_none.1 (hcloses fd hfd) (Finmap.mem_keys.1 hmem)

end SemOS.Shell
