import Mathlib.Data.List.Chain
import SemOS.Shell.Execute

/-!
# Wiring of pipelines over a session

Between lines the shell's table is the one it was started with, and `input_fd` is 0 or one of the
two lowest unused numbers of that table, closed again (`Rests`). Inside a pipeline `input_fd` is one
of these two, and holds the read end of the last pipe (`Carries`).

* `carries_line`: from the second command on a pipeline is wired, whatever came before it.
* `fresh_line`: with `input_fd` 0 a whole pipeline is wired, and leaves `input_fd` set if it has a
  pipe.
* `stale_line`: with `input_fd` set, the first pipe of the next pipeline takes its number back, and
  the first command reads from that pipe.

So a session is wired exactly if at most one of its lines has a pipe.
-/

namespace SemOS.Shell

/-- Descriptor 0 of a child. -/
def Child.stdin (k : Child) : Option OpenFile := k.fds.lookup 0

/-- Descriptor 1 of a child. -/
def Child.stdout (k : Child) : Option OpenFile := k.fds.lookup 1

/-- The child `k` writes to a pipe that `k'` reads from. -/
def Joined (k k' : Child) : Prop :=
  ∃ p, k.stdout = some (.writeEnd p) ∧ k'.stdin = some (.readEnd p)

/-- The children of the commands `cs`, in order, from the file `i` to the file `o`. -/
structure WiredBetween (i o : Option OpenFile) (cs : List Command) (ks : List Child) : Prop where
  commands : ks.map Child.command = cs
  stdin : ∀ k ∈ ks.head?, k.stdin = i
  joined : ks.IsChain Joined
  stdout : ∀ k ∈ ks.getLast?, k.stdout = o

/-- The children of a line, from the shell's standard input to its standard output. -/
def Wired (init : StartTable) (line : Pipeline) (ks : List Child) : Prop :=
  WiredBetween (init.fds.lookup 0) (init.fds.lookup 1) line.commands ks

theorem WiredBetween.single {i o : Option OpenFile} {k : Child} {c : Command}
    (hc : k.command = c) (hi : k.stdin = i) (ho : k.stdout = o) : WiredBetween i o [c] [k] := by
  refine ⟨by rw [List.map_singleton, hc], ?_, List.isChain_singleton k, ?_⟩
  · rintro _ ⟨rfl⟩
    exact hi
  · rintro _ ⟨rfl⟩
    exact ho

theorem WiredBetween.cons {i o : Option OpenFile} {k : Child} {p : ℕ} {c d : Command}
    {cs : List Command} {ks : List Child} (hc : k.command = c) (hi : k.stdin = i)
    (ho : k.stdout = some (.writeEnd p)) (h : WiredBetween (some (.readEnd p)) o (d :: cs) ks) :
    WiredBetween i o (c :: d :: cs) (k :: ks) := by
  refine ⟨?_, ?_, ?_, ?_⟩
  · rw [List.map_cons, hc, h.commands]
  · rintro _ ⟨rfl⟩
    exact hi
  · rw [List.isChain_cons]
    exact ⟨fun k' hk' => ⟨p, ho, h.stdin k' hk'⟩, h.joined⟩
  · have hne : ks ≠ [] := by
      rintro rfl
      cases h.commands
    rw [List.getLast?_cons_of_ne_nil hne]
    exact h.stdout

/-! ## The two spare numbers -/

variable {init : StartTable} {s : State} {fd p : ℕ} {c d : Command} {cs : List Command}

/-- The two lowest numbers that the start table leaves unused. -/
def Spare (init : StartTable) (fd : ℕ) : Prop :=
  fd = init.fds.lowestUnused ∨ fd = init.fds.nextUnused

theorem Spare.unused (h : Spare init fd) : init.fds.lookup fd = none := by
  rcases h with rfl | rfl
  · exact init.fds.lookup_lowestUnused
  · exact init.fds.lookup_nextUnused

theorem ne_zero_of_unused (h : init.fds.lookup fd = none) : fd ≠ 0 := by
  rintro rfl
  rw [init.lookup_zero] at h
  cases h

theorem ne_one_of_unused (h : init.fds.lookup fd = none) : fd ≠ 1 := by
  rintro rfl
  rw [init.lookup_one] at h
  cases h

/-- With one spare number taken, the next pipe takes the other one. -/
theorem Spare.lowestUnused_put (h : Spare init fd) (file : OpenFile) :
    Spare init (init.fds.put fd file).lowestUnused := by
  rcases h with rfl | rfl
  · exact Or.inr (Table.lowestUnused_put file)
  · exact Or.inl (Table.lowestUnused_put_next file)

/-- An unused number of the table with `fd` taken. -/
theorem unused_of_put {r : ℕ} {file : OpenFile} (h : (init.fds.put fd file).lookup r = none) :
    r ≠ fd ∧ init.fds.lookup r = none := by
  rw [Table.lookup_put] at h
  split at h
  · cases h
  · exact ⟨‹_›, h⟩

/-- Between lines: the table is the start table and `input_fd` is 0. -/
def Fresh (init : StartTable) (s : State) : Prop := s.fds = init.fds ∧ s.inputFd = 0

/-- Between lines: the table is the start table and `input_fd` is a spare number. -/
def Stale (init : StartTable) (s : State) : Prop := s.fds = init.fds ∧ Spare init s.inputFd

/-- Inside a pipeline: `input_fd` is a spare number that holds the read end of the pipe `p`. -/
def Carries (init : StartTable) (p : ℕ) (s : State) : Prop :=
  s.fds = init.fds.put s.inputFd (.readEnd p) ∧ Spare init s.inputFd

/-! ## One command -/

/-- A command before a pipe, started over the table `t`, leaves the read end of its pipe. -/
theorem executeCmd_next {t : Table OpenFile} (ht : s.fds = t) (next : CommandLine)
    (hr : t.lowestUnused ≠ 0) (hr1 : t.lowestUnused ≠ 1) (hw : t.nextUnused ≠ 0)
    (hw1 : t.nextUnused ≠ 1) (hfd : s.inputFd ≠ t.lowestUnused) (hfd' : s.inputFd ≠ t.nextUnused) :
    ∃ k, executeCmd c (.pipe :: next) s = (k, ⟨(if s.inputFd = 0 then t else t.close s.inputFd).put
        t.lowestUnused (.readEnd s.pipes), t.lowestUnused, s.pipes + 1⟩) ∧
      k.command = c ∧ k.stdout = some (.writeEnd s.pipes) ∧
      k.stdin = if s.inputFd = 0 then t.lookup 0 else (t.lookup s.inputFd).or (t.lookup 0) := by
  subst ht
  rw [executeCmd_pipe, openPipe_true]
  refine ⟨_, Prod.ext rfl ?_, rfl, ?_, ?_⟩
  · exact parentBranch_next s.fds.lookup_nextUnused Table.nextUnused_ne.symm hfd
      (Table.pipe_snd _ _)
  · have hfile : (s.fds.pipe (OpenFile.readEnd s.pipes) (.writeEnd s.pipes)).2.lookup
        s.fds.nextUnused = some (.writeEnd s.pipes) := by
      rw [Table.lookup_pipe, if_pos rfl]
    exact childBranch_stdout_next hr1 hw1 hw hfd'.symm hfile
  · rw [Child.stdin, childBranch_stdin true fun _ => ⟨hr, hw⟩]
    simp [Table.lookup_pipe, hr.symm, hw.symm, hfd, hfd']

/-- The first command before a pipe of a line that starts fresh. -/
theorem Fresh.executeCmd_next (h : Fresh init s) (next : CommandLine) :
    ∃ k s', executeCmd c (.pipe :: next) s = (k, s') ∧ k.command = c ∧
      k.stdin = init.fds.lookup 0 ∧ k.stdout = some (.writeEnd s.pipes) ∧
      Carries init s.pipes s' := by
  obtain ⟨ht, h0⟩ := h
  have hr := init.fds.lookup_lowestUnused
  have hw := init.fds.lookup_nextUnused
  obtain ⟨k, hk, hc, ho, hi⟩ := Shell.executeCmd_next (c := c) ht next (ne_zero_of_unused hr)
    (ne_one_of_unused hr) (ne_zero_of_unused hw) (ne_one_of_unused hw)
    (h0 ▸ (ne_zero_of_unused hr).symm) (h0 ▸ (ne_zero_of_unused hw).symm)
  rw [if_pos h0] at hk hi
  exact ⟨k, _, hk, hc, hi, ho, rfl, Or.inl rfl⟩

/-- A later command before a pipe. -/
theorem Carries.executeCmd_next (h : Carries init p s) (next : CommandLine) :
    ∃ k s', executeCmd c (.pipe :: next) s = (k, s') ∧ k.command = c ∧
      k.stdin = some (.readEnd p) ∧ k.stdout = some (.writeEnd s.pipes) ∧
      Carries init s.pipes s' := by
  obtain ⟨ht, hfd⟩ := h
  have hfd0 := ne_zero_of_unused hfd.unused
  have hr := unused_of_put (init.fds.put s.inputFd (.readEnd p)).lookup_lowestUnused
  have hw := unused_of_put (init.fds.put s.inputFd (.readEnd p)).lookup_nextUnused
  obtain ⟨k, hk, hc, ho, hi⟩ := Shell.executeCmd_next (c := c) ht next (ne_zero_of_unused hr.2)
    (ne_one_of_unused hr.2) (ne_zero_of_unused hw.2) (ne_one_of_unused hw.2) hr.1.symm hw.1.symm
  rw [if_neg hfd0, Table.close_put hfd.unused] at hk
  rw [if_neg hfd0, Table.lookup_put_self, Option.some_or] at hi
  exact ⟨k, _, hk, hc, hi, ho, rfl, hfd.lowestUnused_put _⟩

/-- The last command of a line with a pipe. -/
theorem Carries.executeCmd_last (h : Carries init p s) :
    ∃ k s', executeCmd c [] s = (k, s') ∧ k.command = c ∧ k.stdin = some (.readEnd p) ∧
      k.stdout = init.fds.lookup 1 ∧ Stale init s' := by
  obtain ⟨ht, hfd⟩ := h
  have hfd0 := ne_zero_of_unused hfd.unused
  refine ⟨_, _, Shell.executeCmd_last c s, rfl, ?_, ?_, ?_⟩
  · rw [Child.stdin, childBranch_stdin false (by simp), if_neg hfd0, ht, Table.lookup_put_self,
      Option.some_or]
  · have hfd1 := ne_one_of_unused hfd.unused
    rw [Child.stdout, childBranch_stdout_last hfd1, ht, Table.lookup_put, if_neg hfd1.symm]
  · rw [parentBranch_last, if_neg hfd0, ht, Table.close_put hfd.unused]
    exact ⟨rfl, hfd⟩

/-- A line of one command, started fresh or with a closed number in `input_fd`. -/
theorem executeCmd_only (ht : s.fds = init.fds) (hfd : s.inputFd = 0 ∨ Spare init s.inputFd) :
    executeCmd c [] s = (⟨c, init.fds⟩, s) := by
  have hs : s.inputFd ≠ 0 → s.fds.lookup s.inputFd = none := by
    intro h0
    rw [ht, (hfd.resolve_left h0).unused]
  obtain ⟨fds, fd, pipes⟩ := s
  obtain rfl : fds = init.fds := ht
  by_cases h0 : fd = 0
  · subst h0
    rfl
  · have hnone : init.fds.lookup fd = none := (hfd.resolve_left h0).unused
    have hdup : init.fds.dup2 fd 0 = init.fds := by rw [Table.dup2, hnone]
    simp only [executeCmd, isNextPipe, openPipe_false, childBranch, parentBranch, ne_eq, h0,
      not_false_eq_true, if_true, hdup, Table.close_eq_self hnone, Bool.false_eq_true, if_false]

/-- A first command before a pipe, with `input_fd` set by an earlier line: its standard input is
an end of its own pipe. -/
theorem Stale.executeCmd_next (h : Stale init s) (next : CommandLine) :
    (executeCmd c (.pipe :: next) s).1.stdin = some (.readEnd s.pipes) ∨
      (executeCmd c (.pipe :: next) s).1.stdin = some (.writeEnd s.pipes) := by
  obtain ⟨ht, hfd⟩ := h
  have hr := ne_zero_of_unused init.fds.lookup_lowestUnused
  have hw := ne_zero_of_unused init.fds.lookup_nextUnused
  have hfd0 := ne_zero_of_unused hfd.unused
  rw [executeCmd_pipe, openPipe_true, Child.stdin, childBranch_stdin true fun _ => by
    rw [ht]
    exact ⟨hr, hw⟩]
  rw [if_neg hfd0, Table.lookup_pipe, ht]
  rcases hfd with hfd | hfd
  · rw [if_neg (hfd ▸ Table.nextUnused_ne.symm), if_pos hfd]
    exact Or.inl rfl
  · rw [if_pos hfd]
    exact Or.inr rfl

/-! ## One line -/

/-- **From the second command on, a pipeline is wired**: to the read end that `input_fd` holds. -/
theorem carries_line (c : Command) (cs : List Command) (h : Carries init p s) :
    ∃ ks s', executeCommandLine (alternate (c :: cs)) s = (ks, s') ∧
      WiredBetween (some (.readEnd p)) (init.fds.lookup 1) (c :: cs) ks ∧ Stale init s' := by
  induction cs generalizing c p s with
  | nil =>
    obtain ⟨k, s', hk, hc, hi, ho, hs'⟩ := h.executeCmd_last (c := c)
    exact ⟨[k], s', by simp only [alternate, executeCommandLine, hk], .single hc hi ho, hs'⟩
  | cons d cs ih =>
    obtain ⟨k, s₁, hk, hc, hi, ho, h₁⟩ := h.executeCmd_next (c := c) (alternate (d :: cs))
    obtain ⟨ks, s', hks, hw, hs'⟩ := ih h₁ (c := d)
    refine ⟨k :: ks, s', ?_, .cons hc hi ho hw, hs'⟩
    simp only [alternate, executeCommandLine, hk, hks]

/-- A line without a pipe is wired and changes nothing. -/
theorem single_line (line : Pipeline) (hline : ¬ line.HasPipe) (ht : s.fds = init.fds)
    (hfd : s.inputFd = 0 ∨ Spare init s.inputFd) :
    ∃ ks, executeCommandLine line.line s = (ks, s) ∧ Wired init line ks := by
  obtain ⟨cs, hne⟩ := line
  match cs, hne, hline with
  | [c], _, _ =>
    have hc := executeCmd_only (c := c) ht hfd
    refine ⟨[⟨c, init.fds⟩], ?_, WiredBetween.single rfl rfl rfl⟩
    simp only [Pipeline.line, alternate, executeCommandLine, hc]
  | _ :: _ :: _, _, hline => simp [Pipeline.HasPipe] at hline

/-- A line with a pipe that starts fresh is wired, and leaves `input_fd` set. -/
theorem fresh_line (line : Pipeline) (hline : line.HasPipe) (h : Fresh init s) :
    ∃ ks s', executeCommandLine line.line s = (ks, s') ∧ Wired init line ks ∧ Stale init s' := by
  obtain ⟨cs, hne⟩ := line
  match cs, hne, hline with
  | c :: d :: cs, _, _ =>
    obtain ⟨k, s₁, hk, hc, hi, ho, h₁⟩ := h.executeCmd_next (c := c) (alternate (d :: cs))
    obtain ⟨ks, s', hks, hw, hs'⟩ := carries_line d cs h₁
    refine ⟨k :: ks, s', ?_, .cons hc hi ho hw, hs'⟩
    simp only [Pipeline.line, alternate, executeCommandLine, hk, hks]

/-- A line with a pipe that starts with `input_fd` set: its first command reads from an end of the
pipe that it writes to. -/
theorem stale_line (line : Pipeline) (hline : line.HasPipe) (h : Stale init s) :
    ¬ Wired init line (executeCommandLine line.line s).1 := by
  obtain ⟨cs, hne⟩ := line
  match cs, hne, hline with
  | c :: d :: cs, _, _ =>
    intro hw
    have hin : (executeCmd c (.pipe :: alternate (d :: cs)) s).1.stdin = init.fds.lookup 0 :=
      hw.stdin _ rfl
    rw [init.lookup_zero] at hin
    rcases h.executeCmd_next (c := c) (alternate (d :: cs)) with h | h
    · rw [h] at hin
      cases hin
    · rw [h] at hin
      cases hin

/-! ## The whole session -/

/-- Every line of a session is wired. -/
def SessionWired (init : StartTable) (lines : List Pipeline) (s : State) : Prop :=
  List.Forall₂ (Wired init) lines (runSession (lines.map Pipeline.line) s)

theorem sessionWired_cons {line : Pipeline} {lines : List Pipeline} :
    SessionWired init (line :: lines) s ↔ Wired init line (executeCommandLine line.line s).1 ∧
      SessionWired init lines (executeCommandLine line.line s).2 :=
  List.forall₂_cons

/-- With `input_fd` set, a session is wired exactly if none of its lines has a pipe. -/
theorem stale_session {lines : List Pipeline} (h : Stale init s) :
    SessionWired init lines s ↔ lines.countP (·.HasPipe) = 0 := by
  induction lines with
  | nil => simp [SessionWired, runSession]
  | cons line lines ih =>
    rw [sessionWired_cons, List.countP_cons]
    by_cases hline : line.HasPipe
    · have := stale_line line hline h
      simp [this, hline]
    · obtain ⟨ks, hks, hw⟩ := single_line line hline h.1 (Or.inr h.2)
      rw [hks]
      simp [hw, hline, ih]

/-- With `input_fd` 0, exactly if at most one of them has. -/
theorem fresh_session {lines : List Pipeline} (h : Fresh init s) :
    SessionWired init lines s ↔ lines.countP (·.HasPipe) ≤ 1 := by
  induction lines with
  | nil => simp [SessionWired, runSession]
  | cons line lines ih =>
    rw [sessionWired_cons, List.countP_cons]
    by_cases hline : line.HasPipe
    · obtain ⟨ks, s', hks, hw, hs'⟩ := fresh_line line hline h
      rw [hks]
      simp [hw, hline, stale_session hs']
    · obtain ⟨ks, hks, hw⟩ := single_line line hline h.1 (Or.inl h.2)
      rw [hks]
      simp [hw, hline, ih]

/-- **The pipelines of a session are wired exactly when at most one of its lines has a pipe.** -/
theorem session_wired_iff (init : StartTable) (lines : List Pipeline) :
    SessionWired init lines (start init) ↔ lines.countP (·.HasPipe) ≤ 1 :=
  fresh_session ⟨rfl, rfl⟩

/-- Standard input and output, and nothing else. -/
def standardTable : StartTable where
  fds := Table.put (Table.put ∅ 0 (.inherited 0)) 1 (.inherited 1)
  stdin := 0
  stdout := 1
  lookup_zero := rfl
  lookup_one := rfl
  inherited := by
    intro fd file h
    rw [Table.lookup_put, Table.lookup_put] at h
    split at h
    · exact ⟨1, (Option.some.inj h).symm⟩
    · split at h
      · exact ⟨0, (Option.some.inj h).symm⟩
      · cases h

/-- The pipeline of two commands of one word. -/
def twoCommands : Pipeline := ⟨[.ofExe [49], .ofExe [50]], by simp⟩

/-- Two pipelines one after another: the second one reads from itself. -/
theorem second_pipeline_miswired : ¬ ∀ init lines, SessionWired init lines (start init) := by
  intro h
  have := (fresh_session ⟨rfl, rfl⟩).1 (h standardTable [twoCommands, twoCommands])
  exact absurd this (by decide)

end SemOS.Shell
