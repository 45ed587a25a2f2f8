import SemOS.Foundations.Processes
import SemOS.Shell.Stages

/-!
# Progress of a pipeline

The shell waits for a command before it forks the reader of its pipe, so the whole output of a
command before a pipe has to fit into the pipe.

* `Stage.progress`: where it does, some process can move until all commands have exited.
* `exists_stuck_pipeline`: every run ends, since `pipelineMeasure` decreases; where the output of
  some command does not fit, it ends with that command blocked.
-/

namespace SemOS.Shell

variable {init : StartTable} {cs : List Command} {line : Pipeline} {K : ℕ} {output unread : ℕ → ℕ}
  {s t : System}

/-- What every command before a pipe writes fits into the pipe. -/
def OutputsFit (line : Pipeline) (K : ℕ) (output : ℕ → ℕ) : Prop :=
  ∀ i, i + 1 < line.commands.length → output i ≤ K

/-! ## Progress -/

/-- The last child can move, or has exited. -/
theorem Live.step_ne_none {i n : ℕ} {k : Process} (hl : Live init n output s i k)
    (hk : s.children[i]? = some k) (hne : k.activity ≠ .exited) (hfit : i + 1 < n → output i ≤ K) :
    ∃ l, step K output l s ≠ none := by
  by_contra hstuck
  push Not at hstuck
  have hnone : ∀ writes, childStep K writes s i k = none := by
    intro writes
    simpa only [step, hk, Option.bind_some] using hstuck (.child i writes)
  obtain h | ⟨h, p, hin, hopen⟩ | ⟨h, p, hout, hfull⟩ := childStep_eq_none hnone
  · exact hne h
  · exact (hl.pipe_of_stdin (table_eq_fds (by simp [h])) hin).2 hopen
  · have hu := hl.writing h
    obtain ⟨rfl, hn, hsum⟩ := hl.pipe_of_stdout (table_eq_fds (by simp [h])) hout
    have := hfit hn
    omega

/-- With room for every output, some process can move until all commands have exited. -/
theorem Stage.progress (hs : Stage init line.commands K output s) (hfit : OutputsFit line K output)
    (hne : ¬ s.AllExited line) : ∃ l, step K output l s ≠ none := by
  by_contra hstuck
  push Not at hstuck
  rcases shellStep_eq_none (hstuck .shell) with hc | ⟨pid, next, hc, he⟩
  · refine hne ⟨?_, hs.all_exited (by rw [hc]; rfl)⟩
    have hrem := hs.next
    rw [hc] at hrem
    rcases hrem with h | ⟨-, h⟩
    · exact le_antisymm hs.count (List.drop_eq_nil_iff.1 (alternate_eq_nil h.symm))
    · cases h
  · have hlen := hs.awaited pid (by rw [hc]; rfl)
    have hk := List.getElem?_eq_getElem (show pid < s.children.length by omega)
    rw [hk] at he
    obtain ⟨l, hl⟩ := (hs.live pid _ hk (by simpa using he)).step_ne_none hk (by simpa using he)
      (hfit pid)
    exact hl (hstuck l)

/-! ## Every run ends -/

/-- What a child can still do. -/
def Process.weight (k : Process) : ℕ :=
  match k.activity with
  | .starting _ _ _ => 10 * k.unwritten + (if k.eof then 0 else 4) + 4
  | .between => 10 * k.unwritten + (if k.eof then 0 else 4) + 3
  | .reading => 10 * k.unwritten + 6
  | .writing => 10 * k.unwritten + (if k.eof then 0 else 4) + 2
  | .exited => 0

/-- What the expressions from the command `j` on will start. -/
def lineWeight (output : ℕ → ℕ) : ℕ → CommandLine → ℕ
  | _, [] => 0
  | j, .pipe :: next => 1 + lineWeight output j next
  | j, .command _ :: next => 10 * output j + 12 + lineWeight output (j + 1) next

/-- How far the shell is from the next expression. -/
def Control.weight : Control → ℕ
  | .walking _ => 0
  | .forked _ _ _ _ => 3
  | .waiting _ _ => 2

/-- What a run can still do: the processes, and every byte in a pipe or in the standard input. -/
def pipelineMeasure (init : StartTable) (cs : List Command) (output : ℕ → ℕ) (s : System) : ℕ :=
  s.control.weight + lineWeight output s.children.length s.control.next +
    (s.children.map Process.weight).sum + 2 * (∑ p ∈ Finset.range cs.length, s.contents p) +
    2 * s.unread init.stdin

/-- A child does one thing less with every step; a byte in a pipe is one that is still to be
read. -/
theorem Moves.weight_lt {i : ℕ} {k k' : Process} {contents unread : ℕ → ℕ}
    (h : Moves K s k k' contents unread) (hl : Live init cs.length output s i k)
    (hi : i < cs.length) :
    k'.weight + 2 * (∑ p ∈ Finset.range cs.length, contents p) + 2 * unread init.stdin <
      k.weight + 2 * (∑ p ∈ Finset.range cs.length, s.contents p) + 2 * s.unread init.stdin := by
  cases h with
  | start h => simp [Process.weight, h]
  | exit h heof hu => simp [Process.weight, h]
  | write h hu => simp [Process.weight, h]
  | read h heof => simp [Process.weight, h, heof]
  | @getFile file h hin hu =>
    obtain rfl := hl.file_of_stdin (table_eq_fds (by simp [h])) hin
    simp only [Process.weight, h, Function.update_self]
    split <;> omega
  | @getPipe p h hin hp =>
    obtain ⟨hpi, -⟩ := hl.pipe_of_stdin (table_eq_fds (by simp [h])) hin
    have hsum := Processes.sum_update_mem (Finset.mem_range.2 (show p < cs.length by omega))
      s.contents (s.contents p - 1)
    simp only [Process.weight, h]
    split <;> omega
  | endOfInput h =>
    simp [Process.weight, h]
  | @putPipe p h hout hp =>
    have hu := hl.writing h
    obtain ⟨hpi, -, -⟩ := hl.pipe_of_stdout (table_eq_fds (by simp [h])) hout
    have hsum := Processes.sum_update_mem (Finset.mem_range.2 (show p < cs.length by omega))
      s.contents (s.contents p + 1)
    simp only [Process.weight, h]
    omega
  | putFile h hout =>
    have hu := hl.writing h
    simp only [Process.weight, h]
    omega
  | killed h hout hopen => simp [Process.weight, h]

theorem shellStep_measure_lt (h : shellStep output s = some t) :
    pipelineMeasure init cs output t < pipelineMeasure init cs output s := by
  obtain ⟨shell, control, children, contents, unread⟩ := s
  cases control with
  | walking next =>
    match next with
    | [] => cases h
    | .pipe :: next =>
      cases h
      simp only [pipelineMeasure, Control.weight, Control.next, lineWeight]
      omega
    | .command c :: next =>
      cases h
      simp only [pipelineMeasure, Control.weight, Control.next, lineWeight, List.map_append,
        List.sum_append, List.length_append, List.map_singleton, List.sum_singleton,
        List.length_singleton, Process.weight, Bool.false_eq_true, if_false]
      omega
  | forked notLast fildes pid next =>
    cases h
    simp only [pipelineMeasure, Control.weight, Control.next]
    omega
  | waiting pid next =>
    simp only [shellStep] at h
    split at h
    · cases h
      simp only [pipelineMeasure, Control.weight, Control.next]
      omega
    · cases h

/-- **Every step decreases the measure.** -/
theorem pipelineMeasure_lt {l : Mover} (hs : Stage init cs K output s)
    (h : step K output l s = some t) :
    pipelineMeasure init cs output t < pipelineMeasure init cs output s := by
  cases l with
  | shell => exact shellStep_measure_lt h
  | child pid writes =>
    obtain ⟨k, hk, h⟩ := Option.bind_eq_some_iff.1 h
    obtain ⟨k', contents, unread, hm, rfl⟩ := childStep_moves h
    have hne : k.activity ≠ .exited := by
      intro he
      simp [childStep, he] at h
    have hi := (List.getElem?_eq_some_iff.1 hk).1
    have hlt := hm.weight_lt (hs.live pid k hk hne) (hi.trans_le hs.count)
    have hsum := Processes.sum_map_set Process.weight hk k'
    simp only [pipelineMeasure, List.length_set]
    omega

/-- **Every run ends**, in a state in which nobody can move. -/
theorem exists_stuck_pipeline (init : StartTable) (line : Pipeline) (K : ℕ)
    (output unread : ℕ → ℕ) :
    ∃ s, (pipelineMachine init line K output unread).Reachable s ∧
      Stage init line.commands K output s ∧ ∀ l, step K output l s = none := by
  obtain ⟨s, hs, hstage, hstuck⟩ := Machine.exists_stuck
    (M := pipelineMachine init line K output unread) (pipelineMeasure init line.commands output)
    (fun l s t hs h => ⟨step_stage hs h, pipelineMeasure_lt hs h⟩)
    (launch_stage init line K output unread)
  exact ⟨s, (Machine.Reachable.of_init rfl).leads hs, hstage, hstuck⟩

/-! ## The pipeline as a whole -/

/-- Until every command has exited, some process can move. -/
def NeverWedges (init : StartTable) (line : Pipeline) (K : ℕ) (output unread : ℕ → ℕ) : Prop :=
  ∀ s, (pipelineMachine init line K output unread).Reachable s → ¬ s.AllExited line →
    ∃ l, step K output l s ≠ none

/-- Where the commands all exit in the end, their outputs fit. -/
theorem outputsFit_of_neverWedges (h : NeverWedges init line K output unread) :
    OutputsFit line K output := by
  obtain ⟨s, hs, hstage, hstuck⟩ := exists_stuck_pipeline init line K output unread
  have hall : s.AllExited line := by
    by_contra hne
    obtain ⟨l, hl⟩ := h s hs hne
    exact hl (hstuck l)
  intro i hi
  have hk := List.getElem?_eq_getElem (show i < s.children.length by rw [hall.1]; omega)
  exact hstage.exited i _ hk (hall.2 _ (List.mem_of_getElem? hk)) hi

/-- **A pipeline never wedges the shell exactly when every command before a pipe writes no more
than the pipe holds.** -/
theorem pipeline_progresses_iff (init : StartTable) (line : Pipeline) (K : ℕ)
    (output unread : ℕ → ℕ) :
    NeverWedges init line K output unread ↔ OutputsFit line K output :=
  ⟨outputsFit_of_neverWedges, fun hfit _ hs => (reachable_stage hs).progress hfit⟩

/-- One byte more than a pipe of 65536 bytes holds, written by the first of two commands. -/
theorem large_output_wedges :
    ¬ ∀ init line K output unread, NeverWedges init line K output unread := by
  intro h
  have hfit := outputsFit_of_neverWedges
    (h standardTable twoCommands 65536 (fun _ => 65537) (fun _ => 0))
  exact absurd (hfit 0 (by decide)) (by decide)

end SemOS.Shell
