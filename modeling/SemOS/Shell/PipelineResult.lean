import SemOS.Shell.PipelineRuns

/-!
# The result of a pipeline

What the commands of a pipeline compute together: the last one writes the composition of the
programs to the standard output of the shell.

* `stuck_count`: nobody waits for bytes who would not wait for their number.
* **`pipeline_computes`**: the output is a prefix of the result, and all of it when the commands
  have exited. **`pipeline_finishes_iff`**: they do exactly when every intermediate result fits
  into its pipe.
-/

namespace SemOS.Shell.Contents

variable {init : StartTable} {line : Pipeline} {K : ℕ} {programs : Command → Transducer UInt8}
  {files : ℕ → List UInt8} {s t : System} {k : Process} {input : List UInt8}

/-! ## The output -/

theorem Computes.output_prefix (h : Computes init line K programs input s) :
    s.output init.stdout <+: Pipeline.result programs line input := by
  obtain ⟨hs, hf⟩ := h
  have hle := hs.count
  rw [length_count] at hle
  have hpos := List.length_pos_of_ne_nil line.nonempty
  by_cases hlt : s.children.length < line.commands.length
  · rw [hf.quiet _ (Or.inr hlt)]
    exact List.nil_prefix
  · have hi : s.children.length - 1 < s.children.length := by omega
    have hlast := hf.last _ _ (List.getElem?_eq_getElem hi) (by omega)
    have hsink := hlast.sink
    rw [System.sunk, if_pos (by omega)] at hsink
    rw [hsink, ← piped_length, show s.children.length - 1 + 1 = line.commands.length by omega]
    exact List.take_prefix _ _

theorem Computes.output_of_allExited (h : Computes init line K programs input s)
    (hall : s.AllExited line) :
    s.output init.stdout = Pipeline.result programs line input := by
  obtain ⟨-, hf⟩ := h
  obtain ⟨hlen, hexited⟩ := hall
  have hpos := List.length_pos_of_ne_nil line.nonempty
  have hi : s.children.length - 1 < s.children.length := by omega
  have hk := List.getElem?_eq_getElem hi
  have hlast := hf.last _ _ hk (by omega)
  obtain ⟨heof, hw⟩ := hlast.exited (hexited _ (List.mem_of_getElem? hk))
  have hsink := hlast.sink
  rw [hlast.due_of_eof heof] at hw
  rw [System.sunk, if_pos (by omega), List.take_of_length_le hw] at hsink
  rw [hsink, ← piped_length, show s.children.length - 1 + 1 = line.commands.length by omega]

/-! ## The end of the runs -/

theorem readStep_eq_none {pid : ℕ} (h : readStep s pid k = none) :
    ∃ p, k.fds.lookup 0 = some (.readEnd p) ∧ s.contents p = [] ∧ s.IsOpen (.writeEnd p) := by
  rw [readStep] at h
  split at h
  · split at h <;> cases h
  · split at h
    · split at h
      · exact ⟨_, ‹_›, ‹_›, ‹_›⟩
      · cases h
    · cases h
  · cases h

theorem writeStep_eq_none {pid : ℕ} (h : writeStep K s pid k = none) :
    ∃ p, k.fds.lookup 1 = some (.writeEnd p) ∧ s.IsOpen (.readEnd p) ∧
      ¬ (s.contents p).length < K := by
  rw [writeStep] at h
  dsimp only at h
  split at h
  · split at h
    · cases h
    · split at h
      · cases h
      · exact ⟨_, ‹_›, not_not.1 ‹_›, ‹_›⟩
  · cases h
  · cases h

/-- A child between two calls can move: it reads until its input ends, and then it writes what is
due. -/
theorem not_between_of_stuck {pid : ℕ} (h : ∀ writes, childStep K writes s pid k = none) :
    k.activity ≠ .between := by
  intro hk
  have hw := h true
  have hr := h false
  simp only [childStep, hk, if_true, Bool.false_eq_true, if_false] at hw hr
  split at hw
  · cases hw
  · rename_i hend
    split at hw
    · cases hw
    · rename_i hlt
      rw [if_neg hend] at hr
      split at hr
      · rename_i heof
        exact hend ⟨heof, not_lt.1 hlt⟩
      · cases hr

/-- Where the shell can do nothing, it can do nothing where the bytes are only counted. -/
theorem shellStep_count_eq_none {output : ℕ → ℕ} (h : shellStep programs s = none) :
    Shell.shellStep output (s.count output) = none := by
  have hcontrol : (s.count output).control = s.control := rfl
  rw [shellStep] at h
  rw [Shell.shellStep]
  cases hc : s.control with
  | walking next =>
    rw [hc] at h hcontrol
    rw [hcontrol]
    cases next with
    | nil => rfl
    | cons e next => cases e <;> cases h
  | forked notLast fildes pid next =>
    rw [hc] at h
    cases h
  | waiting pid next =>
    rw [hc] at h hcontrol
    rw [hcontrol]
    dsimp only at h ⊢
    have he : ¬ (s.children[pid]?).map Process.activity = some .exited := by
      intro he
      rw [if_pos he] at h
      cases h
    rw [if_neg]
    rw [count_children, Option.map_map]
    exact he

/-- The same for a child, whether it would write more or not. -/
theorem childStep_count_eq_none {output : ℕ → ℕ} {pid : ℕ} {k : Process}
    (h : ∀ writes, childStep K writes s pid k = none) (writes : Bool) :
    Shell.childStep K writes (s.count output) pid (k.count (output pid)) = none := by
  have hbetween := not_between_of_stuck h
  have hnone := h writes
  rw [childStep] at hnone
  rw [Shell.childStep, show (k.count (output pid)).activity = k.activity from rfl]
  cases ha : k.activity with
  | starting notLast fildes inputFd =>
    rw [ha] at hnone
    cases hnone
  | between => exact absurd ha hbetween
  | reading =>
    rw [ha] at hnone
    obtain ⟨p, hin, hp, hopen⟩ := readStep_eq_none hnone
    have hc : (s.count output).contents p = 0 := congrArg List.length hp
    dsimp only
    rw [Shell.readStep, show (k.count (output pid)).fds = k.fds from rfl, hin]
    dsimp only
    rw [if_pos hc, if_pos ((count_isOpen _).2 hopen)]
  | writing =>
    rw [ha] at hnone
    obtain ⟨p, hout, hopen, hfull⟩ := writeStep_eq_none hnone
    dsimp only
    rw [Shell.writeStep, show (k.count (output pid)).fds = k.fds from rfl, hout]
    dsimp only
    rw [if_neg (not_not.2 ((count_isOpen _).2 hopen)),
      if_neg (show ¬ (s.count output).contents p < K from hfull)]
  | exited => rfl

/-- A system that cannot move cannot move with numbers for bytes. -/
theorem stuck_count {output : ℕ → ℕ} (h : ∀ l, step K programs l s = none) (l : Mover) :
    Shell.step K output l (s.count output) = none := by
  cases l with
  | shell => exact shellStep_count_eq_none (h .shell)
  | child pid writes =>
    rw [Shell.step, count_children]
    cases hk : s.children[pid]? with
    | none => rfl
    | some k =>
      rw [Option.map_some, Option.bind_some]
      refine childStep_count_eq_none (fun writes => ?_) writes
      have hstep := h (.child pid writes)
      rwa [step, hk, Option.bind_some] at hstep

/-- Every step takes away from what is left to do. -/
theorem measure_lt {l : Mover} (h : Computes init line K programs input s)
    (hl : step K programs l s = some t) :
    pipelineMeasure init line.commands (outputs programs line.commands input)
        (t.count (outputs programs line.commands input)) <
      pipelineMeasure init line.commands (outputs programs line.commands input)
        (s.count (outputs programs line.commands input)) :=
  pipelineMeasure_lt h.1 (step_count h.1 h.2 hl)

/-- Every run ends, in a state in which nobody can move. -/
theorem exists_stuck_state (init : StartTable) (line : Pipeline) (K : ℕ)
    (programs : Command → Transducer UInt8) (files : ℕ → List UInt8) :
    ∃ s, (pipelineMachine init line K programs files).Reachable s ∧
      Computes init line K programs (files init.stdin) s ∧ ∀ l, step K programs l s = none := by
  obtain ⟨s, hs, hc, hstuck⟩ := Machine.exists_stuck
    (M := pipelineMachine init line K programs files)
    (I := Computes init line K programs (files init.stdin))
    (fun s => pipelineMeasure init line.commands
      (outputs programs line.commands (files init.stdin)) (s.count _))
    (fun _ _ _ h hl => ⟨step_computes h hl, measure_lt h hl⟩)
    (launch_computes init line K programs files)
  exact ⟨s, (Machine.Reachable.of_init rfl).leads hs, hc, hstuck⟩

/-- Where the intermediate results fit, only the end stops a pipeline. -/
theorem Computes.allExited_of_stuck (h : Computes init line K programs input s)
    (hfit : OutputsFit line K (outputs programs line.commands input))
    (hstuck : ∀ l, step K programs l s = none) : s.AllExited line := by
  by_contra hne
  obtain ⟨l, hl⟩ := h.1.progress hfit (mt (count_allExited line).1 hne)
  exact hl (stuck_count hstuck l)

/-! ## The pipeline as a whole -/

/-- **A pipeline computes the composition of its programs.** Over pipes of any size and in every
interleaving: what has been written to the standard output of the shell is a prefix of the result,
nothing is written to any other file, and when all commands have exited the whole result is
there. -/
theorem pipeline_computes (h : (pipelineMachine init line K programs files).Reachable s) :
    s.output init.stdout <+: Pipeline.result programs line (files init.stdin) ∧
      (∀ file, file ≠ init.stdout → s.output file = []) ∧
      (s.AllExited line →
        s.output init.stdout = Pipeline.result programs line (files init.stdin)) :=
  have hc := reachable_computes h
  ⟨hc.output_prefix, fun file hf => hc.2.quiet file (Or.inl hf), hc.output_of_allExited⟩

/-- One byte, copied twice over a pipe of one byte. -/
theorem two_copy : ∃ s, (pipelineMachine standardTable twoCommands 1 (fun _ => .copy)
    fun _ => [65]).Reachable s ∧ s.output standardTable.stdout = [65] := by
  obtain ⟨s, hs, hc, hstuck⟩ :=
    exists_stuck_state standardTable twoCommands 1 (fun _ => .copy) fun _ => [65]
  have hall : s.AllExited twoCommands := hc.allExited_of_stuck (fun i hi => by
    obtain rfl : i = 0 := by
      have : twoCommands.commands.length = 2 := rfl
      omega
    exact le_rfl) hstuck
  exact ⟨s, hs, (pipeline_computes hs).2.2 hall⟩

/-- **When a pipeline comes to its end.** Every run ends. It ends with all commands exited and the
whole result written, whatever the order of the steps, exactly when what each command before a pipe
makes of its input fits into the pipe. -/
theorem pipeline_finishes_iff (init : StartTable) (line : Pipeline) (K : ℕ)
    (programs : Command → Transducer UInt8) (files : ℕ → List UInt8) :
    (∃ bound, ∀ ls s, (pipelineMachine init line K programs files).run ls
        (launch init line files) = some s → ls.length ≤ bound) ∧
      ((∀ s, (pipelineMachine init line K programs files).Reachable s →
        (∀ l, step K programs l s = none) → s.AllExited line ∧
          s.output init.stdout = Pipeline.result programs line (files init.stdin)) ↔
      ∀ i, i + 1 < line.commands.length →
        (piped programs line.commands (files init.stdin) (i + 1)).length ≤ K) := by
  refine ⟨⟨_, fun ls s hrun => Machine.length_le_of_run
    (M := pipelineMachine init line K programs files)
    (I := Computes init line K programs (files init.stdin))
    (fun s => pipelineMeasure init line.commands
      (outputs programs line.commands (files init.stdin)) (s.count _))
    (fun _ _ _ h hl => ⟨step_computes h hl, measure_lt h hl⟩) hrun
    (launch_computes init line K programs files)⟩, fun h i hi => ?_, fun hfit s hs hstuck => ?_⟩
  · obtain ⟨s, hs, hc, hstuck⟩ := exists_stuck_state init line K programs files
    obtain ⟨hall, -⟩ := h s hs hstuck
    have hk := List.getElem?_eq_getElem (show i < s.children.length by rw [hall.1]; omega)
    exact hc.1.exited i _ (by rw [count_children, hk]; rfl)
      (hall.2 _ (List.mem_of_getElem? hk)) hi
  · have hc := reachable_computes hs
    have hall := hc.allExited_of_stuck hfit hstuck
    exact ⟨hall, hc.output_of_allExited hall⟩

end SemOS.Shell.Contents
