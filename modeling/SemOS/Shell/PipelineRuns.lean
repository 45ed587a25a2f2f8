import SemOS.Shell.PipelineChild

/-!
# The runs of a pipeline

A fork gives the next command the output of the one before it, which has exited (`Follows.fork`).
With numbers for bytes a run is one of the machine of `Shell.Children` (`step_count`), so that
`Stage` and its consequences hold here as well; `Computes` is both invariants together, and
`reachable_computes` has them of every reachable state.
-/

namespace SemOS.Shell.Contents

variable {init : StartTable} {line : Pipeline} {K : ℕ} {programs : Command → Transducer UInt8}
  {files : ℕ → List UInt8} {s t : System} {input : List UInt8}

/-! ## Steps of the shell -/

/-- What a command reads from, after `j` others. -/
theorem stdin_of_holding {n j : ℕ} {st : State} {next : CommandLine}
    (h : Holding init n j st) (c : Command) (hnext : j + 1 = n ∧ next = [] ∨
      j + 1 < n ∧ ∃ next', next = .pipe :: next') :
    (executeCmd c next st).1.stdin = some (source init j) := by
  rcases hnext with ⟨hn, rfl⟩ | ⟨hn, next', rfl⟩
  · cases j with
    | zero =>
      have hf := h.first rfl
      rw [executeCmd_only hf.1 (Or.inl hf.2)]
      exact init.lookup_zero
    | succ p =>
      obtain ⟨k, st', hk, -, hi, -⟩ :=
        (h.later (Nat.succ_pos p) (by omega)).executeCmd_last (c := c)
      rw [hk]
      exact hi
  · cases j with
    | zero =>
      obtain ⟨k, st', hk, -, hi, -⟩ := (h.first rfl).executeCmd_next (c := c) next'
      rw [hk]
      exact hi.trans init.lookup_zero
    | succ p =>
      obtain ⟨k, st', hk, -, hi, -⟩ :=
        (h.later (Nat.succ_pos p) (by omega)).executeCmd_next (c := c) next'
      rw [hk]
      exact hi

/-- What the command `i` finds where it reads from: all of the output of the one before it, which
has exited. -/
theorem Follows.left_eq
    (h : Follows init line programs input s) (hexited : ∀ k ∈ s.children, k.activity = .exited)
    (hlt : s.children.length < line.commands.length) :
    s.left init s.children.length = piped programs line.commands input s.children.length := by
  cases hn : s.children.length with
  | zero => exact h.fresh (List.length_eq_zero_iff.1 hn)
  | succ p =>
    have hp : p < s.children.length := by omega
    have hk := List.getElem?_eq_getElem hp
    have hlast := h.last p _ hk hn.symm
    obtain ⟨heof, hw⟩ := hlast.exited (hexited _ (List.mem_of_getElem? hk))
    have hsink := hlast.sink
    rw [System.sunk, if_neg (by omega)] at hsink
    rw [hlast.due_of_eof heof] at hw
    rw [System.left, hsink, List.take_of_length_le hw]

/-- **A fork keeps the invariant.** -/
theorem Follows.fork
    (hs : Stage init line.commands K (outputs programs line.commands input)
      (s.count (outputs programs line.commands input)))
    (h : Follows init line programs input s) {c : Command} {next : CommandLine}
    (hc : s.control = .walking (.command c :: next)) (hl : shellStep programs s = some t) :
    Follows init line programs input t := by
  have hexited : ∀ k ∈ s.children, k.activity = .exited := by
    intro k hk
    obtain ⟨i, hi⟩ := List.getElem?_of_mem hk
    refine hs.all_exited (by rw [show (s.count _).control = s.control from rfl, hc]; rfl)
      (k.count (outputs programs line.commands input i)) (List.mem_of_getElem? (i := i) ?_)
    rw [count_children, hi]
    rfl
  have hrem : Remaining line.commands s.children.length (.command c :: next) := by
    have := hs.next
    rwa [length_count, show (s.count _).control = s.control from rfl, hc] at this
  have hhold : Holding init line.commands.length s.children.length s.shell := by
    have := hs.shell
    rwa [length_count, System.count, System.settled, hc] at this
  have hj := hrem.le (List.cons_ne_nil _ _)
  have hcommand : line.commands[s.children.length]? = some c := by
    have halt : .command c :: next = alternate (line.commands.drop s.children.length) := by
      rcases hrem with h | ⟨-, h⟩
      · exact h
      · cases h
    rw [List.drop_eq_getElem_cons hj] at halt
    rw [List.getElem?_eq_getElem hj]
    cases hd : line.commands.drop (s.children.length + 1) <;> rw [hd, alternate] at halt <;>
      cases halt <;> rfl
  have hstdin := stdin_of_holding hhold c (hrem.after_command.imp_right fun h => ⟨h.1, _, h.2⟩)
  have hleft := h.left_eq hexited hj
  simp only [shellStep, hc, Option.some.injEq] at hl
  subst hl
  refine ⟨fun hnil => by simp at hnil, fun file _ => h.quiet file (Or.inr hj),
    fun i k hk hi => ?_⟩
  simp only [List.length_append, List.length_singleton] at hi
  obtain rfl : i = s.children.length := by omega
  rw [List.getElem?_concat_length] at hk
  obtain rfl := Option.some.inj hk
  refine ⟨⟨c, hcommand, rfl⟩, hstdin, ?_, (by simp), Nat.zero_le _, (by simp), ?_, (by simp)⟩
  · rw [List.nil_append, ← hleft]
    rfl
  · rw [List.take_zero]
    by_cases hn : s.children.length + 1 = line.commands.length
    · rw [System.sunk, if_pos hn]
      exact h.quiet _ (Or.inr hj)
    · rw [System.sunk, if_neg hn]
      have hempty := hs.empty s.children.length (by rw [length_count])
      exact List.length_eq_zero_iff.1 hempty

/-- The bytes and the children stay as they are. -/
theorem Follows.control (h : Follows init line programs input s) (shell : State)
    (control : Control) :
    Follows init line programs input
      ⟨shell, control, s.children, s.contents, s.files, s.output⟩ :=
  ⟨h.fresh, h.quiet, fun i k hk hi =>
    have hlast := h.last i k hk hi
    hlast.keep rfl rfl rfl rfl rfl (by cases i <;> rfl) rfl hlast.writing hlast.exited⟩

theorem Follows.shellStep
    (hs : Stage init line.commands K (outputs programs line.commands input)
      (s.count (outputs programs line.commands input)))
    (h : Follows init line programs input s) (hl : shellStep programs s = some t) :
    Follows init line programs input t := by
  have hcopy := hl
  rw [Contents.shellStep] at hl
  split at hl
  · cases hl
  · cases hl
    exact h.control _ _
  · exact h.fork hs ‹_› hcopy
  · cases hl
    exact h.control _ _
  · split at hl
    · cases hl
      exact h.control _ _
    · cases hl

/-! ## Runs -/

/-- **With numbers for bytes a step is one of `Shell.step`.** -/
theorem step_count {l : Mover}
    (hs : Stage init line.commands K (outputs programs line.commands input)
      (s.count (outputs programs line.commands input)))
    (h : Follows init line programs input s) (hl : step K programs l s = some t) :
    Shell.step K (outputs programs line.commands input) l
      (s.count (outputs programs line.commands input)) =
        some (t.count (outputs programs line.commands input)) := by
  cases l with
  | shell => exact count_shellStep hl
  | child pid writes =>
    obtain ⟨k, hk, hl⟩ := Option.bind_eq_some_iff.1 hl
    have hne : k.activity ≠ .exited := by
      intro he
      simp [childStep, he] at hl
    obtain ⟨hi, -⟩ := live_of_stage hs hk hne
    rw [Shell.step, count_children, hk]
    exact count_childStep (h.last pid k hk hi).within hl

/-- Both invariants together. -/
def Computes (init : StartTable) (line : Pipeline) (K : ℕ) (programs : Command → Transducer UInt8)
    (input : List UInt8) (s : System) : Prop :=
  Stage init line.commands K (outputs programs line.commands input)
    (s.count (outputs programs line.commands input)) ∧ Follows init line programs input s

theorem step_computes {l : Mover} (h : Computes init line K programs input s)
    (hl : step K programs l s = some t) : Computes init line K programs input t := by
  obtain ⟨hs, hf⟩ := h
  refine ⟨step_stage hs (step_count hs hf hl), ?_⟩
  cases l with
  | shell => exact hf.shellStep hs hl
  | child pid writes =>
    obtain ⟨k, hk, hl⟩ := Option.bind_eq_some_iff.1 hl
    obtain ⟨k', contents, files, out, hm, rfl⟩ := childStep_moves hl
    exact hf.child hs hk hm

theorem launch_computes (init : StartTable) (line : Pipeline) (K : ℕ)
    (programs : Command → Transducer UInt8) (files : ℕ → List UInt8) :
    Computes init line K programs (files init.stdin) (launch init line files) :=
  ⟨launch_stage init line K _ _, fun _ => rfl, fun _ _ => rfl, fun i k hk => by cases hk⟩

theorem reachable_computes
    (h : (pipelineMachine init line K programs files).Reachable s) :
    Computes init line K programs (files init.stdin) s := by
  refine h.invariant ?_ fun l s s' hs h => step_computes hs h
  rintro _ rfl
  exact launch_computes init line K programs files

end SemOS.Shell.Contents
