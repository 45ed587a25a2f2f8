import SemOS.Foundations.Loop

/-!
# The interactive answer of mycp

`get_interactive_permission` of `sems/3week/mycp/mycp.c` reads one character; if it is neither `y`
nor `n`, `clean_input_buffer` is to throw away the rest of its line, and another one is read. But a
newline is a character too, and then it is the next line that is thrown away; and at the end of the
input `clean_input_buffer` never returns.

* `clean_spec`: what `clean_input_buffer` does with the lines.
* `grants_iff`: the program answers with the first line that counts for it (`firstHeard`).
* `answered_iff`: so it answers as it should exactly if this line agrees with the first one that
  should count.
-/

namespace SemOS.Mycp

/-- The characters with a meaning: the newline, `y` and `n`. -/
abbrev newline : UInt8 := 10
abbrev letterY : UInt8 := 121
abbrev letterN : UInt8 := 110

/-- An iteration of `clean_input_buffer`. At the end of the input `getchar` returns `EOF`, which is
no newline. -/
def cleanIteration : List UInt8 → Option (List UInt8 ⊕ List UInt8)
  | [] => some (.inl [])
  | c :: stdin => some (if c = newline then .inr stdin else .inl stdin)

/-- `clean_input_buffer`: what is left of the input. -/
def cleanInputBuffer : ℕ → List UInt8 → Option (List UInt8) := Loop.run fun _ => cleanIteration

/-- The variable `input` of `get_interactive_permission`, and what is left of the input. -/
structure Asking where
  input : UInt8
  stdin : List UInt8

/-- `scanf("%c", &input)`, which leaves the variable alone at the end of the input. -/
def scanfChar (a : Asking) : Asking :=
  match a.stdin with
  | [] => a
  | c :: stdin => ⟨c, stdin⟩

/-- An iteration of `get_interactive_permission`. -/
def askIteration (fuel : ℕ) (a : Asking) : Option (Asking ⊕ Bool) :=
  let a := scanfChar a
  if a.input = letterY then some (.inr true)
  else if a.input = letterN then some (.inr false)
  else (cleanInputBuffer fuel a.stdin).map fun stdin => .inl ⟨a.input, stdin⟩

/-- `get_interactive_permission` returns `permission`. -/
def Grants (stdin : List UInt8) (permission : Bool) : Prop :=
  Loop.Returns askIteration ⟨0, stdin⟩ permission

/-! ## What is asked for -/

/-- The lines of the input. -/
def lines (stdin : List UInt8) : List (List UInt8) := stdin.splitOn newline

/-- The answer that a line gives by its first character. -/
def lineAnswer : List UInt8 → Option Bool
  | [] => none
  | c :: _ => if c = letterY then some true else if c = letterN then some false else none

/-- The answer of the first line that gives one. -/
def firstAnswer (ls : List (List UInt8)) : Option Bool := ls.findSome? lineAnswer

/-- The function returns, and what it returns is the answer of the first line that gives one, or no
permission if there is none. -/
def Answered (stdin : List UInt8) : Prop :=
  Grants stdin (firstAnswer (lines stdin) = some true)

/-- The answer of the first line that gives one directly after an even number of empty lines; `odd`
says whether an odd number of them came directly before the rest. -/
def firstHeard : Bool → List (List UInt8) → Option Bool
  | _, [] => none
  | odd, [] :: ls => firstHeard (!odd) ls
  | true, (_ :: _) :: ls => firstHeard false ls
  | false, l@(_ :: _) :: ls => (lineAnswer l).or (firstHeard false ls)

variable {stdin : List UInt8} {c : UInt8} {odd permission : Bool} {l : List UInt8}
  {ls : List (List UInt8)}

/-! ## Lines -/

theorem lines_newline (stdin : List UInt8) : lines (newline :: stdin) = [] :: lines stdin := by
  rw [lines, List.splitOn_cons_eq_if_modifyHead]
  rfl

theorem lines_cons (h : lines stdin = l :: ls) (hc : c ≠ newline) :
    lines (c :: stdin) = (c :: l) :: ls := by
  rw [lines, List.splitOn_cons_eq_if_modifyHead, if_neg (by simpa using hc), ← lines, h]
  rfl

/-- After an odd number of empty lines the next line does not count, whatever it is. -/
theorem firstHeard_true (l : List UInt8) (ls : List (List UInt8)) :
    firstHeard true (l :: ls) = firstHeard false ls := by
  cases l <;> rfl

/-- After a character that is no answer the rest of its line does not count; after a newline that
is the next line. -/
theorem firstHeard_lines (hy : c ≠ letterY) (hn : c ≠ letterN) (h : lines stdin = l :: ls) :
    firstHeard false (lines (c :: stdin)) = firstHeard false ls := by
  by_cases hc : c = newline
  · rw [hc, lines_newline, h]
    exact firstHeard_true l ls
  · rw [lines_cons h hc, firstHeard, lineAnswer, if_neg hy, if_neg hn, Option.none_or]

/-- A line that counts for the program gives an answer. -/
theorem isSome_firstAnswer (h : firstHeard odd ls = some permission) :
    ∃ a, firstAnswer ls = some a := by
  induction ls generalizing odd with
  | nil => cases odd <;> cases h
  | cons l ls ih =>
    rw [firstAnswer, List.findSome?_cons]
    cases hl : lineAnswer l with
    | some a => exact ⟨a, rfl⟩
    | none =>
      cases l with
      | nil =>
        cases odd with
        | false => exact ih h
        | true => exact ih h
      | cons c l =>
        cases odd with
        | false =>
          rw [firstHeard, hl, Option.none_or] at h
          exact ih h
        | true => exact ih h

/-! ## Cleaning -/

/-- At the end of the input `clean_input_buffer` does not return. -/
theorem clean_nil (fuel : ℕ) : cleanInputBuffer fuel [] = none := by
  induction fuel with
  | zero => rfl
  | succ fuel ih => exact (Loop.run_of_next rfl).trans ih

/-- `clean_input_buffer` throws away the first line of the input, or does not return if it is the
only one. -/
theorem clean_spec (stdin : List UInt8) :
    (∃ l rest fuel, lines stdin = l :: lines rest ∧ rest.length < stdin.length ∧
        cleanInputBuffer fuel stdin = some rest) ∨
      (∃ l, lines stdin = [l]) ∧ ∀ fuel, cleanInputBuffer fuel stdin = none := by
  induction stdin with
  | nil => exact .inr ⟨⟨[], rfl⟩, clean_nil⟩
  | cons c stdin ih =>
    by_cases hc : c = newline
    · subst hc
      refine .inl ⟨[], stdin, 1, lines_newline stdin, Nat.lt_succ_self _, ?_⟩
      exact Loop.run_of_leave (by simp [cleanIteration])
    · have hnext : ∀ fuel, cleanInputBuffer (fuel + 1) (c :: stdin) =
          cleanInputBuffer fuel stdin := fun fuel =>
        Loop.run_of_next (by simp [cleanIteration, hc])
      obtain ⟨l, rest, fuel, hlines, hlt, hclean⟩ | ⟨⟨l, hlines⟩, hclean⟩ := ih
      · exact .inl ⟨c :: l, rest, fuel + 1, lines_cons hlines hc, Nat.lt_succ_of_lt hlt,
          (hnext fuel).trans hclean⟩
      · refine .inr ⟨⟨c :: l, lines_cons hlines hc⟩, fun fuel => ?_⟩
        cases fuel with
        | zero => rfl
        | succ fuel => exact (hnext fuel).trans (hclean fuel)

/-! ## Asking -/

theorem stable_askIteration : Loop.Stable askIteration := by
  intro m n a x hmn h
  unfold askIteration at h ⊢
  dsimp only at h ⊢
  split_ifs at h ⊢ with hy hn
  · exact h
  · exact h
  · obtain ⟨rest, hclean, rfl⟩ := Option.map_eq_some_iff.1 h
    rw [cleanInputBuffer, Loop.stable_run (Loop.stable_const _) m n _ _ hmn hclean]
    rfl

/-- A character that is no answer. -/
theorem askIteration_other (fuel : ℕ) (input : UInt8) (hy : c ≠ letterY) (hn : c ≠ letterN) :
    askIteration fuel ⟨input, c :: stdin⟩ =
      (cleanInputBuffer fuel stdin).map fun stdin => .inl ⟨c, stdin⟩ := by
  rw [askIteration, scanfChar]
  exact (if_neg hy).trans (if_neg hn)

/-- The program answers with the first line that counts for it, whatever character that is no answer
it has read before. -/
theorem returns_iff {input : UInt8} (hy : input ≠ letterY) (hn : input ≠ letterN)
    (stdin : List UInt8) (permission : Bool) :
    Loop.Returns askIteration ⟨input, stdin⟩ permission ↔
      firstHeard false (lines stdin) = some permission := by
  induction hlen : stdin.length using Nat.strongRecOn generalizing stdin input with
  | ind len ih =>
    subst hlen
    cases stdin with
    | nil =>
      have hnone : ∀ fuel, askIteration fuel ⟨input, []⟩ = none := by
        intro fuel
        simp only [askIteration, scanfChar, if_neg hy, if_neg hn, clean_nil, Option.map_none]
      refine iff_of_false (Loop.not_returns_of_none hnone) ?_
      rintro ⟨⟩
    | cons c stdin =>
      obtain ⟨l, ls, hlines⟩ := List.exists_cons_of_ne_nil (List.splitOn_ne_nil newline stdin)
      by_cases hcy : c = letterY
      · subst hcy
        have hleave : askIteration 0 ⟨input, letterY :: stdin⟩ = some (.inr true) := rfl
        rw [Loop.returns_iff_of_leave stable_askIteration hleave, lines_cons hlines (by decide)]
        exact eq_comm.trans Option.some_inj.symm
      by_cases hcn : c = letterN
      · subst hcn
        have hleave : askIteration 0 ⟨input, letterN :: stdin⟩ = some (.inr false) := rfl
        rw [Loop.returns_iff_of_leave stable_askIteration hleave, lines_cons hlines (by decide)]
        exact eq_comm.trans Option.some_inj.symm
      obtain ⟨l, rest, fuel, hlines, hlt, hclean⟩ | ⟨⟨l, hlines⟩, hclean⟩ := clean_spec stdin
      · have hnext : askIteration fuel ⟨input, c :: stdin⟩ = some (.inl ⟨c, rest⟩) := by
          rw [askIteration_other fuel input hcy hcn, hclean, Option.map_some]
        rw [Loop.returns_iff_of_next stable_askIteration hnext,
          ih _ (Nat.lt_succ_of_lt hlt) hcy hcn rest rfl, firstHeard_lines hcy hcn hlines]
      · -- the rest of the input is one line, at whose end there is no newline
        have hnone : ∀ fuel, askIteration fuel ⟨input, c :: stdin⟩ = none := by
          intro fuel
          rw [askIteration_other fuel input hcy hcn, hclean, Option.map_none]
        rw [firstHeard_lines hcy hcn hlines]
        refine iff_of_false (Loop.not_returns_of_none hnone) ?_
        rintro ⟨⟩

theorem grants_iff (stdin : List UInt8) (permission : Bool) :
    Grants stdin permission ↔ firstHeard false (lines stdin) = some permission :=
  returns_iff (by decide) (by decide) stdin permission

/-- **The function answers as it should exactly if the first answer after an even number of empty
lines agrees with the first one.** -/
theorem answered_iff (stdin : List UInt8) : Answered stdin ↔
    ∃ a, firstHeard false (lines stdin) = some a ∧ firstAnswer (lines stdin) = some a := by
  rw [Answered, grants_iff]
  constructor
  · intro h
    obtain ⟨a, ha⟩ := isSome_firstAnswer h
    refine ⟨a, ?_, ha⟩
    rw [h, ha]
    cases a <;> rfl
  · rintro ⟨a, hheard, ha⟩
    rw [hheard, ha]
    cases a <;> rfl

/-- An empty line, then `y`, then `n`: the `y` is thrown away. -/
theorem answer_after_empty_line : ¬ ∀ stdin, Answered stdin := by
  intro h
  have hanswered := (grants_iff _ _).1 (h [newline, letterY, newline, letterN, newline])
  exact absurd hanswered (by decide)

end SemOS.Mycp
