import SemOS.Foundations.Getopt
import Mathlib.Data.List.Basic

/-!
# The operands of mycp

`check_flags` of `sems/3week/mycp/mycp.c` counts the options, and `main` looks for the operands
behind as many words. But one word may contain several options, or none.

* `argumentsCounter_eq`: the index is one more than the number of options.
* `findsOperands_iff`: the operands are found exactly if there are as many options as option words,
  and as many operands as `main` uses.
-/

namespace SemOS.Mycp

/-- `struct flags_states`. -/
structure FlagsStates where
  verbose : Bool
  interactive : Bool
  force : Bool
  verboseCount : ℕ
  interactiveCount : ℕ
  forceCount : ℕ

/-- `optstring` and `longoptions`. The array has no last entry of zeros, so that a name which none
of its entries has is also looked for in what lies behind it. -/
def options (behind : List (Word × Char)) : Options where
  optstring := ['v', 'i', 'f']
  longoptions :=
    [("verbose".toList, 'v'), ("interactive".toList, 'i'), ("force".toList, 'f')] ++ behind

/-- The `switch` of `check_flags`. -/
def readFlag (flags : FlagsStates) : Option Char → Option FlagsStates
  | some 'v' => some { flags with verbose := true, verboseCount := flags.verboseCount + 1 }
  | some 'i' =>
    some { flags with interactive := true, interactiveCount := flags.interactiveCount + 1 }
  | some 'f' => some { flags with force := true, forceCount := flags.forceCount + 1 }
  | _ => none

/-- `check_flags`, on the flags that `main` has set to zero. -/
def checkFlags (behind : List (Word × Char)) (words : List Word) : Option FlagsStates :=
  (((options behind).scan words).values.foldlM readFlag ⟨false, false, false, 0, 0, 0⟩).bind
    fun flags => if flags.interactive && flags.force then none else some flags

/-- `arguments_counter`. -/
def FlagsStates.argumentsCounter (flags : FlagsStates) : ℕ :=
  1 + flags.verboseCount + flags.interactiveCount + flags.forceCount

/-- The words that `main` takes for its sources and for the destination; behind the last word there
is none. -/
def usedWords (isDir : Word → Bool) (argv : List Word) (argumentsCounter : ℕ) :
    List (Option Word) :=
  if argv.getLast?.any isDir then
    (argv.dropLast.drop argumentsCounter).map some ++ [argv.getLast?]
  else [argv[argumentsCounter]?, argv[argumentsCounter + 1]?]

/-- `arguments_counter` is the index of the first operand, and the operands are used. -/
structure FindsOperands (behind : List (Word × Char)) (isDir : Word → Bool) (program : Word)
    (words : List Word) (flags : FlagsStates) : Prop where
  counter : flags.argumentsCounter = 1 + ((options behind).scan words).optionWords.length
  used : usedWords isDir ((options behind).permuted program words) flags.argumentsCounter =
    ((options behind).scan words).operands.map some

variable {behind : List (Word × Char)} {isDir : Word → Bool} {program : Word} {words : List Word}
  {flags flags' : FlagsStates}

/-! ## Counting -/

theorem readFlag_counter {value : Option Char} (h : readFlag flags value = some flags') :
    flags'.argumentsCounter = flags.argumentsCounter + 1 := by
  unfold readFlag at h
  split at h
  · cases h
    simp only [FlagsStates.argumentsCounter]
    omega
  · cases h
    simp only [FlagsStates.argumentsCounter]
    omega
  · cases h
    rfl
  · cases h

/-- The index counts the options in the option words. -/
theorem argumentsCounter_eq (h : checkFlags behind words = some flags) :
    flags.argumentsCounter =
      1 + (((options behind).scan words).optionWords.map Options.optionsIn).sum := by
  obtain ⟨last, hlast, h⟩ := Option.bind_eq_some_iff.1 h
  obtain ⟨-, h⟩ := Option.ite_none_left_eq_some.1 h
  cases h
  rw [Options.count_foldlM readFlag_counter hlast, Options.length_values]
  rfl

/-! ## The words behind the options -/

/-- In a directory everything between the options and the last word is a source. -/
theorem usedWords_of_isDir {argv sources : List Word} {last : Word} (h : isDir last) :
    usedWords isDir (argv ++ sources ++ [last]) argv.length = (sources ++ [last]).map some := by
  rw [usedWords, List.getLast?_concat, if_pos (by simpa using h), List.dropLast_concat,
    List.drop_left, List.map_append]
  rfl

/-- Elsewhere two words are used, so both are operands if there are two. -/
theorem usedWords_of_not_isDir {argv operands : List Word}
    (h : ¬ (argv ++ operands).getLast?.any isDir) :
    usedWords isDir (argv ++ operands) argv.length = operands.map some ↔ operands.length = 2 := by
  rw [usedWords, if_neg h, List.getElem?_append_right (Nat.le_refl _),
    List.getElem?_append_right (Nat.le_add_right _ 1), Nat.sub_self, Nat.add_sub_cancel_left]
  match operands with
  | [] => simp
  | [_] => simp
  | [_, _] => simp
  | _ :: _ :: _ :: _ => simp

/-- What `main` uses are the operands exactly if there are two, or the last one is a directory. -/
theorem usedWords_iff (isDir : Word → Bool) (argv operands : List Word) :
    usedWords isDir (argv ++ operands) argv.length = operands.map some ↔
      operands.length = 2 ∨ operands.getLast?.any isDir := by
  rcases List.eq_nil_or_concat' operands with rfl | ⟨sources, last, rfl⟩
  · rw [usedWords]
    split <;> simp
  · rw [List.getLast?_concat]
    by_cases hlast : isDir last
    · rw [← List.append_assoc, usedWords_of_isDir hlast]
      exact iff_of_true rfl (.inr hlast)
    · rw [usedWords_of_not_isDir (by simpa using hlast)]
      exact (or_iff_left hlast).symm

/-- The operands are found exactly if there are as many options as option words, and two operands
or a directory as the last one. -/
theorem findsOperands_iff (h : checkFlags behind words = some flags) :
    FindsOperands behind isDir program words flags ↔
      ((options behind).scan words).Balanced ∧
        (((options behind).scan words).operands.length = 2 ∨
          ((options behind).scan words).operands.getLast?.any isDir) := by
  have hcounter := argumentsCounter_eq h
  generalize hscan : (options behind).scan words = s at *
  have hused : flags.argumentsCounter = 1 + s.optionWords.length →
      (usedWords isDir ((options behind).permuted program words) flags.argumentsCounter =
        s.operands.map some ↔ s.operands.length = 2 ∨ s.operands.getLast?.any isDir) := by
    intro heq
    have hlen : (program :: s.optionWords).length = flags.argumentsCounter := by
      rw [heq, List.length_cons, Nat.add_comm]
    rw [Options.permuted, hscan, ← List.cons_append, ← hlen]
    exact usedWords_iff isDir _ _
  constructor
  · rintro ⟨hcount, hwords⟩
    rw [hscan] at hcount hwords
    exact ⟨Nat.add_left_cancel (hcounter.symm.trans hcount), (hused hcount).1 hwords⟩
  · rintro ⟨hsum, hoperands⟩
    have hcount : flags.argumentsCounter = 1 + s.optionWords.length :=
      hcounter.trans (congrArg (1 + ·) hsum)
    refine ⟨by rw [hscan, hcount], ?_⟩
    rw [hscan]
    exact (hused hcount).2 hoperands

end SemOS.Mycp
