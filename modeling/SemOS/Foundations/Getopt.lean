import Mathlib.Algebra.GroupWithZero.Nat
import Mathlib.Data.Nat.Notation

/-!
# Reading the options of a command line

`getopt_long` for options without arguments. It returns the options one after the other, `none` for
one that it does not accept, and moves the words that contain options in front of the others, the
operands.

* `scan` is a whole run of `getopt_long`, up to the return of -1.
* `length_values`: how many options are returned is visible in the option words alone.
* `count_foldlM`: a loop that counts the options it reads.
-/

namespace SemOS

/-- A word of the command line. -/
abbrev Word := List Char

/-- `optstring`, and the names and values of `longoptions`. -/
structure Options where
  optstring : List Char
  longoptions : List (Word × Char)

/-- What `getopt_long` has read: the options that it has returned, the words that it has moved to
the front, and the others. -/
structure Scan where
  values : List (Option Char)
  optionWords : List Word
  operands : List Word

namespace Options

/-- The word behind which there are only operands. -/
abbrev terminator : Word := ['-', '-']

/-- A letter of an option word. -/
def shortValue (o : Options) (c : Char) : Option Char :=
  if c ∈ o.optstring then some c else none

/-- A long option: its name, or the beginning of names that all have the same value. It takes no
argument. -/
def longValue (o : Options) (text : Word) : Option Char :=
  let name := text.takeWhile (· != '=')
  if '=' ∈ text then none
  else match o.longoptions.find? (·.1 == name) with
    | some found => some found.2
    | none =>
      match o.longoptions.filter (name.isPrefixOf ·.1) with
      | [] => none
      | found :: others => if others.all (·.2 == found.2) then some found.2 else none

/-- The options in a word, or `none` for an operand. -/
def wordValues (o : Options) : Word → Option (List (Option Char))
  | '-' :: '-' :: [] => some []
  | '-' :: '-' :: text => some [o.longValue text]
  | '-' :: c :: cs => some ((c :: cs).map o.shortValue)
  | _ => none

/-- The calls of `getopt_long`. -/
def scan (o : Options) : List Word → Scan
  | [] => ⟨[], [], []⟩
  | w :: ws =>
    match o.wordValues w with
    | none => { o.scan ws with operands := w :: (o.scan ws).operands }
    | some vs =>
      if w = terminator then ⟨vs, [w], ws⟩
      else ⟨vs ++ (o.scan ws).values, w :: (o.scan ws).optionWords, (o.scan ws).operands⟩

/-- The command line afterwards. -/
def permuted (o : Options) (program : Word) (ws : List Word) : List Word :=
  program :: ((o.scan ws).optionWords ++ (o.scan ws).operands)

/-- How many options an option word contains: each letter of a cluster is one. -/
def optionsIn : Word → ℕ
  | '-' :: '-' :: [] => 0
  | '-' :: '-' :: _ => 1
  | '-' :: c :: cs => (c :: cs).length
  | _ => 0

end Options

/-- There are as many options as option words. -/
def Scan.Balanced (s : Scan) : Prop :=
  (s.optionWords.map Options.optionsIn).sum = s.optionWords.length

instance (s : Scan) : Decidable s.Balanced := inferInstanceAs (Decidable (_ = _))

namespace Options

variable {o : Options} {w : Word} {vs : List (Option Char)}

theorem length_wordValues (h : o.wordValues w = some vs) : vs.length = optionsIn w := by
  unfold wordValues at h
  split at h
  · cases h
    rfl
  · rename_i text hne
    cases h
    cases text with
    | nil => exact (hne rfl).elim
    | cons c cs => rfl
  · cases h
    simp [optionsIn]
  · cases h

/-- The options returned are those that the option words contain. -/
theorem length_values (o : Options) (ws : List Word) :
    (o.scan ws).values.length = ((o.scan ws).optionWords.map optionsIn).sum := by
  induction ws with
  | nil => rfl
  | cons w ws ih =>
    rw [scan]
    split
    · exact ih
    · rename_i vs hvs
      split
      · simp [length_wordValues hvs]
      · simp [length_wordValues hvs, ih]

/-- A loop over the options that counts each of them counts them all. -/
theorem count_foldlM {σ : Type*} {read : σ → Option Char → Option σ} {count : σ → ℕ}
    (hread : ∀ {s value t}, read s value = some t → count t = count s + 1)
    {values : List (Option Char)} {s t : σ} (h : values.foldlM read s = some t) :
    count t = count s + values.length := by
  induction values generalizing s with
  | nil =>
    cases h
    rfl
  | cons value values ih =>
    rw [List.foldlM_cons] at h
    obtain ⟨next, hnext, h⟩ := Option.bind_eq_some_iff.1 h
    rw [ih h, hread hnext, List.length_cons, Nat.add_right_comm, Nat.add_assoc]

end Options

end SemOS
