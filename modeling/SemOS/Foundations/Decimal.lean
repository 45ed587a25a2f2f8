import Mathlib.Algebra.Group.Nat.Defs
import Mathlib.Data.Int.Notation
import Mathlib.Data.Nat.Notation

/-!
# Numbers as lines of text

What `printf` with `%d` writes of a number that is not negative, and what `scanf` with `%d` reads.

* `scanInt_lines`: of a text of numbers, one on each line, the number at the front is read, and the
  rest is the text of the others.
* `integers`: the integers at the front of any text. Of the lines of some numbers they are these
  numbers (`integers_lines`).
* `count_lines`: such a text has as many newlines as numbers.
-/

namespace SemOS.Decimal

/-- The newline, the signs and the digits. -/
abbrev newline : UInt8 := 10
abbrev plus : UInt8 := 43
abbrev minus : UInt8 := 45
def digit (d : ℕ) : UInt8 := UInt8.ofNat (48 + d)

def isDigit (c : UInt8) : Bool := 48 ≤ c && c ≤ 57

def isSpace (c : UInt8) : Bool := c = 32 || 9 ≤ c && c ≤ 13

/-- The digits of a number. -/
def decimal (n : ℕ) : List UInt8 :=
  if n < 10 then [digit n] else decimal (n / 10) ++ [digit (n % 10)]

/-- Read digits, on from the value `acc`: the value, and how many digits there are. -/
def scanDigits (acc : ℕ) : List UInt8 → ℕ × ℕ
  | [] => (acc, 0)
  | c :: bytes =>
    if isDigit c then
      let (value, digits) := scanDigits (acc * 10 + (c.toNat - 48)) bytes
      (value, digits + 1)
    else (acc, 0)

/-- Read an integer: white space, a sign that may be missing, and digits. The value, and how many
bytes were read. -/
def scanInt (bytes : List UInt8) : Option (ℤ × ℕ) :=
  let blanks := (bytes.takeWhile isSpace).length
  let text := bytes.drop blanks
  let sign := if text.head? = some minus ∨ text.head? = some plus then 1 else 0
  let (value, digits) := scanDigits 0 (text.drop sign)
  if digits = 0 then none
  else some (if text.head? = some minus then -value else value, blanks + sign + digits)

/-- The text of some numbers, one on each line. -/
def lines (l : List ℕ) : List UInt8 := l.flatMap fun n => decimal n ++ [newline]

variable {n acc d : ℕ} {rest blanks : List UInt8} {l l' : List ℕ} {c : UInt8}

/-! ## Digits -/

theorem digit_toNat (h : d < 10) : (digit d).toNat = 48 + d := by
  rw [digit, UInt8.toNat_ofNat_of_lt' (show 48 + d < 256 by omega)]

theorem isDigit_digit (h : d < 10) : isDigit (digit d) = true := by
  rw [isDigit, Bool.and_eq_true, decide_eq_true_eq, decide_eq_true_eq, UInt8.le_iff_toNat_le,
    UInt8.le_iff_toNat_le, digit_toNat h]
  constructor
  · exact Nat.le_add_right _ _
  · exact show 48 + d ≤ 57 by omega

theorem decimal_ne_nil (n : ℕ) : decimal n ≠ [] := by
  rw [decimal]
  split <;> simp

/-- All of them are digits. -/
theorem isDigit_decimal (n : ℕ) (hc : c ∈ decimal n) : isDigit c = true := by
  induction n using Nat.strongRecOn with
  | ind n ih =>
    rw [decimal] at hc
    split at hc
    · rename_i h
      rw [List.mem_singleton.1 hc]
      exact isDigit_digit h
    · obtain hc | hc := List.mem_append.1 hc
      · exact ih (n / 10) (by omega) hc
      · rw [List.mem_singleton.1 hc]
        exact isDigit_digit (Nat.mod_lt _ (by decide))

/-- Reading the digits of a number, and on from there. -/
theorem scanDigits_decimal (n acc : ℕ) (rest : List UInt8) :
    scanDigits acc (decimal n ++ rest) =
      let (value, digits) := scanDigits (acc * 10 ^ (decimal n).length + n) rest
      (value, (decimal n).length + digits) := by
  have hone : ∀ {d}, d < 10 → ∀ acc rest, scanDigits acc (digit d :: rest) =
      let (value, digits) := scanDigits (acc * 10 + d) rest
      (value, digits + 1) := by
    intro d hd acc rest
    rw [scanDigits, if_pos (isDigit_digit hd), digit_toNat hd, Nat.add_sub_cancel_left]
  induction n using Nat.strongRecOn generalizing acc rest with
  | ind n ih =>
    rw [decimal]
    split
    · rename_i h
      simp [hone h, Nat.add_comm]
    · rename_i h
      have hvalue : (acc * 10 ^ (decimal (n / 10)).length + n / 10) * 10 + n % 10 =
          acc * 10 ^ ((decimal (n / 10)).length + 1) + n := by
        rw [Nat.add_mul, Nat.pow_succ, Nat.mul_assoc, Nat.add_assoc, Nat.mul_comm (n / 10) 10,
          Nat.div_add_mod]
      rw [List.append_assoc, List.singleton_append, ih (n / 10) (by omega),
        hone (Nat.mod_lt _ (by decide)), hvalue]
      simp only [List.length_append, List.length_singleton]
      generalize scanDigits _ rest = r
      obtain ⟨value, digits⟩ := r
      simp only [Prod.mk.injEq, true_and]
      omega

/-! ## Integers -/

/-- The text behind a number ends its digits. -/
def EndsDigits (rest : List UInt8) : Prop := ∀ c, rest.head? = some c → isDigit c = false

theorem scanDigits_of_ends (h : EndsDigits rest) (acc : ℕ) : scanDigits acc rest = (acc, 0) := by
  cases rest with
  | nil => rfl
  | cons c rest =>
    have hc := h c rfl
    rw [scanDigits, hc]
    rfl

theorem not_isSpace_of_isDigit (h : isDigit c = true) :
    isSpace c = false ∧ c ≠ minus ∧ c ≠ plus := by
  rw [isDigit, Bool.and_eq_true, decide_eq_true_eq, decide_eq_true_eq, UInt8.le_iff_toNat_le,
    UInt8.le_iff_toNat_le] at h
  have hlow : 48 ≤ c.toNat := h.1
  refine ⟨?_, ?_, ?_⟩
  · rw [isSpace, Bool.or_eq_false_iff, Bool.and_eq_false_iff]
    refine ⟨decide_eq_false ?_, Or.inr (decide_eq_false ?_)⟩
    · rintro rfl
      exact absurd hlow (by decide)
    · rw [UInt8.le_iff_toNat_le]
      exact show ¬ c.toNat ≤ 13 by omega
  · rintro rfl
    exact absurd hlow (by decide)
  · rintro rfl
    exact absurd hlow (by decide)

/-- **After white space the number is read**, up to the text that ends its digits. -/
theorem scanInt_decimal (hblanks : ∀ c ∈ blanks, isSpace c = true) (n : ℕ)
    (hrest : EndsDigits rest) :
    scanInt (blanks ++ (decimal n ++ rest)) =
      some ((n : ℤ), blanks.length + (decimal n).length) := by
  obtain ⟨c, digits, hdigits⟩ := List.exists_cons_of_ne_nil (decimal_ne_nil n)
  have hc : isDigit c = true := isDigit_decimal n (by rw [hdigits]; exact List.mem_cons_self ..)
  obtain ⟨hspace, hminus, hplus⟩ := not_isSpace_of_isDigit hc
  have htake : (blanks ++ (decimal n ++ rest)).takeWhile isSpace = blanks := by
    rw [List.takeWhile_append_of_pos hblanks, hdigits, List.cons_append,
      List.takeWhile_cons_of_neg (by rw [hspace]; exact Bool.false_ne_true), List.append_nil]
  have hhead : (decimal n ++ rest).head? = some c := by
    rw [hdigits]
    rfl
  have hsign : ¬ (some c = some minus ∨ some c = some plus) := by
    rintro (h | h)
    · exact hminus (Option.some.inj h)
    · exact hplus (Option.some.inj h)
  have hne : (decimal n).length ≠ 0 := by
    rw [hdigits, List.length_cons]
    exact Nat.succ_ne_zero _
  rw [scanInt]
  simp only [htake, List.drop_left, hhead, if_neg hsign, List.drop_zero, scanDigits_decimal,
    scanDigits_of_ends hrest]
  rw [if_neg (by omega), if_neg fun h => hminus (Option.some.inj h)]
  simp

/-- **The number at the front of the lines is read**, at the start or behind a newline. -/
theorem scanInt_lines (hblanks : blanks = [] ∨ blanks = [newline]) (n : ℕ) (l : List ℕ) :
    ∃ used, scanInt (blanks ++ lines (n :: l)) = some ((n : ℤ), used) ∧
      (blanks ++ lines (n :: l)).drop used = [newline] ++ lines l := by
  have hspace : ∀ c ∈ blanks, isSpace c = true := by
    obtain rfl | rfl := hblanks
    · simp
    · intro c hc
      rw [List.mem_singleton.1 hc]
      rfl
  have hends : EndsDigits ([newline] ++ lines l) := by
    intro c hc
    obtain rfl := Option.some.inj hc
    rfl
  have htext : lines (n :: l) = decimal n ++ ([newline] ++ lines l) := by
    rw [lines, List.flatMap_cons, List.append_assoc]
    rfl
  refine ⟨_, by rw [htext, scanInt_decimal hspace n hends], ?_⟩
  rw [htext, ← List.append_assoc, ← List.length_append, List.drop_left]

/-- At the end there is no number. -/
theorem scanInt_end (hblanks : blanks = [] ∨ blanks = [newline]) :
    scanInt (blanks ++ lines []) = none := by
  obtain rfl | rfl := hblanks <;> rfl

theorem lines_append (l l' : List ℕ) : lines (l ++ l') = lines l ++ lines l' := List.flatMap_append

/-- **There are as many newlines as numbers.** -/
theorem count_lines (l : List ℕ) : (lines l).count newline = l.length := by
  induction l with
  | nil => rfl
  | cons n l ih =>
    have hdecimal : (decimal n).count newline = 0 := by
      refine List.count_eq_zero.2 fun h => ?_
      exact absurd (isDigit_decimal n h) (by decide)
    rw [lines, List.flatMap_cons, ← lines, List.count_append, ih, List.count_append, hdecimal,
      List.length_cons, List.count_singleton_self]
    omega

/-- No byte of the lines is the one that a signed character takes for the end of the file. -/
theorem mem_lines_ne (hc : c ∈ lines l) : c ≠ 255 := by
  rintro rfl
  obtain ⟨n, -, h⟩ := List.mem_flatMap.1 hc
  obtain h | h := List.mem_append.1 h
  · exact absurd (isDigit_decimal n h) (by decide)
  · exact absurd (List.mem_singleton.1 h) (by decide)

/-! ## The integers at the front of a text -/

/-- Reading an integer uses bytes. -/
theorem length_drop_scanInt {bytes : List UInt8} {value : ℤ} {used : ℕ}
    (h : scanInt bytes = some (value, used)) : (bytes.drop used).length < bytes.length := by
  have hbytes : bytes ≠ [] := by
    rintro rfl
    cases h
  have hused : 0 < used := by
    rw [scanInt] at h
    simp only [Option.ite_none_left_eq_some] at h
    obtain ⟨hdigits, h⟩ := h
    obtain ⟨-, rfl⟩ := Prod.mk.inj (Option.some.inj h)
    exact Nat.add_pos_right _ (Nat.pos_of_ne_zero hdigits)
  rw [List.length_drop]
  exact Nat.sub_lt (List.length_pos_iff.2 hbytes) hused

/-- The integers at the front of a text, one after the other. -/
def integers (bytes : List UInt8) : List ℤ :=
  match _h : scanInt bytes with
  | none => []
  | some (value, used) => value :: integers (bytes.drop used)
termination_by bytes.length
decreasing_by exact length_drop_scanInt _h

theorem integers_of_none {bytes : List UInt8} (h : scanInt bytes = none) : integers bytes = [] := by
  rw [integers]
  split
  · rfl
  · rename_i hsome
    rw [h] at hsome
    cases hsome

theorem integers_of_some {bytes : List UInt8} {value : ℤ} {used : ℕ}
    (h : scanInt bytes = some (value, used)) :
    integers bytes = value :: integers (bytes.drop used) := by
  rw [integers]
  split
  · rename_i hnone
    rw [h] at hnone
    cases hnone
  · rename_i hsome
    rw [h] at hsome
    cases hsome
    rfl

/-- **The integers of the lines of some numbers are these numbers.** -/
theorem integers_lines (hblanks : blanks = [] ∨ blanks = [newline]) (l : List ℕ) :
    integers (blanks ++ lines l) = l.map Nat.cast := by
  induction l generalizing blanks with
  | nil => exact integers_of_none (scanInt_end hblanks)
  | cons n l ih =>
    obtain ⟨used, hscan, hdrop⟩ := scanInt_lines hblanks n l
    rw [integers_of_some hscan, hdrop, ih (.inr rfl), List.map_cons]

end SemOS.Decimal
