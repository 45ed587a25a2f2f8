import Mathlib.Data.Int.Notation
import Mathlib.Tactic.SplitIfs
import SemOS.Foundations.Runs

/-!
# Counting one piece of a stream

`count` of `sems/wc/wc.c`: one `read`, and the counters for the bytes that it returns. `in_word` is
local to a call, so that every call counts the words of its piece alone (`count_eq`).
-/

namespace SemOS.Wc

/-- `BUFFER_SIZE`. -/
def bufferSize : ℕ := 4

/-- `wc_ctx_t`. Its counters are of type `size_t`; `counters_le` says that they do not wrap around
for a stream of less than `2 ^ 64` bytes. -/
@[ext] structure WcCtx where
  bytes : ℕ
  words : ℕ
  lines : ℕ
  deriving DecidableEq

/-- `isspace` in the C locale. -/
def isspace (byte : UInt8) : Bool := byte == 32 || (9 ≤ byte && byte ≤ 13)

/-- One byte in the loop of `count`, with `in_word` and the counters. -/
def countByte (s : Bool × WcCtx) (byte : UInt8) : Bool × WcCtx :=
  let info := if byte = 10 then { s.2 with lines := s.2.lines + 1 } else s.2
  if !isspace byte then
    if !s.1 then (true, { info with words := info.words + 1 }) else (s.1, info)
  else (false, info)

/-- `count`, given the bytes that `read` returns, or `none` if it fails: the result and the
counters. -/
def count (answer : Option (List UInt8)) (info : WcCtx) : ℤ × WcCtx :=
  match answer with
  | none => (-1, info)
  | some buffer =>
    if buffer.length = 0 then (0, info)
    else
      let info := { info with bytes := info.bytes + buffer.length }
      (buffer.length, (buffer.foldl countByte (false, info)).2)

/-! ## What is to be counted -/

/-- The bytes of words. -/
def nonspace (byte : UInt8) : Bool := !isspace byte

/-- The bytes of a stream, its maximal runs of non-space bytes, and its newlines. -/
def totals (stream : List UInt8) : WcCtx := ⟨stream.length, runs nonspace stream, stream.count 10⟩

/-- The counters of `a` and `b` together. -/
def WcCtx.plus (a b : WcCtx) : WcCtx := ⟨a.bytes + b.bytes, a.words + b.words, a.lines + b.lines⟩

/-- A byte counts as a word when it begins one. -/
theorem countByte_eq (inWord : Bool) (info : WcCtx) (byte : UInt8) :
    countByte (inWord, info) byte = (nonspace byte,
      ⟨info.bytes, info.words + (nonspace byte && !inWord).toNat,
        info.lines + if byte = 10 then 1 else 0⟩) := by
  unfold countByte nonspace
  cases isspace byte <;> cases inWord <;> by_cases h : byte = 10 <;> simp [h]

/-- The loop counts the words of a piece, but not the first one again if `in_word` says that it goes
on. -/
theorem foldl_countByte (buffer : List UInt8) (inWord : Bool) (info : WcCtx) :
    let info' := (buffer.foldl countByte (inWord, info)).2
    info'.bytes = info.bytes ∧
      info'.words + (inWord && buffer.head?.any nonspace).toNat =
        info.words + runs nonspace buffer ∧
      info'.lines = info.lines + buffer.count 10 := by
  induction buffer generalizing inWord info with
  | nil => simp
  | cons byte buffer ih =>
    rw [List.foldl_cons, countByte_eq, runs_cons, List.head?_cons, Option.any_some,
      List.count_cons]
    obtain ⟨hbytes, hwords, hlines⟩ := ih (nonspace byte)
      ⟨info.bytes, info.words + (nonspace byte && !inWord).toNat,
        info.lines + if byte = 10 then 1 else 0⟩
    refine ⟨hbytes, ?_, ?_⟩
    · revert hwords
      cases nonspace byte <;> cases inWord <;> cases buffer.head?.any nonspace <;> simp <;> omega
    · simp only [hlines, beq_iff_eq]
      omega

/-- A call counts its piece alone. -/
theorem count_eq (buffer : List UInt8) (info : WcCtx) :
    (count (some buffer) info).2 = info.plus (totals buffer) := by
  by_cases h : buffer.length = 0
  · obtain rfl := List.eq_nil_of_length_eq_zero h
    rfl
  · obtain ⟨hbytes, hwords, hlines⟩ :=
      foldl_countByte buffer false { info with bytes := info.bytes + buffer.length }
    rw [Bool.false_and, Bool.toNat_false, Nat.add_zero] at hwords
    rw [count, if_neg h]
    exact WcCtx.ext hbytes hwords hlines

/-- A call answers 0 when nothing is read. -/
theorem count_nonpos_iff (buffer : List UInt8) (info : WcCtx) :
    (count (some buffer) info).1 ≤ 0 ↔ buffer = [] := by
  by_cases h : buffer.length = 0
  · obtain rfl := List.eq_nil_of_length_eq_zero h
    exact ⟨fun _ => rfl, fun _ => Int.le_refl 0⟩
  · rw [count, if_neg h]
    refine ⟨fun hle => ?_, fun hnil => absurd (congrArg List.length hnil) h⟩
    have hlen : (buffer.length : ℤ) ≤ 0 := hle
    omega

end SemOS.Wc
