import Mathlib.Algebra.Group.Nat.Defs
import Mathlib.Data.List.DropRight

/-!
# Buffered output

What a process writes to a stream goes into a buffer first. The stream of a terminal is written out
up to the last newline; any other stream is kept until it is flushed or its process exits, as long
as the buffer does not fill up. A forked process starts with a copy of the buffer.

* `put`: what a call of `printf` writes out and what it keeps.
* `put_lines`: on a terminal nothing is left of a text of whole lines.
* `Stamped h m l out`: several processes have written the characters `l`, and `m` of them a copy of
  a buffer `h` before their first one. Whatever the order, no character is lost
  (`Stamped.sublist`).
-/

namespace SemOS.Stdio

/-- The byte that ends a line. -/
abbrev newline : UInt8 := 10

/-- The bytes of a text in ASCII. -/
def ascii (text : String) : List UInt8 := text.toList.map fun c => c.toNat.toUInt8

/-- Write `text` to a stream that holds `buffer`: what is written out, and what is kept. -/
def put (terminal : Bool) (buffer text : List UInt8) : List UInt8 × List UInt8 :=
  if terminal then
    ((buffer ++ text).rdropWhile (· ≠ newline), (buffer ++ text).rtakeWhile (· ≠ newline))
  else ([], buffer ++ text)

theorem put_file (buffer text : List UInt8) : put false buffer text = ([], buffer ++ text) := rfl

/-- On a terminal a text that ends in a newline is written out. -/
theorem put_lines (buffer text : List UInt8) :
    put true buffer (text ++ [newline]) = (buffer ++ (text ++ [newline]), []) := by
  rw [put, if_pos rfl, ← List.append_assoc, List.rdropWhile_concat_neg _ _ _ (by simp),
    List.rtakeWhile_concat_neg _ _ _ (by simp)]

/-! ## Copies of a buffer -/

/-- `out` is what is written out of the characters `l`, with `m` copies of `h` among them. -/
inductive Stamped (h : List UInt8) : ℕ → List UInt8 → List UInt8 → Prop
  | nil : Stamped h 0 [] []
  | char {m : ℕ} {l out : List UInt8} (hs : Stamped h m l out) (c : UInt8) :
    Stamped h m (l ++ [c]) (out ++ [c])
  | stamp {m : ℕ} {l out : List UInt8} (hs : Stamped h m l out) : Stamped h (m + 1) l (out ++ h)

variable {h l out : List UInt8} {m : ℕ}

theorem Stamped.sublist (hs : Stamped h m l out) : l.Sublist out := by
  induction hs with
  | nil => exact List.Sublist.refl _
  | char _ c ih => exact ih.append (List.Sublist.refl _)
  | stamp _ ih => exact ih.trans (List.sublist_append_left _ _)

theorem Stamped.length_eq (hs : Stamped h m l out) : out.length = l.length + m * h.length := by
  induction hs with
  | nil => simp
  | char _ c ih =>
    simp only [List.length_append, List.length_singleton, ih]
    omega
  | stamp _ ih =>
    rw [List.length_append, ih, Nat.succ_mul]
    omega

end SemOS.Stdio
