import SemOS.Shell.Parser

/-!
# The growth of the parser's buffer

`parser_feed` of `sems/4week/myshell/src/parser.c` computes the new capacity of its buffer in 32-bit
arithmetic. Doubling may wrap around, and so may the subtraction that checks whether it was enough.

* `le_grownCapacity_iff` says when the capacity is enough.
* `feed_appends_iff`: `parser_feed` appends its bytes exactly if this is so.
-/

namespace SemOS.Shell

variable {heap : ℕ → UInt8} {p : Parser} {str : List UInt8} {capacity size len : ℕ}

/-- Doubling is not called for, does not wrap around, or wraps around to at least the bytes in use:
then the check finds it too small. -/
def GrowthSound (capacity size len : ℕ) : Prop :=
  capacity - size < len → (capacity + 1) * 2 < 2 ^ 32 ∨ size ≤ (capacity + 1) * 2 % 2 ^ 32

instance : Decidable (GrowthSound capacity size len) :=
  inferInstanceAs (Decidable (_ → _))

/-- The capacity that `parser_feed` asks for holds the new bytes. -/
theorem le_grownCapacity_iff (hsize : size ≤ capacity) (hcap : capacity < 2 ^ 32)
    (hfull : capacity < size + len) (h : size + len < 2 ^ 32) :
    size + len ≤ grownCapacity capacity size len ↔
      (capacity + 1) * 2 < 2 ^ 32 ∨ size ≤ (capacity + 1) * 2 % 2 ^ 32 := by
  rw [grownCapacity]
  obtain hlt | hge := Nat.lt_or_ge ((capacity + 1) * 2) (2 ^ 32)
  · -- the doubled capacity is as it should be
    rw [Nat.mod_eq_of_lt hlt]
    refine iff_of_true ?_ (.inl hlt)
    split <;> omega
  · -- what it wraps around to is at most the old capacity
    have hwrap : (capacity + 1) * 2 % 2 ^ 32 ≤ capacity := by omega
    generalize (capacity + 1) * 2 % 2 ^ 32 = wrapped at hwrap
    rw [or_iff_right (Nat.not_lt.2 hge)]
    obtain hlow | hhigh := Nat.lt_or_ge wrapped size
    · rw [if_neg (by omega)]
      omega
    · rw [if_pos (by omega), Nat.mod_eq_of_lt h]
      exact iff_of_true (Nat.le_refl _) hhigh

/-- The capacity after a feed of `len` bytes. -/
def fedCapacity (capacity size len : ℕ) : ℕ :=
  if capacity - size < len then grownCapacity capacity size len else capacity

theorem length_roomFor (heap : ℕ → UInt8) (p : Parser) (len : ℕ) :
    (roomFor heap p len).length = fedCapacity p.buffer.length p.size len := by
  rw [roomFor, fedCapacity]
  split
  · exact length_reallocate ..
  · rfl

/-- The buffer has room for the new bytes. -/
theorem le_roomFor_iff (heap : ℕ → UInt8) (h : p.size + str.length < 2 ^ 32) :
    p.size + str.length ≤ (roomFor heap p str.length).length ↔
      GrowthSound p.buffer.length p.size str.length := by
  have hsize := p.size_le
  rw [roomFor, GrowthSound]
  split
  · rename_i hfull
    rw [length_reallocate, le_grownCapacity_iff hsize p.capacity_lt (by omega) h]
    exact (imp_iff_right hfull).symm
  · rename_i hfits
    exact iff_of_true (by omega) fun hfull => absurd hfull hfits

/-- Where there is room, the bytes in use are kept. -/
theorem take_roomFor (h : p.size + str.length ≤ (roomFor heap p str.length).length) :
    (roomFor heap p str.length).take p.size = p.data := by
  have hsize := p.size_le
  rw [roomFor] at h ⊢
  split
  · rename_i hfull
    rw [if_pos hfull, length_reallocate] at h
    rw [reallocate, List.take_append_of_le_length (by rw [List.length_take]; omega),
      List.take_take, Nat.min_eq_left (by omega), Parser.data]
  · rfl

/-- `parser_feed` where there is room. -/
theorem parserFeed_of_le (h : p.size + str.length ≤ (roomFor heap p str.length).length) :
    ∃ p', parserFeed heap p str = .ok p' ∧ p'.size = p.size + str.length ∧
      p'.data = p.data ++ str ∧
      p'.buffer.length = fedCapacity p.buffer.length p.size str.length := by
  refine ⟨_, dif_pos h, rfl, ?_, (length_copyTo h).trans (length_roomFor ..)⟩
  have hlen : (p.data ++ str).length = p.size + str.length := by
    rw [List.length_append, p.length_data]
  show (copyTo (roomFor heap p str.length) p.size str).take (p.size + str.length) = _
  rw [copyTo, take_roomFor h]
  exact List.take_left' hlen

/-- What `parser_feed` is to do: `memcpy` stays inside the buffer, the assertion holds, the bytes in
use are kept and the new ones follow them. -/
def Appends (heap : ℕ → UInt8) (p : Parser) (str : List UInt8) : Prop :=
  ∃ p', parserFeed heap p str = .ok p' ∧ p.size + str.length ≤ p'.buffer.length ∧
    p'.size = p.size + str.length ∧ p'.data = p.data ++ str

/-- Without room `memcpy` leaves the buffer. -/
theorem appends_iff_le_roomFor : Appends heap p str ↔
    p.size + str.length ≤ (roomFor heap p str.length).length := by
  constructor
  · rintro ⟨p', hp, -⟩
    by_contra hno
    rw [parserFeed, dif_neg hno] at hp
    cases hp
  · intro hroom
    obtain ⟨p', hp, hsize, hdata, -⟩ := parserFeed_of_le hroom
    exact ⟨p', hp, hsize ▸ p'.size_le, hsize, hdata⟩

/-- **`parser_feed` appends its bytes exactly if doubling does not wrap around below the bytes in
use**, as long as their number fits 32 bits. -/
theorem feed_appends_iff (heap : ℕ → UInt8) (p : Parser) (str : List UInt8)
    (h : p.size + str.length < 2 ^ 32) :
    Appends heap p str ↔ GrowthSound p.buffer.length p.size str.length := by
  rw [← le_roomFor_iff heap h]
  exact appends_iff_le_roomFor

/-- A first byte. -/
theorem feed_appends_first : parserNew.size + [97].length < 2 ^ 32 ∧
    (Appends (fun _ => 0) parserNew [97] ↔ GrowthSound 0 0 1) :=
  ⟨by decide, feed_appends_iff (fun _ => 0) parserNew [97] (by decide)⟩

/-- A buffer of `2 ^ 31` bytes, all in use. -/
def halfFull : Parser where
  buffer := List.replicate (2 ^ 31) 0
  size := 2 ^ 31
  size_le := Nat.le_of_eq List.length_replicate.symm
  capacity_lt := by rw [List.length_replicate]; decide

theorem length_halfFull : halfFull.buffer.length = 2 ^ 31 := List.length_replicate

theorem size_halfFull : halfFull.size = 2 ^ 31 := rfl

/-- One more byte shrinks it to two. -/
theorem doubling_wraps : ¬ ∀ (heap : ℕ → UInt8) (p : Parser) (str : List UInt8),
    p.size + str.length < 2 ^ 32 → Appends heap p str := by
  intro h
  have hsize : halfFull.size + [(97 : UInt8)].length < 2 ^ 32 := by
    rw [size_halfFull]
    decide
  have hroom := appends_iff_le_roomFor.1 (h (fun _ => 0) halfFull [97] hsize)
  rw [le_roomFor_iff _ hsize, length_halfFull, size_halfFull] at hroom
  exact absurd hroom (by decide)

end SemOS.Shell
