import SemOS.Foundations.Ring

/-!
# The shared buffer of pcat

`buffer_t` and the functions on it, the same text in both versions (`sems/pcat/on_semaphors/pcat.c`
and `sems/pcat/on_monitors/pcat.c`). The positions `start` and `end` are `int`, the size and the
capacity `unsigned long`, so every shift and every difference passes through conversions.

* `updBufferSize` recomputes the size from the two positions.
* `Buffer.store` keeps what is stored outside the storage, `Buffer.load` reads it back. Where
  `buffer_t` itself lies behind the storage, `Buffer.overwrite` is what such a store does to it.
* `Buffer.At`: the positions are the cells of two counters of bytes. `At.shiftStartByK` and
  `At.shiftEndByK` keep this while the new cell is representable as an `int`.
-/

namespace SemOS.Pcat

/-- Conversion to `int`. -/
def toInt (x : ℤ) : ℤ := (BitVec.ofInt 32 x).toInt

/-- Conversion to `unsigned long`. -/
def toULong (x : ℤ) : ℕ := (BitVec.ofInt 64 x).toNat

/-- Conversion to `unsigned int`, the four bytes of an `int`. -/
def toUInt (x : ℤ) : ℕ := (BitVec.ofInt 32 x).toNat

/-- `buffer_t`, without the capacity, which is constant, and the bytes that have been stored from
`storage` on, in it and outside it. -/
structure Buffer where
  start : ℤ
  end_ : ℤ
  size : ℕ
  storage : ℕ → UInt8
  beyond : ℤ → Option UInt8

/-- The buffer after its initialisation, in zeroed memory. -/
def Buffer.empty : Buffer := ⟨0, 0, 0, fun _ => 0, fun _ => none⟩

/-- `upd_buffer_size`. -/
def updBufferSize (capacity : ℕ) (b : Buffer) : Buffer :=
  { b with
    size :=
      if b.start ≤ b.end_ then toULong (toInt (b.end_ - b.start))
      else toULong (capacity - b.start + b.end_) }

/-- `shift_start_by_k`. -/
def shiftStartByK (capacity n : ℕ) (b : Buffer) : Buffer :=
  { b with start := toInt (toULong (b.start + n) % capacity : ℕ) }

/-- `shift_end_by_k`. -/
def shiftEndByK (capacity n : ℕ) (b : Buffer) : Buffer :=
  { b with end_ := toInt (toULong (b.end_ + n) % capacity : ℕ) }

/-- The fields `start`, `end` and `size` as they lie in memory, sixteen bytes as one number. -/
def Buffer.fields (b : Buffer) : ℕ :=
  toUInt b.start + 2 ^ 32 * toUInt b.end_ + 2 ^ 64 * b.size

/-- The buffer with the fields that these sixteen bytes are. -/
def Buffer.withFields (w : ℕ) (b : Buffer) : Buffer :=
  { b with
    start := toInt (w % 2 ^ 32 : ℕ)
    end_ := toInt (w / 2 ^ 32 % 2 ^ 32 : ℕ)
    size := w / 2 ^ 64 % 2 ^ 64 }

/-- `buffer->storage[i]`. Outside the storage this is a byte of `buffer_t`, which lies at `control`
if at all, or what has been stored there, or what memory held before (`outside`). -/
def Buffer.load (capacity : ℕ) (outside : ℤ → UInt8) (control : Option ℤ) (b : Buffer) (i : ℤ) :
    UInt8 :=
  if 0 ≤ i ∧ i < capacity then b.storage i.toNat
  else
    match control with
    | none => (b.beyond i).getD (outside i)
    | some q =>
      if q ≤ i ∧ i < q + 16 then UInt8.ofNat (b.fields / 256 ^ (i - q).toNat)
      else (b.beyond i).getD (outside i)

/-- The `c` bytes from `byte 0` on are stored from `buffer->storage[i]` on. -/
def Buffer.store (i : ℤ) (c : ℕ) (byte : ℕ → UInt8) (b : Buffer) : Buffer :=
  { b with
    storage p := if i ≤ p ∧ p < i + c then byte (p - i).toNat else b.storage p
    beyond p := if i ≤ p ∧ p < i + c then some (byte (p - i).toNat) else b.beyond p }

/-- What this store does to the `buffer_t` at `q`: its bytes replace those of the fields. `none` if
the capacity or the pointer behind them is overwritten, too; such a run is not followed. -/
def Buffer.overwrite (q i : ℤ) (c : ℕ) (byte : ℕ → UInt8) (b : Buffer) : Option Buffer :=
  if i + c ≤ q ∨ q + 32 ≤ i then some b
  else if i + c ≤ q + 16 then
    some (b.withFields ((List.range 16).foldr (fun (j w : ℕ) =>
      (if i ≤ q + j ∧ q + j < i + c then (byte (q + j - i).toNat).toNat
        else b.fields / 256 ^ j % 256) + 256 * w) 0))
  else none

/-- A store beside `buffer_t` leaves it. -/
theorem Buffer.overwrite_apart {q i : ℤ} {c : ℕ} (h : i + c ≤ q ∨ q + 32 ≤ i) (byte : ℕ → UInt8)
    (b : Buffer) : b.overwrite q i c byte = some b := if_pos h

@[simp] theorem shiftEndByK_start (C n : ℕ) (b : Buffer) :
    (shiftEndByK C n b).start = b.start := rfl

@[simp] theorem shiftStartByK_end (C n : ℕ) (b : Buffer) :
    (shiftStartByK C n b).end_ = b.end_ := rfl

/-! ## Small positions -/

theorem toInt_of_lt {x : ℕ} (h : x < 2 ^ 31) : toInt x = x := by
  unfold toInt
  rw [BitVec.toInt_ofInt]
  exact Int.bmod_eq_of_le (by omega) (by omega)

theorem toULong_of_lt {x : ℕ} (h : x < 2 ^ 64) : toULong x = x := by
  unfold toULong
  rw [BitVec.toNat_ofInt]
  omega

/-- `start` and `end` are the cells of the byte counts `x` and `y`, the size the distance between
the cells. -/
structure Buffer.At (capacity : ℕ) (b : Buffer) (x y : ℕ) : Prop where
  start : b.start = (x % capacity : ℕ)
  end_ : b.end_ = (y % capacity : ℕ)
  size : b.size = (y - x) % capacity

variable {C n x y : ℕ} {b : Buffer}

theorem Buffer.At.empty (C : ℕ) : Buffer.empty.At C 0 0 :=
  ⟨by simp [Buffer.empty], by simp [Buffer.empty], by simp [Buffer.empty]⟩

/-- One position is shifted by `n`: the sum does not overflow, and the new cell is an `int`. -/
theorem shift_eq (hx : x % C < 2 ^ 31) (hn : n < 2 ^ 63) (hfit : (x + n) % C < 2 ^ 31) :
    toInt (toULong ((x % C : ℕ) + (n : ℤ)) % C : ℕ) = ((x + n) % C : ℕ) := by
  have hsum : ((x % C : ℕ) + (n : ℤ)) = ((x % C + n : ℕ) : ℤ) := by push_cast; rfl
  rw [hsum, toULong_of_lt (by omega), Nat.mod_add_mod, toInt_of_lt hfit]

/-- `upd_buffer_size` computes the distance of the cells. -/
theorem updBufferSize_at (hC : 0 < C) (hlt : C < 2 ^ 64) (hs : b.start = (x % C : ℕ))
    (he : b.end_ = (y % C : ℕ)) (hxy : x ≤ y) (hx : x % C < 2 ^ 31) (hy : y % C < 2 ^ 31) :
    (updBufferSize C b).At C x y := by
  refine ⟨hs, he, ?_⟩
  rw [← Ring.ahead_mod hC hxy]
  have hxC := Nat.mod_lt x hC
  have hyC := Nat.mod_lt y hC
  simp only [updBufferSize, hs, he, Ring.ahead, Int.ofNat_le]
  split_ifs with h
  · rw [← Int.ofNat_sub h, toInt_of_lt (by omega), toULong_of_lt (by omega)]
  · have hsub : (C : ℤ) - (x % C : ℕ) + (y % C : ℕ) = ((C - x % C + y % C : ℕ) : ℤ) := by omega
    rw [hsub, toULong_of_lt (by omega)]

/-- The lock section of `complete_write`. -/
theorem Buffer.At.publish (h : b.At C x y) (hC : 0 < C) (hlt : C < 2 ^ 64) (hxy : x ≤ y)
    (hn : n < 2 ^ 63) (hx : x % C < 2 ^ 31) (hy : y % C < 2 ^ 31) (hfit : (y + n) % C < 2 ^ 31) :
    (updBufferSize C (shiftEndByK C n b)).At C x (y + n) := by
  have hend : (shiftEndByK C n b).end_ = ((y + n) % C : ℕ) := by
    simp only [shiftEndByK, h.end_]
    exact shift_eq hy hn hfit
  exact updBufferSize_at hC hlt ((shiftEndByK_start C n b).trans h.start) hend (by omega) hx hfit

/-- The lock section of `complete_read`. -/
theorem Buffer.At.retire (h : b.At C x y) (hC : 0 < C) (hlt : C < 2 ^ 64) (hxy : x + n ≤ y)
    (hn : n < 2 ^ 63) (hx : x % C < 2 ^ 31) (hy : y % C < 2 ^ 31) (hfit : (x + n) % C < 2 ^ 31) :
    (updBufferSize C (shiftStartByK C n b)).At C (x + n) y := by
  have hstart : (shiftStartByK C n b).start = ((x + n) % C : ℕ) := by
    simp only [shiftStartByK, h.start]
    exact shift_eq hx hn hfit
  exact updBufferSize_at hC hlt hstart ((shiftStartByK_end C n b).trans h.end_) hxy hfit hy

/-- `capacity - size` of `get_write`. -/
theorem Buffer.At.room (h : b.At C x y) (hC : 0 < C) (hlt : C < 2 ^ 64) :
    toULong (C - b.size) = C - (y - x) % C := by
  have hmod := Nat.mod_lt (y - x) hC
  rw [h.size, ← Int.ofNat_sub hmod.le, toULong_of_lt (by omega)]

end SemOS.Pcat
