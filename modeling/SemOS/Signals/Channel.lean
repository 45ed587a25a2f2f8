import Mathlib.Data.Int.Notation
import Mathlib.Data.Nat.Bitwise
import Mathlib.Tactic.Ring
import SemOS.Foundations.Machine

/-!
# A channel of signals

`sems/signals/main.c`: a parent sends a buffer to its child bit by bit, as `SIGUSR1` for 0 and
`SIGUSR2` for 1, and waits after each for a `SIGUSR1` of the child. Both signals are blocked in
both processes except inside `sigsuspend`, and of each at most one instance is pending.

* `sendBit`, `sendByte` and `sendMessage` are the control points of the parent, with the shifted
  byte in `int` arithmetic; the child installs its handlers, and then receives bytes until one is
  zero.
* A signal raised while it is pending is lost: `raised` is the signal that a step raises.
* `machine` interleaves the two processes; `Input` is what `main` can hand to `send_message`.
-/

namespace SemOS.Signals

open Function

/-- The two signals that the processes use. -/
inductive Signal
  | usr1
  | usr2
  deriving DecidableEq

/-- `SIG_0`. -/
def sig0 : Signal := .usr1

/-- `SIG_1`. -/
def sig1 : Signal := .usr2

/-- `SIG_GOT`. -/
def sigGot : Signal := sig0

/-- What a signal does to the process it is delivered to. -/
inductive Disposition
  | default
  | senderHandler
  | recieverHandler
  deriving DecidableEq

/-- Where the parent is. -/
inductive ParentControl
  /-- Before the `kill` for bit `k` of byte `i`, with what is left of the byte. -/
  | sendBit (i k : ℕ) (byte : BitVec 32)
  /-- In the `sigsuspend` after it. -/
  | suspended (i k : ℕ) (byte : BitVec 32)
  /-- In `wait`, after the message. -/
  | waiting
  | exited
  deriving DecidableEq

/-- Where the child is. -/
inductive ChildControl
  /-- Before the first `sigaction`. -/
  | install0
  /-- Before the second. -/
  | install1
  /-- In the `sigsuspend` for bit `k`, with what it has of the byte. -/
  | suspended (k : ℕ) (byte : ℤ)
  /-- After it, before the `kill` that acknowledges. -/
  | acknowledge (k : ℕ) (byte : ℤ)
  | exited
  deriving DecidableEq

/-- The two processes, their pending signals, the child's dispositions and its `recieved_bit`, and
what it has printed. -/
structure State where
  parent : ParentControl
  child : ChildControl
  parentPending : Signal → Bool
  childPending : Signal → Bool
  disposition : Signal → Disposition
  recievedBit : ℤ
  printed : List UInt8

/-- A byte of the message as an `int`; `char` is signed. -/
def charToInt (b : UInt8) : BitVec 32 := b.toBitVec.signExtend 32

/-- The loop head of `send_message` at byte `i`. -/
def sendMessage (buffer : List UInt8) (i : ℕ) : ParentControl :=
  if i < buffer.length then .sendBit i 0 (charToInt (buffer.getD i 0)) else .waiting

/-- The loop head of `send_byte` after bit `k`. -/
def sendByte (buffer : List UInt8) (i k : ℕ) (byte : BitVec 32) : ParentControl :=
  if k + 1 < 8 then .sendBit i (k + 1) (byte.sshiftRight 1) else sendMessage buffer (i + 1)

/-- The signal of `send_bit(byte & 1, pid)`. -/
def bitSignal (byte : BitVec 32) : Signal := if byte &&& 1 = 0 then sig0 else sig1

/-- What `reciever_handler` stores. -/
def handledBit (sign : Signal) (recievedBit : ℤ) : ℤ :=
  if sign = sig0 then 0 else if sign = sig1 then 1 else recievedBit

/-- The delivery of `sign` in the child's `sigsuspend`. -/
def deliver (sign : Signal) (k : ℕ) (byte : ℤ) (s : State) : State :=
  let s := { s with childPending := update s.childPending sign false }
  match s.disposition sign with
  | .recieverHandler =>
    { s with recievedBit := handledBit sign s.recievedBit, child := .acknowledge k byte }
  | .senderHandler => { s with child := .acknowledge k byte }
  | .default => { s with child := .exited }

/-- The loops of `recieve_byte` and `child` after a bit is acknowledged. -/
def recieveByte (k : ℕ) (byte : ℤ) (s : State) : State :=
  if k + 1 < 8 then { s with child := .suspended (k + 1) byte }
  else if byte = 0 then { s with child := .exited, printed := s.printed ++ [10] }
  else { s with child := .suspended 0 0, printed := s.printed ++ [UInt8.ofInt byte] }

/-- Who moves; a delivery names the signal delivered. -/
inductive Label
  | parent
  | child
  | deliver (sign : Signal)
  deriving DecidableEq

/-- One piece of a process; `none` when it is suspended with nothing to be delivered, waits for the
child to exit, or has exited. -/
def step (buffer : List UInt8) : Label → State → Option State
  | .parent, s =>
    match s.parent with
    | .sendBit i k byte =>
      some { s with
        parent := .suspended i k byte
        childPending := update s.childPending (bitSignal byte) true }
    | .suspended i k byte =>
      if s.parentPending sigGot then
        some { s with
          parent := sendByte buffer i k byte
          parentPending := update s.parentPending sigGot false }
      else none
    | .waiting => if s.child = .exited then some { s with parent := .exited } else none
    | .exited => none
  | .child, s =>
    match s.child with
    | .install0 =>
      some { s with
        child := .install1
        disposition := update s.disposition sig0 .recieverHandler }
    | .install1 =>
      some { s with
        child := .suspended 0 0
        disposition := update s.disposition sig1 .recieverHandler }
    | .acknowledge k byte =>
      some (recieveByte k (byte + s.recievedBit * 2 ^ k)
        { s with parentPending := update s.parentPending sigGot true })
    | .suspended _ _ | .exited => none
  | .deliver sign, s =>
    match s.child with
    | .suspended k byte => if s.childPending sign then some (deliver sign k byte s) else none
    | _ => none

/-- The signal that a step raises, and whether it is for the child. -/
def raised : Label → State → Option (Bool × Signal)
  | .parent, s =>
    match s.parent with
    | .sendBit _ _ byte => some (true, bitSignal byte)
    | _ => none
  | .child, s =>
    match s.child with
    | .acknowledge _ _ => some (false, sigGot)
    | _ => none
  | .deliver _, _ => none

/-- Whether an instance of a signal is pending, for the child or for the parent. -/
def State.pending (s : State) : Bool × Signal → Bool
  | (true, sign) => s.childPending sign
  | (false, sign) => s.parentPending sign

theorem pending_update_child {s t : State} {sign : Signal} {b : Bool}
    (hp : t.parentPending = s.parentPending)
    (hc : t.childPending = update s.childPending sign b) :
    t.pending = update s.pending (true, sign) b := by
  funext ⟨c, sign'⟩
  cases c <;> simp [State.pending, hp, hc, update_apply]

theorem pending_update_parent {s t : State} {sign : Signal} {b : Bool}
    (hp : t.parentPending = update s.parentPending sign b)
    (hc : t.childPending = s.childPending) :
    t.pending = update s.pending (false, sign) b := by
  funext ⟨c, sign'⟩
  cases c <;> simp [State.pending, hp, hc, update_apply]

/-- After the `fork`: the child has the dispositions of the parent, and nothing is pending. -/
def initial (buffer : List UInt8) : State where
  parent := sendMessage buffer 0
  child := .install0
  parentPending := fun _ => false
  childPending := fun _ => false
  disposition := update (fun _ => .default) sigGot .senderHandler
  recievedBit := -1
  printed := []

/-- The interleaving of the two processes. -/
def machine (buffer : List UInt8) : Machine Label State where
  init s := s = initial buffer
  act := step buffer

/-- What `main` sends: its first argument, a C string, or a file of `st_size` bytes of which
`fread` has read some. -/
inductive Input
  | arg (msg : List UInt8) (hmsg : (0 : UInt8) ∉ msg)
  | file (stSize : ℕ) (bytesRead : List UInt8) (hread : bytesRead.length ≤ stSize)

/-- The bytes before the terminator: what `calloc` zeroed stays so behind a short read. -/
def Input.bytes : Input → List UInt8
  | .arg msg _ => msg
  | .file stSize bytesRead _ => bytesRead ++ List.replicate (stSize - bytesRead.length) 0

/-- The buffer handed to `send_message`. -/
def Input.buffer (inp : Input) : List UInt8 := inp.bytes ++ [0]

/-! ## Bits -/

/-- Bit `k` of a byte. -/
def nthBit (b : UInt8) (k : ℕ) : Bool := b.toNat.testBit k

/-- What is left of a byte after `k` bits. -/
def shifted (b : UInt8) (k : ℕ) : BitVec 32 := (charToInt b).sshiftRight k

@[simp] theorem shifted_zero (b : UInt8) : shifted b 0 = charToInt b := BitVec.sshiftRight_zero

theorem sshiftRight_shifted (b : UInt8) (k : ℕ) :
    (shifted b k).sshiftRight 1 = shifted b (k + 1) :=
  (BitVec.sshiftRight_add).symm

/-- The low bit of a shifted byte, sign extended or not. -/
theorem getLsbD_shifted (b : UInt8) {k : ℕ} (hk : k < 8) :
    (shifted b k).getLsbD 0 = nthBit b k := by
  rw [shifted, BitVec.getLsbD_sshiftRight, charToInt, BitVec.getLsbD_signExtend]
  have h32 : k < 32 := by omega
  simp only [hk, h32, nthBit, decide_true, Nat.add_zero]
  rfl

/-- The signal for a bit. -/
def signalOf (b : Bool) : Signal := if b then sig1 else sig0

theorem bitSignal_shifted (b : UInt8) {k : ℕ} (hk : k < 8) :
    bitSignal (shifted b k) = signalOf (nthBit b k) := by
  have hlow : ∀ x : BitVec 32, x &&& 1 = 0 ↔ x.getLsbD 0 = false := by
    intro x
    rw [BitVec.getLsbD, ← BitVec.toNat_inj, BitVec.toNat_and]
    simp [Nat.testBit_zero]
  rw [← getLsbD_shifted b hk, bitSignal]
  cases h : (shifted b k).getLsbD 0 with
  | false =>
    rw [if_pos ((hlow _).2 h)]
    rfl
  | true =>
    rw [if_neg fun h' => by rw [(hlow _).1 h'] at h; cases h]
    rfl

theorem handledBit_signalOf (b : Bool) (x : ℤ) : handledBit (signalOf b) x = b.toNat := by
  cases b <;> rfl

/-- The child's sum of the first `k` bits. -/
def partialByte (b : UInt8) (k : ℕ) : ℤ := (b.toNat % 2 ^ k : ℕ)

@[simp] theorem partialByte_zero (b : UInt8) : partialByte b 0 = 0 := by
  simp [partialByte, Nat.mod_one]

/-- One more bit. -/
theorem partialByte_succ (b : UInt8) (k : ℕ) :
    partialByte b k + (nthBit b k).toNat * 2 ^ k = partialByte b (k + 1) := by
  rw [partialByte, partialByte, Nat.mod_pow_succ, nthBit, Nat.toNat_testBit]
  push_cast
  ring

theorem partialByte_eight (b : UInt8) : partialByte b 8 = b.toNat := by
  rw [partialByte, Nat.mod_eq_of_lt (UInt8.toNat_lt b)]

/-- What `putc` makes of a whole byte. -/
theorem ofInt_partialByte (b : UInt8) : UInt8.ofInt (partialByte b 8) = b := by
  have : ((b.toNat : ℤ) % 2 ^ 8).toNat = b.toNat := by
    have := UInt8.toNat_lt b
    omega
  rw [partialByte_eight, UInt8.ofInt, this, UInt8.ofNat_toNat]

end SemOS.Signals
