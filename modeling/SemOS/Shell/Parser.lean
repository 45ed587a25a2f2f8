import Mathlib.Algebra.Group.Nat.Defs
import SemOS.Shell.CommandLine

/-!
# The parser of the shell

The parser keeps the bytes that were fed and not yet consumed at the front of a buffer, whose bytes
behind them are left over from earlier lines or were never written. A position in the buffer is the
memory from it on, and how many buffered bytes are left. Positions are pointers; what `parse_token`
returns and what `parser_consume` is given is converted to `uint32_t`. Reading behind the buffer and
a failed assertion end the run (`Fault`).

`parserFeed` appends bytes, `parserPopNext` takes the next command line off the buffer.
-/

namespace SemOS.Shell

/-- What ends a run of the parser. -/
inductive Fault
  | assertionFailed
  | outOfBounds
  deriving DecidableEq

/-- `enum parser_error`. -/
inductive ParserError
  | none
  | pipeWithNoLeftArg
  | pipeWithLeftArgNotACommand
  | tooLateArguments
  | endsNotWithACommand
  deriving DecidableEq

/-- `struct token`: its type, with its bytes if it is a string. -/
inductive Token
  | none
  | str (data : List UInt8)
  | newLine
  | pipe
  deriving DecidableEq

/-- `struct parser`: the buffer with all its `capacity` bytes, and how many of them are in use. -/
structure Parser where
  buffer : List UInt8
  size : ℕ
  size_le : size ≤ buffer.length
  capacity_lt : buffer.length < 2 ^ 32

/-- Conversion to `uint32_t`. -/
def uint32 (n : ℕ) : ℕ := n % 2 ^ 32

theorem uint32_of_lt {n : ℕ} (h : n < 2 ^ 32) : uint32 n = n := Nat.mod_eq_of_lt h

theorem uint32_of_le {n : ℕ} (h : n ≤ 2 ^ 32) : uint32 n = 0 ∨ uint32 n = n := by
  obtain h | rfl := Nat.lt_or_eq_of_le h
  · exact Or.inr (uint32_of_lt h)
  · exact Or.inl rfl

/-- The bytes that were fed and not yet consumed. -/
def Parser.data (p : Parser) : List UInt8 := p.buffer.take p.size

theorem Parser.length_data (p : Parser) : p.data.length = p.size := by
  have := p.size_le
  rw [Parser.data, List.length_take]
  omega

theorem Parser.size_lt (p : Parser) : p.size < 2 ^ 32 := Nat.lt_of_le_of_lt p.size_le p.capacity_lt

/-- The bytes with a meaning: space, line feed, carriage return and the vertical bar. -/
abbrev space : UInt8 := 32
abbrev lineFeed : UInt8 := 10
abbrev carriageReturn : UInt8 := 13
abbrev bar : UInt8 := 124

/-- `parser_new`. -/
def parserNew : Parser := ⟨[], 0, zeroed_le, by decide⟩

/-! ## Feeding and consuming -/

/-- The capacity that `parser_feed` asks for when `len` bytes do not fit, in 32-bit arithmetic. -/
def grownCapacity (capacity size len : ℕ) : ℕ :=
  let newCapacity := (capacity + 1) * 2 % 2 ^ 32
  if (newCapacity + 2 ^ 32 - size) % 2 ^ 32 < len then (size + len) % 2 ^ 32 else newCapacity

theorem grownCapacity_lt (capacity size len : ℕ) : grownCapacity capacity size len < 2 ^ 32 := by
  rw [grownCapacity]
  split <;> exact Nat.mod_lt _ (by decide)

/-- `realloc` to `n` bytes: those that are new are what the heap holds there. -/
def reallocate (heap : ℕ → UInt8) (memory : List UInt8) (n : ℕ) : List UInt8 :=
  memory.take n ++ (List.range' memory.length (n - memory.length)).map heap

theorem length_reallocate (heap : ℕ → UInt8) (memory : List UInt8) (n : ℕ) :
    (reallocate heap memory n).length = n := by
  rw [reallocate, List.length_append, List.length_take, List.length_map, List.length_range']
  omega

/-- The buffer of `p` with room for `len` bytes more, as far as 32-bit arithmetic provides it. -/
def roomFor (heap : ℕ → UInt8) (p : Parser) (len : ℕ) : List UInt8 :=
  if p.buffer.length - p.size < len then
    reallocate heap p.buffer (grownCapacity p.buffer.length p.size len)
  else p.buffer

theorem length_roomFor_lt (heap : ℕ → UInt8) (p : Parser) (len : ℕ) :
    (roomFor heap p len).length < 2 ^ 32 := by
  rw [roomFor]
  split
  · rw [length_reallocate]
    exact grownCapacity_lt _ _ _
  · exact p.capacity_lt

/-- `memcpy` of `str` to the offset `pos` of `memory`. -/
def copyTo (memory : List UInt8) (pos : ℕ) (str : List UInt8) : List UInt8 :=
  memory.take pos ++ str ++ memory.drop (pos + str.length)

theorem length_copyTo {memory str : List UInt8} {pos : ℕ} (h : pos + str.length ≤ memory.length) :
    (copyTo memory pos str).length = memory.length := by
  simp only [copyTo, List.length_append, List.length_take, List.length_drop]
  omega

/-- `parser_feed`. -/
def parserFeed (heap : ℕ → UInt8) (p : Parser) (str : List UInt8) : Except Fault Parser :=
  if h : p.size + str.length ≤ (roomFor heap p str.length).length then
    .ok {
      buffer := copyTo (roomFor heap p str.length) p.size str
      size := p.size + str.length
      size_le := by rw [length_copyTo h]; exact h
      capacity_lt := by rw [length_copyTo h]; exact length_roomFor_lt heap p str.length }
  else .error .outOfBounds

/-- `parser_consume`, whose parameter is the `uint32_t` of `size`. -/
def parserConsume (p : Parser) (size : ℕ) : Except Fault Parser :=
  if h : uint32 size ≤ p.size then
    if uint32 size = p.size then .ok { p with size := 0, size_le := Nat.zero_le _ }
    else
      .ok {
        buffer := copyTo p.buffer 0 ((p.buffer.drop (uint32 size)).take (p.size - uint32 size))
        size := p.size - uint32 size
        size_le := by
          have := p.size_le
          rw [length_copyTo (by rw [List.length_take, List.length_drop]; omega)]
          omega
        capacity_lt := by
          have := p.size_le
          rw [length_copyTo (by rw [List.length_take, List.length_drop]; omega)]
          exact p.capacity_lt }
  else .error .assertionFailed

/-! ## Tokens -/

/-- `skip2first_nonspace`: how many spaces the memory starts with. -/
def skip2firstNonspace : List UInt8 → Except Fault ℕ
  | [] => .error .outOfBounds
  | c :: memory =>
    if c = space then do
      let n ← skip2firstNonspace memory
      pure (n + 1)
    else .ok 0

/-- A byte that ends a string token. -/
def tokenEnd (c : UInt8) : Bool := c = space || c = lineFeed || c = carriageReturn

/-- The loop of `parse_token` over the `avail` buffered bytes: the string token up to the byte that
ends it, if there is one. -/
def scanToken : ℕ → List UInt8 → Except Fault (Option (List UInt8))
  | 0, _ => .ok .none
  | _ + 1, [] => .error .outOfBounds
  | avail + 1, c :: memory =>
    if tokenEnd c then .ok (some [])
    else do
      let data ← scanToken avail memory
      pure (data.map (c :: ·))

/-- What `parse_token` returns for a string token that starts at `pos`. -/
def stringToken (pos : ℕ) : Option (List UInt8) → ℕ × Token
  | some data => (uint32 (pos + data.length), .str data)
  | .none => (0, .str [])

/-- `parse_token` at a position with `avail` buffered bytes: how many bytes it used, 0 for a token
that is not complete, and the token. -/
def parseToken (memory : List UInt8) (avail : ℕ) : Except Fault (ℕ × Token) := do
  let spaces ← skip2firstNonspace memory
  let pos := min spaces avail
  match memory.drop pos with
  | [] => .error .outOfBounds
  | c :: rest =>
    if c = carriageReturn then pure (uint32 (pos + 2), .newLine)
    else if c = lineFeed then pure (uint32 (pos + 1), .newLine)
    else if c = bar then pure (uint32 (pos + 1), .pipe)
    else do
      let data ← scanToken (avail - pos) (c :: rest)
      pure (stringToken pos data)

/-! ## Command lines -/

/-- What `parser_pop_next` leaves and returns: the parser, the error code and the line. -/
abbrev Popped := Parser × ParserError × Option CommandLine

/-- The `TOKEN_TYPE_STR` case: an argument of the command at the tail, or a new command. -/
def appendWord (line : CommandLine) (data : List UInt8) : CommandLine :=
  match line.getLast? with
  | some (.command cmd) => line.dropLast ++ [.command (cmd.appendArg data)]
  | _ => line ++ [.command (.ofExe data)]

/-- From `return_error` on, at the offset `pos`: skip the current line. -/
def returnError (p : Parser) (res : ParserError) (pos : ℕ) : Except Fault Popped :=
  if _hpos : pos < p.size then do
    let (used, token) ← parseToken (p.buffer.drop pos) (p.size - pos)
    if _hused : used = 0 then pure (p, .none, .none)
    else if token = .newLine then do
      let p' ← parserConsume p (pos + used)
      pure (p', res, .none)
    else returnError p res (pos + used)
  else pure (p, .none, .none)
termination_by p.size - pos

/-- From `close_and_return` on, with the last token. -/
def closeAndReturn (p : Parser) (line : CommandLine) (token : Token) (pos : ℕ) :
    Except Fault Popped :=
  if token = .newLine then
    match line.getLast? with
    | .none => .error .assertionFailed
    | some tail => do
      let p' ← parserConsume p pos
      match tail with
      | .pipe => pure (p', .endsNotWithACommand, .none)
      | .command _ => pure (p', .none, some line)
  else returnError p .tooLateArguments pos

/-- The loop of `parser_pop_next` at the offset `pos`, with the line so far and the last token. -/
def popLoop (p : Parser) (line : CommandLine) (token : Token) (pos : ℕ) : Except Fault Popped :=
  if _hpos : pos < p.size then do
    let (used, token) ← parseToken (p.buffer.drop pos) (p.size - pos)
    if _hused : used = 0 then pure (p, .none, .none)
    else
      match token with
      | .str data => popLoop p (appendWord line data) token (pos + used)
      | .newLine =>
        if line = [] then popLoop p line token (pos + used)
        else closeAndReturn p line token (pos + used)
      | .pipe =>
        match line.getLast? with
        | .none => returnError p .pipeWithNoLeftArg (pos + used)
        | some .pipe => returnError p .pipeWithLeftArgNotACommand (pos + used)
        | some (.command _) => popLoop p (line ++ [.pipe]) token (pos + used)
      | .none => .error .assertionFailed
  else closeAndReturn p line token pos
termination_by p.size - pos

/-- `parser_pop_next`. -/
def parserPopNext (p : Parser) : Except Fault Popped := popLoop p [] .none 0

end SemOS.Shell
