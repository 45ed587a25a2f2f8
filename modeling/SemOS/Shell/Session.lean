import SemOS.Shell.Parser

/-!
# The input loop of the shell

`main` reads chunks of its standard input, feeds each one to the parser and takes command lines off
it until there is none (`drain`). A loop that goes on for ever has no result.
-/

namespace SemOS.Shell

/-- What `read` returns: at least one byte and at most a buffer of them. -/
structure Chunk where
  bytes : List UInt8
  nonempty : 1 ≤ bytes.length
  length_le : bytes.length ≤ 1024

/-- What the inner loop of `main` gets: the command lines and errors until there is no line, and the
parser then. -/
abbrev Drained := List (ParserError × Option CommandLine) × Except Fault Parser

/-- The inner loop of `main`, if it ends within so many calls of `parser_pop_next`. -/
def drainWithin : ℕ → Parser → Option Drained
  | 0, _ => none
  | calls + 1, p =>
    match parserPopNext p with
    | .error err => some ([], .error err)
    | .ok (p', out) =>
      if out = (.none, none) then some ([], .ok p')
      else (drainWithin calls p').map fun (outs, last) => (out :: outs, last)

/-- The inner loop of `main`. If one call more than there are bytes is not enough, then it never
ends (`drainWithin_eq_drain`). -/
def drain (p : Parser) : Option Drained := drainWithin (p.size + 1) p

/-- The outer loop of `main`. The `n`-th feed finds `heap n` in memory that it newly allocates. -/
def session (heap : ℕ → ℕ → UInt8) : ℕ → List Chunk → Parser → Option Drained
  | _, [], p => some ([], .ok p)
  | n, c :: cs, p =>
    match parserFeed (heap n) p c.bytes with
    | .error err => some ([], .error err)
    | .ok p =>
      match drain p with
      | none => none
      | some (outs, .error err) => some (outs, .error err)
      | some (outs, .ok p') =>
        (session heap (n + 1) cs p').map fun (outs', last) => (outs ++ outs', last)

/-- What is seen of a session from `parser_new` on that ends: the command lines and errors, and the
bytes that are left, unless the run was ended by a fault. -/
def outcome (heap : ℕ → ℕ → UInt8) (cut : List Chunk) :
    Option (List (ParserError × Option CommandLine) × Option (List UInt8)) :=
  (session heap 0 cut parserNew).map fun (outs, last) => (outs, last.toOption.map Parser.data)

end SemOS.Shell
