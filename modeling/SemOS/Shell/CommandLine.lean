import Mathlib.Data.List.Basic
import Mathlib.Data.Nat.Notation

/-!
# Command lines of the shell

The list that the parser builds and the shell walks: commands and pipes, linked in order. A
`Pipeline` is a line that the shell can execute, the alternating list COMMAND, PIPE, COMMAND, …
of its commands (`Pipeline.line`).
-/

namespace SemOS.Shell

/-- `struct command`. The capacity is doubled when it is used up, so a line of fewer than `2 ^ 32`
bytes, which has fewer than `2 ^ 31` words, keeps it below `2 ^ 32`. -/
structure Command where
  exe : List UInt8
  args : List (List UInt8)
  argCapacity : ℕ
  argCount_le : args.length ≤ argCapacity
  argCapacity_le : argCapacity ≤ 2 * args.length
  deriving DecidableEq

/-- `command_append_arg`. -/
def Command.appendArg (cmd : Command) (arg : List UInt8) : Command where
  exe := cmd.exe
  args := cmd.args ++ [arg]
  argCapacity :=
    if cmd.args.length = cmd.argCapacity then (cmd.argCapacity + 1) * 2 else cmd.argCapacity
  argCount_le := by
    have := cmd.argCount_le
    rw [List.length_append, List.length_singleton]
    split <;> omega
  argCapacity_le := by
    have := cmd.argCapacity_le
    rw [List.length_append, List.length_singleton]
    split <;> omega

/-- The bounds of a zeroed struct. -/
theorem zeroed_le : 0 ≤ 0 := Nat.le_refl 0

/-- A command of the one word `exe`: the zeroed struct with its first argument appended. -/
def Command.ofExe (exe : List UInt8) : Command :=
  Command.appendArg ⟨exe, [], 0, zeroed_le, zeroed_le⟩ exe

/-- `struct expr`, of one of its two types. -/
inductive Expr
  | command (cmd : Command)
  | pipe
  deriving DecidableEq

/-- `struct command_line`: the list from `head` to `tail`. -/
abbrev CommandLine := List Expr

/-- The line COMMAND, PIPE, COMMAND, … of a list of commands. -/
def alternate : List Command → CommandLine
  | [] => []
  | [c] => [.command c]
  | c :: d :: cs => .command c :: .pipe :: alternate (d :: cs)

theorem alternate_eq_nil {cs : List Command} (h : alternate cs = []) : cs = [] := by
  match cs with
  | [] => rfl
  | [_] => simp [alternate] at h
  | _ :: _ :: _ => simp [alternate] at h

theorem alternate_ne_pipe (cs : List Command) (next : CommandLine) :
    alternate cs ≠ .pipe :: next := by
  match cs with
  | [] => simp [alternate]
  | [_] => simp [alternate]
  | _ :: _ :: _ => simp [alternate]

/-- A line that the shell can execute. -/
structure Pipeline where
  commands : List Command
  nonempty : commands ≠ []
  deriving DecidableEq

/-- The line of a pipeline. -/
def Pipeline.line (p : Pipeline) : CommandLine := alternate p.commands

/-- A pipeline of two or more commands: one that has a pipe. -/
def Pipeline.HasPipe (p : Pipeline) : Prop := 2 ≤ p.commands.length

instance : DecidablePred Pipeline.HasPipe := fun p => Nat.decLe 2 p.commands.length

end SemOS.Shell
