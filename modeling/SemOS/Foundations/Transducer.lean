import Mathlib.Data.List.Infix

/-!
# Stream programs

A program that reads one stream to its end and writes another one, whatever the sizes of its reads
and writes are: what it writes goes by what it has read.

* `Transducer`: what is due once so much has been read, and at the end of the input. Nothing that is
  due is taken back.
* `Transducer.due_prefix`: at any time what is due is a prefix of the result.
* `Transducer.through`: programs one after another.
-/

namespace SemOS

variable {α : Type*}

/-- A program on streams. -/
structure Transducer (α : Type*) where
  /-- What it writes once it has read so much. -/
  sofar : List α → List α
  /-- What it writes in all, at the end of its input. -/
  result : List α → List α
  sofar_concat : ∀ l a, sofar l <+: sofar (l ++ [a])
  sofar_result : ∀ l, sofar l <+: result l

namespace Transducer

variable (f : Transducer α) {l whole : List α} {eof : Bool}

/-- What is to be written, after the elements `l` and possibly the end of the input. -/
def due (eof : Bool) (l : List α) : List α := if eof then f.result l else f.sofar l

theorem sofar_append (l m : List α) : f.sofar l <+: f.sofar (l ++ m) := by
  induction m using List.reverseRecOn with
  | nil => rw [List.append_nil]
  | append_singleton m a ih =>
    rw [← List.append_assoc]
    exact ih.trans (f.sofar_concat _ a)

/-- What is due is a prefix of what will be written in all. -/
theorem due_prefix (h : l <+: whole) (heof : eof = true → l = whole) :
    f.due eof l <+: f.result whole := by
  cases eof with
  | true => rw [heof rfl, due, if_pos rfl]
  | false =>
    obtain ⟨m, rfl⟩ := h
    exact (f.sofar_append l m).trans (f.sofar_result _)

/-- The programs `fs` one after another, each on the output of the one before it. -/
def through (fs : List (Transducer α)) (l : List α) : List α := fs.foldl (fun l f => f.result l) l

theorem through_concat (fs : List (Transducer α)) (f : Transducer α) (l : List α) :
    through (fs ++ [f]) l = f.result (through fs l) := by
  rw [through, List.foldl_append]
  rfl

/-- The program that copies its input as it reads it. -/
def copy : Transducer α := ⟨id, id, fun l a => List.prefix_append l [a], fun _ => List.prefix_rfl⟩

end Transducer

end SemOS
