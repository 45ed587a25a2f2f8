import SemOS.Foundations.Memory
import SemOS.Pcat.Transfer

/-!
# The transfer loops of pcat

`safewrite` and `saferead`, the same text in both versions, as machines whose labels are the
outcomes of their calls of `write` and `read`. The running total is a `ssize_t`, which the condition
of the loop and the size of each call convert to `size_t`.

* `Written`, `Filled`: what holds of a loop at any time, and when it has returned. An interruption
  leaves everything as it is, so a turn either adds what its call moved or returns the error.
* `copy_reader_output`, `copy_writer_storage`: the calls that `State.copy` stands for.
-/

namespace SemOS.Pcat

open Memory

variable {α : Type*}

/-- The arguments `buffer` and `size`. No object of C is larger than a pointer difference. -/
structure Region where
  address : ℤ
  size : ℕ
  lt : size < 2 ^ 63

/-- The result of a call of `read` or `write`: a positive count, 0, or -1 with `EINTR` or with
another error. -/
inductive Outcome
  | count (n : ℕ)
  | endOfFile
  | interrupted
  | failed
  deriving DecidableEq

/-- What the loop does next: a call inside it, or the return behind it. -/
inductive Turn
  | call (o : Outcome)
  | leave
  deriving DecidableEq

/-- The local variable of a loop, and the value that has been returned. -/
structure Loop where
  total : ℤ
  result : Option ℤ
  deriving DecidableEq

/-- The condition of both loops. -/
def Loop.More (r : Region) (x : Loop) : Prop := toULong x.total < r.size

instance (r : Region) (x : Loop) : Decidable (x.More r) :=
  inferInstanceAs (Decidable (toULong x.total < r.size))

/-- The third argument of `read` and `write`. -/
def Loop.request (r : Region) (x : Loop) : ℕ := toULong (r.size - x.total)

/-- The value that a loop returns with. -/
def Loop.return (x : Loop) (value : ℤ) : Loop := ⟨x.total, some value⟩

/-! ## The two loops -/

/-- A call of `safewrite`: the loop, and the bytes accepted so far. -/
structure Writing (α : Type*) where
  loop : Loop
  accepted : List α

/-- One turn of the loop of `safewrite`. -/
def safewriteTurn (r : Region) (memory : ℤ → α) : Turn → Writing α → Option (Writing α)
  | .call o, s =>
    if s.loop.result = none ∧ s.loop.More r then
      match o with
      | .count n =>
        if 1 ≤ n ∧ n ≤ s.loop.request r then
          some ⟨⟨s.loop.total + n, none⟩,
            s.accepted ++ load memory (r.address + s.loop.total) n⟩
        else none
      | .interrupted => some s
      | .failed => some ⟨s.loop.return (-1), s.accepted⟩
      | .endOfFile => none
    else none
  | .leave, s =>
    if s.loop.result = none ∧ ¬ s.loop.More r then
      some ⟨s.loop.return s.loop.total, s.accepted⟩
    else none

/-- `safewrite`. -/
def safewrite (r : Region) (memory : ℤ → α) : Machine Turn (Writing α) where
  init s := s = ⟨⟨0, none⟩, []⟩
  act := safewriteTurn r memory

/-- A call of `saferead`: the loop, the memory, and how many bytes of the source have been read. -/
structure Reading (α : Type*) where
  loop : Loop
  memory : ℤ → α
  position : ℕ

/-- One turn of the loop of `saferead`. `read` returns 0 at the end of the source only, and a count
when there are as many bytes left. -/
def safereadTurn (r : Region) (source : List α) : Turn → Reading α → Option (Reading α)
  | .call o, s =>
    if s.loop.result = none ∧ s.loop.More r then
      match o with
      | .count n =>
        if 1 ≤ n ∧ n ≤ s.loop.request r ∧ s.position + n ≤ source.length then
          some ⟨⟨s.loop.total + n, none⟩,
            store s.memory (r.address + s.loop.total) ((source.drop s.position).take n),
            s.position + n⟩
        else none
      | .interrupted => some s
      | .failed => some ⟨s.loop.return (-1), s.memory, s.position⟩
      | .endOfFile =>
        if s.position = source.length then
          some ⟨s.loop.return s.loop.total, s.memory, s.position⟩
        else none
    else none
  | .leave, s =>
    if s.loop.result = none ∧ ¬ s.loop.More r then
      some ⟨s.loop.return s.loop.total, s.memory, s.position⟩
    else none

/-- `saferead`, with the bytes `source` before it. -/
def saferead (r : Region) (memory : ℤ → α) (source : List α) : Machine Turn (Reading α) where
  init s := s = ⟨⟨0, none⟩, memory, 0⟩
  act := safereadTurn r source

variable {r : Region} {memory : ℤ → α} {source : List α} {u : Turn} {k : ℕ}

/-! ## The running total -/

/-- The total is the number `k`, which is not more than the size. -/
def Loop.At (r : Region) (k : ℕ) (x : Loop) : Prop := x.total = k ∧ k ≤ r.size

theorem Loop.At.more {x : Loop} (h : x.At r k) : x.More r ↔ k < r.size := by
  have hlt := r.lt
  rw [Loop.More, h.1, toULong_of_lt (by have := h.2; omega)]

theorem Loop.At.request_eq {x : Loop} (h : x.At r k) : x.request r = r.size - k := by
  have hlt := r.lt
  rw [Loop.request, h.1, ← Int.ofNat_sub h.2, toULong_of_lt (by omega)]

theorem Loop.At.inRange {x : Loop} (h : x.At r k) : 0 ≤ x.total ∧ x.total ≤ r.size := by
  have hk := h.2
  rw [h.1]
  omega

/-- A call moves no more than is left. -/
theorem Loop.At.add {x : Loop} (h : x.At r k) {n : ℕ} (hn : n ≤ x.request r) :
    Loop.At r (k + n) ⟨x.total + n, none⟩ := by
  rw [h.request_eq] at hn
  refine ⟨?_, by have := h.2; omega⟩
  rw [h.1, Int.natCast_add]

/-! ## Writing -/

/-- What `safewrite` has done: the total is in range, as many bytes are accepted in order; it has
returned the size with all of them, or a negative value with fewer. -/
structure Written (r : Region) (memory : ℤ → α) (s : Writing α) : Prop where
  inRange : 0 ≤ s.loop.total ∧ s.loop.total ≤ r.size
  accepted : s.accepted = load memory r.address s.loop.total.toNat
  returned : ∀ value, s.loop.result = some value →
    value = r.size ∧ s.accepted = load memory r.address r.size ∨
      value < 0 ∧ s.accepted <+: load memory r.address r.size ∧ s.accepted.length < r.size

/-- The total is known as a number. -/
theorem Written.at {s : Writing α} (hs : Written r memory s) :
    s.loop.At r s.loop.total.toNat := by
  have := hs.inRange
  exact ⟨by omega, by omega⟩

/-- Before the return the last part says nothing. -/
theorem written_of_total {s : Writing α} (hat : s.loop.At r k)
    (hacc : s.accepted = load memory r.address k)
    (hret : ∀ value, s.loop.result = some value →
      value = r.size ∧ k = r.size ∨ value < 0 ∧ k < r.size) : Written r memory s := by
  refine ⟨hat.inRange, by rw [hacc, hat.1, Int.toNat_natCast], fun value hvalue => ?_⟩
  obtain ⟨hv, rfl⟩ | ⟨hv, hlt⟩ := hret value hvalue
  · exact .inl ⟨hv, hacc⟩
  · refine .inr ⟨hv, ?_, ?_⟩
    · rw [hacc]
      exact load_prefix memory r.address hat.2
    · rwa [hacc, length_load]

/-- A turn of `safewrite`. -/
theorem safewrite_turn {s t : Writing α} (hs : Written r memory s)
    (h : (safewrite r memory).act u s = some t) : Written r memory t := by
  have hat := hs.at
  have hacc := hs.accepted
  have htotal := hat.1
  cases u with
  | call o =>
    obtain ⟨hcond, h⟩ := Option.ite_none_right_eq_some.1 h
    have hmore := hat.more.1 hcond.2
    cases o with
    | count n =>
      obtain ⟨hn, h⟩ := Option.ite_none_right_eq_some.1 h
      obtain rfl := Option.some.inj h
      refine written_of_total (hat.add hn.2) ?_ fun value hvalue => by cases hvalue
      rw [load_add, ← hacc, ← htotal]
    | endOfFile => cases h
    | interrupted =>
      obtain rfl := Option.some.inj h
      exact hs
    | failed =>
      obtain rfl := Option.some.inj h
      refine written_of_total hat hacc fun value hvalue => .inr ⟨?_, hmore⟩
      obtain rfl := Option.some.inj hvalue
      decide
  | leave =>
    obtain ⟨hcond, h⟩ := Option.ite_none_right_eq_some.1 h
    obtain rfl := Option.some.inj h
    have hall : s.loop.total.toNat = r.size :=
      Nat.le_antisymm hat.2 (not_lt.1 fun hlt => hcond.2 (hat.more.2 hlt))
    refine written_of_total hat hacc fun value hvalue => .inl ⟨?_, hall⟩
    obtain rfl := Option.some.inj hvalue
    rw [← hall, ← htotal]

/-! ## Reading -/

/-- What `saferead` has done: the total is in range, as many bytes of the source are in the buffer
and nothing else is changed; it has returned this number, which is less than the size only at the
end of the source, or a negative value. -/
structure Filled (r : Region) (memory : ℤ → α) (source : List α) (s : Reading α) : Prop where
  inRange : 0 ≤ s.loop.total ∧ s.loop.total ≤ r.size
  position : s.loop.total = s.position
  within : s.position ≤ source.length
  stored : load s.memory r.address s.position = source.take s.position
  others : ∀ q, q < r.address ∨ r.address + s.position ≤ q → s.memory q = memory q
  returned : ∀ value, s.loop.result = some value →
    value = s.position ∧ (value < r.size → s.position = source.length) ∨ value < 0

theorem Filled.at {s : Reading α} (hs : Filled r memory source s) : s.loop.At r s.position := by
  have hrange := hs.inRange
  have hposition := hs.position
  exact ⟨hposition, by omega⟩

/-- A call of `read` that returns a count: its bytes follow the ones before. -/
theorem Filled.count {s : Reading α} (hs : Filled r memory source s) {n : ℕ}
    (hn : n ≤ s.loop.request r) (hleft : s.position + n ≤ source.length) :
    Filled r memory source ⟨⟨s.loop.total + n, none⟩,
      store s.memory (r.address + s.loop.total) ((source.drop s.position).take n),
      s.position + n⟩ := by
  have hnew := hs.at.add hn
  have hlen : ((source.drop s.position).take n).length = n := by
    rw [List.length_take, List.length_drop]
    omega
  refine ⟨hnew.inRange, hnew.1, hleft, ?_, fun q hq => ?_, fun value hvalue => by cases hvalue⟩
  · have happend := load_store_append s.memory r.address s.position
      ((source.drop s.position).take n)
    rwa [hlen, hs.stored, ← List.take_add, ← hs.position] at happend
  · change store _ (r.address + s.loop.total) _ q = memory q
    have hq' : q < r.address ∨ r.address + (s.position + n : ℕ) ≤ q := hq
    have hposition := hs.position
    obtain hlt | hle := hq'
    · rw [store_of_lt (by omega)]
      exact hs.others q (.inl hlt)
    · rw [store_of_le (by rw [hlen]; omega)]
      exact hs.others q (.inr (by omega))

/-- The return of `saferead`. -/
theorem Filled.return {s : Reading α} (hs : Filled r memory source s) {value : ℤ}
    (hvalue : value = s.position ∧ (value < r.size → s.position = source.length) ∨ value < 0) :
    Filled r memory source ⟨s.loop.return value, s.memory, s.position⟩ := by
  refine ⟨hs.inRange, hs.position, hs.within, hs.stored, hs.others, fun value' h => ?_⟩
  obtain rfl := Option.some.inj h
  exact hvalue

/-- A turn of `saferead`. -/
theorem saferead_turn {s t : Reading α} (hs : Filled r memory source s)
    (h : (saferead r memory source).act u s = some t) : Filled r memory source t := by
  have hat := hs.at
  have htotal := hs.position
  cases u with
  | call o =>
    obtain ⟨hcond, h⟩ := Option.ite_none_right_eq_some.1 h
    cases o with
    | count n =>
      obtain ⟨hn, h⟩ := Option.ite_none_right_eq_some.1 h
      obtain rfl := Option.some.inj h
      exact hs.count hn.2.1 hn.2.2
    | endOfFile =>
      obtain ⟨hend, h⟩ := Option.ite_none_right_eq_some.1 h
      obtain rfl := Option.some.inj h
      exact hs.return (.inl ⟨htotal, fun _ => hend⟩)
    | interrupted =>
      obtain rfl := Option.some.inj h
      exact hs
    | failed =>
      obtain rfl := Option.some.inj h
      exact hs.return (.inr (by decide))
  | leave =>
    obtain ⟨hcond, h⟩ := Option.ite_none_right_eq_some.1 h
    obtain rfl := Option.some.inj h
    refine hs.return (.inl ⟨htotal, fun hlt => ?_⟩)
    rw [htotal] at hlt
    exact absurd (hat.more.2 (by omega)) hcond.2

/-! ## The calls of a run -/

section Copy

variable {v : Version} {inp : Input} {s : State} {f : File} {o : ℤ} {c : ℕ}

/-- What the reader prints in one step of a run is what a call of `safewrite` accepts. -/
theorem copy_reader_output : (s.copy v inp f o k c .reader).output =
    s.output ++ load (s.buffer.load inp.capacity inp.outside (inp.control v)) (o + k) c := rfl

/-- What the writer stores in one step of a run is what a call of `saferead` stores. -/
theorem copy_writer_storage (p : ℕ) : (s.copy v inp f o k c .writer).buffer.storage p =
    store (fun q => s.buffer.storage q.toNat) (o + k)
      ((List.range c).map fun d => f.byte (k + d)) p := by
  simp only [State.copy, Buffer.store, store, List.getElem?_map, Int.toNat_natCast]
  by_cases hle : o + k ≤ p
  · by_cases hlt : (p : ℤ) < o + k + c
    · rw [if_pos ⟨hle, hlt⟩, if_pos hle, List.getElem?_range (by omega)]
      rfl
    · rw [if_neg (fun h => hlt h.2), if_pos hle, List.getElem?_eq_none (by simp; omega)]
      rfl
  · rw [if_neg (fun h => hle h.1), if_neg hle]

end Copy

end SemOS.Pcat
