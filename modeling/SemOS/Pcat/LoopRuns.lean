import SemOS.Pcat.Loops

/-!
# The runs of the transfer loops of pcat

* `CallLoop`: both loops make calls until they return. `CallLoop.run_iff` says which sequences of
  turns they take.
* **`transfer_loops_exact`**: what holds along every sequence of outcomes, and that the loops
  return.
-/

namespace SemOS.Pcat

open Memory

variable {α : Type*} {source : List α} {size available k : ℕ} {os : List Outcome}

/-! ## Runs of a loop of calls -/

/-- The outcomes of calls one after the other, from the byte `k` on: every call is made while bytes
are left, and moves some that are available, or is interrupted. -/
def Allowed (size available : ℕ) : ℕ → List Outcome → Prop
  | _, [] => True
  | k, .count n :: os =>
    1 ≤ n ∧ k + n ≤ size ∧ k + n ≤ available ∧ Allowed size available (k + n) os
  | k, .interrupted :: os => k < size ∧ Allowed size available k os
  | _, .endOfFile :: _ => False
  | _, .failed :: _ => False

instance decidableAllowed (size available : ℕ) :
    ∀ k os, Decidable (Allowed size available k os)
  | _, [] => isTrue trivial
  | k, .count n :: os =>
    haveI := decidableAllowed size available (k + n) os
    inferInstanceAs (Decidable
      (1 ≤ n ∧ k + n ≤ size ∧ k + n ≤ available ∧ Allowed size available (k + n) os))
  | k, .interrupted :: os =>
    haveI := decidableAllowed size available k os
    inferInstanceAs (Decidable (k < size ∧ Allowed size available k os))
  | _, .endOfFile :: _ => isFalse id
  | _, .failed :: _ => isFalse id

/-- How many bytes these calls move. -/
def movedBy : List Outcome → ℕ
  | [] => 0
  | .count n :: os => n + movedBy os
  | _ :: os => movedBy os

/-- Not counting the interrupted ones, there are no more calls than bytes. -/
theorem Allowed.length_le (h : Allowed size available k os) (hk : k ≤ size) :
    (os.filter (· ≠ .interrupted)).length + k ≤ size := by
  induction os generalizing k with
  | nil => simpa using hk
  | cons o os ih =>
    cases o with
    | count n =>
      have hrest := ih h.2.2.2 h.2.1
      have hn := h.1
      rw [List.filter_cons_of_pos (by simp), List.length_cons]
      omega
    | interrupted =>
      rw [List.filter_cons_of_neg (by simp)]
      exact ih h.2 hk
    | endOfFile => exact h.elim
    | failed => exact h.elim

/-- No more bytes are moved than the loop asks for. -/
theorem Allowed.add_le (h : Allowed size available k os) (hk : k ≤ size) :
    k + movedBy os ≤ size := by
  induction os generalizing k with
  | nil => exact hk
  | cons o os ih =>
    cases o with
    | count n =>
      rw [movedBy, ← Nat.add_assoc]
      exact ih h.2.2.2 h.2.1
    | interrupted => exact ih h.2 hk
    | endOfFile => exact h.elim
    | failed => exact h.elim

/-- A loop of calls: `at_ k` is its state after `k` bytes, `Returns` says with which turn it returns
from there, and in which state. -/
structure CallLoop {σ : Type*} (M : Machine Turn σ) (size available : ℕ) (at_ : ℕ → σ)
    (Returns : ℕ → Turn → σ → Prop) : Prop where
  turn : ∀ k ≤ size, ∀ u s, M.act u (at_ k) = some s ↔
    (∃ n, u = .call (.count n) ∧ 1 ≤ n ∧ k + n ≤ size ∧ k + n ≤ available ∧ s = at_ (k + n)) ∨
      (u = .call .interrupted ∧ k < size ∧ s = at_ k) ∨ Returns k u s
  returned : ∀ k u s, Returns k u s → M.Stuck s

section CallLoop

variable {σ : Type*} {M : Machine Turn σ} {at_ : ℕ → σ} {Returns : ℕ → Turn → σ → Prop}
  {turns : List Turn} {s : σ}

/-- Allowed calls lead to the state after the bytes that they move. -/
theorem CallLoop.run_calls (h : CallLoop M size available at_ Returns) (hk : k ≤ size)
    (hos : Allowed size available k os) :
    M.run (os.map .call ++ turns) (at_ k) = M.run turns (at_ (k + movedBy os)) := by
  induction os generalizing k with
  | nil => rfl
  | cons o os ih =>
    cases o with
    | count n =>
      obtain ⟨hn, hsize, hleft, hos⟩ := hos
      have hact := (h.turn k hk (.call (.count n)) _).2 (.inl ⟨n, rfl, hn, hsize, hleft, rfl⟩)
      rw [List.map_cons, List.cons_append, Machine.run, hact, movedBy, ← Nat.add_assoc]
      exact ih hsize hos
    | interrupted =>
      obtain ⟨hlt, hos⟩ := hos
      have hact := (h.turn k hk (.call .interrupted) _).2 (.inr (.inl ⟨rfl, hlt, rfl⟩))
      rw [List.map_cons, List.cons_append, Machine.run, hact]
      exact ih hk hos
    | endOfFile => exact hos.elim
    | failed => exact hos.elim

/-- A run consists of allowed calls, and then possibly the turn that returns. -/
theorem CallLoop.calls_of_run (h : CallLoop M size available at_ Returns) (hk : k ≤ size)
    (hrun : M.run turns (at_ k) = some s) : ∃ os, Allowed size available k os ∧
      (turns = os.map .call ∧ s = at_ (k + movedBy os) ∨
        ∃ u, turns = os.map .call ++ [u] ∧ Returns (k + movedBy os) u s) := by
  induction turns generalizing k with
  | nil => exact ⟨[], trivial, .inl ⟨rfl, (Option.some.inj hrun).symm⟩⟩
  | cons u turns ih =>
    obtain ⟨t, ht, hrun⟩ := Option.bind_eq_some_iff.1 hrun
    obtain ⟨n, rfl, hn, hsize, hleft, rfl⟩ | ⟨rfl, hlt, rfl⟩ | hret := (h.turn k hk u t).1 ht
    · obtain ⟨os, hos, hend⟩ := ih hsize hrun
      refine ⟨.count n :: os, ⟨hn, hsize, hleft, hos⟩, ?_⟩
      simpa [movedBy, Nat.add_assoc] using hend
    · obtain ⟨os, hos, hend⟩ := ih hk hrun
      refine ⟨.interrupted :: os, ⟨hlt, hos⟩, ?_⟩
      simpa [movedBy] using hend
    · -- nothing follows the return
      cases turns with
      | nil =>
        obtain rfl := Option.some.inj hrun
        exact ⟨[], trivial, .inr ⟨u, rfl, hret⟩⟩
      | cons w turns =>
        obtain ⟨x, hx, -⟩ := Option.bind_eq_some_iff.1 hrun
        rw [h.returned k u t hret w] at hx
        cases hx

/-- The runs of such a loop. -/
theorem CallLoop.run_iff (h : CallLoop M size available at_ Returns) (hk : k ≤ size) :
    M.run turns (at_ k) = some s ↔ ∃ os, Allowed size available k os ∧
      (turns = os.map .call ∧ s = at_ (k + movedBy os) ∨
        ∃ u, turns = os.map .call ++ [u] ∧ Returns (k + movedBy os) u s) := by
  refine ⟨h.calls_of_run hk, ?_⟩
  rintro ⟨os, hos, ⟨rfl, rfl⟩ | ⟨u, rfl, hret⟩⟩
  · rw [← List.append_nil (os.map _), h.run_calls hk hos]
    rfl
  · have hact := (h.turn _ (hos.add_le hk) u s).2 (.inr (.inr hret))
    rw [h.run_calls hk hos, Machine.run, hact]
    rfl

end CallLoop

/-! ## The returns of the two loops -/

/-- `safewrite` after `k` bytes. -/
def writing (r : Region) (memory : ℤ → α) (k : ℕ) : Writing α :=
  ⟨⟨k, none⟩, load memory r.address k⟩

/-- How `safewrite` returns after `k` bytes: with the size, or with -1 after an error. -/
inductive WriteReturns (r : Region) (memory : ℤ → α) (k : ℕ) : Turn → Writing α → Prop
  | all (hk : k = r.size) :
    WriteReturns r memory k .leave ⟨⟨k, some k⟩, load memory r.address k⟩
  | error (hk : k < r.size) :
    WriteReturns r memory k (.call .failed) ⟨⟨k, some (-1)⟩, load memory r.address k⟩

/-- `saferead` after `k` bytes. -/
def reading (r : Region) (memory : ℤ → α) (source : List α) (k : ℕ) : Reading α :=
  ⟨⟨k, none⟩, store memory r.address (source.take k), k⟩

/-- How `saferead` returns after `k` bytes: with the size, with the count at the end of the source,
or with -1 after an error. -/
inductive ReadReturns (r : Region) (memory : ℤ → α) (source : List α) (k : ℕ) :
    Turn → Reading α → Prop
  | all (hk : k = r.size) : ReadReturns r memory source k .leave
      ⟨⟨k, some k⟩, store memory r.address (source.take k), k⟩
  | ended (hk : k < r.size) (hend : k = source.length) :
    ReadReturns r memory source k (.call .endOfFile)
      ⟨⟨k, some k⟩, store memory r.address (source.take k), k⟩
  | error (hk : k < r.size) : ReadReturns r memory source k (.call .failed)
      ⟨⟨k, some (-1)⟩, store memory r.address (source.take k), k⟩

theorem loop_at (r : Region) (hk : k ≤ r.size) : Loop.At r k ⟨k, none⟩ := ⟨rfl, hk⟩

theorem writing_add (r : Region) (memory : ℤ → α) (k n : ℕ) :
    (⟨⟨k + n, none⟩, load memory r.address k ++ load memory (r.address + k) n⟩ : Writing α) =
      writing r memory (k + n) := by
  rw [writing, load_add, Int.natCast_add]

/-- `safewrite` takes the turns of a loop of calls. -/
theorem safewrite_calls (r : Region) (memory : ℤ → α) :
    CallLoop (safewrite r memory) r.size r.size (writing r memory) (WriteReturns r memory) where
  turn k hk u s := by
    have hmore := (loop_at r hk).more
    have hrequest := (loop_at r hk).request_eq
    constructor
    · intro h
      cases u with
      | call o =>
        obtain ⟨hcond, h⟩ := Option.ite_none_right_eq_some.1 h
        have hlt := hmore.1 hcond.2
        cases o with
        | count n =>
          obtain ⟨hn, h⟩ := Option.ite_none_right_eq_some.1 h
          have hle : n ≤ r.size - k := hrequest ▸ hn.2
          refine .inl ⟨n, rfl, hn.1, by omega, by omega, ?_⟩
          exact (Option.some.inj h).symm.trans (writing_add r memory k n)
        | endOfFile => cases h
        | interrupted => exact .inr (.inl ⟨rfl, hlt, (Option.some.inj h).symm⟩)
        | failed =>
          obtain rfl := Option.some.inj h
          exact .inr (.inr (.error hlt))
      | leave =>
        obtain ⟨hcond, h⟩ := Option.ite_none_right_eq_some.1 h
        obtain rfl := Option.some.inj h
        have hle := mt hmore.2 hcond.2
        exact .inr (.inr (.all (by omega)))
    · rintro (⟨n, rfl, hn, hle, -, rfl⟩ | ⟨rfl, hlt, rfl⟩ | hret)
      · have hreq : n ≤ (writing r memory k).loop.request r := by
          change n ≤ (⟨k, none⟩ : Loop).request r
          omega
        rw [← writing_add]
        exact (if_pos ⟨rfl, hmore.2 (by omega)⟩).trans (if_pos ⟨hn, hreq⟩)
      · exact if_pos ⟨rfl, hmore.2 hlt⟩
      · cases hret with
        | all hall => exact if_pos ⟨rfl, fun h => absurd (hmore.1 h) (by omega)⟩
        | error hlt => exact if_pos ⟨rfl, hmore.2 hlt⟩
  returned k u s h w := by
    have hresult : s.loop.result ≠ none := by
      cases h <;> simp
    cases w with
    | call o => exact if_neg fun h => hresult h.1
    | leave => exact if_neg fun h => hresult h.1

/-- A further piece of the source is stored behind the first `k` bytes. -/
theorem store_take (m : ℤ → α) (p : ℤ) {n : ℕ} (hk : k + n ≤ source.length) :
    store (store m p (source.take k)) (p + k) ((source.drop k).take n) =
      store m p (source.take (k + n)) := by
  have hlen : (source.take k).length = k := by
    rw [List.length_take]
    omega
  have happend := store_append m p (source.take k) ((source.drop k).take n)
  rwa [hlen, ← List.take_add] at happend

theorem reading_add (r : Region) (m : ℤ → α) {n : ℕ} (hk : k + n ≤ source.length) :
    (⟨⟨k + n, none⟩, store (store m r.address (source.take k)) (r.address + k)
      ((source.drop k).take n), k + n⟩ : Reading α) = reading r m source (k + n) := by
  rw [reading, store_take m r.address hk, Int.natCast_add]

/-- `saferead` takes the turns of a loop of calls, as long as the source has bytes. -/
theorem saferead_calls (r : Region) (memory : ℤ → α) (source : List α) :
    CallLoop (saferead r memory source) r.size source.length (reading r memory source)
      (ReadReturns r memory source) where
  turn k hk u s := by
    have hmore := (loop_at r hk).more
    have hrequest := (loop_at r hk).request_eq
    constructor
    · intro h
      cases u with
      | call o =>
        obtain ⟨hcond, h⟩ := Option.ite_none_right_eq_some.1 h
        have hlt := hmore.1 hcond.2
        cases o with
        | count n =>
          obtain ⟨hn, h⟩ := Option.ite_none_right_eq_some.1 h
          have hle : n ≤ r.size - k := hrequest ▸ hn.2.1
          refine .inl ⟨n, rfl, hn.1, by omega, hn.2.2, ?_⟩
          exact (Option.some.inj h).symm.trans (reading_add r memory hn.2.2)
        | endOfFile =>
          obtain ⟨hend, h⟩ := Option.ite_none_right_eq_some.1 h
          obtain rfl := Option.some.inj h
          exact .inr (.inr (.ended hlt hend))
        | interrupted => exact .inr (.inl ⟨rfl, hlt, (Option.some.inj h).symm⟩)
        | failed =>
          obtain rfl := Option.some.inj h
          exact .inr (.inr (.error hlt))
      | leave =>
        obtain ⟨hcond, h⟩ := Option.ite_none_right_eq_some.1 h
        obtain rfl := Option.some.inj h
        have hle := mt hmore.2 hcond.2
        exact .inr (.inr (.all (by omega)))
    · rintro (⟨n, rfl, hn, hle, hleft, rfl⟩ | ⟨rfl, hlt, rfl⟩ | hret)
      · have hreq : n ≤ (reading r memory source k).loop.request r := by
          change n ≤ (⟨k, none⟩ : Loop).request r
          omega
        rw [← reading_add r memory hleft]
        exact (if_pos ⟨rfl, hmore.2 (by omega)⟩).trans (if_pos ⟨hn, hreq, hleft⟩)
      · exact if_pos ⟨rfl, hmore.2 hlt⟩
      · cases hret with
        | all hall => exact if_pos ⟨rfl, fun h => absurd (hmore.1 h) (by omega)⟩
        | ended hlt hend => exact (if_pos ⟨rfl, hmore.2 hlt⟩).trans (if_pos hend)
        | error hlt => exact if_pos ⟨rfl, hmore.2 hlt⟩
  returned k u s h w := by
    have hresult : s.loop.result ≠ none := by
      cases h <;> simp
    cases w with
    | call o => exact if_neg fun h => hresult h.1
    | leave => exact if_neg fun h => hresult h.1

/-! ## Every sequence of outcomes -/

/-- **The transfer loops are exact**, whatever the outcomes of their calls are: what they have moved
and what they return is right at any time. They do run, and return: their runs are all sequences of
allowed calls, each followed by the return that the last outcome asks for, if by any. Not counting
the interrupted ones, there are no more calls than bytes. -/
theorem transfer_loops_exact (r : Region) (memory : ℤ → α) (source : List α) (turns : List Turn) :
    ((safewrite r memory).Throughout (Written r memory) turns ⟨⟨0, none⟩, []⟩ ∧
      (saferead r memory source).Throughout (Filled r memory source) turns
        ⟨⟨0, none⟩, memory, 0⟩) ∧
    (∀ s, (safewrite r memory).run turns ⟨⟨0, none⟩, []⟩ = some s ↔
      ∃ os, Allowed r.size r.size 0 os ∧
        (turns = os.map .call ∧ s = writing r memory (movedBy os) ∨
          ∃ u, turns = os.map .call ++ [u] ∧ WriteReturns r memory (movedBy os) u s)) ∧
    (∀ s, (saferead r memory source).run turns ⟨⟨0, none⟩, memory, 0⟩ = some s ↔
      ∃ os, Allowed r.size source.length 0 os ∧
        (turns = os.map .call ∧ s = reading r memory source (movedBy os) ∨
          ∃ u, turns = os.map .call ++ [u] ∧ ReadReturns r memory source (movedBy os) u s)) ∧
    ∀ available os, Allowed r.size available 0 os →
      (os.filter (· ≠ .interrupted)).length ≤ r.size := by
  refine ⟨⟨?_, ?_⟩, fun s => ?_, fun s => ?_, fun available os h => h.length_le (Nat.zero_le _)⟩
  · refine Machine.throughout_of_step (fun _ _ _ => safewrite_turn) turns ?_
    exact written_of_total ⟨rfl, Nat.zero_le _⟩ rfl fun value hvalue => by cases hvalue
  · refine Machine.throughout_of_step (fun _ _ _ => saferead_turn) turns ?_
    exact ⟨⟨le_refl 0, Int.natCast_nonneg _⟩, rfl, Nat.zero_le _, rfl, fun _ _ => rfl,
      fun value hvalue => by cases hvalue⟩
  · rw [← show writing r memory 0 = ⟨⟨0, none⟩, []⟩ from rfl]
    have hruns : (safewrite r memory).run turns (writing r memory 0) = some s ↔ _ :=
      (safewrite_calls r memory).run_iff (Nat.zero_le _)
    simpa only [Nat.zero_add] using hruns
  · have hstart : reading r memory source 0 = ⟨⟨0, none⟩, memory, 0⟩ := by
      rw [reading, List.take_zero, store_nil]
      rfl
    rw [← hstart]
    have hruns : (saferead r memory source).run turns (reading r memory source 0) = some s ↔ _ :=
      (saferead_calls r memory source).run_iff (Nat.zero_le _)
    simpa only [Nat.zero_add] using hruns

/-- Three bytes. -/
def threeBytes : Region := ⟨0, 3, by decide⟩

/-- Two of the three bytes, an interruption, and the last one, in both loops; and a source that ends
after two bytes. -/
theorem transfer_loops_threeBytes :
    (safewrite threeBytes fun p => p).run
        [.call (.count 2), .call .interrupted, .call (.count 1), .leave] ⟨⟨0, none⟩, []⟩ =
      some ⟨⟨3, some 3⟩, [0, 1, 2]⟩ ∧
    (saferead threeBytes (fun p => p) [7, 8]).run
        [.call .interrupted, .call (.count 2), .call .endOfFile] ⟨⟨0, none⟩, fun p => p, 0⟩ =
      some ⟨⟨2, some 2⟩, store (fun p => p) 0 [7, 8], 2⟩ :=
  ⟨((transfer_loops_exact threeBytes (fun p => p) [] _).2.1 _).2
      ⟨[.count 2, .interrupted, .count 1], by decide, .inr ⟨.leave, rfl, .all rfl⟩⟩,
    ((transfer_loops_exact threeBytes (fun p => p) [7, 8] _).2.2.1 _).2
      ⟨[.interrupted, .count 2], by decide, .inr ⟨.call .endOfFile, rfl, .ended (by decide) rfl⟩⟩⟩

end SemOS.Pcat
