import Mathlib.Algebra.Group.Int.Defs
import Mathlib.Algebra.Group.Nat.Defs
import Mathlib.Data.Int.Notation
import Mathlib.Data.List.Nodup
import Mathlib.Data.List.Sigma
import Mathlib.Data.Nat.Notation

/-!
# Copying a stream

`stream`, of `mycp` and of `mycat`, reads its input in chunks of at most `BUFSIZ` bytes and hands
each chunk to `safewrite`, which writes it in as many calls as it takes. The results of all the
calls of `read` and `write`, in order, are a list of outcomes; the only error among them is an
interruption by a signal. `safewrite` adds the result of an interrupted `write`, which is -1, to its
total.

* `safewrite_spec`: without an interruption a chunk is accepted as it is; after one, bytes are
  accepted twice, or the last byte is not accepted.
* `stream_copies_iff`: the bytes are copied exactly when no `write` is interrupted.
-/

namespace SemOS.Copy

variable {α β : Type*}

/-- `BUFSIZ`, an integer constant of the C library. -/
structure Bufsiz where
  size : ℕ
  pos : 256 ≤ size
  lt : size < 2 ^ 31

/-- The result of one call of `read` or `write`: a number of bytes, 0 at the end of the file, or -1
with `EINTR`. -/
inductive Outcome
  | readCount (n : ℕ)
  | readInterrupted
  | writeCount (n : ℕ)
  | writeInterrupted
  deriving DecidableEq

/-- A `ssize_t` converted to `size_t`. -/
def sizeT (n : ℤ) : ℕ := (n % 2 ^ 64).toNat

/-- The loop of `safewrite`: the bytes that are accepted, the value returned and the outcomes that
are left. There is no result if it does not return within the outcomes, or if they are not those of
its calls. -/
def safewrite (buffer : List α) (writtenTotal : ℤ) (outcomes : List Outcome) :
    Option (List α × ℤ × List Outcome) :=
  if sizeT writtenTotal < buffer.length then
    match outcomes with
    | .writeCount n :: outcomes =>
      if 1 ≤ n ∧ n ≤ buffer.length - sizeT writtenTotal then
        (safewrite buffer (writtenTotal + n) outcomes).map fun (accepted, result) =>
          ((buffer.drop (sizeT writtenTotal)).take n ++ accepted, result)
      else none
    | .writeInterrupted :: outcomes => safewrite buffer (writtenTotal + -1) outcomes
    | _ => none
  else some ([], writtenTotal, outcomes)

theorem safewrite_length {buffer accepted : List α} {writtenTotal result : ℤ}
    {outcomes rest : List Outcome}
    (h : safewrite buffer writtenTotal outcomes = some (accepted, result, rest)) :
    rest.length ≤ outcomes.length := by
  induction outcomes generalizing writtenTotal accepted with
  | nil =>
    unfold safewrite at h
    split at h
    · cases h
    · cases h
      exact Nat.le_refl _
  | cons o outcomes ih =>
    unfold safewrite at h
    split at h
    · cases o with
      | writeCount n =>
        simp only at h
        split at h
        · obtain ⟨⟨accepted', result'⟩, h', heq⟩ := Option.map_eq_some_iff.1 h
          cases heq
          exact Nat.le_succ_of_le (ih h')
        · cases h
      | writeInterrupted => exact Nat.le_succ_of_le (ih h)
      | readCount n => cases h
      | readInterrupted => cases h
    · cases h
      exact Nat.le_refl _

/-- The loop of `stream`, on what is left of the input: the bytes that `fd_OUT` accepts, if it
returns at the end of the outcomes. An error is an interruption, so `errno` is `EINTR` wherever it
is looked at, and a negative result of `safewrite` does not end the loop. -/
def stream (bufsiz : Bufsiz) (input : List α) : List Outcome → Option (List α)
  | .readInterrupted :: outcomes => stream bufsiz input outcomes
  | .readCount n :: outcomes =>
    if n ≤ bufsiz.size ∧ n ≤ input.length ∧ (n = 0 → input = []) then
      match _h : safewrite (input.take n) 0 outcomes with
      | some (accepted, _, rest) =>
        if n = 0 then if rest = [] then some accepted else none
        else (stream bufsiz (input.drop n) rest).map (accepted ++ ·)
      | none => none
    else none
  | _ => none
termination_by outcomes => outcomes.length
decreasing_by
  · exact Nat.lt_succ_self _
  · exact Nat.lt_succ_of_le (safewrite_length _h)

variable {bufsiz : Bufsiz} {buffer input accepted : List α} {writtenTotal result : ℤ} {w n : ℕ}
  {outcomes rest : List Outcome}

/-! ## One chunk -/

theorem sizeT_natCast (h : w < 2 ^ 64) : sizeT w = w := by
  rw [sizeT]
  omega

theorem sizeT_neg_one : sizeT (-1) = 2 ^ 64 - 1 := by decide

theorem safewrite_done (h : ¬ sizeT writtenTotal < buffer.length) :
    safewrite buffer writtenTotal outcomes = some ([], writtenTotal, outcomes) := by
  unfold safewrite
  rw [if_neg h]

/-- What `safewrite` makes of the next outcome. -/
theorem safewrite_next {o : Outcome} (hw : sizeT writtenTotal < buffer.length)
    (h : safewrite buffer writtenTotal (o :: outcomes) = some (accepted, result, rest)) :
    (∃ n accepted', o = .writeCount n ∧ 1 ≤ n ∧ n ≤ buffer.length - sizeT writtenTotal ∧
      accepted = (buffer.drop (sizeT writtenTotal)).take n ++ accepted' ∧
      safewrite buffer (writtenTotal + n) outcomes = some (accepted', result, rest)) ∨
    o = .writeInterrupted ∧
      safewrite buffer (writtenTotal + -1) outcomes = some (accepted, result, rest) := by
  unfold safewrite at h
  rw [if_pos hw] at h
  cases o with
  | writeCount n =>
    simp only at h
    split at h
    · rename_i hn
      obtain ⟨⟨accepted', result'⟩, h', heq⟩ := Option.map_eq_some_iff.1 h
      cases heq
      exact Or.inl ⟨n, accepted', rfl, hn.1, hn.2, rfl, h'⟩
    · cases h
  | writeInterrupted => exact Or.inr ⟨rfl, h⟩
  | readCount n => cases h
  | readInterrupted => cases h

/-- The bytes of a write that does not reach the end of the buffer. -/
theorem take_drop_subset_dropLast (h : w + n < buffer.length) :
    (buffer.drop w).take n ⊆ buffer.dropLast := by
  intro x hx
  rw [List.take_drop, Nat.add_comm] at hx
  rw [List.dropLast_eq_take]
  exact List.take_subset_take_left buffer (by omega) (List.mem_of_mem_drop hx)

/-- The bytes `accepted` of a chunk from `w` on, with the outcomes `used`: all of them without an
interruption, and too many of them or not the last one with it. -/
def Accepts (buffer : List α) (w : ℕ) (used : List Outcome) (accepted : List α) : Prop :=
  accepted ⊆ buffer ∧
    (.writeInterrupted ∉ used ∧ accepted = buffer.drop w ∨
      .writeInterrupted ∈ used ∧
        (buffer.length < w + accepted.length ∨ accepted ⊆ buffer.dropLast))

theorem accepts_nil (h : buffer.length ≤ w) : Accepts buffer w [] [] := by
  refine ⟨List.nil_subset _, Or.inl ⟨List.not_mem_nil, ?_⟩⟩
  rw [List.drop_eq_nil_of_le h]

/-- A write of `n` bytes, which does not end the chunk if an interruption comes after it. -/
theorem Accepts.write {n : ℕ} {used : List Outcome} (h : Accepts buffer (w + n) used accepted)
    (hn : w + n ≤ buffer.length) (hopen : .writeInterrupted ∈ used → w + n < buffer.length) :
    Accepts buffer w (.writeCount n :: used) ((buffer.drop w).take n ++ accepted) := by
  obtain ⟨hsub, hcase⟩ := h
  have htake : (buffer.drop w).take n ⊆ buffer := fun x hx =>
    List.mem_of_mem_drop (List.mem_of_mem_take hx)
  refine ⟨List.append_subset.2 ⟨htake, hsub⟩, ?_⟩
  obtain ⟨hno, rfl⟩ | ⟨hyes, hmore | hlast⟩ := hcase
  · refine Or.inl ⟨by simpa using hno, ?_⟩
    rw [← List.drop_drop, List.take_append_drop]
  · refine Or.inr ⟨List.mem_cons_of_mem _ hyes, Or.inl ?_⟩
    rw [List.length_append, List.length_take, List.length_drop]
    omega
  · exact Or.inr ⟨List.mem_cons_of_mem _ hyes, Or.inr
      (List.append_subset.2 ⟨take_drop_subset_dropLast (hopen hyes), hlast⟩)⟩

/-- An interrupted write, after which the byte before `w + 1` is written again. -/
theorem Accepts.interrupted {used : List Outcome} (h : Accepts buffer w used accepted)
    (hw : w < buffer.length) :
    Accepts buffer (w + 1) (.writeInterrupted :: used) accepted := by
  obtain ⟨hsub, hcase⟩ := h
  refine ⟨hsub, Or.inr ⟨List.mem_cons_self .., ?_⟩⟩
  obtain ⟨-, rfl⟩ | ⟨-, hmore | hlast⟩ := hcase
  · refine Or.inl ?_
    rw [List.length_drop]
    omega
  · exact Or.inl (by omega)
  · exact Or.inr hlast

/-- **What is accepted of a chunk of which `w` bytes have been written.** Without an interruption it
is the rest of the chunk. After one it is more than the rest, or the last byte is missing. -/
theorem safewrite_spec (hw : w ≤ buffer.length) (hlt : buffer.length < 2 ^ 64)
    (h : safewrite buffer w outcomes = some (accepted, result, rest)) :
    ∃ used, outcomes = used ++ rest ∧ Accepts buffer w used accepted := by
  have hsize : sizeT w = w := sizeT_natCast (Nat.lt_of_le_of_lt hw hlt)
  induction outcomes generalizing w accepted with
  | nil =>
    unfold safewrite at h
    rw [hsize] at h
    split at h
    · cases h
    · cases h
      exact ⟨[], rfl, accepts_nil (by omega)⟩
  | cons o outcomes ih =>
    by_cases hdone : w = buffer.length
    · rw [safewrite_done (by omega)] at h
      cases h
      exact ⟨[], rfl, accepts_nil (by omega)⟩
    · obtain ⟨n, accepted', rfl, hn, hn', rfl, h'⟩ | ⟨rfl, h'⟩ := safewrite_next (by omega) h
      · rw [hsize] at hn' ⊢
        have hwn : w + n ≤ buffer.length := by omega
        rw [← Int.natCast_add] at h'
        obtain ⟨used, rfl, haccepts⟩ := ih hwn h' (sizeT_natCast (by omega))
        refine ⟨.writeCount n :: used, rfl, haccepts.write hwn fun hyes => ?_⟩
        -- the write did not end the chunk, as an interruption came after it
        by_contra hfull
        rw [safewrite_done (by rw [sizeT_natCast (by omega)]; omega)] at h'
        have hrest := congrArg (fun r => r.2.2.length) (Option.some.inj h')
        simp only [List.length_append] at hrest
        have := List.length_pos_of_mem hyes
        omega
      · cases w with
        | zero =>
          -- the total becomes -1, which is more than any size
          rw [safewrite_done (by
            rw [show ((0 : ℕ) : ℤ) + -1 = -1 from rfl, sizeT_neg_one]
            omega)] at h'
          cases h'
          exact ⟨[.writeInterrupted], rfl, List.nil_subset _,
            Or.inr ⟨List.mem_singleton_self _, Or.inr (List.nil_subset _)⟩⟩
        | succ w =>
          rw [show ((w + 1 : ℕ) : ℤ) + -1 = (w : ℤ) by omega] at h'
          obtain ⟨used, rfl, haccepts⟩ := ih (by omega) h' (sizeT_natCast (by omega))
          exact ⟨.writeInterrupted :: used, rfl, haccepts.interrupted (by omega)⟩

/-- An interrupted chunk is not accepted as it is. -/
theorem accepted_ne (hne : buffer ≠ []) (hnodup : buffer.Nodup)
    (h : buffer.length < 0 + accepted.length ∨ accepted ⊆ buffer.dropLast) : accepted ≠ buffer := by
  rintro rfl
  obtain h | h := h
  · omega
  · have hlast := h (List.getLast_mem hne)
    rw [← List.dropLast_append_getLast hne] at hnodup
    exact (List.disjoint_of_nodup_append hnodup) hlast (List.mem_singleton_self _)

/-- A chunk of distinct bytes is accepted as it is exactly without an interruption. -/
theorem Accepts.eq_iff {used : List Outcome} (h : Accepts buffer 0 used accepted)
    (hne : buffer ≠ []) (hnodup : buffer.Nodup) :
    accepted = buffer ↔ .writeInterrupted ∉ used := by
  obtain ⟨-, ⟨hno, rfl⟩ | ⟨hyes, hcase⟩⟩ := h
  · exact ⟨fun _ => hno, fun _ => List.drop_zero⟩
  · exact ⟨fun heq => absurd heq (accepted_ne hne hnodup hcase), fun hno => absurd hyes hno⟩

/-! ## The whole input -/

/-- What `stream` makes of the next outcome. -/
theorem stream_next {o : Outcome} (h : stream bufsiz input (o :: outcomes) = some accepted) :
    o = .readInterrupted ∧ stream bufsiz input outcomes = some accepted ∨
      ∃ n accepted₁ result rest, o = .readCount n ∧
        (n ≤ bufsiz.size ∧ n ≤ input.length ∧ (n = 0 → input = [])) ∧
        safewrite (input.take n) 0 outcomes = some (accepted₁, result, rest) ∧
        (n = 0 ∧ rest = [] ∧ accepted = accepted₁ ∨ n ≠ 0 ∧
          ∃ accepted₂, stream bufsiz (input.drop n) rest = some accepted₂ ∧
            accepted = accepted₁ ++ accepted₂) := by
  unfold stream at h
  cases o with
  | readInterrupted => exact Or.inl ⟨rfl, h⟩
  | readCount n =>
    simp only at h
    split at h
    · rename_i hn
      split at h
      · rename_i accepted₁ result rest hs
        refine Or.inr ⟨n, accepted₁, result, rest, rfl, hn, hs, ?_⟩
        split at h
        · rename_i hzero
          split at h
          · rename_i hrest
            exact Or.inl ⟨hzero, hrest, (Option.some.inj h).symm⟩
          · cases h
        · rename_i hpos
          obtain ⟨accepted₂, h₂, heq⟩ := Option.map_eq_some_iff.1 h
          exact Or.inr ⟨hpos, accepted₂, h₂, heq.symm⟩
      · cases h
    · cases h
  | writeCount n => cases h
  | writeInterrupted => cases h

/-- Two parts are accepted as they are when each of them is. -/
theorem append_eq_append_iff [DecidableEq α] {x y a b : List α} (hxy : x.Disjoint y) (ha : a ⊆ x)
    (hb : b ⊆ y) : a ++ b = x ++ y ↔ a = x ∧ b = y := by
  constructor
  · intro h
    have hfilter : ∀ {u v : List α}, u ⊆ x → v ⊆ y → (u ++ v).filter (· ∈ x) = u := by
      intro u v hu hv
      rw [List.filter_append, List.filter_eq_self.2 (fun c hc => by simpa using hu hc),
        List.filter_eq_nil_iff.2 (fun c hc => by simpa using fun hcx => hxy hcx (hv hc)),
        List.append_nil]
    have hax : a = x := by
      rw [← hfilter ha hb, h, hfilter (List.Subset.refl x) (List.Subset.refl y)]
    rw [hax] at h
    exact ⟨hax, List.append_cancel_left h⟩
  · rintro ⟨rfl, rfl⟩
    rfl

/-- **Distinct bytes are accepted as they are exactly when no `write` is interrupted.** -/
theorem stream_spec [DecidableEq α] (hnodup : input.Nodup)
    (h : stream bufsiz input outcomes = some accepted) :
    accepted ⊆ input ∧ (accepted = input ↔ .writeInterrupted ∉ outcomes) := by
  induction hm : outcomes.length using Nat.strongRecOn generalizing outcomes input accepted with
  | ind m ih =>
    subst hm
    cases outcomes with
    | nil =>
      unfold stream at h
      cases h
    | cons o outcomes =>
      obtain ⟨rfl, h'⟩ | ⟨n, accepted₁, result, rest, rfl, ⟨hbuf, hlen, hzero⟩, hs, hcase⟩ :=
        stream_next h
      · obtain ⟨hsub, hiff⟩ := ih _ (Nat.lt_succ_self _) hnodup h' rfl
        exact ⟨hsub, by simpa using hiff⟩
      · have hrest := safewrite_length hs
        have hchunk : (input.take n).length = n := by
          rw [List.length_take]
          omega
        have hlt := bufsiz.lt
        obtain ⟨used, rfl, haccepts⟩ :=
          safewrite_spec (Nat.zero_le _) (by rw [hchunk]; omega) hs
        have hsub₁ := haccepts.1
        obtain ⟨rfl, rfl, rfl⟩ | ⟨hpos, accepted₂, h₂, rfl⟩ := hcase
        · -- the end of the file
          obtain rfl := hzero rfl
          rw [List.take_nil] at hs hsub₁
          rw [safewrite_done (by simp)] at hs
          have hused := congrArg (fun r => r.2.2) (Option.some.inj hs)
          obtain rfl : used = [] := by simpa using hused
          obtain rfl := List.subset_nil.1 hsub₁
          exact ⟨List.Subset.refl _, by simp⟩
        · have hparts : (input.take n ++ input.drop n).Nodup := by
            rwa [List.take_append_drop]
          have hne : input.take n ≠ [] := by
            intro hnil
            rw [hnil] at hchunk
            exact hpos hchunk.symm
          obtain ⟨hsub₂, hiff₂⟩ := ih _ (Nat.lt_succ_of_le hrest)
            (List.Nodup.of_append_right hparts) h₂ rfl
          have hiff₁ := haccepts.eq_iff hne (List.Nodup.of_append_left hparts)
          have hboth := append_eq_append_iff (List.disjoint_of_nodup_append hparts) hsub₁ hsub₂
          rw [List.take_append_drop, hiff₁, hiff₂] at hboth
          refine ⟨?_, hboth.trans (by simp)⟩
          exact List.append_subset.2 ⟨fun x hx => List.mem_of_mem_take (hsub₁ hx),
            fun x hx => List.mem_of_mem_drop (hsub₂ hx)⟩

/-! ## Bytes and their places -/

/-- The code does not look at the bytes. -/
theorem safewrite_map (f : α → β) (buffer : List α) (writtenTotal : ℤ) (outcomes : List Outcome) :
    safewrite (buffer.map f) writtenTotal outcomes =
      (safewrite buffer writtenTotal outcomes).map fun r => (r.1.map f, r.2) := by
  induction outcomes generalizing writtenTotal with
  | nil =>
    unfold safewrite
    rw [List.length_map]
    split <;> rfl
  | cons o outcomes ih =>
    unfold safewrite
    rw [List.length_map]
    split
    · cases o with
      | writeCount n =>
        simp only
        split
        · rw [ih, Option.map_map, Option.map_map]
          congr 1
          funext r
          simp [List.map_take, List.map_drop]
        · rfl
      | writeInterrupted => exact ih _
      | readCount n => rfl
      | readInterrupted => rfl
    · rfl

/-- A chunk that `safewrite` returns from. -/
theorem stream_readCount (hn : n ≤ bufsiz.size ∧ n ≤ input.length ∧ (n = 0 → input = []))
    (hs : safewrite (input.take n) 0 outcomes = some (accepted, result, rest)) :
    stream bufsiz input (.readCount n :: outcomes) =
      if n = 0 then if rest = [] then some accepted else none
      else (stream bufsiz (input.drop n) rest).map (accepted ++ ·) := by
  rw [stream, if_pos hn]
  split
  · rename_i hs'
    rw [hs] at hs'
    cases hs'
    rfl
  · rename_i hs'
    rw [hs] at hs'
    cases hs'

/-- A run on mapped bytes is one on the bytes themselves. -/
theorem stream_of_map (f : α → β) {written : List β}
    (h : stream bufsiz (input.map f) outcomes = some written) :
    ∃ accepted, stream bufsiz input outcomes = some accepted ∧ accepted.map f = written := by
  induction hm : outcomes.length using Nat.strongRecOn generalizing outcomes input written with
  | ind m ih =>
    subst hm
    cases outcomes with
    | nil =>
      unfold stream at h
      cases h
    | cons o outcomes =>
      obtain ⟨rfl, h'⟩ | ⟨n, written₁, result, rest, rfl, hn, hs, hcase⟩ := stream_next h
      · obtain ⟨accepted, ha, hf⟩ := ih _ (Nat.lt_succ_self _) h' rfl
        exact ⟨accepted, by rw [stream, ha], hf⟩
      · have hrest := safewrite_length hs
        rw [List.length_map, List.map_eq_nil_iff] at hn
        rw [← List.map_take, safewrite_map] at hs
        obtain ⟨⟨accepted₁, result', rest'⟩, hs₁, heq⟩ := Option.map_eq_some_iff.1 hs
        cases heq
        obtain ⟨rfl, rfl, rfl⟩ | ⟨hpos, written₂, h₂, rfl⟩ := hcase
        · exact ⟨accepted₁, by rw [stream_readCount hn hs₁, if_pos rfl, if_pos rfl], rfl⟩
        · rw [← List.map_drop] at h₂
          obtain ⟨accepted₂, ha₂, rfl⟩ := ih _ (Nat.lt_succ_of_le hrest) h₂ rfl
          refine ⟨accepted₁ ++ accepted₂, ?_, List.map_append⟩
          rw [stream_readCount hn hs₁, if_neg hpos, ha₂]
          rfl

/-- **The bytes that are accepted, each with its place in the input, are the bytes of the input,
each once and in order, exactly when no `write` is interrupted.** -/
theorem stream_copies_iff (bufsiz : Bufsiz) (input written : List UInt8) (outcomes : List Outcome)
    (h : stream bufsiz input outcomes = some written) :
    ∃ accepted, stream bufsiz input.zipIdx outcomes = some accepted ∧
      accepted.map Prod.fst = written ∧
      (accepted = input.zipIdx ↔ .writeInterrupted ∉ outcomes) := by
  rw [← List.zipIdx_map_fst 0 input] at h
  obtain ⟨accepted, ha, hf⟩ := stream_of_map Prod.fst h
  have hnodup : input.zipIdx.Nodup := List.Nodup.of_map _ (List.nodup_zipIdx_map_snd input)
  exact ⟨accepted, ha, hf, (stream_spec hnodup ha).2⟩

/-- The smallest buffer size that is allowed. -/
def smallest : Bufsiz := ⟨256, by decide, by decide⟩

/-- The outcomes of a run on two bytes: they are read at once, after an interruption, and written
one by one. -/
def oneByOne : List Outcome :=
  [.readInterrupted, .readCount 2, .writeCount 1, .writeCount 1, .readCount 0]

theorem stream_copies_ab : ∃ accepted,
    stream smallest ([97, 98] : List UInt8).zipIdx oneByOne = some accepted ∧
      accepted.map Prod.fst = [97, 98] ∧
      (accepted = ([97, 98] : List UInt8).zipIdx ↔ .writeInterrupted ∉ oneByOne) :=
  stream_copies_iff smallest [97, 98] [97, 98] oneByOne (by decide +kernel)

/-- A signal after the first of two bytes has been written: it is written again. -/
theorem interrupted_write_repeats :
    ¬ ∀ (bufsiz : Bufsiz) (input written : List UInt8) (outcomes : List Outcome),
      stream bufsiz input outcomes = some written → written = input := by
  intro h
  have hrun := h smallest [97, 98] [97, 97, 98] [.readCount 2, .writeCount 1, .writeInterrupted,
    .writeCount 2, .readCount 0] (by decide +kernel)
  exact absurd hrun (by decide)

end SemOS.Copy
