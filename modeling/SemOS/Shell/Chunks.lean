import SemOS.Shell.Feeding
import SemOS.Shell.PastEnd
import SemOS.Shell.Session

/-!
# Sessions and the cuts of their input

`answers` is what a byte stream is answered with, and the bytes that are left: it does not know of
chunks (`answers_append`). A session over chunks gives the answers of the whole stream as long as no
chunk ends in a line end that the parser cannot rest at: after a blank line, or at a carriage
return, where an assertion fails.

* `drainWithin_eq`: the inner loop gives the answers of the bytes in the buffer, and then leaves the
  rest or fails.
* `session_eq`: so does a session, up to the first chunk at which it fails (`failure`).
-/

namespace SemOS.Shell

variable {p : Parser} {bs x y l r : List UInt8} {res : ParserError × Option CommandLine}
  {heap : ℕ → ℕ → UInt8}

/-- The answers to a byte stream, and the bytes that are left of it. -/
def answers (bs : List UInt8) : List (ParserError × Option CommandLine) × List UInt8 :=
  match _h : nextLine bs with
  | none => ([], bs)
  | some (res, r) => (res :: (answers r).1, (answers r).2)
termination_by bs.length
decreasing_by
  all_goals
    have := length_of_nextLine _h
    omega

theorem answers_of_none (h : nextLine bs = none) : answers bs = ([], bs) := by
  rw [answers]
  split
  · rfl
  · rename_i h'
    rw [h] at h'
    cases h'

theorem answers_of_some (h : nextLine bs = some (res, r)) :
    answers bs = (res :: (answers r).1, (answers r).2) := by
  rw [answers]
  split
  · rename_i h'
    rw [h] at h'
    cases h'
  · rename_i h'
    rw [h] at h'
    cases h'
    rfl

/-! ## More bytes -/

theorem splitLine_append (h : splitLine x = some (l, r)) (y : List UInt8) :
    splitLine (x ++ y) = some (l, r ++ y) := by
  induction x generalizing l with
  | nil => cases h
  | cons c x ih =>
    rw [splitLine] at h
    rw [List.cons_append, splitLine]
    split at h
    · rename_i hc
      cases h
      rw [if_pos hc]
    · rename_i hc
      rw [if_neg hc]
      split at h
      · rename_i hr
        rw [if_pos hr]
        split at h
        · cases h
        · rename_i hx
          cases h
          rw [if_neg (by simp [hx]), List.tail_append_of_ne_nil hx]
      · rename_i hr
        obtain ⟨⟨l', r'⟩, hs, h⟩ := Option.map_eq_some_iff.1 h
        cases h
        rw [if_neg hr, ih hs]
        rfl

theorem nextLine_append (h : nextLine x = some (res, r)) (y : List UInt8) :
    nextLine (x ++ y) = some (res, r ++ y) := by
  induction hn : x.length using Nat.strongRecOn generalizing x with
  | ind n ih =>
    subst hn
    cases hs : splitLine x with
    | none =>
      rw [nextLine_of_none hs] at h
      cases h
    | some lr =>
      rw [nextLine_of_split hs] at h
      rw [nextLine_of_split (splitLine_append hs y)]
      split at h
      · rename_i hT
        rw [if_pos hT]
        exact ih _ (length_of_splitLine hs) h rfl
      · rename_i hT
        cases h
        rw [if_neg hT]

/-- **The answers to more bytes** go on from the bytes that were left. -/
theorem answers_append (x y : List UInt8) :
    answers (x ++ y) =
      ((answers x).1 ++ (answers ((answers x).2 ++ y)).1, (answers ((answers x).2 ++ y)).2) := by
  induction hn : x.length using Nat.strongRecOn generalizing x with
  | ind n ih =>
    subst hn
    cases hx : nextLine x with
    | none =>
      rw [answers_of_none hx]
      rfl
    | some resr =>
      obtain ⟨res, r⟩ := resr
      rw [answers_of_some hx, answers_of_some (nextLine_append hx y),
        ih _ (by have := length_of_nextLine hx; omega) _ rfl]
      rfl

/-- The bytes left have no next line. -/
theorem nextLine_answers (bs : List UInt8) : nextLine (answers bs).2 = none := by
  induction hn : bs.length using Nat.strongRecOn generalizing bs with
  | ind n ih =>
    subst hn
    cases hb : nextLine bs with
    | none => rw [answers_of_none hb, hb]
    | some resr =>
      rw [answers_of_some hb]
      exact ih _ (by have := length_of_nextLine hb; omega) _ rfl

/-! ## The inner loop -/

theorem drainWithin_of_none {calls : ℕ} (h : parserPopNext p = .ok (p, .none, none)) :
    drainWithin (calls + 1) p = some ([], .ok p) := by
  rw [drainWithin, h]
  rfl

theorem drainWithin_of_some {calls : ℕ} {p' : Parser} (h : parserPopNext p = .ok (p', res))
    (hres : res ≠ (.none, none)) : drainWithin (calls + 1) p =
      (drainWithin calls p').map fun (outs, last) => (res :: outs, last) := by
  rw [drainWithin, h]
  simp only [if_neg hres]

theorem drainWithin_of_fault {calls : ℕ} {err : Fault} (h : parserPopNext p = .error err) :
    drainWithin (calls + 1) p = some ([], .error err) := by
  rw [drainWithin, h]

theorem addToken_error {line : CommandLine} {t : Token} {err : ParserError}
    (h : addToken line t = .error err) : err ≠ .none := by
  cases t with
  | pipe =>
    rw [addToken] at h
    split at h <;> cases h <;> simp
  | none => cases h
  | str data => cases h
  | newLine => cases h

theorem foldlM_addToken_error {T : List Token} {line : CommandLine} {err : ParserError}
    (h : T.foldlM addToken line = .error err) : err ≠ .none := by
  induction T generalizing line with
  | nil => cases h
  | cons t T ih =>
    rw [List.foldlM_cons] at h
    cases ha : addToken line t with
    | error err' =>
      rw [ha] at h
      cases h
      exact addToken_error ha
    | ok line' =>
      rw [ha] at h
      exact ih h

/-- A line with tokens is answered with a command line or an error. -/
theorem lineResult_ne (T : List Token) : lineResult T ≠ (.none, none) := by
  rw [lineResult]
  split
  · rename_i err h
    simp [foldlM_addToken_error h]
  · split <;> simp

theorem nextLine_ne (h : nextLine bs = some (res, r)) : res ≠ (.none, none) := by
  induction hn : bs.length using Nat.strongRecOn generalizing bs with
  | ind n ih =>
    subst hn
    cases hs : splitLine bs with
    | none =>
      rw [nextLine_of_none hs] at h
      cases h
    | some lr =>
      rw [nextLine_of_split hs] at h
      split at h
      · exact ih _ (length_of_splitLine hs) h rfl
      · cases h
        exact lineResult_ne _

/-- **The inner loop gives the answers of the bytes in the buffer**, within one call more than there
are bytes. Then it leaves the rest, or an assertion fails there. -/
theorem drainWithin_eq {calls : ℕ} (hcalls : p.size < calls)
    (hspace : ¬ EndsInSpace (answers p.data).2)
    (hfull : ¬ ((openLine (answers p.data).2).getLast? = some carriageReturn ∧
      (answers p.data).2.length + 1 = 2 ^ 32)) :
    ∃ last, drainWithin calls p = some ((answers p.data).1, last) ∧
      if EndsInLineEnd (answers p.data).2 then last = .error .assertionFailed
      else ∃ p', last = .ok p' ∧ p'.data = (answers p.data).2 ∧
        p'.buffer.length = p.buffer.length := by
  induction calls generalizing p with
  | zero => omega
  | succ calls ih =>
    cases hd : nextLine p.data with
    | none =>
      rw [answers_of_none hd] at hspace hfull ⊢
      by_cases hend : EndsInLineEnd p.data
      · have hwraps : ¬ p.Wraps := by
          rintro (⟨hr, hsize⟩ | ⟨hs, -⟩)
          · exact hfull ⟨hr, by rw [Parser.length_data, hsize]⟩
          · exact hspace hs
        rw [drainWithin_of_fault (parserPopNext_fault hd hend hwraps)]
        exact ⟨_, rfl, by rw [if_pos hend]⟩
      · rw [drainWithin_of_none (parserPopNext_of_open hd hend hspace)]
        exact ⟨_, rfl, by rw [if_neg hend]; exact ⟨p, rfl, rfl, rfl⟩⟩
    | some resr =>
      obtain ⟨res, r⟩ := resr
      rw [answers_of_some hd] at hspace hfull ⊢
      obtain ⟨p', hp', rfl, hcap⟩ := parserPopNext_of_nextLine hd
      have hlen := length_of_nextLine hd
      rw [Parser.length_data, Parser.length_data] at hlen
      obtain ⟨last, hlast, hrest⟩ := ih (show p'.size < calls by omega) hspace hfull
      rw [drainWithin_of_some hp' (nextLine_ne hd), hlast]
      rw [hcap] at hrest
      exact ⟨last, rfl, hrest⟩

/-! ## Sessions -/

/-- The number of answers before the first chunk that ends in a line end the parser cannot rest at,
when `held` bytes are in the buffer. -/
def failure (held : List UInt8) : List Chunk → Option ℕ
  | [] => none
  | c :: cs =>
    let (out, rest) := answers (held ++ c.bytes)
    if EndsInLineEnd rest then some out.length
    else (failure rest cs).map (out.length + ·)

/-- Up to that chunk no chunk ends in a space of an open line, every feed appends its bytes
(`feed_appends_iff`), and no chunk ends in a carriage return that is the last byte of a buffer of
`2 ^ 32 - 1` bytes. -/
def Clean (capacity : ℕ) (held : List UInt8) : List Chunk → Prop
  | [] => True
  | c :: cs =>
    let bytes := held ++ c.bytes
    let rest := (answers bytes).2
    ¬ EndsInSpace rest ∧ bytes.length < 2 ^ 32 ∧
      GrowthSound capacity held.length c.bytes.length ∧
      ¬ ((openLine rest).getLast? = some carriageReturn ∧ rest.length + 1 = 2 ^ 32) ∧
      (¬ EndsInLineEnd rest → Clean (fedCapacity capacity held.length c.bytes.length) rest cs)

/-- **A session over clean chunks gives the answers of the whole stream**, up to the first chunk at
which it fails. -/
theorem session_eq (heap : ℕ → ℕ → UInt8) (n : ℕ) (cut : List Chunk) (p : Parser)
    (hp : nextLine p.data = none) (h : Clean p.buffer.length p.data cut) :
    match failure p.data cut with
    | none => ∃ p', session heap n cut p =
          some ((answers (p.data ++ cut.flatMap Chunk.bytes)).1, .ok p') ∧
        p'.data = (answers (p.data ++ cut.flatMap Chunk.bytes)).2
    | some k => k ≤ (answers (p.data ++ cut.flatMap Chunk.bytes)).1.length ∧
        ∃ err, session heap n cut p =
          some ((answers (p.data ++ cut.flatMap Chunk.bytes)).1.take k, .error err) := by
  induction cut generalizing n p with
  | nil =>
    rw [List.flatMap_nil, List.append_nil, answers_of_none hp]
    exact ⟨p, rfl, rfl⟩
  | cons c cs ih =>
    obtain ⟨hspace, hlen, hgrowth, hfull, hclean⟩ := h
    rw [List.length_append, p.length_data] at hlen
    rw [p.length_data] at hgrowth hclean
    obtain ⟨p₁, hfeed, -, hp₁, hcap⟩ := parserFeed_of_le ((le_roomFor_iff (heap n) hlen).2 hgrowth)
    rw [← hp₁] at hspace hfull hclean
    rw [← hcap] at hclean
    obtain ⟨last, hdrain, hlast⟩ := drainWithin_eq (Nat.lt_succ_self p₁.size) hspace hfull
    have happ := answers_append p₁.data (cs.flatMap Chunk.bytes)
    rw [List.flatMap_cons, ← List.append_assoc, ← hp₁, happ]
    simp only [failure, ← hp₁, session, hfeed, drain, hdrain]
    by_cases hend : EndsInLineEnd (answers p₁.data).2
    · rw [if_pos hend] at hlast ⊢
      rw [hlast]
      refine ⟨by rw [List.length_append]; omega, .assertionFailed, ?_⟩
      rw [List.take_left]
    · rw [if_neg hend] at hlast ⊢
      obtain ⟨p₂, rfl, hp₂, hcap₂⟩ := hlast
      have hrest := ih (n + 1) p₂ (by rw [hp₂]; exact nextLine_answers _)
        (by rw [hp₂, hcap₂]; exact hclean hend)
      rw [hp₂] at hrest
      cases hf : failure (answers p₁.data).2 cs with
      | none =>
        rw [hf] at hrest
        obtain ⟨p₃, h₁, h₂⟩ := hrest
        refine ⟨p₃, ?_, h₂⟩
        simp only [h₁, Option.map_some]
      | some k =>
        rw [hf] at hrest
        obtain ⟨hk, err, h₁⟩ := hrest
        simp only [Option.map_some]
        refine ⟨?_, err, ?_⟩
        · rw [List.length_append]
          omega
        · rw [h₁, Option.map_some, List.take_length_add_append]

/-- What is seen of a session over clean chunks. -/
theorem outcome_eq (heap : ℕ → ℕ → UInt8) (cut : List Chunk) (h : Clean 0 [] cut) :
    match failure [] cut with
    | none => outcome heap cut = some ((answers (cut.flatMap Chunk.bytes)).1,
        some (answers (cut.flatMap Chunk.bytes)).2)
    | some k => outcome heap cut = some ((answers (cut.flatMap Chunk.bytes)).1.take k, none) ∧
        k ≤ (answers (cut.flatMap Chunk.bytes)).1.length := by
  have hs := session_eq heap 0 cut parserNew (nextLine_of_none rfl) h
  rw [show parserNew.data = [] from rfl, List.nil_append] at hs
  cases hf : failure [] cut with
  | none =>
    rw [hf] at hs
    obtain ⟨p', h₁, h₂⟩ := hs
    simp only [outcome, h₁, Except.toOption, Option.map_some, h₂]
  | some k =>
    rw [hf] at hs
    obtain ⟨hk, err, h₁⟩ := hs
    refine ⟨?_, hk⟩
    simp only [outcome, h₁, Except.toOption, Option.map_some, Option.map_none]

instance (capacity : ℕ) (held : List UInt8) (cut : List Chunk) :
    Decidable (Clean capacity held cut) := by
  induction cut generalizing capacity held with
  | nil => exact isTrue trivial
  | cons c cs ih =>
    have := ih (fedCapacity capacity held.length c.bytes.length) (answers (held ++ c.bytes)).2
    exact inferInstanceAs (Decidable (_ ∧ _ ∧ _ ∧ _ ∧ (_ → _)))

/-- The line `ab` in one chunk. -/
def oneChunk : List Chunk := [⟨[97, 98, 10], by decide, by decide⟩]

/-- The same line, cut after its first byte. -/
def twoChunks : List Chunk := [⟨[97], by decide, by decide⟩, ⟨[98, 10], by decide, by decide⟩]

end SemOS.Shell
