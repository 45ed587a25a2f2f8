import Mathlib.Data.FinEnum
import SemOS.Shell.Chunks
import SemOS.Shell.Grammar

/-!
# Every outcome of `parser_pop_next`

Without a complete line that has a token, `parser_pop_next` should find nothing to do. Where the
bytes end in a space it goes on reading behind them, in what earlier lines left there
(`Parser.behind`), and what it finds decides.

* `parserPopNext_cases`: it rests, or answers an open line where the count of the bytes wraps
  around, or the run ends.
* `parserPopNext_rests_iff`: when it returns no line and changes nothing.
* `parserPopNext_independent_iff`: for which bytes the memory behind them does not matter.
* `blankLines_transparent_iff`: when blank lines do not matter.
-/

namespace SemOS.Shell

variable {p q : Parser} {pos n : ℕ} {line : CommandLine} {tok : Token} {res : ParserError}
  {bs l memory : List UInt8} {T : List Token}

/-! ## Tokens behind the end -/

/-- The first byte that is not a space, or the end of the memory. -/
theorem skip2firstNonspace_cases (memory : List UInt8) :
    (∃ m, memory = List.replicate m space) ∧ skip2firstNonspace memory = .error .outOfBounds ∨
      (∃ c ∈ memory, c ≠ space) ∧ ∃ m, skip2firstNonspace memory = .ok m := by
  induction memory with
  | nil => exact Or.inl ⟨⟨0, rfl⟩, rfl⟩
  | cons c memory ih =>
    rw [skip2firstNonspace]
    by_cases hc : c = space
    · rw [if_pos hc]
      obtain ⟨⟨m, rfl⟩, h⟩ | ⟨⟨d, hd, hne⟩, m, h⟩ := ih
      · exact Or.inl ⟨⟨m + 1, by rw [hc, List.replicate_succ]⟩, by rw [h]; rfl⟩
      · exact Or.inr ⟨⟨d, List.mem_cons_of_mem _ hd, hne⟩, m + 1, by rw [h]; rfl⟩
    · rw [if_neg hc]
      exact Or.inr ⟨⟨c, List.mem_cons_self .., hc⟩, 0, rfl⟩

theorem skip2firstNonspace_spaces (n : ℕ) (memory : List UInt8) :
    skip2firstNonspace (List.replicate n space ++ memory) =
      (skip2firstNonspace memory).map (n + ·) := by
  induction n with
  | zero =>
    rw [List.replicate_zero, List.nil_append]
    cases skip2firstNonspace memory with
    | error err => rfl
    | ok m => simp [Except.map]
  | succ n ih =>
    rw [List.replicate_succ, List.cons_append, skip2firstNonspace, if_pos rfl, ih]
    cases skip2firstNonspace memory with
    | error err => rfl
    | ok m => exact congrArg Except.ok (show n + m + 1 = n + 1 + m by omega)

/-- What `parse_token` finds where only spaces are left and no line end follows: it goes by the byte
behind them. -/
inductive AfterSpaces (n : ℕ) (memory : List UInt8) : Except Fault (ℕ × Token) → Prop
  | outside (h : ∀ c ∈ memory, c = space) : AfterSpaces n memory (.error .outOfBounds)
  | pipe (h : memory.head? = some bar) : AfterSpaces n memory (.ok (uint32 (n + 1), .pipe))
  | incomplete (h : ∃ c ∈ memory, c ≠ space) : AfterSpaces n memory (.ok (0, .str []))

theorem parseToken_afterSpaces (n : ℕ) (hf : memory.head? ≠ some lineFeed)
    (hr : memory.head? ≠ some carriageReturn) :
    AfterSpaces n memory (parseToken (List.replicate n space ++ memory) n) := by
  rw [parseToken, skip2firstNonspace_spaces]
  obtain ⟨⟨m, rfl⟩, h⟩ | ⟨hspace, m, h⟩ := skip2firstNonspace_cases memory
  · rw [h]
    exact .outside fun c hc => List.eq_of_mem_replicate hc
  · have hmin : min (n + m) n = n := Nat.min_eq_right (Nat.le_add_right n m)
    have hdrop : (List.replicate n space ++ memory).drop n = memory :=
      List.drop_left' List.length_replicate
    rw [h]
    simp only [Except.map, bind, Except.bind, hmin, hdrop, Nat.sub_self]
    cases memory with
    | nil =>
      obtain ⟨c, hc, -⟩ := hspace
      cases hc
    | cons c rest =>
      have hcr : c ≠ carriageReturn := by simpa using hr
      have hcf : c ≠ lineFeed := by simpa using hf
      by_cases hb : c = bar
      · simp only [if_neg hcr, if_neg hcf, if_pos hb]
        exact .pipe (by rw [hb]; rfl)
      · simp only [if_neg hcr, if_neg hcf, if_neg hb]
        exact .incomplete hspace

/-! ## A line that ends in a space -/

/-- What comes of reading on behind the buffered bytes, where no line end follows. -/
def behindOutcome (p : Parser) : Except Fault Popped :=
  if ∀ c ∈ p.behind, c = space then .error .outOfBounds else .ok (p, .none, Option.none)

theorem behindOutcome_rests (h : ∃ c ∈ p.behind, c ≠ space) :
    behindOutcome p = .ok (p, .none, Option.none) := if_neg (by simpa using h)

theorem behindOutcome_bar (h : p.behind.head? = some bar) :
    behindOutcome p = .ok (p, .none, Option.none) :=
  behindOutcome_rests ⟨bar, List.mem_of_head? h, by decide⟩

theorem returnError_past (hpos : ¬ pos < p.size) :
    returnError p res pos = .ok (p, .none, Option.none) := by
  rw [returnError, dif_neg hpos]
  rfl

theorem closeAndReturn_open (htok : tok ≠ .newLine) (hpos : ¬ pos < p.size) :
    closeAndReturn p line tok pos = .ok (p, .none, Option.none) := by
  rw [closeAndReturn, if_neg htok, returnError_past hpos]

/-- A read behind the buffer ends the run. -/
theorem returnError_fault {x : List UInt8} {err : Fault} (hx : p.data.drop pos = x) (hne : x ≠ [])
    (h : parseToken (x ++ p.buffer.drop p.size) x.length = .error err) :
    returnError p res pos = .error err := by
  obtain ⟨hpos, hlen, hdrop⟩ := Parser.drop_buffer hx hne
  rw [returnError, dif_pos hpos, hdrop, hlen, h]
  rfl

theorem popLoop_fault {x : List UInt8} {err : Fault} (hx : p.data.drop pos = x) (hne : x ≠ [])
    (h : parseToken (x ++ p.buffer.drop p.size) x.length = .error err) :
    popLoop p line tok pos = .error err := by
  obtain ⟨hpos, hlen, hdrop⟩ := Parser.drop_buffer hx hne
  rw [popLoop, dif_pos hpos, hdrop, hlen, h]
  rfl

/-- In a line that ends in a space a word is followed by more of the line. -/
theorem next_word_space (hw : IsWord w) (hl : l = [] ∨ l.head? = some space)
    (hx : p.data.drop pos = List.replicate n space ++ (w ++ l))
    (hlast : (List.replicate n space ++ (w ++ l)).getLast? = some space) :
    parseToken (List.replicate n space ++ (w ++ l) ++ p.buffer.drop p.size)
        (List.replicate n space ++ (w ++ l)).length = .ok (n + w.length, .str w) ∧
      p.data.drop (pos + (n + w.length)) = l ∧ l.getLast? = some space := by
  have hword := getLast?_of_append_some (by simp [hw.nonempty]) hlast
  obtain ⟨rfl, -⟩ | ⟨hl', hparse, hx'⟩ := next_word_open hw hl hx
  · rw [List.append_nil] at hword
    exact absurd hword hw.getLast?_ne
  · exact ⟨hparse, hx', getLast?_of_append_some hl' hword⟩

section Behind

variable (hf : p.behind.head? ≠ some lineFeed) (hr : p.behind.head? ≠ some carriageReturn)
include hf hr

section Spaces

variable (hn : n ≠ 0) (hx : p.data.drop pos = List.replicate n space)
include hn hx

/-- `parse_token` at the spaces that the buffered bytes end in. -/
theorem parseToken_atEnd : p.size = pos + n ∧ List.replicate n space ≠ [] ∧
    AfterSpaces n p.behind (parseToken (List.replicate n space ++ p.buffer.drop p.size)
      (List.replicate n space).length) := by
  have hne : List.replicate n space ≠ [] := by simpa using hn
  obtain ⟨hpos, hlen, -⟩ := Parser.drop_buffer hx hne
  rw [List.length_replicate] at hlen ⊢
  exact ⟨by omega, hne, parseToken_afterSpaces n hf hr⟩

theorem returnError_spaces : returnError p res pos = behindOutcome p := by
  obtain ⟨hsize, hne, hparse⟩ := parseToken_atEnd hf hr hn hx
  generalize hout : parseToken _ _ = out at hparse
  cases hparse with
  | outside h => rw [returnError_fault hx hne hout, behindOutcome, if_pos h]
  | pipe h =>
    have hfit := Parser.size_of_behind h
    rw [uint32_of_lt (by omega)] at hout
    rw [returnError_token hx hne (Nat.succ_ne_zero n) (by simp) hout, returnError_past (by omega),
      behindOutcome_bar h]
  | incomplete h => rw [returnError_zero hx hne hout, behindOutcome_rests h]

theorem popLoop_spaces : popLoop p line tok pos = behindOutcome p := by
  obtain ⟨hsize, hne, hparse⟩ := parseToken_atEnd hf hr hn hx
  generalize hout : parseToken _ _ = out at hparse
  cases hparse with
  | outside h => rw [popLoop_fault hx hne hout, behindOutcome, if_pos h]
  | pipe h =>
    have hfit := Parser.size_of_behind h
    rw [uint32_of_lt (by omega)] at hout
    rw [popLoop_bar hx hne (Nat.succ_ne_zero n) hout, behindOutcome_bar h]
    cases addToken line .pipe with
    | error err => exact returnError_past (by omega)
    | ok line' =>
      simp only
      rw [popLoop, dif_neg (by omega)]
      exact closeAndReturn_open (by simp) (by omega)
  | incomplete h => rw [popLoop_zero hx hne hout, behindOutcome_rests h]

end Spaces

/-- After an error in a line that ends in a space the skipping goes on behind the buffered bytes. -/
theorem returnError_space (hT : Content l T) (hx : p.data.drop pos = l)
    (hlast : l.getLast? = some space) : returnError p res pos = behindOutcome p := by
  induction hT generalizing pos with
  | spaces n =>
    refine returnError_spaces hf hr ?_ hx
    rintro rfl
    simp at hlast
  | @bar n l T hT ih =>
    obtain ⟨hparse, hx'⟩ := next_bar (y := []) (by rw [hx, List.append_nil])
    rw [List.append_nil] at hparse hx'
    rw [returnError_token hx (by simp) (Nat.succ_ne_zero n) (by simp) hparse]
    exact ih hx' (getLast?_after_bar hlast)
  | @word n w l T hw hl hT ih =>
    have hne : List.replicate n space ++ (w ++ l) ≠ [] := by simp [hw.nonempty]
    obtain ⟨hparse, hx', hlast'⟩ := next_word_space hw hl hx hlast
    rw [returnError_token hx hne (hw.used_ne_zero n) (by simp) hparse]
    exact ih hx' hlast'

/-- In a line that ends in a space the loop goes on behind the buffered bytes. -/
theorem popLoop_space (hT : Content l T) (hx : p.data.drop pos = l)
    (hlast : l.getLast? = some space) : popLoop p line tok pos = behindOutcome p := by
  induction hT generalizing pos line tok with
  | spaces n =>
    refine popLoop_spaces hf hr ?_ hx
    rintro rfl
    simp at hlast
  | @bar n l T hT ih =>
    obtain ⟨hparse, hx'⟩ := next_bar (y := []) (by rw [hx, List.append_nil])
    rw [List.append_nil] at hparse hx'
    have hlast' := getLast?_after_bar hlast
    rw [popLoop_bar hx (by simp) (Nat.succ_ne_zero n) hparse]
    cases addToken line .pipe with
    | error err => exact returnError_space hf hr hT hx' hlast'
    | ok line' => exact ih hx' hlast'
  | @word n w l T hw hl hT ih =>
    have hne : List.replicate n space ++ (w ++ l) ≠ [] := by simp [hw.nonempty]
    obtain ⟨hparse, hx', hlast'⟩ := next_word_space hw hl hx hlast
    rw [popLoop_str hx hne (hw.used_ne_zero n) hparse]
    exact ih hx' hlast'

end Behind

/-- Bytes that end in a space do not end in a line end. -/
theorem EndsInSpace.not_endsInLineEnd (h : EndsInSpace bs) : ¬ EndsInLineEnd bs := by
  rw [EndsInSpace] at h
  rintro ⟨-, hU | hU⟩
  · rw [hU] at h
    cases h
  · rw [hU] at h
    exact absurd (Option.some.inj h) (by decide)

/-- **Where the bytes end in a space and no line end follows, what lies behind them decides.** -/
theorem parserPopNext_of_space (h : nextLine p.data = none) (hspace : EndsInSpace p.data)
    (hend : ¬ p.EndsLine) : parserPopNext p = behindOutcome p := by
  obtain ⟨pos', tok', hpop, hd, -⟩ := popLoop_of_no_nextLine .none List.drop_zero h (Nat.zero_le _)
  obtain ⟨hf, hr⟩ := not_or.1 fun hhead => hend (Or.inr ⟨hspace, hhead⟩)
  rw [parserPopNext, hpop]
  exact popLoop_space hf hr (content_tokens (noLineEnd_openLine hspace.not_endsInLineEnd)) hd hspace

/-! ## Resting -/

/-- The parser can stay as it is: its bytes end neither in a blank line nor in a carriage return,
and if they end in a space, some byte behind them is none, and the first one ends no line; or they
are one line without a token, whose end is counted up to `2 ^ 32` bytes. -/
def Parser.CanRest (p : Parser) : Prop :=
  ¬ EndsInLineEnd p.data ∧
      (EndsInSpace p.data → (∃ c ∈ p.behind, c ≠ space) ∧ p.behind.head? ≠ some lineFeed ∧
        p.behind.head? ≠ some carriageReturn) ∨
    p.Wraps ∧ (∀ c ∈ (openLine p.data).dropLast, c = space) ∧ openLine p.data = p.data

theorem parserPopNext_rests (h : nextLine p.data = none) (hrest : p.CanRest) :
    parserPopNext p = .ok (p, .none, Option.none) := by
  rcases hrest with ⟨hend, hbehind⟩ | ⟨hwraps, htoken, hdata⟩
  · by_cases hspace : EndsInSpace p.data
    · obtain ⟨hc, hf, hr⟩ := hbehind hspace
      rw [parserPopNext_of_space h hspace, behindOutcome_rests hc]
      rintro (hlast | ⟨-, hhead⟩)
      · rw [EndsInSpace, hlast] at hspace
        exact absurd (Option.some.inj hspace) (by decide)
      · exact hhead.elim hf hr
    · exact parserPopNext_of_open h hend hspace
  · rw [parserPopNext_wraps_blank h hwraps (by simpa using htoken), if_pos hdata]

/-- **Without a next line the parser rests, or it answers an open line and consumes nothing, because
the count of its bytes wraps around, or the run ends.** -/
theorem parserPopNext_cases (h : nextLine p.data = none) :
    p.CanRest ∧ parserPopNext p = .ok (p, .none, Option.none) ∨
      (p.Overruns ∧ p.Wraps) ∧
        parserPopNext p = .ok (p, lineResult (tokens (closedLine p.data))) ∨
      ∃ err, parserPopNext p = .error err := by
  by_cases hrest : p.CanRest
  · exact Or.inl ⟨hrest, parserPopNext_rests h hrest⟩
  refine Or.inr ?_
  by_cases hwraps : p.Wraps
  · by_cases htoken : ∃ c ∈ (openLine p.data).dropLast, c ≠ space
    · have hover : p.Overruns := ⟨h, htoken, hwraps.endsLine⟩
      exact Or.inl ⟨⟨hover, hwraps⟩, parserPopNext_wraps hover hwraps⟩
    · refine Or.inr ⟨.assertionFailed, ?_⟩
      rw [parserPopNext_wraps_blank h hwraps htoken, if_neg]
      exact fun hdata => hrest (Or.inr ⟨hwraps, by simpa using htoken, hdata⟩)
  · by_cases hend : EndsInLineEnd p.data
    · exact Or.inr ⟨_, parserPopNext_fault h hend hwraps⟩
    · by_cases hline : p.EndsLine
      · exact Or.inr ⟨_, parserPopNext_past h hline hwraps⟩
      · by_cases hspace : EndsInSpace p.data
        · have hbehind : ∀ c ∈ p.behind, c = space := by
            by_contra hc
            obtain ⟨hf, hr⟩ := not_or.1 fun hhead => hline (Or.inr ⟨hspace, hhead⟩)
            exact hrest (Or.inl ⟨hend, fun _ => ⟨by simpa using hc, hf, hr⟩⟩)
          exact Or.inr ⟨_, by rw [parserPopNext_of_space h hspace hline, behindOutcome,
            if_pos hbehind]⟩
        · exact absurd (Or.inl ⟨hend, fun hs => absurd hs hspace⟩) hrest

/-- A call without a next line that returns changes nothing. -/
theorem parserPopNext_of_none {p' : Parser} {out : ParserError × Option CommandLine}
    (h : nextLine p.data = none) (hout : parserPopNext p = .ok (p', out)) :
    p' = p ∧ (p.CanRest ∧ out = (.none, none) ∨
      (p.Overruns ∧ p.Wraps) ∧ out ≠ (.none, none)) := by
  obtain ⟨hrest, hpop⟩ | ⟨hspins, hpop⟩ | ⟨err, hpop⟩ := parserPopNext_cases h
  · rw [hpop] at hout
    cases hout
    exact ⟨rfl, Or.inl ⟨hrest, rfl⟩⟩
  · rw [hpop] at hout
    cases hout
    exact ⟨rfl, Or.inr ⟨hspins, lineResult_ne _⟩⟩
  · rw [hpop] at hout
    cases hout

/-- **Without a next line the parser rests exactly when it can.** -/
theorem parserPopNext_rests_iff (h : nextLine p.data = none) :
    parserPopNext p = .ok (p, .none, Option.none) ↔ p.CanRest := by
  refine ⟨fun hp => ?_, parserPopNext_rests h⟩
  obtain ⟨-, ⟨hrest, -⟩ | ⟨-, hne⟩⟩ := parserPopNext_of_none h hp
  · exact hrest
  · exact absurd rfl hne

/-! ## The memory behind the bytes -/

/-- What is seen of a call: the bytes it leaves, the error code and the line. -/
def seen (p : Parser) : Except Fault (List UInt8 × ParserError × Option CommandLine) :=
  (parserPopNext p).map fun (p', out) => (p'.data, out)

/-- The parser that holds some bytes, with others in the memory behind them. -/
def Parser.holding (data behind : List UInt8)
    (h : (data ++ behind).length < 2 ^ 32 := by decide) : Parser where
  buffer := data ++ behind
  size := data.length
  size_le := by
    rw [List.length_append]
    exact Nat.le_add_right _ _
  capacity_lt := h

section Holding

variable {data behind : List UInt8} (h : (data ++ behind).length < 2 ^ 32)
include h

theorem Parser.data_holding : (Parser.holding data behind h).data = data := List.take_left

theorem Parser.behind_holding : (Parser.holding data behind h).behind = behind := List.drop_left

end Holding

theorem seen_of_nextLine {r : List UInt8} {res : ParserError × Option CommandLine}
    (h : nextLine p.data = some (res, r)) : seen p = .ok (r, res) := by
  obtain ⟨p', hp', rfl, -⟩ := parserPopNext_of_nextLine h
  rw [seen, hp']
  rfl

/-- Whether the count of the bytes wraps around depends on them alone, unless they end in a
space. -/
theorem wraps_congr (hq : q.data = p.data) (hspace : ¬ EndsInSpace p.data) :
    q.Wraps ↔ p.Wraps := by
  rw [Parser.Wraps, Parser.Wraps, hq, ← q.length_data, ← p.length_data, hq]
  simp only [hspace, false_and, or_false]

/-- Bytes that do not end in a space are all that is seen of them. -/
theorem seen_congr (hq : q.data = p.data) (h : nextLine p.data = none)
    (hspace : ¬ EndsInSpace p.data) : seen q = seen p ∧ seen q ≠ .error .outOfBounds := by
  have hq' : nextLine q.data = none := hq ▸ h
  by_cases hend : EndsInLineEnd p.data
  · by_cases hwraps : p.Wraps
    · have hwraps' := (wraps_congr hq hspace).2 hwraps
      by_cases htoken : ∃ c ∈ (openLine p.data).dropLast, c ≠ space
      · rw [seen, seen, parserPopNext_wraps ⟨h, htoken, hwraps.endsLine⟩ hwraps,
          parserPopNext_wraps ⟨hq', hq ▸ htoken, hwraps'.endsLine⟩ hwraps']
        simp [Except.map, hq]
      · rw [seen, seen, parserPopNext_wraps_blank h hwraps htoken,
          parserPopNext_wraps_blank hq' hwraps' (hq ▸ htoken), hq]
        split <;> simp [Except.map, hq]
    · rw [seen, seen, parserPopNext_fault h hend hwraps,
        parserPopNext_fault hq' (hq ▸ hend) fun hw => hwraps ((wraps_congr hq hspace).1 hw)]
      simp [Except.map]
  · rw [seen, seen, parserPopNext_of_open h hend hspace,
      parserPopNext_of_open hq' (hq ▸ hend) (hq ▸ hspace)]
    simp [Except.map, hq]

/-- **What is seen of a call depends on the buffered bytes alone, and it reads no byte behind them,
exactly when a next line is complete or the bytes do not end in a space.** A call that reads on
leaves the memory where the buffer ends with the bytes. -/
theorem parserPopNext_independent_iff (p : Parser) :
    (∀ q : Parser, q.data = p.data → seen q = seen p ∧ seen q ≠ .error .outOfBounds) ↔
      ¬ (nextLine p.data = none ∧ EndsInSpace p.data) := by
  constructor
  · rintro h ⟨hnone, hspace⟩
    have hexact : (p.data ++ []).length < 2 ^ 32 := by
      rw [List.append_nil, Parser.length_data]
      exact p.size_lt
    refine (h _ (Parser.data_holding hexact)).2 ?_
    rw [← Parser.data_holding hexact] at hnone hspace
    have hbehind : (Parser.holding p.data [] hexact).behind = [] := Parser.behind_holding hexact
    rw [seen, parserPopNext_of_space hnone hspace, behindOutcome, if_pos (by simp [hbehind])]
    · rfl
    · rintro (hlast | ⟨-, hhead⟩)
      · rw [EndsInSpace, hlast] at hspace
        exact absurd (Option.some.inj hspace) (by decide)
      · simp [hbehind] at hhead
  · intro h q hq
    cases hd : nextLine p.data with
    | some resr =>
      obtain ⟨res, r⟩ := resr
      rw [seen_of_nextLine hd, seen_of_nextLine (hq ▸ hd)]
      exact ⟨rfl, by simp⟩
    | none => exact seen_congr hq hd fun hs => h ⟨hd, hs⟩

/-- The bytes `a` and a space, with a line feed behind them and with a zero byte behind them. -/
theorem behind_inspected : ¬ ∀ p q : Parser, q.data = p.data → seen q = seen p := by
  intro h
  have heq := h (.holding [97, 32] [10]) (.holding [97, 32] [0]) rfl
  have hnone : nextLine [97, 32] = none := by decide +kernel
  have hspace : EndsInSpace [97, 32] := by decide +kernel
  have hline := parserPopNext_past (p := .holding [97, 32] [10]) hnone
    (Or.inr ⟨hspace, Or.inl rfl⟩) (by rintro (⟨-, h⟩ | ⟨-, h, -⟩) <;> exact absurd h (by decide))
  have hzero := parserPopNext_of_space (p := .holding [97, 32] [0]) hnone hspace
    (by rintro (h | ⟨-, h | h⟩) <;> exact absurd h (by decide +kernel))
  rw [seen, seen, hline, hzero] at heq
  exact absurd heq (by decide +kernel)

/-! ## Blank lines -/

/-- **Blank lines before the bytes `R` do not matter exactly when `R` has a complete line with a
token, or the parser can rest both with the blank lines and without them**; or when there are none
and `R` is an open line that is answered because the count of its bytes wraps around. -/
theorem blankLines_transparent_iff (B : List (ℕ × LineEnd)) (R : List UInt8) (p q : Parser)
    (hp : p.data = blankLines B ++ R) (hq : q.data = R) :
    (∃ p' q' err out, parserPopNext p = .ok (p', err, out) ∧ parserPopNext q = .ok (q', err, out) ∧
      ((err ≠ .none ∨ out ≠ none) → p'.data = q'.data)) ↔
      nextLine R ≠ none ∨ p.CanRest ∧ q.CanRest ∨
        B = [] ∧ (p.Overruns ∧ p.Wraps) ∧ q.Overruns ∧ q.Wraps := by
  have hnext : nextLine p.data = nextLine R := by rw [hp, nextLine_blankLines]
  cases hd : nextLine R with
  | some resr =>
    obtain ⟨⟨err, out⟩, r⟩ := resr
    obtain ⟨p', hp', hr, -⟩ := parserPopNext_of_nextLine (hnext.trans hd)
    obtain ⟨q', hq', hr', -⟩ := parserPopNext_of_nextLine ((congrArg nextLine hq).trans hd)
    exact ⟨fun _ => Or.inl (by simp),
      fun _ => ⟨p', q', err, out, hp', hq', fun _ => hr.trans hr'.symm⟩⟩
  | none =>
    have hdp := hnext.trans hd
    have hdq := (congrArg nextLine hq).trans hd
    constructor
    · rintro ⟨p', q', err, out, hp', hq', hsame⟩
      obtain ⟨rfl, ⟨hrest, hout⟩ | ⟨hspins, hout⟩⟩ := parserPopNext_of_none hdp hp'
      · obtain ⟨-, ⟨hrest', -⟩ | ⟨-, hout'⟩⟩ := parserPopNext_of_none hdq hq'
        · exact Or.inr (Or.inl ⟨hrest, hrest'⟩)
        · exact absurd hout hout'
      · obtain ⟨rfl, ⟨-, hout'⟩ | ⟨hspins', -⟩⟩ := parserPopNext_of_none hdq hq'
        · exact absurd hout' hout
        · -- nothing is consumed of either, so the bytes are the same
          have hdata := hsame (by
            by_contra hboth
            obtain ⟨herr, hline⟩ := not_or.1 hboth
            exact hout (by rw [not_not.1 herr, not_not.1 hline]))
          rw [hp, hq] at hdata
          exact Or.inr (Or.inr ⟨blankLines_eq_nil (List.append_left_eq_self.1 hdata), hspins,
            hspins'⟩)
    · rintro (h | ⟨hrest, hrest'⟩ | ⟨rfl, ⟨hover, hwraps⟩, hover', hwraps'⟩)
      · exact absurd rfl h
      · exact ⟨p, q, .none, none, parserPopNext_rests hdp hrest, parserPopNext_rests hdq hrest',
          by simp⟩
      · have hdata : p.data = q.data := hp.trans hq.symm
        exact ⟨p, q, _, _, parserPopNext_wraps hover hwraps,
          hdata ▸ parserPopNext_wraps hover' hwraps', fun _ => hdata⟩

/-- A blank line before the line `a`. -/
theorem blankLine_before_a : ∃ p' q' err out,
    parserPopNext (.holding [32, 10, 97, 10] []) = .ok (p', err, out) ∧
      parserPopNext (.holding [97, 10] []) = .ok (q', err, out) ∧
      ((err ≠ .none ∨ out ≠ none) → p'.data = q'.data) :=
  (blankLines_transparent_iff [(1, .newline)] [97, 10] _ _ rfl rfl).2 (Or.inl (by decide +kernel))

/-- A blank line alone: an assertion fails. -/
theorem blankLine_alone_fails :
    ¬ ∀ (B : List (ℕ × LineEnd)) (R : List UInt8) (p q : Parser), p.data = blankLines B ++ R →
      q.data = R → ∃ p' q' err out, parserPopNext p = .ok (p', err, out) ∧
        parserPopNext q = .ok (q', err, out) ∧
        ((err ≠ .none ∨ out ≠ none) → p'.data = q'.data) := by
  intro h
  obtain ⟨p', q', err, out, hp, -⟩ :=
    h [(0, .newline)] [] (.holding [10] []) parserNew rfl rfl
  have hfail : parserPopNext (.holding [10] []) = .error .assertionFailed :=
    parserPopNext_fault (by decide +kernel) (by decide +kernel)
      (by rintro (⟨-, h⟩ | ⟨-, h, -⟩) <;> exact absurd h (by decide))
  rw [hfail] at hp
  cases hp

end SemOS.Shell
