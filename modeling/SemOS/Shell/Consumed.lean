import SemOS.Foundations.Machine
import SemOS.Shell.Exits

/-!
# What `parser_pop_next` consumes

The size that is passed to `parser_consume` is the `uint32_t` of the offset at which the loops end.

* `consumesWithin_iff`: it is larger than the buffered bytes exactly for an open line with a token
  that ends in a carriage return, or in a space with a line end behind the buffered bytes, unless
  the offset is `2 ^ 32`.
* `consumes_within_iff`: the same for the calls of a run.
-/

namespace SemOS.Shell

variable {p : Parser} {pos used n : ℕ} {line : CommandLine} {tok : Token} {res : ParserError}
  {bs l r x : List UInt8} {c e : UInt8}

/-! ## The size -/

/-- The call of `parser_consume`, if one is made, is for at most the buffered bytes. -/
def Parser.ConsumesWithin (p : Parser) : Prop :=
  ∀ pos res out, popExit p [] .none 0 = .ok (.consume pos res out) → uint32 pos ≤ p.size

theorem parserPopNext_eq (p : Parser) :
    parserPopNext p = popExit p [] .none 0 >>= Exit.perform p := popLoop_eq p [] .none 0

/-- The call is for too much when an assertion fails that is none of the loops. -/
theorem consumesWithin_iff_assertion (p : Parser) :
    p.ConsumesWithin ↔ ¬ (parserPopNext p = .error .assertionFailed ∧
      popExit p [] .none 0 ≠ .error .assertionFailed) := by
  rw [Parser.ConsumesWithin, parserPopNext_eq]
  cases popExit p [] .none 0 with
  | error err => simp [bind, Except.bind]
  | ok exit =>
    cases exit with
    | noLine => simp [bind, Except.bind, Exit.perform]
    | consume pos res out =>
      by_cases hsize : uint32 pos ≤ p.size
      · obtain ⟨p', hp'⟩ : ∃ p', parserConsume p pos = .ok p' := by
          rw [parserConsume, dif_pos hsize]
          split <;> exact ⟨_, rfl⟩
        simp [bind, Except.bind, Exit.perform, hp', Except.map, hsize]
      · have hp' : parserConsume p pos = .error .assertionFailed := dif_neg hsize
        simp [bind, Except.bind, Exit.perform, hp', Except.map, hsize]

/-- When an assertion fails at an open line with a token. -/
theorem parserPopNext_assertion_iff (h : nextLine p.data = none)
    (htoken : ∃ c ∈ (openLine p.data).dropLast, c ≠ space) :
    parserPopNext p = .error .assertionFailed ↔ p.EndsLine ∧ ¬ p.Wraps := by
  constructor
  · intro hfail
    refine ⟨?_, fun hwraps => ?_⟩
    · by_contra hend
      by_cases hspace : EndsInSpace p.data
      · rw [parserPopNext_of_space h hspace hend, behindOutcome] at hfail
        split at hfail <;> cases hfail
      · rw [parserPopNext_of_open h _ hspace] at hfail
        · cases hfail
        · rintro ⟨-, hU | hU⟩
          · simp [hU] at htoken
          · exact hend (Or.inl hU)
    · rw [parserPopNext_wraps ⟨h, htoken, hwraps.endsLine⟩ hwraps] at hfail
      cases hfail
  · rintro ⟨hend, hwraps⟩
    exact parserPopNext_past h hend hwraps

/-- The bytes of a list up to the first one that is not a space. -/
theorem exists_first {l : List UInt8} (h : ∃ c ∈ l, c ≠ space) :
    ∃ n c r, l = List.replicate n space ++ c :: r ∧ c ≠ space := by
  induction l with
  | nil =>
    obtain ⟨c, hc, -⟩ := h
    cases hc
  | cons d l ih =>
    by_cases hd : d = space
    · obtain ⟨b, hb, hne⟩ := h
      have hmem : b ∈ l := (List.mem_cons.1 hb).resolve_left fun hbd => hne (hbd.trans hd)
      obtain ⟨n, c, r, rfl, hc⟩ := ih ⟨b, hmem, hne⟩
      exact ⟨n + 1, c, r, by rw [hd, List.replicate_succ, List.cons_append], hc⟩
    · exact ⟨0, d, l, rfl, hd⟩

theorem noLineEnd_dropLast (bs : List UInt8) : NoLineEnd (openLine bs).dropLast := by
  obtain hU | ⟨l, hl, hU⟩ := splitLine_eq_none (splitLine_openLine bs)
  · exact fun c hc => hU c (List.mem_of_mem_dropLast hc)
  · rwa [hU, List.dropLast_concat]

theorem noLineEnd_last (bs : List UInt8) (hU : openLine bs ≠ []) :
    (openLine bs).getLast hU ≠ lineFeed := by
  obtain h | ⟨l, -, h⟩ := splitLine_eq_none (splitLine_openLine bs)
  · exact (h _ (List.getLast_mem hU)).1
  · simp only [h, List.getLast_concat]
    decide

/-- An open line with a token. -/
theorem popExit_token (h : nextLine p.data = none)
    (htoken : ∃ c ∈ (openLine p.data).dropLast, c ≠ space) :
    popExit p [] .none 0 ≠ .error .assertionFailed := by
  obtain ⟨pos', tok', hpop, hd, -⟩ := popExit_of_no_nextLine .none List.drop_zero h (Nat.zero_le _)
  obtain ⟨n, c, r, hU, hc⟩ := exists_first htoken
  have hne : openLine p.data ≠ [] := by
    rintro h
    rw [h] at hU
    simp at hU
  rw [← List.dropLast_append_getLast hne, hU, List.append_assoc, List.cons_append] at hd
  have hend := noLineEnd_dropLast p.data c (by rw [hU]; simp)
  rw [hpop]
  exact popExit_first hd hc hend.1 hend.2

/-- Behind the buffered bytes the loop does not call `parser_consume` for a line without tokens. -/
theorem popExit_past (hpos : ¬ pos < p.size) (size : ℕ) (res : ParserError)
    (out : Option CommandLine) : popExit p [] tok pos ≠ .ok (.consume size res out) := by
  rw [popExit, dif_neg hpos, closeExit]
  split
  · intro h
    cases h
  · rw [returnErrorExit, dif_neg hpos]
    intro h
    cases h

/-- A call of `parse_token` up to the end of the bytes is the last one. -/
theorem popExit_last (hx : p.data.drop pos = x) (hne : x ≠ [])
    (h : ∀ used token, parseToken (x ++ p.buffer.drop p.size) x.length = .ok (used, token) →
      used = 0 ∨ x.length ≤ used ∧ (token = .newLine ∨ token = .pipe))
    (size : ℕ) (res : ParserError) (out : Option CommandLine) :
    popExit p [] tok pos ≠ .ok (.consume size res out) := by
  obtain ⟨hpos, hlen, hdrop⟩ := Parser.drop_buffer hx hne
  rw [popExit, dif_pos hpos, hdrop, hlen]
  cases hparse : parseToken (x ++ p.buffer.drop p.size) x.length with
  | error err =>
    intro h
    cases h
  | ok ut =>
    obtain ⟨used, token⟩ := ut
    simp only [bind, Except.bind]
    obtain rfl | ⟨hused, rfl | rfl⟩ := h used token hparse
    · intro h
      cases h
    · rw [dif_neg (by omega)]
      exact popExit_past (by omega) size res out
    · rw [dif_neg (by omega)]
      change returnErrorExit p _ _ ≠ _
      rw [returnErrorExit, dif_neg (by omega)]
      intro h
      cases h

/-- The last byte of an open line, after spaces only. -/
theorem parseToken_lastByte {memory : List UInt8} (he : e ≠ lineFeed) (hs : e ≠ space)
    (hfit : n + 1 < 2 ^ 32) {token : Token}
    (h : parseToken (List.replicate n space ++ e :: memory) (n + 1) = .ok (used, token)) :
    used = 0 ∨ n + 1 ≤ used ∧ (token = .newLine ∨ token = .pipe) := by
  rw [parseToken_spaces hs (Nat.le_add_right n 1), if_neg he, Nat.add_sub_cancel_left] at h
  split at h
  · cases h
    exact (uint32_of_le (by omega)).imp_right fun hused => ⟨by omega, Or.inl rfl⟩
  · rename_i hr
    split at h
    · cases h
      rw [uint32_of_lt hfit]
      exact Or.inr ⟨Nat.le_refl _, Or.inr rfl⟩
    · rw [scanToken, if_neg (by simp [tokenEnd, he, hs, hr])] at h
      cases h
      exact Or.inl rfl

/-- The spaces that the bytes end in, with what lies behind them. -/
theorem parseToken_lastSpace (hn : n ≠ 0) (hx : p.data.drop pos = List.replicate n space)
    {token : Token} (h : parseToken (List.replicate n space ++ p.buffer.drop p.size)
      (List.replicate n space).length = .ok (used, token)) :
    used = 0 ∨ n ≤ used ∧ (token = .newLine ∨ token = .pipe) := by
  have hsize := p.size_lt
  have hlen : n ≤ p.size := by
    have := congrArg List.length hx
    rw [List.length_drop, Parser.length_data, List.length_replicate] at this
    omega
  by_cases hhead : ∃ e', (e' = lineFeed ∨ e' = carriageReturn) ∧ p.behind.head? = some e'
  · obtain ⟨e', he', hnext⟩ := hhead
    have hbehind := Parser.size_of_behind hnext
    have hparse := next_newLine (n := n) (y := []) he' hnext
    have hend : endLength e' ≤ 2 := by rcases he' with rfl | rfl <;> decide
    rw [List.append_nil] at hparse
    rw [hparse] at h
    cases h
    exact (uint32_of_le (by omega)).imp_right fun hused => ⟨by omega, Or.inl rfl⟩
  · have hf : p.behind.head? ≠ some lineFeed := fun h => hhead ⟨_, Or.inl rfl, h⟩
    have hr : p.behind.head? ≠ some carriageReturn := fun h => hhead ⟨_, Or.inr rfl, h⟩
    obtain ⟨-, -, hafter⟩ := parseToken_atEnd hf hr hn hx
    rw [h] at hafter
    generalize hm : n + 1 = m at hafter
    cases hafter with
    | pipe hb =>
      subst hm
      have hbehind := Parser.size_of_behind hb
      rw [uint32_of_lt (by omega)]
      exact Or.inr ⟨Nat.le_succ n, Or.inr rfl⟩
    | incomplete _ => exact Or.inl rfl

/-- A line with no token before its last byte is not consumed. -/
theorem popExit_no_token (h : nextLine p.data = none)
    (htoken : ¬ ∃ c ∈ (openLine p.data).dropLast, c ≠ space) : p.ConsumesWithin := by
  obtain ⟨pos', tok', hpop, hd, -⟩ := popExit_of_no_nextLine .none List.drop_zero h (Nat.zero_le _)
  rw [Parser.ConsumesWithin, hpop]
  intro size res out
  suffices popExit p [] tok' pos' ≠ .ok (.consume size res out) from fun h => absurd h this
  by_cases hU : openLine p.data = []
  · rw [hU] at hd
    exact popExit_past (Parser.size_le_of_drop hd) size res out
  · have hspaces : (openLine p.data).dropLast =
        List.replicate (openLine p.data).dropLast.length space :=
      List.eq_replicate_iff.2 ⟨rfl, by simpa using htoken⟩
    generalize (openLine p.data).dropLast.length = n at hspaces
    have hlast := List.dropLast_append_getLast hU
    rw [hspaces] at hlast
    have hline := noLineEnd_last p.data hU
    generalize (openLine p.data).getLast hU = e at hlast hline
    rw [← hlast] at hd
    refine popExit_last hd (by simp) (fun used token hparse => ?_) size res out
    by_cases hs : e = space
    · have hrep : List.replicate n space ++ [e] = List.replicate (n + 1) space := by
        rw [hs, List.replicate_succ']
      rw [hrep] at hparse ⊢
      rw [hrep] at hd
      rw [List.length_replicate]
      exact parseToken_lastSpace (Nat.succ_ne_zero n) hd hparse
    · rw [List.append_assoc, List.length_append, List.length_replicate] at hparse
      rw [List.length_append, List.length_replicate]
      exact parseToken_lastByte hline hs (by
        have hsize := p.size_lt
        have hlen := congrArg List.length hd
        rw [List.length_drop, Parser.length_data, List.length_append, List.length_replicate,
          List.length_singleton] at hlen
        omega) hparse

/-- **The call of `parser_consume` is for more than the buffered bytes exactly when they end in an
open line with a token whose end is a carriage return, or a space with a line end behind it, and the
count of the bytes does not wrap around.** -/
theorem consumesWithin_iff (p : Parser) : p.ConsumesWithin ↔ ¬ (p.Overruns ∧ ¬ p.Wraps) := by
  cases hd : nextLine p.data with
  | some resr =>
    obtain ⟨res, r⟩ := resr
    obtain ⟨p', hp', -⟩ := parserPopNext_of_nextLine hd
    rw [consumesWithin_iff_assertion, hp', Parser.Overruns, hd]
    simp
  | none =>
    by_cases htoken : ∃ c ∈ (openLine p.data).dropLast, c ≠ space
    · rw [consumesWithin_iff_assertion, parserPopNext_assertion_iff hd htoken, Parser.Overruns]
      simp only [popExit_token hd htoken, hd, htoken, ne_eq, not_false_eq_true, true_and, and_true]
    · exact iff_of_true (popExit_no_token hd htoken) fun hover => htoken hover.1.2.1

/-! ## Runs -/

/-- The calls of the parser: `parser_feed`, with what the heap holds in newly allocated memory, and
`parser_pop_next`. -/
inductive Call
  | feed (heap : ℕ → UInt8) (str : List UInt8)
  | popNext

/-- A parser from `parser_new` on. A fault ends its run. -/
def parserMachine : Machine Call Parser where
  init p := p = parserNew
  act
    | .feed heap str, p => (parserFeed heap p str).toOption
    | .popNext, p => (parserPopNext p).toOption.map Prod.fst

/-- **In every run, `parser_consume` is never called for more than the buffered bytes exactly when
`parser_pop_next` is never called with an open line with a token that ends in a carriage return, or
in a space with a line end behind it**, where these bytes do not add up to `2 ^ 32`. -/
theorem consumes_within_iff (calls : List Call) :
    (∀ before after p, calls = before ++ .popNext :: after →
      parserMachine.run before parserNew = some p → p.ConsumesWithin) ↔
    ∀ before after p, calls = before ++ .popNext :: after →
      parserMachine.run before parserNew = some p → ¬ (p.Overruns ∧ ¬ p.Wraps) := by
  constructor
  · intro h before after p hcalls hrun
    exact (consumesWithin_iff p).1 (h before after p hcalls hrun)
  · intro h before after p hcalls hrun
    exact (consumesWithin_iff p).2 (h before after p hcalls hrun)

/-- The letter `a` and a carriage return, whose line feed is still to come: three bytes are to be
consumed of two. -/
theorem carriageReturn_overruns :
    ¬ ∀ calls before after p, calls = before ++ Call.popNext :: after →
      parserMachine.run before parserNew = some p → p.ConsumesWithin := by
  intro h
  obtain ⟨p, hp⟩ : ∃ p, parserMachine.run [.feed (fun _ => 0) [97, 13]] parserNew = some p :=
    Option.isSome_iff_exists.1 (by decide +kernel)
  have hwithin := h _ _ [] p rfl hp
  have hdata : p.data = [97, 13] := by
    have : (parserMachine.run [.feed (fun _ => 0) [97, 13]] parserNew).map Parser.data =
      some [97, 13] := by decide +kernel
    rw [hp] at this
    exact Option.some.inj this
  have hsize : p.size = 2 := by rw [← Parser.length_data, hdata]; rfl
  refine (consumesWithin_iff p).1 hwithin ⟨?_, ?_⟩
  · rw [Parser.Overruns, Parser.EndsLine, hdata]
    exact ⟨by decide +kernel, ⟨97, by decide +kernel, by decide⟩, Or.inl (by decide +kernel)⟩
  · rw [Parser.Wraps, hsize]
    simp

end SemOS.Shell
