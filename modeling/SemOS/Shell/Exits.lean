import SemOS.Shell.Outcomes

/-!
# How the loops of `parser_pop_next` end

`parser_pop_next` calls `parser_consume` at most once, at the end. `popExit` is its run up to there:
it says at which offset the call is made, or that none is made (`Exit`), and `popLoop_eq` that the
call is all that is left to do.

* `popExit_ne_assertion`: once a line has a token, the loops fail no assertion of their own.
* `popExit_of_no_nextLine`: without a line with a token they pass over the complete lines.
-/

namespace SemOS.Shell

variable {p : Parser} {pos used n : ℕ} {line : CommandLine} {tok : Token} {res : ParserError}
  {bs l r x : List UInt8} {c e : UInt8}

/-- How the loops of `parser_pop_next` end: with no line, or at an offset with a call of
`parser_consume`, after which an error code and a line are returned. -/
inductive Exit
  | noLine
  | consume (pos : ℕ) (res : ParserError) (out : Option CommandLine)

/-- What is left to do at the end. -/
def Exit.perform (p : Parser) : Exit → Except Fault Popped
  | .noLine => .ok (p, .none, none)
  | .consume pos res out => (parserConsume p pos).map fun p' => (p', res, out)

/-- `returnError` up to its call of `parser_consume`. -/
def returnErrorExit (p : Parser) (res : ParserError) (pos : ℕ) : Except Fault Exit :=
  if _hpos : pos < p.size then do
    let (used, token) ← parseToken (p.buffer.drop pos) (p.size - pos)
    if _hused : used = 0 then pure .noLine
    else if token = .newLine then pure (.consume (pos + used) res none)
    else returnErrorExit p res (pos + used)
  else pure .noLine
termination_by p.size - pos

/-- `closeAndReturn` up to its call of `parser_consume`. -/
def closeExit (p : Parser) (line : CommandLine) (token : Token) (pos : ℕ) : Except Fault Exit :=
  if token = .newLine then
    match line.getLast? with
    | .none => .error .assertionFailed
    | some .pipe => pure (.consume pos .endsNotWithACommand none)
    | some (.command _) => pure (.consume pos .none (some line))
  else returnErrorExit p .tooLateArguments pos

/-- `popLoop` up to its call of `parser_consume`. -/
def popExit (p : Parser) (line : CommandLine) (token : Token) (pos : ℕ) : Except Fault Exit :=
  if _hpos : pos < p.size then do
    let (used, token) ← parseToken (p.buffer.drop pos) (p.size - pos)
    if _hused : used = 0 then pure .noLine
    else
      match token with
      | .str data => popExit p (appendWord line data) token (pos + used)
      | .newLine =>
        if line = [] then popExit p line token (pos + used)
        else closeExit p line token (pos + used)
      | .pipe =>
        match line.getLast? with
        | .none => returnErrorExit p .pipeWithNoLeftArg (pos + used)
        | some .pipe => returnErrorExit p .pipeWithLeftArgNotACommand (pos + used)
        | some (.command _) => popExit p (line ++ [.pipe]) token (pos + used)
      | .none => .error .assertionFailed
  else closeExit p line token pos
termination_by p.size - pos

theorem returnError_eq (p : Parser) (res : ParserError) (pos : ℕ) :
    returnError p res pos = returnErrorExit p res pos >>= Exit.perform p := by
  induction hn : p.size - pos using Nat.strongRecOn generalizing pos with
  | ind n ih =>
    subst hn
    rw [returnError, returnErrorExit]
    split
    · cases parseToken (p.buffer.drop pos) (p.size - pos) with
      | error err => rfl
      | ok ut =>
        obtain ⟨used, token⟩ := ut
        simp only [bind, Except.bind]
        split
        · rfl
        · split
          · rfl
          · exact ih _ (by omega) _ rfl
    · rfl

theorem closeAndReturn_eq (p : Parser) (line : CommandLine) (token : Token) (pos : ℕ) :
    closeAndReturn p line token pos = closeExit p line token pos >>= Exit.perform p := by
  rw [closeAndReturn, closeExit]
  split
  · cases line.getLast? with
    | none => rfl
    | some tail => cases tail <;> rfl
  · exact returnError_eq p _ pos

/-- **The call of `parser_consume` is all that is left to do at the end.** -/
theorem popLoop_eq (p : Parser) (line : CommandLine) (token : Token) (pos : ℕ) :
    popLoop p line token pos = popExit p line token pos >>= Exit.perform p := by
  induction hn : p.size - pos using Nat.strongRecOn generalizing pos line token with
  | ind n ih =>
    subst hn
    rw [popLoop, popExit]
    split
    · cases parseToken (p.buffer.drop pos) (p.size - pos) with
      | error err => rfl
      | ok ut =>
        obtain ⟨used, token⟩ := ut
        simp only [bind, Except.bind]
        split
        · rfl
        · cases token with
          | str data => exact ih _ (by omega) _ _ _ rfl
          | newLine =>
            simp only
            split
            · exact ih _ (by omega) _ _ _ rfl
            · exact closeAndReturn_eq p _ _ _
          | pipe =>
            cases line.getLast? with
            | none => exact returnError_eq p _ _
            | some tail =>
              cases tail with
              | pipe => exact returnError_eq p _ _
              | command cmd => exact ih _ (by omega) _ _ _ rfl
          | none => rfl
    · exact closeAndReturn_eq p _ _ _

/-! ## The assertions of the loops -/

theorem skip2firstNonspace_error {err : Fault} {memory : List UInt8}
    (h : skip2firstNonspace memory = .error err) : err = .outOfBounds := by
  obtain ⟨-, h'⟩ | ⟨-, m, h'⟩ := skip2firstNonspace_cases memory
  · rw [h] at h'
    exact Except.error.inj h'
  · rw [h] at h'
    cases h'

theorem scanToken_error {err : Fault} {avail : ℕ} {memory : List UInt8}
    (h : scanToken avail memory = .error err) : err = .outOfBounds := by
  induction avail generalizing memory with
  | zero => cases h
  | succ avail ih =>
    cases memory with
    | nil =>
      cases h
      rfl
    | cons c memory =>
      rw [scanToken] at h
      split at h
      · cases h
      · cases hs : scanToken avail memory with
        | error err' =>
          rw [hs] at h
          cases h
          exact ih hs
        | ok data =>
          rw [hs] at h
          cases h

/-- `parse_token` fails no assertion and always sets the type of the token. -/
theorem parseToken_regular (memory : List UInt8) (avail : ℕ) :
    parseToken memory avail = .error .outOfBounds ∨
      ∃ used token, parseToken memory avail = .ok (used, token) ∧ token ≠ .none := by
  rw [parseToken]
  cases hs : skip2firstNonspace memory with
  | error err =>
    rw [skip2firstNonspace_error hs]
    exact Or.inl rfl
  | ok m =>
    simp only [bind, Except.bind]
    cases memory.drop (min m avail) with
    | nil => exact Or.inl rfl
    | cons c rest =>
      simp only
      split
      · exact Or.inr ⟨_, _, rfl, by simp⟩
      · split
        · exact Or.inr ⟨_, _, rfl, by simp⟩
        · split
          · exact Or.inr ⟨_, _, rfl, by simp⟩
          · cases hscan : scanToken (avail - min m avail) (c :: rest) with
            | error err =>
              rw [scanToken_error hscan]
              exact Or.inl rfl
            | ok data =>
              cases data with
              | none => exact Or.inr ⟨_, _, rfl, by simp⟩
              | some data => exact Or.inr ⟨_, _, rfl, by simp⟩

theorem returnErrorExit_ne_assertion (p : Parser) (res : ParserError) (pos : ℕ) :
    returnErrorExit p res pos ≠ .error .assertionFailed := by
  induction hn : p.size - pos using Nat.strongRecOn generalizing pos with
  | ind n ih =>
    subst hn
    rw [returnErrorExit]
    split
    · obtain h | ⟨used, token, h, -⟩ := parseToken_regular (p.buffer.drop pos) (p.size - pos)
      · rw [h]
        simp [bind, Except.bind]
      · rw [h]
        simp only [bind, Except.bind]
        split
        · simp [pure, Except.pure]
        · split
          · simp [pure, Except.pure]
          · exact ih _ (by omega) _ rfl
    · simp [pure, Except.pure]

theorem closeExit_ne_assertion (hline : line ≠ []) :
    closeExit p line tok pos ≠ .error .assertionFailed := by
  rw [closeExit]
  split
  · rw [List.getLast?_eq_some_getLast hline]
    cases line.getLast hline <;> simp [pure, Except.pure]
  · exact returnErrorExit_ne_assertion p _ pos

theorem appendWord_ne_nil (line : CommandLine) (data : List UInt8) : appendWord line data ≠ [] := by
  have hadd : addToken line (.str data) = .ok (appendWord line data) := rfl
  exact addToken_ne_nil (Or.inr ⟨data, rfl⟩) hadd

/-- **Once the line has a token, the loop fails no assertion of its own.** -/
theorem popExit_ne_assertion (hline : line ≠ []) :
    popExit p line tok pos ≠ .error .assertionFailed := by
  induction hn : p.size - pos using Nat.strongRecOn generalizing pos line tok with
  | ind n ih =>
    subst hn
    rw [popExit]
    split
    · obtain h | ⟨used, token, h, htoken⟩ := parseToken_regular (p.buffer.drop pos) (p.size - pos)
      · rw [h]
        simp [bind, Except.bind]
      · rw [h]
        simp only [bind, Except.bind]
        split
        · simp [pure, Except.pure]
        · cases token with
          | str data => exact ih _ (by omega) (appendWord_ne_nil line data) rfl
          | newLine => exact closeExit_ne_assertion hline
          | pipe =>
            cases line.getLast? with
            | none => exact returnErrorExit_ne_assertion p _ _
            | some tail =>
              cases tail with
              | pipe => exact returnErrorExit_ne_assertion p _ _
              | command cmd => exact ih _ (by omega) (by simp) rfl
          | none => exact absurd rfl htoken
    · exact closeExit_ne_assertion hline

/-! ## The first token -/

/-- The first token of a line that is not blank keeps the loop from failing an assertion. -/
theorem popExit_first (hx : p.data.drop pos = List.replicate n space ++ c :: r) (hc : c ≠ space)
    (hf : c ≠ lineFeed) (hr : c ≠ carriageReturn) :
    popExit p [] tok pos ≠ .error .assertionFailed := by
  obtain ⟨hpos, hlen, hdrop⟩ := Parser.drop_buffer hx (by simp)
  have hsize := p.size_lt
  have hn : n < p.size - pos := by
    rw [hlen, List.length_append, List.length_replicate, List.length_cons]
    omega
  rw [popExit, dif_pos hpos, hdrop, List.append_assoc, List.cons_append,
    parseToken_spaces hc (Nat.le_of_lt hn), if_neg hr, if_neg hf]
  by_cases hb : c = bar
  · simp only [if_pos hb, uint32_of_lt (show n + 1 < 2 ^ 32 by omega), bind, Except.bind,
      dif_neg (Nat.succ_ne_zero n)]
    exact returnErrorExit_ne_assertion p _ _
  · rw [if_neg hb]
    cases hscan : scanToken (p.size - pos - n) (c :: (r ++ p.buffer.drop p.size)) with
    | error err =>
      rw [scanToken_error hscan]
      simp [Except.map, bind, Except.bind]
    | ok data =>
      cases data with
      | none => simp [Except.map, stringToken, bind, Except.bind, pure, Except.pure]
      | some data =>
        simp only [Except.map, stringToken, bind, Except.bind]
        split
        · simp [pure, Except.pure]
        · exact popExit_ne_assertion (appendWord_ne_nil [] data)

theorem popExit_blank (he : e = lineFeed ∨ e = carriageReturn)
    (hx : p.data.drop pos = List.replicate n space ++ e :: r) (hfit : n + endLength e < 2 ^ 32) :
    popExit p [] tok pos = popExit p [] .newLine (pos + (n + endLength e)) := by
  obtain ⟨hpos, hlen, hdrop⟩ := Parser.drop_buffer hx (by simp)
  rw [popExit, dif_pos hpos, hdrop, hlen, next_newLine he rfl, uint32_of_lt hfit]
  simp only [bind, Except.bind, dif_neg (endLength_ne_zero n e), if_true]

/-- Without a next line all complete lines are passed over, up to the open one. -/
theorem popExit_of_no_nextLine (tok : Token) (hx : p.data.drop pos = bs)
    (h : nextLine bs = none) (hpos : pos ≤ p.size) :
    ∃ pos' tok', popExit p [] tok pos = popExit p [] tok' pos' ∧ p.data.drop pos' = openLine bs ∧
      pos' ≤ p.size := by
  induction hn : bs.length using Nat.strongRecOn generalizing bs pos tok with
  | ind n ih =>
    subst hn
    cases hs : splitLine bs with
    | none =>
      rw [openLine_of_none hs]
      exact ⟨pos, tok, rfl, hx, hpos⟩
    | some lr =>
      obtain ⟨l, r'⟩ := lr
      have hshort := length_of_splitLine hs
      obtain ⟨hl, e, y, he, rfl, hdrop, hlen⟩ := splitLine_eq_some hs
      rw [nextLine_of_split hs] at h
      have hx' : p.data.drop (pos + (l.length + endLength e)) = r' := by
        rw [← List.drop_drop, hx, hdrop]
      split at h
      · rename_i hT
        have hlen' : p.size - pos = (l ++ e :: y).length := by
          rw [← hx, List.length_drop, Parser.length_data]
        have hsize := p.size_lt
        obtain ⟨m, rfl⟩ := (hT ▸ content_tokens hl).eq_replicate
        have hm : (List.replicate m space).length = m := List.length_replicate
        rw [popExit_blank he hx (by omega), openLine_of_split hs, ← hm]
        exact ih r'.length hshort .newLine hx' h (by omega) rfl
      · cases h

end SemOS.Shell
