import SemOS.Shell.Lexing

/-!
# The loops of `parser_pop_next` over one line

What the loops do with the bytes from an offset to the end of a line, in terms of the tokens of the
line. The line end may lie right behind the buffered bytes, where `parse_token` reads on after a
space (`Parser.LineAt`).

* `popLoop_line`: the main loop adds the tokens to the line (`addToken`) and closes it at its end,
  or skips the rest of it after an error (`returnError_line`).
* `popLoop_open`: a line that has not ended, and does not end in a space, is left as it is.
-/

namespace SemOS.Shell

variable {p : Parser} {pos used n : ℕ} {line : CommandLine} {tok : Token} {res : ParserError}
  {e : UInt8} {w x l r : List UInt8} {T : List Token}

/-- The memory at an offset inside the buffered bytes. -/
theorem Parser.drop_buffer (h : p.data.drop pos = x) (hx : x ≠ []) :
    pos < p.size ∧ p.size - pos = x.length ∧ p.buffer.drop pos = x ++ p.buffer.drop p.size := by
  have hle := p.size_le
  have hlen : p.data.length = p.size := by
    rw [Parser.data, List.length_take]
    omega
  have hpos : 0 < x.length := List.length_pos_iff.2 hx
  have hx' : x.length = p.size - pos := by rw [← h, List.length_drop, hlen]
  refine ⟨by omega, hx'.symm, ?_⟩
  rw [← h, ← List.drop_append_of_le_length (by omega), Parser.data, List.take_append_drop]

theorem Parser.size_le_of_drop (h : p.data.drop pos = []) : ¬ pos < p.size := by
  have hle := p.size_le
  rw [List.drop_eq_nil_iff, Parser.data, List.length_take] at h
  omega

/-- The bytes after some of those at an offset. -/
theorem Parser.drop_add {y : List UInt8} (h : p.data.drop pos = x ++ y) :
    p.data.drop (pos + x.length) = y := by
  rw [← List.drop_drop, h, List.drop_left]

/-- The memory behind the buffered bytes. -/
def Parser.behind (p : Parser) : List UInt8 := p.buffer.drop p.size

theorem Parser.size_of_behind {c : UInt8} (h : p.behind.head? = some c) : p.size + 1 < 2 ^ 32 := by
  have hcap := p.capacity_lt
  have hlen := List.length_pos_iff.2 (List.ne_nil_of_mem (List.mem_of_head? h))
  rw [Parser.behind, List.length_drop] at hlen
  omega

/-- The line `l` lies at an offset, with `y` behind it in the buffered bytes, and the line end `e`
is the next byte: of `y`, or of the memory behind the buffered bytes if they end in a space. -/
structure Parser.LineAt (p : Parser) (pos : ℕ) (l : List UInt8) (e : UInt8) (y : List UInt8) :
    Prop where
  drop : p.data.drop pos = l ++ y
  next : (y ++ p.behind).head? = some e
  last : y = [] → l.getLast? = some space

theorem Parser.lineAt_of_drop (h : p.data.drop pos = l ++ e :: r) : p.LineAt pos l e (e :: r) :=
  ⟨h, rfl, by simp⟩

theorem Parser.LineAt.ne_nil {y : List UInt8} (h : p.LineAt pos l e y) : l ++ y ≠ [] := by
  intro hnil
  obtain ⟨rfl, rfl⟩ := List.append_eq_nil_iff.1 hnil
  cases h.last rfl

/-- Behind the start of the buffer the end of a line is found without a wrap. -/
theorem Parser.LineAt.fits {y : List UInt8} (h : p.LineAt pos l e y) (hpos : 0 < pos) :
    l.length + endLength e < 2 ^ 32 := by
  have hsize := p.size_lt
  obtain ⟨-, hlen, -⟩ := Parser.drop_buffer h.drop h.ne_nil
  have hend : endLength e ≤ 2 := by
    rw [endLength]
    split <;> omega
  rw [List.length_append] at hlen
  by_cases hy : y = []
  · -- then the end is a byte of the memory behind the buffered bytes
    have hnext := h.next
    rw [hy, List.nil_append] at hnext
    have hbehind := Parser.size_of_behind hnext
    rw [hy] at hlen
    simp only [List.length_nil] at hlen
    omega
  · have := List.length_pos_iff.2 hy
    omega

/-! ## One token -/

/-- What a line becomes with one more token, or the error that the token is. -/
def addToken (line : CommandLine) : Token → Except ParserError CommandLine
  | .str data => .ok (appendWord line data)
  | .pipe =>
    match line.getLast? with
    | .none => .error .pipeWithNoLeftArg
    | some .pipe => .error .pipeWithLeftArgNotACommand
    | some (.command _) => .ok (line ++ [.pipe])
  | _ => .ok line

section OneToken

variable (hx : p.data.drop pos = x) (hne : x ≠ [])
include hx hne

theorem returnError_token (hused : used ≠ 0) {token : Token} (htoken : token ≠ .newLine)
    (h : parseToken (x ++ p.buffer.drop p.size) x.length = .ok (used, token)) :
    returnError p res pos = returnError p res (pos + used) := by
  obtain ⟨hpos, hlen, hdrop⟩ := Parser.drop_buffer hx hne
  rw [returnError, dif_pos hpos, hdrop, hlen, h]
  simp only [bind, Except.bind, dif_neg hused, if_neg htoken]

theorem returnError_newLine (hused : used ≠ 0)
    (h : parseToken (x ++ p.buffer.drop p.size) x.length = .ok (used, .newLine)) :
    returnError p res pos =
      (parserConsume p (pos + used)).map fun p' => (p', res, Option.none) := by
  obtain ⟨hpos, hlen, hdrop⟩ := Parser.drop_buffer hx hne
  rw [returnError, dif_pos hpos, hdrop, hlen, h]
  simp only [bind, Except.bind, dif_neg hused, if_true]
  rfl

theorem returnError_zero {token : Token}
    (h : parseToken (x ++ p.buffer.drop p.size) x.length = .ok (0, token)) :
    returnError p res pos = .ok (p, .none, Option.none) := by
  obtain ⟨hpos, hlen, hdrop⟩ := Parser.drop_buffer hx hne
  rw [returnError, dif_pos hpos, hdrop, hlen, h]
  rfl

theorem popLoop_str (hused : used ≠ 0) {data : List UInt8}
    (h : parseToken (x ++ p.buffer.drop p.size) x.length = .ok (used, .str data)) :
    popLoop p line tok pos = popLoop p (appendWord line data) (.str data) (pos + used) := by
  obtain ⟨hpos, hlen, hdrop⟩ := Parser.drop_buffer hx hne
  rw [popLoop, dif_pos hpos, hdrop, hlen, h]
  simp only [bind, Except.bind, dif_neg hused]

theorem popLoop_bar (hused : used ≠ 0)
    (h : parseToken (x ++ p.buffer.drop p.size) x.length = .ok (used, .pipe)) :
    popLoop p line tok pos =
      match addToken line .pipe with
      | .error err => returnError p err (pos + used)
      | .ok line' => popLoop p line' .pipe (pos + used) := by
  obtain ⟨hpos, hlen, hdrop⟩ := Parser.drop_buffer hx hne
  rw [popLoop, dif_pos hpos, hdrop, hlen, h]
  simp only [bind, Except.bind, dif_neg hused, addToken]
  cases line.getLast? with
  | none => rfl
  | some tail => cases tail <;> rfl

theorem popLoop_newLine (hused : used ≠ 0)
    (h : parseToken (x ++ p.buffer.drop p.size) x.length = .ok (used, .newLine)) :
    popLoop p line tok pos =
      if line = [] then popLoop p line .newLine (pos + used)
      else closeAndReturn p line .newLine (pos + used) := by
  obtain ⟨hpos, hlen, hdrop⟩ := Parser.drop_buffer hx hne
  rw [popLoop, dif_pos hpos, hdrop, hlen, h]
  simp only [bind, Except.bind, dif_neg hused]

theorem popLoop_zero {token : Token}
    (h : parseToken (x ++ p.buffer.drop p.size) x.length = .ok (0, token)) :
    popLoop p line tok pos = .ok (p, .none, Option.none) := by
  obtain ⟨hpos, hlen, hdrop⟩ := Parser.drop_buffer hx hne
  rw [popLoop, dif_pos hpos, hdrop, hlen, h]
  rfl

end OneToken

/-! ## The tokens of a line -/

theorem endLength_ne_zero (n : ℕ) (e : UInt8) : n + endLength e ≠ 0 := by
  rw [endLength]
  split <;> omega

/-- The next token of a line is a bar. -/
theorem next_bar {y : List UInt8} (hx : p.data.drop pos = List.replicate n space ++ bar :: l ++ y) :
    parseToken (List.replicate n space ++ bar :: l ++ y ++ p.buffer.drop p.size)
        (List.replicate n space ++ bar :: l ++ y).length = .ok (n + 1, .pipe) ∧
      p.data.drop (pos + (n + 1)) = l ++ y := by
  constructor
  · obtain ⟨-, hlen, -⟩ := Parser.drop_buffer hx (by simp)
    have hsize := p.size_lt
    simp only [List.append_assoc, List.cons_append]
    simp only [List.append_assoc, List.cons_append, List.length_append, List.length_replicate,
      List.length_cons] at hlen
    exact parseToken_bar (by
      rw [List.length_append, List.length_replicate, List.length_cons]
      omega) (by omega)
  · have := Parser.drop_add (x := List.replicate n space ++ [bar]) (y := l ++ y)
      (by simpa using hx)
    simpa using this

/-- The next token of a line is a word, ended by the byte after it. -/
theorem next_word {y : List UInt8} (hw : IsWord w)
    (hend : ∃ e' y', l ++ y = e' :: y' ∧ tokenEnd e' = true)
    (hx : p.data.drop pos = List.replicate n space ++ (w ++ l) ++ y) :
    parseToken (List.replicate n space ++ (w ++ l) ++ y ++ p.buffer.drop p.size)
        (List.replicate n space ++ (w ++ l) ++ y).length = .ok (n + w.length, .str w) ∧
      p.data.drop (pos + (n + w.length)) = l ++ y := by
  constructor
  · obtain ⟨e', y', hy, he'⟩ := hend
    obtain ⟨-, hlen, -⟩ := Parser.drop_buffer hx (by simp [hw.nonempty])
    have hsize := p.size_lt
    have hassoc : List.replicate n space ++ (w ++ l) ++ y =
        List.replicate n space ++ (w ++ e' :: y') := by
      rw [List.append_assoc, List.append_assoc, hy]
    rw [← hlen, hassoc, List.append_assoc, List.append_assoc, List.cons_append]
    rw [hassoc] at hlen
    refine parseToken_str hw he' ?_ (by omega)
    simp only [List.length_append, List.length_replicate, List.length_cons] at hlen
    omega
  · have := Parser.drop_add (x := List.replicate n space ++ w) (y := l ++ y) (by simpa using hx)
    simpa using this

/-- The next token of a line is its end. -/
theorem next_newLine {y m : List UInt8} (he : e = lineFeed ∨ e = carriageReturn)
    (hnext : (y ++ m).head? = some e) :
    parseToken (List.replicate n space ++ y ++ m) (List.replicate n space ++ y).length =
      .ok (uint32 (n + endLength e), .newLine) := by
  obtain ⟨tail, htail⟩ := List.head?_eq_some_iff.1 hnext
  rw [List.append_assoc, htail]
  exact parseToken_newLine he (by
    rw [List.length_append, List.length_replicate]
    omega)

theorem IsWord.used_ne_zero (hw : IsWord w) (n : ℕ) : n + w.length ≠ 0 := by
  have := List.length_pos_iff.2 hw.nonempty
  omega

/-! ## The tokens of a line with its end -/

theorem getLast?_of_append_some {x y : List UInt8} {c : UInt8} (hy : y ≠ [])
    (h : (x ++ y).getLast? = some c) : y.getLast? = some c := by
  rwa [List.getLast?_append_of_ne_nil _ hy] at h

theorem getLast?_after_bar (h : (List.replicate n space ++ bar :: l).getLast? = some space) :
    l.getLast? = some space := by
  have hbar := getLast?_of_append_some (List.cons_ne_nil _ _) h
  cases l with
  | nil => exact absurd (Option.some.inj hbar) (by decide)
  | cons c l => exact hbar

/-- A word does not end in a space. -/
theorem IsWord.getLast?_ne (hw : IsWord w) : w.getLast? ≠ some space := by
  intro h
  exact absurd (hw.inside _ (List.mem_of_getLast? h)) (by decide)

theorem getLast?_after_word (hw : IsWord w)
    (h : (List.replicate n space ++ (w ++ l)).getLast? = some space) : l.getLast? = some space := by
  have hword := getLast?_of_append_some (by simp [hw.nonempty]) h
  by_cases hl : l = []
  · rw [hl, List.append_nil] at hword
    exact absurd hword hw.getLast?_ne
  · exact getLast?_of_append_some hl hword

section LineAt

variable {y : List UInt8}

/-- After a bar the rest of the line follows. -/
theorem Parser.LineAt.after_bar (h : p.LineAt pos (List.replicate n space ++ bar :: l) e y) :
    p.LineAt (pos + (n + 1)) l e y :=
  ⟨(next_bar h.drop).2, h.next, fun hy => getLast?_after_bar (h.last hy)⟩

/-- A word of a line is ended by a space or by the line end. -/
theorem Parser.LineAt.word_end (h : p.LineAt pos (List.replicate n space ++ (w ++ l)) e y)
    (hw : IsWord w) (hl : l = [] ∨ l.head? = some space) (he : e = lineFeed ∨ e = carriageReturn) :
    ∃ e' y', l ++ y = e' :: y' ∧ tokenEnd e' = true := by
  cases l with
  | nil =>
    cases y with
    | nil =>
      have hlast := getLast?_after_word hw (h.last rfl)
      cases hlast
    | cons c y =>
      obtain rfl : c = e := Option.some.inj h.next
      exact ⟨c, y, rfl, by rcases he with rfl | rfl <;> rfl⟩
  | cons c l =>
    have hc : c = space := by simpa using hl
    exact ⟨c, l ++ y, rfl, by rw [hc]; rfl⟩

theorem Parser.LineAt.after_word (h : p.LineAt pos (List.replicate n space ++ (w ++ l)) e y)
    (hw : IsWord w) (hl : l = [] ∨ l.head? = some space) (he : e = lineFeed ∨ e = carriageReturn) :
    p.LineAt (pos + (n + w.length)) l e y :=
  ⟨(next_word hw (h.word_end hw hl he) h.drop).2, h.next,
    fun hy => getLast?_after_word hw (h.last hy)⟩

/-- **After an error the rest of the line is consumed, up to its end.** -/
theorem returnError_line (hT : Content l T) (he : e = lineFeed ∨ e = carriageReturn)
    (h : p.LineAt pos l e y) (hfit : l.length + endLength e < 2 ^ 32) :
    returnError p res pos =
      (parserConsume p (pos + (l.length + endLength e))).map fun p' => (p', res, Option.none) := by
  induction hT generalizing pos with
  | spaces n =>
    rw [List.length_replicate] at hfit ⊢
    have hparse := next_newLine (n := n) he h.next
    rw [uint32_of_lt hfit] at hparse
    exact returnError_newLine h.drop h.ne_nil (endLength_ne_zero n e) hparse
  | @bar n l T _ ih =>
    rw [returnError_token h.drop h.ne_nil (Nat.succ_ne_zero n) (by simp) (next_bar h.drop).1,
      ih h.after_bar (h.after_bar.fits (by omega))]
    simp only [List.length_append, List.length_replicate, List.length_cons]
    rw [show pos + (n + 1) + (l.length + endLength e) =
      pos + (n + (l.length + 1) + endLength e) by omega]
  | @word n w l T hw hl _ ih =>
    have hparse := (next_word hw (h.word_end hw hl he) h.drop).1
    have hused := hw.used_ne_zero n
    have hnext := h.after_word hw hl he
    rw [returnError_token h.drop h.ne_nil hused (by simp) hparse,
      ih hnext (hnext.fits (by omega))]
    simp only [List.length_append, List.length_replicate]
    rw [show pos + (n + w.length) + (l.length + endLength e) =
      pos + (n + (w.length + l.length) + endLength e) by omega]

/-- **The main loop adds the tokens of a line to the command line and closes it at the end of the
line**; a line without tokens is passed over. Only where such a line starts the buffer and fills it
can its length wrap around. -/
theorem popLoop_line (hT : Content l T) (he : e = lineFeed ∨ e = carriageReturn)
    (h : p.LineAt pos l e y) (hfit : T ≠ [] ∨ l.length + endLength e < 2 ^ 32) :
    popLoop p line tok pos =
      match T.foldlM addToken line with
      | .error err => (parserConsume p (pos + (l.length + endLength e))).map fun p' =>
          (p', err, Option.none)
      | .ok line' =>
        if line' = [] then popLoop p [] .newLine (pos + (l.length + endLength e))
        else closeAndReturn p line' .newLine (pos + (l.length + endLength e)) := by
  induction hT generalizing pos line tok with
  | spaces n =>
    have hparse := next_newLine (n := n) he h.next
    rw [List.length_replicate] at hfit ⊢
    rw [uint32_of_lt (hfit.resolve_left fun hne => hne rfl)] at hparse
    rw [popLoop_newLine h.drop h.ne_nil (endLength_ne_zero n e) hparse]
    simp only [List.foldlM_nil, pure, Except.pure]
    split
    · rename_i h
      rw [h]
    · rfl
  | @bar n l T hT ih =>
    have hnext := h.after_bar
    have hrest := hnext.fits (by omega)
    have hpos : pos + (n + 1) + (l.length + endLength e) =
        pos + ((List.replicate n space ++ bar :: l).length + endLength e) := by
      simp only [List.length_append, List.length_replicate, List.length_cons]
      omega
    rw [popLoop_bar h.drop h.ne_nil (Nat.succ_ne_zero n) (next_bar h.drop).1, List.foldlM_cons]
    cases haddToken : addToken line .pipe with
    | error err =>
      simp only [bind, Except.bind]
      rw [returnError_line hT he hnext hrest, hpos]
    | ok line' =>
      simp only [bind, Except.bind]
      rw [ih hnext (.inr hrest), hpos]
  | @word n w l T hw hl hT ih =>
    have hparse := (next_word hw (h.word_end hw hl he) h.drop).1
    have hused := hw.used_ne_zero n
    have hnext := h.after_word hw hl he
    have hpos : pos + (n + w.length) + (l.length + endLength e) =
        pos + ((List.replicate n space ++ (w ++ l)).length + endLength e) := by
      simp only [List.length_append, List.length_replicate]
      omega
    rw [popLoop_str h.drop h.ne_nil hused hparse, List.foldlM_cons]
    simp only [addToken, bind, Except.bind]
    rw [ih hnext (.inr (hnext.fits (by omega))), hpos]

end LineAt

/-! ## A line that has not ended -/

theorem getLast?_of_append {x y : List UInt8} (h : (x ++ y).getLast? ≠ some space) :
    y.getLast? ≠ some space := by
  intro hy
  exact h (by rw [List.getLast?_append, hy]; rfl)

/-- The next token of a line that has not ended is a word. -/
theorem next_word_open (hw : IsWord w) (hl : l = [] ∨ l.head? = some space)
    (hx : p.data.drop pos = List.replicate n space ++ (w ++ l)) :
    (l = [] ∧ parseToken (List.replicate n space ++ (w ++ l) ++ p.buffer.drop p.size)
        (List.replicate n space ++ (w ++ l)).length = .ok (0, .str [])) ∨
      (l ≠ [] ∧ parseToken (List.replicate n space ++ (w ++ l) ++ p.buffer.drop p.size)
        (List.replicate n space ++ (w ++ l)).length = .ok (n + w.length, .str w) ∧
        p.data.drop (pos + (n + w.length)) = l) := by
  cases l with
  | nil =>
    refine Or.inl ⟨rfl, ?_⟩
    rw [List.append_nil, List.append_assoc]
    exact parseToken_open hw (by rw [List.length_append, List.length_replicate])
  | cons c l =>
    obtain rfl : c = space := by simpa using hl
    obtain ⟨hparse, hx'⟩ := next_word (y := []) hw ⟨space, l, by rw [List.append_nil], rfl⟩
      (by rw [hx, List.append_nil])
    rw [List.append_nil] at hparse hx'
    exact Or.inr ⟨List.cons_ne_nil _ _, hparse, hx'⟩

/-- After an error in a line that has not ended nothing is consumed, and the error is dropped. -/
theorem returnError_open (hT : Content l T) (hx : p.data.drop pos = l)
    (hlast : l.getLast? ≠ some space) : returnError p res pos = .ok (p, .none, Option.none) := by
  induction hT generalizing pos with
  | spaces n =>
    obtain rfl : n = 0 := by
      by_contra hn
      exact hlast (by rw [List.getLast?_replicate, if_neg hn])
    rw [returnError, dif_neg (Parser.size_le_of_drop hx)]
    rfl
  | @bar n l T hT ih =>
    obtain ⟨hparse, hx'⟩ := next_bar (y := []) (by rw [hx, List.append_nil])
    rw [List.append_nil] at hparse hx'
    rw [returnError_token hx (by simp) (Nat.succ_ne_zero n) (by simp) hparse]
    exact ih hx' (getLast?_of_append (x := [bar]) (getLast?_of_append hlast))
  | @word n w l T hw hl hT ih =>
    have hne : List.replicate n space ++ (w ++ l) ≠ [] := by simp [hw.nonempty]
    rcases next_word_open hw hl hx with ⟨-, hparse⟩ | ⟨-, hparse, hx'⟩
    · exact returnError_zero hx hne hparse
    · rw [returnError_token hx hne (hw.used_ne_zero n) (by simp) hparse]
      exact ih hx' (getLast?_of_append (getLast?_of_append hlast))

/-- **A line that has not ended stays in the buffer**, where it does not end in a space. -/
theorem popLoop_open (hT : Content l T) (hx : p.data.drop pos = l)
    (hlast : l.getLast? ≠ some space) (htok : l = [] → tok ≠ .newLine) :
    popLoop p line tok pos = .ok (p, .none, Option.none) := by
  induction hT generalizing pos line tok with
  | spaces n =>
    obtain rfl : n = 0 := by
      by_contra hn
      exact hlast (by rw [List.getLast?_replicate, if_neg hn])
    have hpos := Parser.size_le_of_drop hx
    rw [popLoop, dif_neg hpos, closeAndReturn, if_neg (htok rfl), returnError, dif_neg hpos]
    rfl
  | @bar n l T hT ih =>
    obtain ⟨hparse, hx'⟩ := next_bar (y := []) (by rw [hx, List.append_nil])
    rw [List.append_nil] at hparse hx'
    have hlast' := getLast?_of_append (x := [bar]) (getLast?_of_append hlast)
    rw [popLoop_bar hx (by simp) (Nat.succ_ne_zero n) hparse]
    cases addToken line .pipe with
    | error err => exact returnError_open hT hx' hlast'
    | ok line' => exact ih hx' hlast' (by simp)
  | @word n w l T hw hl hT ih =>
    have hne : List.replicate n space ++ (w ++ l) ≠ [] := by simp [hw.nonempty]
    rcases next_word_open hw hl hx with ⟨-, hparse⟩ | ⟨hl', hparse, hx'⟩
    · exact popLoop_zero hx hne hparse
    · rw [popLoop_str hx hne (hw.used_ne_zero n) hparse]
      exact ih hx' (getLast?_of_append (getLast?_of_append hlast)) fun h => absurd h hl'

end SemOS.Shell
