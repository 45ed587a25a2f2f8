import SemOS.Shell.PopLines

/-!
# The next line of a byte stream

What the parser is for, said of the bytes alone. A line ends in a line feed, or in a carriage return
and whatever byte follows it. `nextLine` is the first complete line that has a token, with what is
returned for it and the bytes after it; lines without tokens are passed over. `openLine` is the
line that has not ended.

* `parserPopNext_of_nextLine`: where there is a next line, `parser_pop_next` returns what is due for
  it and keeps the bytes after it.
* `parserPopNext_of_open`: where there is none, it leaves an open line as it is.
* `popLoop_of_no_nextLine`: otherwise the loop comes to the open line (`SemOS.Shell.PastEnd`).
-/

namespace SemOS.Shell

variable {p : Parser} {pos : ℕ} {tok : Token} {e : UInt8} {bs l r : List UInt8} {T : List Token}

/-- The bytes before the first line end, and the bytes after it. -/
def splitLine : List UInt8 → Option (List UInt8 × List UInt8)
  | [] => none
  | c :: bs =>
    if c = lineFeed then some ([], bs)
    else if c = carriageReturn then
      if bs = [] then none else some ([], bs.tail)
    else (splitLine bs).map fun (l, r) => (c :: l, r)

theorem splitLine_eq_some (h : splitLine bs = some (l, r)) :
    NoLineEnd l ∧ ∃ e y, (e = lineFeed ∨ e = carriageReturn) ∧ bs = l ++ e :: y ∧
      bs.drop (l.length + endLength e) = r ∧ l.length + endLength e ≤ bs.length := by
  induction bs generalizing l with
  | nil => cases h
  | cons c bs ih =>
    rw [splitLine] at h
    split at h
    · rename_i hc
      cases h
      exact ⟨by simp [NoLineEnd], c, r, Or.inl hc, rfl, by simp [endLength, hc],
        by simp [endLength, hc]⟩
    · split at h
      · rename_i hc hr
        split at h
        · cases h
        · rename_i hbs
          cases h
          have hlen := List.length_pos_iff.2 hbs
          refine ⟨by simp [NoLineEnd], c, bs, Or.inr hr, rfl, ?_, ?_⟩
          · simp [endLength, hc]
          · simp only [endLength, hc, if_false, List.length_nil, List.length_cons]
            omega
      · rename_i hc hr
        obtain ⟨⟨l', r'⟩, hs, h⟩ := Option.map_eq_some_iff.1 h
        cases h
        obtain ⟨hl, e, y, he, rfl, hdrop, hlen⟩ := ih hs
        refine ⟨?_, e, y, he, rfl, ?_, ?_⟩
        · intro d hd
          rcases List.mem_cons.1 hd with rfl | hd
          · exact ⟨hc, hr⟩
          · exact hl d hd
        · rw [List.length_cons, Nat.add_right_comm, List.drop_succ_cons, hdrop]
        · simp only [List.length_cons]
          omega

theorem splitLine_eq_none (h : splitLine bs = none) :
    NoLineEnd bs ∨ ∃ l, NoLineEnd l ∧ bs = l ++ [carriageReturn] := by
  induction bs with
  | nil => exact Or.inl (by simp [NoLineEnd])
  | cons c bs ih =>
    rw [splitLine] at h
    split at h
    · cases h
    · split at h
      · rename_i hc hr
        split at h
        · rename_i hbs
          exact Or.inr ⟨[], by simp [NoLineEnd], by rw [hr, hbs]; rfl⟩
        · cases h
      · rename_i hc hr
        have hcons : ∀ l : List UInt8, NoLineEnd l → NoLineEnd (c :: l) := by
          intro l hl d hd
          rcases List.mem_cons.1 hd with rfl | hd
          · exact ⟨hc, hr⟩
          · exact hl d hd
        rcases ih (Option.map_eq_none_iff.1 h) with h | ⟨l, hl, rfl⟩
        · exact Or.inl (hcons _ h)
        · exact Or.inr ⟨c :: l, hcons _ hl, rfl⟩

theorem length_of_splitLine (h : splitLine bs = some (l, r)) : r.length < bs.length := by
  obtain ⟨-, e, y, -, -, rfl, hlen⟩ := splitLine_eq_some h
  have := endLength_ne_zero 0 e
  rw [List.length_drop]
  omega

/-- What a line that has a token is answered with. -/
def lineResult (T : List Token) : ParserError × Option CommandLine :=
  match T.foldlM addToken [] with
  | .error err => (err, none)
  | .ok line => if line.getLast? = some .pipe then (.endsNotWithACommand, none) else (.none, line)

/-- The answer to the first complete line that has a token, and the bytes after it. -/
def nextLine (bs : List UInt8) : Option ((ParserError × Option CommandLine) × List UInt8) :=
  match _h : splitLine bs with
  | none => none
  | some (l, r) => if tokens l = [] then nextLine r else some (lineResult (tokens l), r)
termination_by bs.length
decreasing_by exact length_of_splitLine _h

/-- The bytes after the last line end. -/
def openLine (bs : List UInt8) : List UInt8 :=
  match _h : splitLine bs with
  | none => bs
  | some (_, r) => openLine r
termination_by bs.length
decreasing_by exact length_of_splitLine _h

theorem nextLine_of_split (h : splitLine bs = some (l, r)) :
    nextLine bs = if tokens l = [] then nextLine r else some (lineResult (tokens l), r) := by
  rw [nextLine]
  split
  · rename_i h'
    rw [h] at h'
    cases h'
  · rename_i h'
    rw [h] at h'
    cases h'
    rfl

theorem nextLine_of_none (h : splitLine bs = none) : nextLine bs = none := by
  rw [nextLine]
  split
  · rfl
  · rename_i h'
    rw [h] at h'
    cases h'

theorem openLine_of_split (h : splitLine bs = some (l, r)) : openLine bs = openLine r := by
  rw [openLine]
  split
  · rename_i h'
    rw [h] at h'
    cases h'
  · rename_i h'
    rw [h] at h'
    cases h'
    rfl

theorem openLine_of_none (h : splitLine bs = none) : openLine bs = bs := by
  rw [openLine]
  split
  · rfl
  · rename_i h'
    rw [h] at h'
    cases h'

/-! ## Consuming and closing -/

/-- At most the buffered bytes are consumed, and the capacity stays. -/
theorem parserConsume_ok {n : ℕ} (hn : n ≤ p.size) :
    ∃ p', parserConsume p n = .ok p' ∧ p'.data = p.data.drop n ∧
      p'.buffer.length = p.buffer.length := by
  have hle := p.size_le
  have hfit : uint32 n = n := uint32_of_lt (Nat.lt_of_le_of_lt hn p.size_lt)
  rw [parserConsume]
  simp only [hfit, dif_pos hn]
  split
  · rename_i h
    refine ⟨_, rfl, ?_, rfl⟩
    rw [List.drop_eq_nil_of_le (by rw [Parser.length_data]; omega), Parser.data, List.take_zero]
  · have hlen : ((p.buffer.drop n).take (p.size - n)).length = p.size - n := by
      rw [List.length_take, List.length_drop]
      omega
    refine ⟨_, rfl, ?_, length_copyTo (by omega)⟩
    simp only [Parser.data, copyTo, List.take_zero, List.nil_append]
    rw [List.take_left' hlen, List.drop_take]

theorem parserConsume_fault {n : ℕ} (hn : p.size < n) (hfit : n < 2 ^ 32) :
    parserConsume p n = .error .assertionFailed := by
  rw [parserConsume, dif_neg (by rw [uint32_of_lt hfit]; exact Nat.not_le.2 hn)]

/-- `2 ^ 32` bytes to consume are none. -/
theorem parserConsume_wrap (p : Parser) : parserConsume p (2 ^ 32) = .ok p := by
  have hzero : uint32 (2 ^ 32) = 0 := rfl
  have hle := p.size_le
  obtain ⟨buffer, size, hsize, hcap⟩ := p
  rw [parserConsume]
  simp only [hzero, Nat.zero_le, dite_true, Nat.sub_zero, List.drop_zero]
  split
  · rename_i h
    subst h
    rfl
  · have hcopy : copyTo buffer 0 (buffer.take size) = buffer := by
      rw [copyTo, List.take_zero, List.nil_append, Nat.zero_add, List.length_take,
        Nat.min_eq_left hsize, List.take_append_drop]
    simp only [hcopy]

/-- Closing a line without tokens fails its assertion. -/
theorem closeAndReturn_nil : closeAndReturn p [] .newLine pos = .error .assertionFailed := rfl

theorem closeAndReturn_newLine {line : CommandLine} (hline : line ≠ []) :
    closeAndReturn p line .newLine pos =
      (parserConsume p pos).map fun p' =>
        if line.getLast? = some .pipe then (p', .endsNotWithACommand, Option.none)
        else (p', .none, some line) := by
  rw [closeAndReturn, if_pos rfl, List.getLast?_eq_some_getLast hline]
  cases parserConsume p pos with
  | error err => rfl
  | ok p' => cases line.getLast hline <;> rfl

/-! ## One complete line -/

theorem Content.eq_replicate (h : Content l []) : ∃ n, l = List.replicate n space := by
  cases h with
  | spaces n => exact ⟨n, rfl⟩

/-- A line without tokens has only spaces. -/
theorem Content.eq_nil_iff (h : Content l T) : T = [] ↔ ∀ c ∈ l, c = space := by
  cases h with
  | spaces n => exact iff_of_true rfl fun c hc => List.eq_of_mem_replicate hc
  | bar n h =>
    exact iff_of_false (List.cons_ne_nil _ _) fun hall =>
      absurd (hall Shell.bar (by simp)) (by decide)
  | word n hw hl h =>
    obtain ⟨c, w, rfl, hc, -⟩ := hw.cons
    exact iff_of_false (List.cons_ne_nil _ _) fun hall => hc (hall c (by simp))

theorem addToken_ne_nil {line line' : CommandLine} {t : Token} (ht : t = .pipe ∨ ∃ w, t = .str w)
    (h : addToken line t = .ok line') : line' ≠ [] := by
  rcases ht with rfl | ⟨w, rfl⟩
  · rw [addToken] at h
    split at h
    · cases h
    · cases h
    · cases h
      simp
  · cases h
    rw [appendWord]
    split <;> simp

/-- A line with tokens leaves a command line that is not empty. -/
theorem foldlM_addToken_ne_nil (hT : Content l T) {line line' : CommandLine}
    (hne : T ≠ [] ∨ line ≠ []) (h : T.foldlM addToken line = .ok line') : line' ≠ [] := by
  induction hT generalizing line with
  | spaces n =>
    cases h
    simpa using hne
  | bar n _ ih =>
    rw [List.foldlM_cons] at h
    cases ha : addToken line .pipe with
    | error err =>
      rw [ha] at h
      cases h
    | ok line₁ =>
      rw [ha] at h
      exact ih (Or.inr (addToken_ne_nil (Or.inl rfl) ha)) h
  | @word n w l T _ _ _ ih =>
    rw [List.foldlM_cons] at h
    exact ih (Or.inr (addToken_ne_nil (Or.inr ⟨w, rfl⟩) rfl)) h

section LineAt

variable {y : List UInt8} (hl : NoLineEnd l) (he : e = lineFeed ∨ e = carriageReturn)
  (h : p.LineAt pos l e y)
include hl he h

/-- A line without tokens is passed over. -/
theorem popLoop_blank (hfit : l.length + endLength e < 2 ^ 32) (hT : tokens l = []) :
    popLoop p [] tok pos = popLoop p [] .newLine (pos + (l.length + endLength e)) := by
  rw [popLoop_line (content_tokens hl) he h (Or.inr hfit), hT]
  rfl

/-- A line with tokens is consumed and answered. -/
theorem popLoop_answer (hT : tokens l ≠ []) :
    popLoop p [] tok pos =
      (parserConsume p (pos + (l.length + endLength e))).map
        fun p' => (p', lineResult (tokens l)) := by
  rw [popLoop_line (content_tokens hl) he h (Or.inl hT), lineResult]
  cases hfold : (tokens l).foldlM addToken [] with
  | error err => rfl
  | ok line =>
    have hline := foldlM_addToken_ne_nil (content_tokens hl) (Or.inl hT) hfold
    simp only [if_neg hline, closeAndReturn_newLine hline]
    congr 1
    funext p'
    split <;> rfl

/-- A line without tokens whose end is counted past the buffered bytes fails an assertion. -/
theorem popLoop_blank_past (hpast : p.size < pos + (l.length + endLength e))
    (hfit : l.length + endLength e < 2 ^ 32) (hT : tokens l = []) :
    popLoop p [] tok pos = .error .assertionFailed := by
  rw [popLoop_blank hl he h hfit hT, popLoop, dif_neg (by omega), closeAndReturn_nil]

/-- So does a line with tokens, as long as the count does not wrap around. -/
theorem popLoop_past (hpast : p.size < pos + (l.length + endLength e))
    (hfit : pos + (l.length + endLength e) < 2 ^ 32) :
    popLoop p [] tok pos = .error .assertionFailed := by
  by_cases hT : tokens l = []
  · exact popLoop_blank_past hl he h hpast (by omega) hT
  · rw [popLoop_answer hl he h hT, parserConsume_fault hpast hfit]
    rfl

/-- Where the count wraps around to zero, a line with a token is answered and stays where it is. -/
theorem popLoop_wraps (hwrap : pos + (l.length + endLength e) = 2 ^ 32) (hT : tokens l ≠ []) :
    popLoop p [] tok pos = .ok (p, lineResult (tokens l)) := by
  rw [popLoop_answer hl he h hT, hwrap, parserConsume_wrap]
  rfl

/-- A line without tokens is then taken for a token that is not complete, if it starts the
buffer. -/
theorem popLoop_blank_wraps (hwrap : l.length + endLength e = 2 ^ 32) (hT : tokens l = []) :
    popLoop p [] tok pos = .ok (p, .none, Option.none) := by
  obtain ⟨n, rfl⟩ := (hT ▸ content_tokens hl).eq_replicate
  have hparse := next_newLine (n := n) he h.next
  rw [List.length_replicate] at hwrap
  rw [hwrap, show uint32 (2 ^ 32) = 0 from rfl] at hparse
  exact popLoop_zero h.drop h.ne_nil hparse

end LineAt

/-! ## All the bytes -/

/-- A line with a token takes at least two bytes. -/
theorem length_of_nextLine {res : ParserError × Option CommandLine}
    (h : nextLine bs = some (res, r)) : r.length + 2 ≤ bs.length := by
  induction hn : bs.length using Nat.strongRecOn generalizing bs with
  | ind n ih =>
    subst hn
    cases hs : splitLine bs with
    | none =>
      rw [nextLine_of_none hs] at h
      cases h
    | some lr =>
      obtain ⟨l, r'⟩ := lr
      have hshort := length_of_splitLine hs
      rw [nextLine_of_split hs] at h
      split at h
      · exact Nat.le_trans (ih _ hshort h rfl) (Nat.le_of_lt hshort)
      · rename_i hT
        cases h
        obtain ⟨-, e, y, -, -, rfl, hlen⟩ := splitLine_eq_some hs
        have hl : l ≠ [] := by
          rintro rfl
          exact hT rfl
        have := List.length_pos_iff.2 hl
        have := endLength_ne_zero 0 e
        rw [List.length_drop]
        omega

/-- **The next line is answered**, the bytes after it stay, and so does the capacity. -/
theorem popLoop_of_nextLine (hx : p.data.drop pos = bs) {res : ParserError × Option CommandLine}
    (h : nextLine bs = some (res, r)) :
    ∃ p', popLoop p [] tok pos = .ok (p', res) ∧ p'.data = r ∧
      p'.buffer.length = p.buffer.length := by
  induction hn : bs.length using Nat.strongRecOn generalizing bs pos tok with
  | ind n ih =>
    subst hn
    cases hs : splitLine bs with
    | none =>
      rw [nextLine_of_none hs] at h
      cases h
    | some lr =>
      obtain ⟨l, r'⟩ := lr
      have hshort := length_of_splitLine hs
      obtain ⟨hl, e, y, he, rfl, hdrop, hlen⟩ := splitLine_eq_some hs
      rw [nextLine_of_split hs] at h
      have hx' : p.data.drop (pos + (l.length + endLength e)) = r' := by
        rw [← List.drop_drop, hx, hdrop]
      have hsize : pos + (l.length + endLength e) ≤ p.size := by
        have hlen' : p.size - pos = (l ++ e :: y).length := by
          rw [← hx, List.length_drop, Parser.length_data]
        have := endLength_ne_zero l.length e
        omega
      split at h
      · rename_i hT
        have hfit := Nat.lt_of_le_of_lt hsize p.size_lt
        rw [popLoop_blank hl he (Parser.lineAt_of_drop hx) (by omega) hT]
        exact ih r'.length hshort hx' h rfl
      · rename_i hT
        cases h
        obtain ⟨p', hp', hd, hcap⟩ := parserConsume_ok hsize
        rw [popLoop_answer hl he (Parser.lineAt_of_drop hx) hT, hp']
        exact ⟨p', rfl, hd.trans hx', hcap⟩

/-- Without a next line all complete lines are passed over, up to the open one. -/
theorem popLoop_of_no_nextLine (tok : Token) (hx : p.data.drop pos = bs) (h : nextLine bs = none)
    (hpos : pos ≤ p.size) :
    ∃ pos' tok', popLoop p [] tok pos = popLoop p [] tok' pos' ∧ p.data.drop pos' = openLine bs ∧
      pos' ≤ p.size ∧ (tok' = tok ∧ splitLine bs = none ∨ tok' = .newLine ∧ bs ≠ []) := by
  induction hn : bs.length using Nat.strongRecOn generalizing bs pos tok with
  | ind n ih =>
    subst hn
    cases hs : splitLine bs with
    | none =>
      rw [openLine_of_none hs]
      exact ⟨pos, tok, rfl, hx, hpos, Or.inl ⟨rfl, rfl⟩⟩
    | some lr =>
      obtain ⟨l, r'⟩ := lr
      have hshort := length_of_splitLine hs
      obtain ⟨hl, e, y, he, rfl, hdrop, hlen⟩ := splitLine_eq_some hs
      rw [nextLine_of_split hs] at h
      have hx' : p.data.drop (pos + (l.length + endLength e)) = r' := by
        rw [← List.drop_drop, hx, hdrop]
      split at h
      · rename_i hT
        have hsize : pos + (l.length + endLength e) ≤ p.size := by
          have hlen' : p.size - pos = (l ++ e :: y).length := by
            rw [← hx, List.length_drop, Parser.length_data]
          omega
        have hfit := Nat.lt_of_le_of_lt hsize p.size_lt
        rw [popLoop_blank hl he (Parser.lineAt_of_drop hx) (by omega) hT, openLine_of_split hs]
        obtain ⟨pos', tok', hpop, hd, hle, htok⟩ := ih r'.length hshort .newLine hx' h hsize rfl
        refine ⟨pos', tok', hpop, hd, hle, Or.inr ⟨?_, by simp⟩⟩
        rcases htok with ⟨h, -⟩ | ⟨h, -⟩ <;> exact h
      · cases h

/-! ## What `parser_pop_next` does -/

/-- The bytes end after a blank line, or at a carriage return. -/
def EndsInLineEnd (bs : List UInt8) : Prop :=
  bs ≠ [] ∧ (openLine bs = [] ∨ (openLine bs).getLast? = some carriageReturn)

/-- The bytes end in a space of an open line. -/
def EndsInSpace (bs : List UInt8) : Prop := (openLine bs).getLast? = some space

instance : DecidablePred EndsInLineEnd := fun bs =>
  inferInstanceAs (Decidable (bs ≠ [] ∧ _))

instance : DecidablePred EndsInSpace := fun bs =>
  inferInstanceAs (Decidable ((openLine bs).getLast? = some space))

theorem parserPopNext_of_nextLine {res : ParserError × Option CommandLine}
    (h : nextLine p.data = some (res, r)) :
    ∃ p', parserPopNext p = .ok (p', res) ∧ p'.data = r ∧
      p'.buffer.length = p.buffer.length :=
  popLoop_of_nextLine List.drop_zero h

theorem splitLine_openLine (bs : List UInt8) : splitLine (openLine bs) = none := by
  induction hn : bs.length using Nat.strongRecOn generalizing bs with
  | ind n ih =>
    subst hn
    cases hs : splitLine bs with
    | none => rw [openLine_of_none hs, hs]
    | some lr =>
      rw [openLine_of_split hs]
      exact ih _ (length_of_splitLine hs) _ rfl

theorem openLine_nil : openLine [] = [] := openLine_of_none rfl

/-- An open line, of bytes that do not end in a line end, has no line end. -/
theorem noLineEnd_openLine (h : ¬ EndsInLineEnd bs) : NoLineEnd (openLine bs) := by
  rcases splitLine_eq_none (splitLine_openLine bs) with hU | ⟨l, -, hU⟩
  · exact hU
  · refine absurd ⟨?_, Or.inr ?_⟩ h
    · rintro rfl
      rw [openLine_nil] at hU
      simp at hU
    · rw [hU, List.getLast?_concat]

/-- **Without a next line an open line stays in the buffer.** -/
theorem parserPopNext_of_open (h : nextLine p.data = none) (hend : ¬ EndsInLineEnd p.data)
    (hspace : ¬ EndsInSpace p.data) : parserPopNext p = .ok (p, .none, Option.none) := by
  obtain ⟨pos', tok', hpop, hd, -, htok⟩ :=
    popLoop_of_no_nextLine .none List.drop_zero h (Nat.zero_le _)
  rw [parserPopNext, hpop]
  refine popLoop_open (content_tokens (noLineEnd_openLine hend)) hd hspace fun hU => ?_
  rcases htok with ⟨h, -⟩ | ⟨-, hne⟩
  · simp [h]
  · exact absurd ⟨hne, Or.inl hU⟩ hend

end SemOS.Shell
