import SemOS.Shell.Lines

/-!
# Line ends past the buffered bytes

A carriage return takes the byte after it along, and after a space `parse_token` reads on behind the
buffered bytes. So the end of an open line may be counted past them (`Parser.EndsLine`). The count
is a `uint32_t`, and one of `2 ^ 32` bytes is zero (`Parser.Wraps`).

* `parserPopNext_past`, `parserPopNext_fault`: an assertion fails there, and after a blank line that
  the bytes end in.
* `parserPopNext_wraps`, `parserPopNext_wraps_blank`: where the count wraps around, an open line
  with a token is answered and nothing is consumed.
-/

namespace SemOS.Shell

variable {p : Parser} {pos : ℕ}

/-- The open line without the carriage return that the bytes end in. -/
def closedLine (bs : List UInt8) : List UInt8 :=
  if (openLine bs).getLast? = some carriageReturn then (openLine bs).dropLast else openLine bs

/-- The open line is ended by a carriage return that is the last byte, or, after a space, by a line
end in the memory behind the bytes. -/
def Parser.EndsLine (p : Parser) : Prop :=
  (openLine p.data).getLast? = some carriageReturn ∨
    EndsInSpace p.data ∧
      (p.behind.head? = some lineFeed ∨ p.behind.head? = some carriageReturn)

/-- The bytes up to this line end, with the one after a carriage return, are `2 ^ 32`. -/
def Parser.Wraps (p : Parser) : Prop :=
  (openLine p.data).getLast? = some carriageReturn ∧ p.size + 1 = 2 ^ 32 ∨
    EndsInSpace p.data ∧ p.behind.head? = some carriageReturn ∧ p.size + 2 = 2 ^ 32

/-- No line with a token is complete, but the open line has one and is ended there. -/
def Parser.Overruns (p : Parser) : Prop :=
  nextLine p.data = none ∧ (∃ c ∈ (openLine p.data).dropLast, c ≠ space) ∧ p.EndsLine

theorem Parser.Wraps.endsLine (h : p.Wraps) : p.EndsLine := by
  rcases h with ⟨h, -⟩ | ⟨hspace, hhead, -⟩
  · exact Or.inl h
  · exact Or.inr ⟨hspace, Or.inr hhead⟩

theorem openLine_ne_nil (h : p.EndsLine) : openLine p.data ≠ [] := by
  intro hU
  rw [Parser.EndsLine, EndsInSpace, hU] at h
  simp at h

theorem noLineEnd_closedLine (bs : List UInt8) : NoLineEnd (closedLine bs) := by
  rw [closedLine]
  rcases splitLine_eq_none (splitLine_openLine bs) with hU | ⟨l, hl, hU⟩
  · rw [if_neg fun h => (hU _ (List.mem_of_getLast? h)).2 rfl]
    exact hU
  · rw [hU, if_pos List.getLast?_concat, List.dropLast_concat]
    exact hl

/-- The token of an open line that is ended comes before its last byte. -/
theorem tokens_closedLine (h : p.EndsLine) :
    tokens (closedLine p.data) ≠ [] ↔ ∃ c ∈ (openLine p.data).dropLast, c ≠ space := by
  have hnil := (content_tokens (noLineEnd_closedLine p.data)).eq_nil_iff
  rw [ne_eq, not_congr hnil, closedLine]
  split
  · simp
  · rename_i hr
    have hlast := (h.resolve_left hr).1
    obtain ⟨l, hl⟩ := List.getLast?_eq_some_iff.1 hlast
    rw [hl, List.dropLast_concat]
    simp

/-- Where the open line lies, and how far its end is counted. -/
theorem Parser.EndsLine.lineAt (h : p.EndsLine) (hd : p.data.drop pos = openLine p.data)
    (hpos : pos ≤ p.size) : ∃ e y, (e = lineFeed ∨ e = carriageReturn) ∧
      p.LineAt pos (closedLine p.data) e y ∧
      p.size < pos + ((closedLine p.data).length + endLength e) ∧
      (p.Wraps ↔ pos + ((closedLine p.data).length + endLength e) = 2 ^ 32) ∧
      pos + ((closedLine p.data).length + endLength e) ≤ 2 ^ 32 := by
  have hlen : p.size - pos = (openLine p.data).length := by
    rw [← hd, List.length_drop, Parser.length_data]
  have hne := List.length_pos_iff.2 (openLine_ne_nil h)
  have hsize := p.size_lt
  by_cases hr : (openLine p.data).getLast? = some carriageReturn
  · obtain ⟨l, hl⟩ := List.getLast?_eq_some_iff.1 hr
    have hclosed : closedLine p.data = l := by rw [closedLine, if_pos hr, hl, List.dropLast_concat]
    have hspace : ¬ EndsInSpace p.data := by
      rw [EndsInSpace, hr]
      decide
    rw [hl, List.length_append, List.length_singleton] at hlen
    refine ⟨carriageReturn, [carriageReturn], Or.inr rfl,
      Parser.lineAt_of_drop (by rw [hd, hclosed, hl]), ?_, ?_, ?_⟩
    · rw [hclosed, show endLength carriageReturn = 2 from rfl]
      omega
    · rw [hclosed, show endLength carriageReturn = 2 from rfl, Parser.Wraps]
      simp only [hr, hspace, true_and, false_and, or_false]
      omega
    · rw [hclosed, show endLength carriageReturn = 2 from rfl]
      omega
  · obtain ⟨hspace, hhead⟩ := h.resolve_left hr
    have hclosed : closedLine p.data = openLine p.data := if_neg hr
    obtain ⟨e, he, hnext⟩ : ∃ e, (e = lineFeed ∨ e = carriageReturn) ∧ p.behind.head? = some e := by
      rcases hhead with h | h
      · exact ⟨_, Or.inl rfl, h⟩
      · exact ⟨_, Or.inr rfl, h⟩
    have hbehind := Parser.size_of_behind hnext
    refine ⟨e, [], he, ⟨by rw [hd, hclosed, List.append_nil], hnext, fun _ => by rwa [hclosed]⟩,
      ?_, ?_, ?_⟩
    · have := endLength_ne_zero 0 e
      rw [hclosed]
      omega
    · rw [hclosed, Parser.Wraps, hnext]
      simp only [hr, hspace, true_and, false_and, false_or]
      rcases he with rfl | rfl
      · rw [show endLength lineFeed = 1 from rfl]
        simp only [Option.some.injEq]
        rw [iff_false_left fun h => absurd h.1 (by decide)]
        omega
      · rw [show endLength carriageReturn = 2 from rfl]
        simp only [true_and]
        omega
    · have : endLength e ≤ 2 := by rcases he with rfl | rfl <;> decide
      rw [hclosed]
      omega

/-- **Past the end of the bytes an assertion fails**, unless the count wraps around. -/
theorem parserPopNext_past (h : nextLine p.data = none) (hend : p.EndsLine) (hwraps : ¬ p.Wraps) :
    parserPopNext p = .error .assertionFailed := by
  obtain ⟨pos', tok', hpop, hd, hle, -⟩ :=
    popLoop_of_no_nextLine .none List.drop_zero h (Nat.zero_le _)
  obtain ⟨e, y, he, hline, hpast, hwrap, hbound⟩ := hend.lineAt hd hle
  rw [parserPopNext, hpop]
  exact popLoop_past (noLineEnd_closedLine p.data) he hline hpast
    (Nat.lt_of_le_of_ne hbound fun heq => hwraps (hwrap.2 heq))

/-- **After a blank line, or at a carriage return, where the bytes end, an assertion fails.** -/
theorem parserPopNext_fault (h : nextLine p.data = none) (hend : EndsInLineEnd p.data)
    (hwraps : ¬ p.Wraps) : parserPopNext p = .error .assertionFailed := by
  obtain ⟨hne, hU | hU⟩ := hend
  · obtain ⟨pos', tok', hpop, hd, hle, htok⟩ :=
      popLoop_of_no_nextLine .none List.drop_zero h (Nat.zero_le _)
    rcases htok with ⟨-, hs⟩ | ⟨rfl, -⟩
    · rw [openLine_of_none hs] at hU
      exact absurd hU hne
    · rw [hU] at hd
      rw [parserPopNext, hpop, popLoop, dif_neg (Parser.size_le_of_drop hd), closeAndReturn_nil]
  · exact parserPopNext_past h (Or.inl hU) hwraps

/-- **Where the count wraps around, an open line with a token is answered and nothing consumed.** -/
theorem parserPopNext_wraps (h : p.Overruns) (hwraps : p.Wraps) :
    parserPopNext p = .ok (p, lineResult (tokens (closedLine p.data))) := by
  obtain ⟨hnone, htoken, hend⟩ := h
  obtain ⟨pos', tok', hpop, hd, hle, -⟩ :=
    popLoop_of_no_nextLine .none List.drop_zero hnone (Nat.zero_le _)
  obtain ⟨e, y, he, hline, -, hwrap, -⟩ := hend.lineAt hd hle
  rw [parserPopNext, hpop]
  exact popLoop_wraps (noLineEnd_closedLine p.data) he hline (hwrap.1 hwraps)
    ((tokens_closedLine hend).2 htoken)

/-- An open line without one rests if it is all there is, and fails an assertion after blank
lines. -/
theorem parserPopNext_wraps_blank (h : nextLine p.data = none) (hwraps : p.Wraps)
    (htoken : ¬ ∃ c ∈ (openLine p.data).dropLast, c ≠ space) :
    parserPopNext p = if openLine p.data = p.data then .ok (p, .none, Option.none)
      else .error .assertionFailed := by
  obtain ⟨pos', tok', hpop, hd, hle, -⟩ :=
    popLoop_of_no_nextLine .none List.drop_zero h (Nat.zero_le _)
  obtain ⟨e, y, he, hline, hpast, hwrap, -⟩ := hwraps.endsLine.lineAt hd hle
  have hT : tokens (closedLine p.data) = [] := by
    by_contra hne
    exact htoken ((tokens_closedLine hwraps.endsLine).1 hne)
  have hl := noLineEnd_closedLine p.data
  rw [parserPopNext, hpop]
  by_cases hpos : pos' = 0
  · subst hpos
    rw [if_pos (by rw [← hd, List.drop_zero])]
    exact popLoop_blank_wraps hl he hline (by have := hwrap.1 hwraps; omega) hT
  · have hdata : openLine p.data ≠ p.data := by
      intro heq
      have hlen := congrArg List.length hd
      rw [List.length_drop, heq, Parser.length_data] at hlen
      have := List.length_pos_iff.2 (openLine_ne_nil hwraps.endsLine)
      rw [heq, Parser.length_data] at this
      omega
    rw [if_neg hdata]
    exact popLoop_blank_past hl he hline hpast (hline.fits (by omega)) hT

end SemOS.Shell
