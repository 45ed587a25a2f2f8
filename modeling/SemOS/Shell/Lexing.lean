import Mathlib.Data.List.Basic
import SemOS.Shell.Parser

/-!
# Tokens of a line

`tokens` is the token sequence of the bytes of a line before its end: after spaces a bar is a pipe,
and otherwise a word runs up to the next space. `Content` is the same read from left to right, token
by token, and is what the proofs about the parser's loops go by.

The lemmas `parseToken_str`, `parseToken_bar`, `parseToken_newLine` and `parseToken_open` say what
`parse_token` returns in each case, whatever the memory holds behind the buffered bytes.
-/

namespace SemOS.Shell

/-- The token of a word that has ended. -/
def flush (word : List UInt8) : List Token := if word = [] then [] else [.str word]

/-- The tokens of the bytes of a line, after the bytes `word` of a word. -/
def tokensFrom (word : List UInt8) : List UInt8 → List Token
  | [] => flush word
  | c :: l =>
    if c = space then flush word ++ tokensFrom [] l
    else if c = bar ∧ word = [] then .pipe :: tokensFrom [] l
    else tokensFrom (word ++ [c]) l

/-- The token sequence of the bytes of a line. -/
def tokens (l : List UInt8) : List Token := tokensFrom [] l

/-- A word: no byte of it ends a string token, and it does not start with a bar. -/
structure IsWord (w : List UInt8) : Prop where
  nonempty : w ≠ []
  head : w.head? ≠ some bar
  inside : ∀ c ∈ w, tokenEnd c = false

/-- The bytes of a line with their tokens, from left to right. -/
inductive Content : List UInt8 → List Token → Prop
  | spaces (n : ℕ) : Content (List.replicate n space) []
  | bar (n : ℕ) {l : List UInt8} {T : List Token} (h : Content l T) :
    Content (List.replicate n space ++ bar :: l) (.pipe :: T)
  | word (n : ℕ) {w l : List UInt8} {T : List Token} (hw : IsWord w)
    (hl : l = [] ∨ l.head? = some space) (h : Content l T) :
    Content (List.replicate n space ++ (w ++ l)) (.str w :: T)

/-- No byte of `l` ends a line. -/
def NoLineEnd (l : List UInt8) : Prop := ∀ c ∈ l, c ≠ lineFeed ∧ c ≠ carriageReturn

theorem NoLineEnd.append {l l' : List UInt8} (h : NoLineEnd (l ++ l')) :
    NoLineEnd l ∧ NoLineEnd l' :=
  ⟨fun c hc => h c (List.mem_append_left _ hc), fun c hc => h c (List.mem_append_right _ hc)⟩

theorem Content.cons_space {l : List UInt8} {T : List Token} (h : Content l T) :
    Content (space :: l) T := by
  cases h with
  | spaces n => exact .spaces (n + 1)
  | bar n h => exact .bar (n + 1) h
  | word n hw hl h => exact .word (n + 1) hw hl h

/-- The bytes of a line after the start of a word. -/
theorem tokensFrom_word {w : List UInt8} (hw : w ≠ []) (l : List UInt8) :
    ∃ w' l', l = w' ++ l' ∧ (∀ c ∈ w', c ≠ space) ∧ (l' = [] ∨ l'.head? = some space) ∧
      tokensFrom w l = .str (w ++ w') :: tokens l' := by
  induction l generalizing w with
  | nil => exact ⟨[], [], rfl, by simp, Or.inl rfl, by simp [tokensFrom, flush, hw, tokens]⟩
  | cons c l ih =>
    by_cases hc : c = space
    · refine ⟨[], c :: l, rfl, by simp, Or.inr (by rw [hc]; rfl), ?_⟩
      simp [tokensFrom, hc, flush, hw, tokens]
    · obtain ⟨w', l', rfl, hw', hl', ht⟩ := ih (w := w ++ [c]) (by simp)
      refine ⟨c :: w', l', rfl, ?_, hl', ?_⟩
      · intro d hd
        rcases List.mem_cons.1 hd with rfl | hd
        · exact hc
        · exact hw' d hd
      · rw [tokensFrom, if_neg hc, if_neg (by simp [hw]), ht, List.append_assoc,
          List.singleton_append]

/-- **The tokens of a line, from left to right.** -/
theorem content_tokens {l : List UInt8} (h : NoLineEnd l) : Content l (tokens l) := by
  induction hn : l.length using Nat.strongRecOn generalizing l with
  | ind n ih =>
    subst hn
    cases l with
    | nil => exact .spaces 0
    | cons c l =>
      have hl : NoLineEnd l := fun d hd => h d (List.mem_cons_of_mem _ hd)
      by_cases hc : c = space
      · rw [tokens, tokensFrom, if_pos hc, hc]
        exact (ih _ (by simp) hl rfl).cons_space
      · by_cases hb : c = bar
        · rw [tokens, tokensFrom, if_neg hc, if_pos ⟨hb, rfl⟩, hb]
          exact .bar 0 (ih _ (by simp) hl rfl)
        · rw [tokens, tokensFrom, if_neg hc, if_neg (by simp [hb]), List.nil_append]
          obtain ⟨w, l', rfl, hw, hl', ht⟩ := tokensFrom_word (List.cons_ne_nil c []) l
          rw [ht]
          have hword : IsWord (c :: w) := by
            refine ⟨List.cons_ne_nil _ _, by simpa using hb, fun d hd => ?_⟩
            have hd' := h d (by
              rw [← List.cons_append]
              exact List.mem_append_left _ hd)
            have hds : d ≠ space := by
              rcases List.mem_cons.1 hd with rfl | hd
              · exact hc
              · exact hw d hd
            simp [tokenEnd, hds, hd'.1, hd'.2]
          have hlen : l'.length < (c :: (w ++ l')).length := by
            rw [List.length_cons, List.length_append]
            omega
          exact .word 0 hword hl' (ih _ hlen hl.append.2 rfl)

/-! ## What `parse_token` returns -/

variable {n avail : ℕ} {c e : UInt8} {w memory : List UInt8}

theorem skip2firstNonspace_replicate (n : ℕ) (hc : c ≠ space) (memory : List UInt8) :
    skip2firstNonspace (List.replicate n space ++ c :: memory) = .ok n := by
  induction n with
  | zero =>
    rw [List.replicate_zero, List.nil_append, skip2firstNonspace, if_neg hc]
  | succ n ih =>
    rw [List.replicate_succ, List.cons_append, skip2firstNonspace, if_pos rfl, ih]
    rfl

/-- After the spaces, within the buffered bytes, `parse_token` goes by the first other byte. -/
theorem parseToken_spaces (hc : c ≠ space) (hn : n ≤ avail) :
    parseToken (List.replicate n space ++ c :: memory) avail =
      if c = carriageReturn then .ok (uint32 (n + 2), .newLine)
      else if c = lineFeed then .ok (uint32 (n + 1), .newLine)
      else if c = bar then .ok (uint32 (n + 1), .pipe)
      else (scanToken (avail - n) (c :: memory)).map (stringToken n) := by
  have hdrop : (List.replicate n space ++ c :: memory).drop n = c :: memory :=
    List.drop_left' List.length_replicate
  rw [parseToken, skip2firstNonspace_replicate n hc]
  simp only [bind, Except.bind, Nat.min_eq_left hn, hdrop]
  rfl

/-- How many bytes a line end takes: a carriage return takes the byte after it along. -/
def endLength (e : UInt8) : ℕ := if e = lineFeed then 1 else 2

theorem parseToken_newLine (he : e = lineFeed ∨ e = carriageReturn) (hn : n ≤ avail) :
    parseToken (List.replicate n space ++ e :: memory) avail =
      .ok (uint32 (n + endLength e), .newLine) := by
  rcases he with rfl | rfl
  · exact parseToken_spaces (by decide) hn
  · exact parseToken_spaces (by decide) hn

theorem parseToken_bar (hn : n ≤ avail) (hfit : n + 1 < 2 ^ 32) :
    parseToken (List.replicate n space ++ bar :: memory) avail = .ok (n + 1, .pipe) := by
  rw [parseToken_spaces (by decide) hn, if_neg (by decide), if_neg (by decide), if_pos rfl,
    uint32_of_lt hfit]

theorem scanToken_word (hw : ∀ c ∈ w, tokenEnd c = false) (he : tokenEnd e = true)
    (hlen : w.length < avail) : scanToken avail (w ++ e :: memory) = .ok (some w) := by
  induction w generalizing avail with
  | nil =>
    obtain ⟨m, rfl⟩ := Nat.exists_eq_add_one.2 hlen
    simp [scanToken, he]
  | cons c w ih =>
    obtain ⟨m, rfl⟩ := Nat.exists_eq_add_one.2 (Nat.zero_lt_of_lt hlen)
    have hc := hw c (List.mem_cons_self ..)
    rw [List.cons_append, scanToken, if_neg (by simp [hc]),
      ih (fun d hd => hw d (List.mem_cons_of_mem _ hd)) (by simpa using hlen)]
    rfl

theorem scanToken_open (hw : ∀ c ∈ w, tokenEnd c = false) :
    scanToken w.length (w ++ memory) = .ok .none := by
  induction w with
  | nil => rfl
  | cons c w ih =>
    have hc := hw c (List.mem_cons_self ..)
    rw [List.length_cons, List.cons_append, scanToken, if_neg (by simp [hc]),
      ih fun d hd => hw d (List.mem_cons_of_mem _ hd)]
    rfl

/-- The first byte of a word, which is no space, no line end and no bar. -/
theorem IsWord.cons (hw : IsWord w) : ∃ c w', w = c :: w' ∧ c ≠ space ∧ c ≠ lineFeed ∧
    c ≠ carriageReturn ∧ c ≠ bar := by
  cases w with
  | nil => exact absurd rfl hw.nonempty
  | cons c w =>
    have hc := hw.inside c (List.mem_cons_self ..)
    simp only [tokenEnd, Bool.or_eq_false_iff, decide_eq_false_iff_not] at hc
    exact ⟨c, w, rfl, hc.1.1, hc.1.2, hc.2, by simpa using hw.head⟩

/-- A word and the byte that ends it. -/
theorem parseToken_str (hw : IsWord w) (he : tokenEnd e = true) (hn : n + w.length < avail)
    (hfit : avail < 2 ^ 32) :
    parseToken (List.replicate n space ++ (w ++ e :: memory)) avail =
      .ok (n + w.length, .str w) := by
  obtain ⟨c, w', rfl, hs, hf, hr, hb⟩ := hw.cons
  rw [List.cons_append, parseToken_spaces hs (by omega), if_neg hr, if_neg hf, if_neg hb,
    ← List.cons_append, scanToken_word hw.inside he (by omega)]
  simp only [Except.map, stringToken]
  rw [uint32_of_lt (Nat.lt_trans hn hfit)]

/-- A word that the buffered bytes end in. -/
theorem parseToken_open (hw : IsWord w) (hn : avail = n + w.length) :
    parseToken (List.replicate n space ++ (w ++ memory)) avail = .ok (0, .str []) := by
  obtain ⟨c, w', rfl, hs, hf, hr, hb⟩ := hw.cons
  have havail : avail - n = (c :: w').length := by omega
  rw [List.cons_append, parseToken_spaces hs (by omega), if_neg hr, if_neg hf, if_neg hb,
    ← List.cons_append, havail, scanToken_open hw.inside]
  rfl

end SemOS.Shell
