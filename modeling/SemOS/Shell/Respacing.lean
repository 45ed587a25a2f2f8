import SemOS.Shell.PipeSpaces

/-!
# Lines that are answered alike

A pipe right behind a word belongs to it, and so does all that follows without a space. So two lines
that differ only in spaces next to pipes have the same tokens exactly if a space is missing at the
same places behind a word (`Spaced.Alike`).

* `tokens_eq_iff`: the tokens of two such lines are the same exactly then.
* `respaced_answered_iff`: so is what they are answered with, if one of them is a command line.
* `tokens_respaced`: with a space before every pipe that comes after a word, the other spaces next
  to pipes do not matter.
-/

namespace SemOS.Shell

variable {s s' : Spaced} {a b inWord : Bool} {v u l : List UInt8} {T T' : List Token}
  {line line' : CommandLine}

/-- At the same places a space is missing behind a word. The flag tells whether the bytes right
before belong to a word. -/
def Spaced.Alike : Bool → Spaced → Spaced → Prop
  | _, last _, last _ => True
  | inWord, word n _ next, word n' _ next' =>
    (inWord = true → (n = 0 ↔ n' = 0)) ∧ Alike true next next'
  | inWord, pipe n next, pipe n' next' =>
    (inWord = true → (n = 0 ↔ n' = 0)) ∧ Alike (inWord && n = 0) next next'
  | _, _, _ => False

/-! ## Tokens -/

theorem tokensFrom_last (v : List UInt8) (n : ℕ) :
    tokensFrom v (List.replicate n space) = flush v := by
  have h := tokensFrom_spaces v n []
  rw [List.append_nil] at h
  rw [h]
  split
  · rfl
  · exact List.append_nil _

/-- A word that goes on is not one that ends. -/
theorem tokensFrom_append_ne (hv : v ≠ []) (hu : u ≠ []) (l : List UInt8) (T : List Token) :
    tokensFrom (v ++ u) l ≠ flush v ++ T := by
  obtain ⟨w, l', -, -, -, htokens⟩ := tokensFrom_word (List.append_ne_nil_of_left_ne_nil hv u) l
  rw [htokens, flush, if_neg hv, List.singleton_append]
  intro h
  have hword := Token.str.inj (List.cons.inj h).1
  rw [List.append_assoc] at hword
  exact hu (List.append_eq_nil_iff.1 (List.append_right_eq_self.1 hword)).1

theorem tokensFrom_bar (hv : v ≠ []) (l : List UInt8) :
    tokensFrom v (bar :: l) = tokensFrom (v ++ [bar]) l := by
  rw [tokensFrom, if_neg (by decide), if_neg fun h => hv h.2]

theorem tokens_bar (l : List UInt8) : tokens (bar :: l) = .pipe :: tokens l := by
  rw [tokens, tokensFrom, if_neg (by decide), if_pos ⟨rfl, rfl⟩]
  rfl

/-- Two lines after the bytes of a word. -/
theorem tokensFrom_eq_iff (hr : Respaced a s s') (hs : s.Valid b) (hv : inWord = true ↔ v ≠ []) :
    tokensFrom v s.bytes = tokensFrom v s'.bytes ↔ s.Alike inWord s' := by
  induction hr generalizing b v inWord with
  | last h => exact iff_of_true (by simp only [Spaced.bytes, tokensFrom_last]) trivial
  | @word a n n' w s s' h hr ih =>
    obtain ⟨hne, hw, -, hs⟩ := hs
    simp only [Spaced.bytes, tokensFrom_spaces, Spaced.Alike, tokens, tokensFrom_plain _ hw,
      List.nil_append]
    by_cases hnil : v = []
    · -- no word comes before, so the spaces are skipped
      subst hnil
      have hfalse : inWord = false := by simpa using hv
      simp only [List.nil_append, flush, if_true, ite_self, hfalse, Bool.false_eq_true,
        false_implies, true_and]
      exact ih hs (by simp [hne])
    · have htrue := hv.2 hnil
      by_cases hn : n = 0 <;> by_cases hn' : n' = 0
      · simp only [hn, hn', if_true, implies_true, true_and]
        exact ih hs (by simp [hne])
      · simp only [hn, hn', if_true, if_false, htrue, true_implies, iff_false, not_true, false_and]
        exact tokensFrom_append_ne hnil hne _ _
      · simp only [hn, hn', if_true, if_false, htrue, true_implies, iff_true, false_and]
        exact iff_of_false (tokensFrom_append_ne hnil hne _ _).symm id
      · simp only [hn, hn', if_false, implies_true, true_and, List.append_cancel_left_eq]
        exact ih hs (by simp [hne])
  | @pipe a n n' s s' hr ih =>
    simp only [Spaced.bytes, tokensFrom_spaces, Spaced.Alike, tokens_bar]
    by_cases hnil : v = []
    · subst hnil
      have hfalse : inWord = false := by simpa using hv
      have hbar : ∀ l, tokensFrom [] (bar :: l) = .pipe :: tokens l := tokens_bar
      simp only [hbar, flush, if_true, List.nil_append, ite_self, hfalse, Bool.false_eq_true,
        false_implies, true_and, Bool.false_and, List.cons.injEq]
      exact ih hs (by simp)
    · have htrue := hv.2 hnil
      by_cases hn : n = 0 <;> by_cases hn' : n' = 0
      · simp only [hn, hn', if_true, implies_true, true_and, tokensFrom_bar hnil, htrue,
          decide_true, Bool.and_true]
        exact ih hs (by simp)
      · simp only [hn, hn', if_true, if_false, htrue, true_implies, iff_false, not_true, false_and,
          tokensFrom_bar hnil]
        exact tokensFrom_append_ne hnil (List.cons_ne_nil bar []) _ _
      · simp only [hn, hn', if_true, if_false, htrue, true_implies, iff_true, false_and,
          tokensFrom_bar hnil]
        exact iff_of_false (tokensFrom_append_ne hnil (List.cons_ne_nil bar []) _ _).symm id
      · simp only [hn, hn', if_false, implies_true, true_and, List.append_cancel_left_eq,
          List.cons.injEq, decide_false, Bool.and_false]
        exact ih hs (by simp)

/-- **Two lines that differ only in spaces next to pipes have the same tokens exactly if a space is
missing at the same places behind a word.** -/
theorem tokens_eq_iff (hr : Respaced false s s') (hs : s.Valid false) :
    tokens s.bytes = tokens s'.bytes ↔ s.Alike false s' :=
  tokensFrom_eq_iff hr hs (by simp)

/-! ## Spaces before the pipes -/

/-- A space is before every pipe that comes after a word. The flag tells whether a word comes right
before. -/
def Spaced.Separated : Bool → Spaced → Prop
  | _, last _ => True
  | _, word _ _ next => next.Separated true
  | afterWord, pipe n next => (afterWord = true → n ≠ 0) ∧ next.Separated false

theorem alike_of_separated (hr : Respaced a s s') (hab : b = true → a = false)
    (hsep : s.Separated b) (hsep' : s'.Separated b) : s.Alike b s' := by
  induction hr generalizing b with
  | last h => trivial
  | word w h hr ih =>
    exact ⟨fun hb => by rw [h (hab hb)], ih (fun _ => rfl) hsep hsep'⟩
  | @pipe a n n' s s' hr ih =>
    have hflag : (b && decide (n = 0)) = false := by
      cases b with
      | false => rfl
      | true => simpa using hsep.1 rfl
    refine ⟨fun hb => iff_of_false (hsep.1 hb) (hsep'.1 hb), ?_⟩
    rw [hflag]
    exact ih (by simp) hsep.2 hsep'.2

/-- **With a space before every pipe that comes after a word, no other space next to a pipe
matters.** -/
theorem tokens_respaced (hr : Respaced false s s') (hs : s.Valid false)
    (hsep : s.Separated false) (hsep' : s'.Separated false) : tokens s.bytes = tokens s'.bytes :=
  (tokens_eq_iff hr hs).2 (alike_of_separated hr (fun _ => rfl) hsep hsep')

/-! ## Answers -/

/-- The words and pipes of a command line. -/
def lineTokens (line : CommandLine) : List Token :=
  line.flatMap fun
    | .command c => c.args.map Token.str
    | .pipe => [.pipe]

theorem lineTokens_append (line line' : CommandLine) :
    lineTokens (line ++ line') = lineTokens line ++ lineTokens line' := List.flatMap_append

theorem lineTokens_addToken {t : Token} (ht : t = .pipe ∨ ∃ w, t = .str w)
    (h : addToken line t = .ok line') : lineTokens line' = lineTokens line ++ [t] := by
  obtain rfl | ⟨w, rfl⟩ := ht
  · rw [addToken] at h
    split at h
    · cases h
    · cases h
    · cases h
      exact lineTokens_append _ _
  · cases h
    rw [appendWord]
    split
    · rename_i cmd hlast
      obtain ⟨init, rfl⟩ := List.getLast?_eq_some_iff.1 hlast
      have hargs : (cmd.appendArg w).args = cmd.args ++ [w] := rfl
      rw [List.dropLast_concat, lineTokens_append, lineTokens_append, List.append_assoc]
      simp [lineTokens, hargs]
    · exact lineTokens_append _ _

theorem lineTokens_foldlM (hT : WordsAndPipes T) (h : T.foldlM addToken line = .ok line') :
    lineTokens line' = lineTokens line ++ T := by
  induction T generalizing line with
  | nil =>
    cases h
    exact (List.append_nil _).symm
  | cons t T ih =>
    rw [List.foldlM_cons] at h
    cases ha : addToken line t with
    | error err =>
      rw [ha] at h
      cases h
    | ok line₁ =>
      rw [ha] at h
      rw [ih (fun u hu => hT u (List.mem_cons_of_mem _ hu)) h,
        lineTokens_addToken (hT t (List.mem_cons_self ..)) ha, List.append_assoc,
        List.singleton_append]

/-- A command line tells its tokens. -/
theorem tokens_of_lineResult (hT : WordsAndPipes T) (h : lineResult T = (.none, some line)) :
    lineTokens line = T := by
  rw [lineResult] at h
  split at h
  · cases h
  · rename_i line₁ hfold
    split at h
    · cases h
    · cases h
      exact lineTokens_foldlM hT hfold

/-- **A line that gives a command line, and another spacing of its pipes, are answered alike exactly
if a space is missing at the same places behind a word.** -/
theorem respaced_answered_iff {p p' q : Parser} {ending : LineEnd} {R : List UInt8}
    (L : PipedLine) (hr : Respaced false L.spaced s')
    (hp : p.data = L.spaced.bytes ++ ending.bytes ++ R)
    (hp' : p'.data = s'.bytes ++ ending.bytes ++ R)
    (h : parserPopNext p = .ok (q, .none, some line)) :
    (∃ q', parserPopNext p' = .ok (q', .none, some line)) ↔ L.spaced.Alike false s' := by
  have hs' := hr.valid L.valid (by simp)
  obtain ⟨q₁, hq₁⟩ := parserPopNext_spaced L.valid L.nonempty hp
  obtain ⟨q', hq'⟩ := parserPopNext_spaced hs' (hr.ne_last L.nonempty) hp'
  rw [hq₁] at h
  have hline : lineResult (tokens L.spaced.bytes) = (.none, some line) :=
    congrArg Prod.snd (Except.ok.inj h)
  have hwords := (content_tokens L.valid.noLineEnd).wordsAndPipes
  have hwords' := (content_tokens hs'.noLineEnd).wordsAndPipes
  rw [← tokens_eq_iff hr L.valid]
  constructor
  · rintro ⟨q₂, hq₂⟩
    rw [hq'] at hq₂
    have hline' : lineResult (tokens s'.bytes) = (.none, some line) :=
      congrArg Prod.snd (Except.ok.inj hq₂)
    rw [← tokens_of_lineResult hwords hline, ← tokens_of_lineResult hwords' hline']
  · intro htokens
    rw [← htokens, hline] at hq'
    exact ⟨q', hq'⟩

end SemOS.Shell
