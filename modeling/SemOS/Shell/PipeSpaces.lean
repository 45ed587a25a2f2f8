import SemOS.Shell.Outcomes

/-!
# Spaces around a pipe

`parse_token` ends a word at a space or a line end, not at a bar, so that a pipe right behind a word
becomes part of it. A `Spaced` line is words and pipes with the numbers of spaces between them, and
`Respaced` says that two of them differ only in spaces next to a pipe.

* `glue` takes all spaces next to pipes away, except for those before the first pipe: without any
  the line has no pipe for the parser (`tokens_glue`), with one it has (`pipe_mem_glue`).
* `pipe_spaces_iff`: the lines that are answered alike however their pipes are spaced.
-/

namespace SemOS.Shell

/-- Words and pipes, each with the number of spaces before it, and the spaces at the end. -/
inductive Spaced
  | last (n : ℕ)
  | word (n : ℕ) (w : List UInt8) (next : Spaced)
  | pipe (n : ℕ) (next : Spaced)

namespace Spaced

/-- The bytes of the line. -/
def bytes : Spaced → List UInt8
  | last n => List.replicate n space
  | word n w next => List.replicate n space ++ (w ++ next.bytes)
  | pipe n next => List.replicate n space ++ bar :: next.bytes

/-- Every word is not empty and has no space, line end or bar, and there is a space between two
words. The flag tells whether a word comes right before. -/
def Valid : Bool → Spaced → Prop
  | _, last _ => True
  | afterWord, word n w next =>
    w ≠ [] ∧ (∀ c ∈ w, tokenEnd c = false ∧ c ≠ bar) ∧ (afterWord = true → n ≠ 0) ∧ next.Valid true
  | _, pipe _ next => next.Valid false

/-- The line has a pipe. -/
def HasPipe : Spaced → Prop
  | last _ => False
  | word _ _ next => next.HasPipe
  | pipe _ _ => True

/-- No space is next to a pipe. The flag tells whether a pipe comes right before. -/
def Tight : Bool → Spaced → Prop
  | afterPipe, last n => afterPipe = true → n = 0
  | afterPipe, word n _ next => (afterPipe = true → n = 0) ∧ next.Tight false
  | _, pipe n next => n = 0 ∧ next.Tight true

/-- The line begins with a pipe. -/
def BeginsWithPipe : Spaced → Prop
  | pipe _ _ => True
  | _ => False

end Spaced

/-- Two lines differ only in spaces next to a pipe. The flag tells whether a pipe comes right
before. -/
inductive Respaced : Bool → Spaced → Spaced → Prop
  | last {afterPipe : Bool} {n n' : ℕ} (h : afterPipe = false → n = n') :
    Respaced afterPipe (.last n) (.last n')
  | word {afterPipe : Bool} {n n' : ℕ} (w : List UInt8) {s s' : Spaced}
    (h : afterPipe = false → n = n') (hs : Respaced false s s') :
    Respaced afterPipe (.word n w s) (.word n' w s')
  | pipe {afterPipe : Bool} (n n' : ℕ) {s s' : Spaced} (hs : Respaced true s s') :
    Respaced afterPipe (.pipe n s) (.pipe n' s')

/-- A line of words and pipes. -/
structure PipedLine where
  spaced : Spaced
  valid : spaced.Valid false
  nonempty : ∀ n, spaced ≠ .last n

variable {s s' : Spaced} {a b : Bool} {n m : ℕ} {c : UInt8} {l w v : List UInt8} {T : List Token}
  {line line' : CommandLine}

/-! ## Respacing -/

theorem Respaced.refl (a : Bool) (s : Spaced) : Respaced a s s := by
  induction s generalizing a with
  | last n => exact .last fun _ => rfl
  | word n w s ih => exact .word w (fun _ => rfl) (ih false)
  | pipe n s ih => exact .pipe n n (ih true)

/-- Without a pipe nothing changes. -/
theorem Respaced.eq_of_no_pipe (h : Respaced false s s') (hs : ¬ s.HasPipe) : s' = s := by
  induction s generalizing s' with
  | last n =>
    cases h with
    | last h => rw [h rfl]
  | word n w s ih =>
    cases h with
    | word _ h hr => rw [h rfl, ih hr hs]
  | pipe n s ih => exact absurd trivial hs

/-- A tight line is the shortest one. -/
theorem Respaced.length_le (h : Respaced a s s') (hs : s.Tight a) :
    s.bytes.length ≤ s'.bytes.length ∧ (s'.bytes.length = s.bytes.length → s' = s) := by
  induction h with
  | @last a n n' h =>
    simp only [Spaced.bytes, List.length_replicate]
    cases a with
    | false =>
      obtain rfl := h rfl
      exact ⟨Nat.le_refl _, fun _ => rfl⟩
    | true =>
      obtain rfl := hs rfl
      exact ⟨Nat.zero_le _, fun h => by rw [h]⟩
  | @word a n n' w s s' h hr ih =>
    obtain ⟨hle, heq⟩ := ih hs.2
    simp only [Spaced.bytes, List.length_append, List.length_replicate]
    have hn : n ≤ n' := by
      cases a with
      | false => exact Nat.le_of_eq (h rfl)
      | true => exact (hs.1 rfl).symm ▸ Nat.zero_le n'
    refine ⟨by omega, fun hlen => ?_⟩
    obtain rfl : n' = n := by omega
    rw [heq (by omega)]
  | @pipe a n n' s s' hr ih =>
    obtain ⟨hle, heq⟩ := ih hs.2
    obtain rfl : n = 0 := hs.1
    simp only [Spaced.bytes, List.length_append, List.length_replicate, List.length_cons]
    refine ⟨by omega, fun hlen => ?_⟩
    obtain rfl : n' = 0 := by omega
    rw [heq (by omega)]

/-- Without the spaces next to pipes, except for `m` before the first pipe. -/
def Spaced.glue : ℕ → Bool → Spaced → Spaced
  | _, afterPipe, last n => last (if afterPipe then 0 else n)
  | m, afterPipe, word n w next => word (if afterPipe then 0 else n) w (glue m false next)
  | m, _, pipe _ next => pipe m (glue 0 true next)

theorem respaced_glue (m : ℕ) (a : Bool) (s : Spaced) : Respaced a s (s.glue m a) := by
  induction s generalizing m a with
  | last n => exact .last fun h => by rw [h]; rfl
  | word n w s ih => exact .word w (fun h => by rw [h]; rfl) (ih m false)
  | pipe n s ih => exact .pipe n m (ih 0 true)

/-- Gluing removes spaces, and at least one if there is one next to a pipe. -/
theorem length_glue (a : Bool) (s : Spaced) :
    (s.glue 0 a).bytes.length ≤ s.bytes.length ∧
      (¬ s.Tight a → (s.glue 0 a).bytes.length < s.bytes.length) := by
  induction s generalizing a with
  | last n =>
    cases a with
    | false => exact ⟨Nat.le_refl _, fun h => absurd (fun h => nomatch h) h⟩
    | true =>
      simp only [Spaced.glue, Spaced.bytes, List.length_replicate, Spaced.Tight, if_true]
      omega
  | word n w s ih =>
    obtain ⟨hle, hlt⟩ := ih false
    simp only [Spaced.glue, Spaced.bytes, List.length_append, List.length_replicate]
    cases a with
    | false =>
      rw [if_neg Bool.false_ne_true]
      refine ⟨by omega, fun h => ?_⟩
      have := hlt fun ht => h ⟨fun h => (nomatch h), ht⟩
      omega
    | true =>
      rw [if_pos rfl]
      refine ⟨by omega, fun h => ?_⟩
      by_cases hn : n = 0
      · have := hlt fun ht => h ⟨fun _ => hn, ht⟩
        omega
      · omega
  | pipe n s ih =>
    obtain ⟨hle, hlt⟩ := ih true
    simp only [Spaced.glue, Spaced.bytes, List.length_append, List.length_replicate,
      List.length_cons]
    refine ⟨by omega, fun h => ?_⟩
    by_cases hn : n = 0
    · have := hlt fun ht => h ⟨hn, ht⟩
      omega
    · omega

theorem length_glue_add (m : ℕ) (a : Bool) (hs : s.HasPipe) :
    (s.glue m a).bytes.length = (s.glue 0 a).bytes.length + m := by
  induction s generalizing a with
  | last n => cases hs
  | word n w s ih =>
    simp only [Spaced.glue, Spaced.bytes, List.length_append, ih false hs]
    omega
  | pipe n s ih =>
    simp only [Spaced.glue, Spaced.bytes, List.length_append, List.length_replicate,
      List.length_cons]
    omega

/-! ## Tokens -/

theorem tokensFrom_spaces (v : List UInt8) (n : ℕ) (l : List UInt8) :
    tokensFrom v (List.replicate n space ++ l) =
      if n = 0 then tokensFrom v l else flush v ++ tokens l := by
  induction n generalizing v with
  | zero => rfl
  | succ n ih =>
    rw [List.replicate_succ, List.cons_append, tokensFrom, if_pos rfl, ih,
      if_neg (Nat.succ_ne_zero n)]
    split
    · rfl
    · rfl

theorem tokens_spaces (n : ℕ) (l : List UInt8) :
    tokens (List.replicate n space ++ l) = tokens l := by
  rw [tokens, tokensFrom_spaces]
  split <;> rfl

theorem tokensFrom_plain (v : List UInt8) {w : List UInt8}
    (hw : ∀ c ∈ w, tokenEnd c = false ∧ c ≠ bar) (l : List UInt8) :
    tokensFrom v (w ++ l) = tokensFrom (v ++ w) l := by
  induction w generalizing v with
  | nil => rw [List.nil_append, List.append_nil]
  | cons c w ih =>
    obtain ⟨hc, hb⟩ := hw c (List.mem_cons_self ..)
    have hspace : c ≠ space := by
      rintro rfl
      cases hc
    rw [List.cons_append, tokensFrom, if_neg hspace, if_neg fun h => hb h.1,
      ih _ fun d hd => hw d (List.mem_cons_of_mem _ hd), List.append_assoc, List.singleton_append]

theorem pipe_not_mem_flush (v : List UInt8) : Token.pipe ∉ flush v := by
  rw [flush]
  split <;> simp

/-- **A bar behind the bytes of a word belongs to it**, and so do all bars behind it. -/
theorem tokens_glue (hs : s.Valid b) (hv : v ≠ []) (a : Bool) :
    Token.pipe ∉ tokensFrom v (s.glue 0 a).bytes := by
  induction s generalizing v a b with
  | last n =>
    rw [Spaced.glue, Spaced.bytes]
    generalize (if a = true then 0 else n) = k
    have htokens := tokensFrom_spaces v k []
    rw [List.append_nil] at htokens
    rw [htokens]
    split
    · exact pipe_not_mem_flush v
    · rw [tokens, tokensFrom, List.mem_append]
      exact fun h => h.elim (pipe_not_mem_flush v) (pipe_not_mem_flush [])
  | word n w s ih =>
    obtain ⟨hne, hw, -, hs⟩ := hs
    rw [Spaced.glue, Spaced.bytes]
    generalize (if a = true then 0 else n) = k
    rw [tokensFrom_spaces]
    split
    · rw [tokensFrom_plain v hw]
      exact ih hs (by simp [hne]) false
    · rw [tokens, tokensFrom_plain [] hw]
      intro h
      obtain h | h := List.mem_append.1 h
      · exact pipe_not_mem_flush v h
      · exact ih hs hne false h
  | pipe n s ih =>
    rw [Spaced.glue, Spaced.bytes, List.replicate_zero, List.nil_append, tokensFrom,
      if_neg (by decide), if_neg fun h => hv h.2]
    exact ih hs (by simp) true

/-- A bar behind a space is a pipe. -/
theorem pipe_mem_glue (hs : s.Valid b) (hp : s.HasPipe) (v : List UInt8) (a : Bool) :
    Token.pipe ∈ tokensFrom v (s.glue 1 a).bytes := by
  induction s generalizing v a b with
  | last n => cases hp
  | word n w s ih =>
    obtain ⟨-, hw, -, hs⟩ := hs
    rw [Spaced.glue, Spaced.bytes]
    generalize (if a = true then 0 else n) = k
    rw [tokensFrom_spaces]
    split
    · rw [tokensFrom_plain v hw]
      exact ih hs hp _ false
    · rw [tokens, tokensFrom_plain [] hw]
      exact List.mem_append_right _ (ih hs hp _ false)
  | pipe n s ih =>
    rw [Spaced.glue, Spaced.bytes, tokensFrom_spaces, if_neg Nat.one_ne_zero, tokens, tokensFrom,
      if_neg (by decide), if_pos ⟨rfl, rfl⟩]
    exact List.mem_append_right _ (List.mem_cons_self ..)

/-! ## Answers -/

theorem pipe_mem_addToken {t : Token} (ha : addToken line t = .ok line')
    (h : Expr.pipe ∈ line ∨ t = .pipe) : Expr.pipe ∈ line' := by
  cases t with
  | str data =>
    have hline := h.resolve_right (by simp)
    cases ha
    rw [appendWord]
    split
    · rename_i cmd hlast
      -- the last expression is a command, so the pipe is one before it
      have hne : line ≠ [] := List.ne_nil_of_mem hline
      rw [← List.dropLast_append_getLast hne] at hline
      obtain h | h := List.mem_append.1 hline
      · exact List.mem_append_left _ h
      · rw [List.getLast?_eq_some_getLast hne] at hlast
        rw [Option.some.inj hlast] at h
        cases List.mem_singleton.1 h
    · exact List.mem_append_left _ hline
  | pipe =>
    rw [addToken] at ha
    split at ha
    · cases ha
    · cases ha
    · cases ha
      exact List.mem_append_right _ (List.mem_singleton_self _)
  | none =>
    cases ha
    exact h.resolve_right (by simp)
  | newLine =>
    cases ha
    exact h.resolve_right (by simp)

theorem pipe_mem_foldlM (hT : T.foldlM addToken line = .ok line')
    (h : Expr.pipe ∈ line ∨ Token.pipe ∈ T) : Expr.pipe ∈ line' := by
  induction T generalizing line with
  | nil =>
    cases hT
    obtain h | h := h
    · exact h
    · cases h
  | cons t T ih =>
    rw [List.foldlM_cons] at hT
    cases ha : addToken line t with
    | error err =>
      rw [ha] at hT
      cases hT
    | ok line₁ =>
      rw [ha] at hT
      refine ih hT ?_
      obtain h | h := h
      · exact Or.inl (pipe_mem_addToken ha (Or.inl h))
      · obtain rfl | h := List.mem_cons.1 h
        · exact Or.inl (pipe_mem_addToken ha (Or.inr rfl))
        · exact Or.inr h

/-- Words alone are one command. -/
theorem lineResult_words (hT : WordsAndPipes T) (hne : T ≠ []) (hp : Token.pipe ∉ T) :
    ∃ c, lineResult T = (.none, some [.command c]) := by
  obtain ⟨ws, rfl⟩ : ∃ ws : List (List UInt8), T = ws.map Token.str := by
    clear hne
    induction T with
    | nil => exact ⟨[], rfl⟩
    | cons t T ih =>
      obtain ⟨ws, rfl⟩ := ih (fun u hu => hT u (List.mem_cons_of_mem _ hu))
        fun h => hp (List.mem_cons_of_mem _ h)
      obtain rfl | ⟨w, rfl⟩ := hT t (List.mem_cons_self ..)
      · exact absurd (List.mem_cons_self ..) hp
      · exact ⟨w :: ws, rfl⟩
  have hgroup : (ws.map Token.str).foldlM addToken [] = .ok [.command (.ofWords ws)] :=
    foldlM_group (by simpa using hne) (Or.inl rfl)
  exact ⟨.ofWords ws, by rw [lineResult, hgroup]; rfl⟩

/-- With a pipe the answer is not one command. -/
theorem lineResult_pipe {cmd : Command} (hp : Token.pipe ∈ T) :
    lineResult T ≠ (.none, some [.command cmd]) := by
  intro h
  rw [lineResult] at h
  split at h
  · cases h
  · rename_i line hT
    split at h
    · cases h
    · cases h
      have hmem := pipe_mem_foldlM hT (Or.inr hp)
      cases List.mem_singleton.1 hmem

/-- The bytes of the line have no line end. -/
theorem Spaced.Valid.noLineEnd (hs : s.Valid b) : NoLineEnd s.bytes := by
  have hspaces : ∀ n, NoLineEnd (List.replicate n space) := by
    intro n c hc
    rw [List.eq_of_mem_replicate hc]
    decide
  have happend : ∀ {l l' : List UInt8}, NoLineEnd l → NoLineEnd l' → NoLineEnd (l ++ l') :=
    fun hl hl' c hc => (List.mem_append.1 hc).elim (hl c) (hl' c)
  induction s generalizing b with
  | last n => exact hspaces n
  | word n w s ih =>
    obtain ⟨-, hw, -, hs⟩ := hs
    refine happend (hspaces n) (happend (fun c hc => ?_) (ih hs))
    have hend := (hw c hc).1
    simp only [tokenEnd, Bool.or_eq_false_iff, decide_eq_false_iff_not] at hend
    exact ⟨hend.1.2, hend.2⟩
  | pipe n s ih =>
    have hbar : NoLineEnd [bar] := by
      simp only [NoLineEnd, List.mem_singleton, forall_eq]
      decide
    exact happend (hspaces n) (happend hbar (ih hs))

/-- A respaced line is one of words and pipes again. -/
theorem Respaced.valid (h : Respaced a s s') (hs : s.Valid b) (hab : b = true → a = false) :
    s'.Valid b := by
  induction h generalizing b with
  | last h => trivial
  | @word a n n' w s s' h hr ih =>
    obtain ⟨hne, hw, hn, hs⟩ := hs
    exact ⟨hne, hw, fun hb => h (hab hb) ▸ hn hb, ih hs fun _ => rfl⟩
  | pipe n n' hr ih => exact ih hs (by simp)

theorem Respaced.ne_last (h : Respaced a s s') (hs : ∀ n, s ≠ .last n) (n : ℕ) : s' ≠ .last n := by
  cases h with
  | last h => exact absurd rfl (hs _)
  | word w h hr => simp
  | pipe n n' hr => simp

/-- Such a line has a token. -/
theorem tokens_spaced_ne_nil (hs : s.Valid b) (hne : ∀ n, s ≠ .last n) : tokens s.bytes ≠ [] := by
  refine tokens_ne_nil hs.noLineEnd ?_
  cases s with
  | last n => exact absurd rfl (hne n)
  | word n w s =>
    obtain ⟨c, w, rfl⟩ := List.exists_cons_of_ne_nil hs.1
    refine ⟨c, by simp [Spaced.bytes], ?_⟩
    rintro rfl
    exact absurd (hs.2.1 space (List.mem_cons_self ..)).1 (by decide)
  | pipe n s => exact ⟨bar, by simp [Spaced.bytes], by decide⟩

/-- What the line is answered with. -/
theorem parserPopNext_spaced {p : Parser} {ending : LineEnd} {R : List UInt8} (hs : s.Valid b)
    (hne : ∀ n, s ≠ .last n) (hp : p.data = s.bytes ++ ending.bytes ++ R) :
    ∃ q, parserPopNext p = .ok (q, lineResult (tokens s.bytes)) := by
  have hsplit : splitLine (s.bytes ++ ending.bytes ++ R) = some (s.bytes, R) :=
    splitLine_line ⟨s.bytes, ending, hs.noLineEnd⟩ R
  have hnext : nextLine p.data = some (lineResult (tokens s.bytes), R) := by
    rw [hp, nextLine_of_split hsplit, if_neg (tokens_spaced_ne_nil hs hne)]
  obtain ⟨q, hq, -⟩ := parserPopNext_of_nextLine hnext
  exact ⟨q, hq⟩

/-- A line that begins with a pipe is an error. -/
theorem lineResult_beginsWithPipe (hs : s.BeginsWithPipe) :
    lineResult (tokens s.bytes) = (.pipeWithNoLeftArg, none) := by
  cases s with
  | last n => cases hs
  | word n w s => cases hs
  | pipe n s =>
    rw [Spaced.bytes, tokens_spaces, tokens, tokensFrom, if_neg (by decide), if_pos ⟨rfl, rfl⟩]
    rfl

theorem Respaced.beginsWithPipe (h : Respaced a s s') (hs : s.BeginsWithPipe) :
    s'.BeginsWithPipe := by
  cases h with
  | last h => cases hs
  | word w h hr => cases hs
  | pipe n n' hr => trivial

/-- The line without spaces next to pipes is answered differently from the one with one space before
the first pipe. -/
theorem lineResult_glue_ne (hs : s.Valid false) (hne : ∀ n, s ≠ .last n) (hp : s.HasPipe)
    (hbegins : ¬ s.BeginsWithPipe) :
    lineResult (tokens (s.glue 0 false).bytes) ≠ lineResult (tokens (s.glue 1 false).bytes) := by
  have hglue := (respaced_glue 0 false s).valid hs (by simp)
  have hwords : Token.pipe ∉ tokens (s.glue 0 false).bytes := by
    cases s with
    | last n => exact absurd rfl (hne n)
    | word n w s =>
      obtain ⟨hw, hplain, -, hs⟩ := hs
      rw [Spaced.glue, Spaced.bytes, tokens_spaces, tokens, tokensFrom_plain [] hplain]
      exact tokens_glue hs hw false
    | pipe n s => exact absurd trivial hbegins
  obtain ⟨c, hc⟩ := lineResult_words (content_tokens hglue.noLineEnd).wordsAndPipes
    (tokens_spaced_ne_nil hglue ((respaced_glue 0 false s).ne_last hne)) hwords
  rw [hc]
  exact (lineResult_pipe (pipe_mem_glue hs hp [] false)).symm

theorem size_of_data {p : Parser} {line R : List UInt8} {ending : LineEnd}
    (hp : p.data = line ++ ending.bytes ++ R) :
    p.size = line.length + (ending.bytes ++ R).length := by
  rw [← Parser.length_data, hp, List.append_assoc, List.length_append]

/-- Another line that is answered alike, and of which a buffer can hold the text, has the same
result. -/
theorem lineResult_eq_of_answered {s' : Spaced} {p : Parser} {ending : LineEnd} {R : List UInt8}
    (hs : s.Valid b) (hne : ∀ n, s ≠ .last n) (hp : p.data = s.bytes ++ ending.bytes ++ R)
    (hs' : s'.Valid b) (hne' : ∀ n, s' ≠ .last n)
    (hfit : s'.bytes.length + (ending.bytes ++ R).length < 2 ^ 32)
    (h : ∀ p', p'.data = s'.bytes ++ ending.bytes ++ R → ∃ q q' err out,
      parserPopNext p = .ok (q, err, out) ∧ parserPopNext p' = .ok (q', err, out)) :
    lineResult (tokens s'.bytes) = lineResult (tokens s.bytes) := by
  have hfit' : (s'.bytes ++ ending.bytes ++ R ++ []).length < 2 ^ 32 := by
    rwa [List.append_nil, List.append_assoc, List.length_append]
  have hdata := Parser.data_holding hfit'
  obtain ⟨q, hq⟩ := parserPopNext_spaced hs hne hp
  obtain ⟨q₁, hq₁⟩ := parserPopNext_spaced hs' hne' hdata
  obtain ⟨q', q₁', err, out, hp', hp₁⟩ := h _ hdata
  rw [hq] at hp'
  rw [hq₁] at hp₁
  exact (Prod.mk.inj (Except.ok.inj hp₁)).2.trans (Prod.mk.inj (Except.ok.inj hp')).2.symm

/-- **However the pipes of a line are spaced it is answered alike, exactly when it has no pipe, or
begins with one**, or is tight already and fills the largest buffer, which has no room for a
space. -/
theorem pipe_spaces_iff (L : PipedLine) (ending : LineEnd) (R : List UInt8) (p : Parser)
    (hp : p.data = L.spaced.bytes ++ ending.bytes ++ R) :
    (∀ s' p', Respaced false L.spaced s' → p'.data = s'.bytes ++ ending.bytes ++ R →
      ∃ q q' err out, parserPopNext p = .ok (q, err, out) ∧
        parserPopNext p' = .ok (q', err, out)) ↔
      ¬ L.spaced.HasPipe ∨ L.spaced.BeginsWithPipe ∨
        p.size + 1 = 2 ^ 32 ∧ L.spaced.Tight false := by
  obtain ⟨s, hs, hne⟩ := L
  have hsize := size_of_data hp
  have hlt := p.size_lt
  dsimp only at hsize ⊢
  constructor
  · intro h
    by_contra hcond
    simp only [not_or, not_not, not_and] at hcond
    obtain ⟨hpipe, hbegins, htight⟩ := hcond
    -- both glued lines fit, so both are answered like `s`
    obtain ⟨hle, hless⟩ := length_glue false s
    have hroom : (s.glue 0 false).bytes.length + 1 + (ending.bytes ++ R).length < 2 ^ 32 := by
      by_cases ht : s.Tight false
      · have : p.size + 1 ≠ 2 ^ 32 := fun h => htight h ht
        omega
      · have := hless ht
        omega
    have hlike : ∀ m, m ≤ 1 →
        lineResult (tokens (s.glue m false).bytes) = lineResult (tokens s.bytes) := by
      intro m hm
      have hlen := length_glue_add m false hpipe
      have hr := respaced_glue m false s
      exact lineResult_eq_of_answered hs hne hp (hr.valid hs (by simp)) (hr.ne_last hne) (by omega)
        fun p' hp' => h _ p' hr hp'
    exact lineResult_glue_ne hs hne hpipe hbegins ((hlike 0 (by omega)).trans (hlike 1 le_rfl).symm)
  · intro h s' p' hr hp'
    obtain ⟨q, hq⟩ := parserPopNext_spaced hs hne hp
    obtain ⟨q', hq'⟩ := parserPopNext_spaced (hr.valid hs (by simp)) (hr.ne_last hne) hp'
    have hlike : lineResult (tokens s'.bytes) = lineResult (tokens s.bytes) := by
      obtain h | h | ⟨hfull, ht⟩ := h
      · rw [hr.eq_of_no_pipe h]
      · rw [lineResult_beginsWithPipe h, lineResult_beginsWithPipe (hr.beginsWithPipe h)]
      · obtain ⟨hle, heq⟩ := hr.length_le ht
        have hsize' := size_of_data hp'
        have hlt' := p'.size_lt
        rw [heq (by omega)]
    rw [hlike] at hq'
    exact ⟨q, q', _, _, hq, hq'⟩

/-- The line `| a`. -/
def barA : PipedLine where
  spaced := .pipe 0 (.word 1 [97] (.last 0))
  valid := by
    simp only [Spaced.Valid, List.mem_singleton, forall_eq]
    decide
  nonempty := by simp

/-- With and without a space behind its pipe it is the same error. -/
theorem barA_respaced : ∃ q q' err out,
    parserPopNext (.holding [124, 32, 97, 10] []) = .ok (q, err, out) ∧
      parserPopNext (.holding [124, 97, 10] []) = .ok (q', err, out) :=
  (pipe_spaces_iff barA .newline [] (.holding [124, 32, 97, 10] []) rfl).2
    (Or.inr (Or.inl trivial)) (.pipe 0 (.word 0 [97] (.last 0))) _
    (.pipe 0 0 (.word [97] (by simp) (.last fun _ => rfl))) rfl

/-- The line `a|b` is one word, and with spaces around the pipe it is two commands. -/
theorem pipe_spaces_matter :
    ¬ ∀ (L : PipedLine) (ending : LineEnd) (R : List UInt8) (p : Parser),
      p.data = L.spaced.bytes ++ ending.bytes ++ R →
        ∀ s' p', Respaced false L.spaced s' → p'.data = s'.bytes ++ ending.bytes ++ R →
          ∃ q q' err out, parserPopNext p = .ok (q, err, out) ∧
            parserPopNext p' = .ok (q', err, out) := by
  intro h
  have hvalid : (Spaced.word 0 [97] (.pipe 0 (.word 0 [98] (.last 0)))).Valid false := by
    simp only [Spaced.Valid, List.mem_singleton, forall_eq]
    decide
  obtain ⟨q, q', err, out, hp, hp'⟩ := h ⟨_, hvalid, by simp⟩ .newline []
    (.holding [97, 124, 98, 10] []) rfl
    (.word 0 [97] (.pipe 1 (.word 1 [98] (.last 0))))
    (.holding [97, 32, 124, 32, 98, 10] [])
    (.word [97] (fun _ => rfl) (.pipe 0 1 (.word [98] (by simp) (.last fun _ => rfl)))) rfl
  obtain ⟨q₁, hq₁, -⟩ := parserPopNext_of_nextLine
    (p := .holding [97, 124, 98, 10] [])
    (show nextLine [97, 124, 98, 10] =
      some ((.none, some [.command (.ofExe [97, 124, 98])]), []) by decide +kernel)
  obtain ⟨q₂, hq₂, -⟩ := parserPopNext_of_nextLine
    (p := .holding [97, 32, 124, 32, 98, 10] [])
    (show nextLine [97, 32, 124, 32, 98, 10] =
      some ((.none, some [.command (.ofExe [97]), .pipe, .command (.ofExe [98])]), []) by
        decide +kernel)
  rw [hq₁] at hp
  rw [hq₂] at hp'
  cases hp
  cases hp'

end SemOS.Shell
