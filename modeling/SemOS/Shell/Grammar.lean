import Mathlib.Data.List.Infix
import SemOS.Shell.Lines

/-!
# The grammar of command lines

A line that can be executed is a `Sentence`: groups of words with pipes between them. The parser
answers such a line with the alternating list of its commands, and any other line with the error
that the first fault in it is.

* `foldlM_sentence`: the tokens of a sentence build the list of its commands.
* `foldlM_after`: after a first word, two adjacent pipes are the only error before the end of the
  line.
* `exists_sentence`: tokens without one of the three faults are a sentence.
-/

namespace SemOS.Shell

/-- WORD+ (PIPE WORD+)*: the words between the pipes. -/
structure Sentence where
  groups : List (List (List UInt8))
  nonempty : groups ≠ []
  words : ∀ g ∈ groups, g ≠ []

/-- The tokens of groups of words with pipes between them. -/
def joinPipes : List (List (List UInt8)) → List Token
  | [] => []
  | [g] => g.map .str
  | g :: g' :: groups => g.map .str ++ .pipe :: joinPipes (g' :: groups)

/-- The tokens of a sentence. -/
def Sentence.tokens (s : Sentence) : List Token := joinPipes s.groups

/-- The alternating list of the commands of a sentence: each has the words of its group as its
arguments, and the first of them as its program. -/
def Sentence.Matches (s : Sentence) (line : CommandLine) : Prop :=
  ∃ cs, line = alternate cs ∧ cs.map Command.args = s.groups ∧
    ∀ c ∈ cs, c.args.head? = some c.exe

/-- The command of a group of words. -/
def Command.ofWords : List (List UInt8) → Command
  | [] => ⟨[], [], 0, zeroed_le, zeroed_le⟩
  | w :: ws => ws.foldl Command.appendArg (.ofExe w)

/-! ## Sentences are accepted -/

theorem foldl_appendArg (ws : List (List UInt8)) (c : Command) :
    (ws.foldl Command.appendArg c).args = c.args ++ ws ∧
      (ws.foldl Command.appendArg c).exe = c.exe := by
  induction ws generalizing c with
  | nil => exact ⟨(List.append_nil _).symm, rfl⟩
  | cons w ws ih =>
    obtain ⟨ha, he⟩ := ih (c.appendArg w)
    rw [List.foldl_cons]
    refine ⟨?_, he⟩
    rw [ha]
    simp [Command.appendArg]

theorem args_ofWords (g : List (List UInt8)) : (Command.ofWords g).args = g := by
  cases g with
  | nil => rfl
  | cons w ws => exact (foldl_appendArg ws _).1

theorem exe_ofWords {g : List (List UInt8)} (hg : g ≠ []) :
    (Command.ofWords g).args.head? = some (Command.ofWords g).exe := by
  cases g with
  | nil => exact absurd rfl hg
  | cons w ws =>
    rw [args_ofWords]
    exact congrArg some (foldl_appendArg ws (.ofExe w)).2.symm

/-- The words after the first one of a command. -/
theorem foldlM_words (ws : List (List UInt8)) (line : CommandLine) (c : Command) :
    (ws.map Token.str).foldlM addToken (line ++ [.command c]) =
      .ok (line ++ [.command (ws.foldl Command.appendArg c)]) := by
  induction ws generalizing c with
  | nil => rfl
  | cons w ws ih =>
    rw [List.map_cons, List.foldlM_cons, addToken, appendWord, List.getLast?_concat,
      List.dropLast_concat]
    exact ih (c.appendArg w)

/-- A group of words, at the start of a line or after a pipe. -/
theorem foldlM_group {g : List (List UInt8)} (hg : g ≠ []) {line : CommandLine}
    (hline : line.getLast? = none ∨ line.getLast? = some .pipe) :
    (g.map Token.str).foldlM addToken line = .ok (line ++ [.command (.ofWords g)]) := by
  cases g with
  | nil => exact absurd rfl hg
  | cons w ws =>
    have happ : appendWord line w = line ++ [.command (.ofExe w)] := by
      rw [appendWord]
      rcases hline with h | h <;> rw [h]
    rw [List.map_cons, List.foldlM_cons, addToken, happ]
    exact foldlM_words ws line _

/-- **The tokens of a sentence build the list of its commands.** -/
theorem foldlM_sentence {groups : List (List (List UInt8))} (hne : groups ≠ [])
    (hg : ∀ g ∈ groups, g ≠ []) {line : CommandLine}
    (hline : line.getLast? = none ∨ line.getLast? = some .pipe) :
    (joinPipes groups).foldlM addToken line =
      .ok (line ++ alternate (groups.map Command.ofWords)) := by
  induction groups generalizing line with
  | nil => exact absurd rfl hne
  | cons g groups ih =>
    have hg₀ := foldlM_group (hg g (List.mem_cons_self ..)) hline
    cases groups with
    | nil => exact hg₀
    | cons g' groups =>
      have hpipe : addToken (line ++ [.command (.ofWords g)]) .pipe =
          .ok (line ++ [.command (.ofWords g)] ++ [.pipe]) := by
        rw [addToken, List.getLast?_concat]
      rw [joinPipes, List.foldlM_append, hg₀]
      simp only [bind, Except.bind, List.foldlM_cons, hpipe]
      rw [ih (List.cons_ne_nil _ _) (fun h hh => hg h (List.mem_cons_of_mem _ hh))
        (Or.inr List.getLast?_concat)]
      simp [alternate]

theorem getLast?_alternate {cs : List Command} (h : cs ≠ []) :
    (alternate cs).getLast? ≠ some .pipe := by
  induction cs with
  | nil => exact absurd rfl h
  | cons c cs ih =>
    cases cs with
    | nil => simp [alternate]
    | cons d cs =>
      have hne : alternate (d :: cs) ≠ [] := fun h => by cases alternate_eq_nil h
      have := ih (List.cons_ne_nil _ _)
      rwa [alternate, List.getLast?_cons_of_ne_nil (List.cons_ne_nil _ _),
        List.getLast?_cons_of_ne_nil hne]

/-- **A sentence is answered with the alternating list of its commands.** -/
theorem lineResult_sentence (s : Sentence) :
    ∃ line, lineResult s.tokens = (.none, some line) ∧ s.Matches line := by
  have hcs : s.groups.map Command.ofWords ≠ [] := by simpa using s.nonempty
  have hfold : (joinPipes s.groups).foldlM addToken [] =
      .ok (alternate (s.groups.map Command.ofWords)) :=
    foldlM_sentence s.nonempty s.words (Or.inl rfl)
  refine ⟨alternate (s.groups.map Command.ofWords), ?_, s.groups.map Command.ofWords, rfl, ?_, ?_⟩
  · rw [lineResult, Sentence.tokens, hfold]
    simp only [if_neg (getLast?_alternate hcs)]
  · rw [List.map_map]
    exact (List.map_congr_left fun g _ => args_ofWords g).trans (List.map_id _)
  · intro c hc
    obtain ⟨g, hg, rfl⟩ := List.mem_map.1 hc
    exact exe_ofWords (s.words g hg)

/-! ## Other lines -/

/-- The tokens of a line are words and pipes. -/
def WordsAndPipes (T : List Token) : Prop := ∀ t ∈ T, t = .pipe ∨ ∃ w, t = .str w

theorem Content.wordsAndPipes {l : List UInt8} {T : List Token} (h : Content l T) :
    WordsAndPipes T := by
  induction h with
  | spaces n => simp [WordsAndPipes]
  | bar n _ ih =>
    intro t ht
    rcases List.mem_cons.1 ht with rfl | ht
    · exact Or.inl rfl
    · exact ih t ht
  | word n _ _ _ ih =>
    intro t ht
    rcases List.mem_cons.1 ht with rfl | ht
    · exact Or.inr ⟨_, rfl⟩
    · exact ih t ht

/-- Two pipes next to each other. -/
def AdjacentPipes (T : List Token) : Prop := [.pipe, .pipe] <:+: T

instance : DecidablePred AdjacentPipes := fun T => inferInstanceAs (Decidable ([_, _] <:+: T))

/-- The expression at the tail of a line is of the kind of the token `t`. -/
def TailIs (t : Token) (line : CommandLine) : Prop :=
  match t with
  | .pipe => line.getLast? = some .pipe
  | _ => ∃ c, line.getLast? = some (.command c)

theorem tailIs_appendWord (line : CommandLine) (w w' : List UInt8) :
    TailIs (.str w') (appendWord line w) := by
  rw [appendWord]
  split <;> exact ⟨_, List.getLast?_concat⟩

/-- **After the token `t`, two adjacent pipes are the only error before the end of the line.** -/
theorem foldlM_after {t : Token} {T : List Token} (hT : WordsAndPipes (t :: T))
    {line : CommandLine} (hline : TailIs t line) :
    (AdjacentPipes (t :: T) ∧ T.foldlM addToken line = .error .pipeWithLeftArgNotACommand) ∨
      (¬ AdjacentPipes (t :: T) ∧ ∃ line', T.foldlM addToken line = .ok line' ∧
        ∃ t', (t :: T).getLast? = some t' ∧ TailIs t' line') := by
  induction T generalizing t line with
  | nil =>
    refine Or.inr ⟨?_, line, rfl, t, rfl, hline⟩
    intro h
    simpa using h.length_le
  | cons u T ih =>
    have hT' : WordsAndPipes (u :: T) := fun x hx => hT x (List.mem_cons_of_mem _ hx)
    have hadj : AdjacentPipes (t :: u :: T) ↔ t = .pipe ∧ u = .pipe ∨ AdjacentPipes (u :: T) := by
      rw [AdjacentPipes, List.infix_cons_iff]
      simp [AdjacentPipes, eq_comm]
    rw [List.foldlM_cons, List.getLast?_cons_cons, hadj]
    rcases hT' u (List.mem_cons_self ..) with rfl | ⟨w, rfl⟩
    · rcases hT t (List.mem_cons_self ..) with rfl | ⟨w, rfl⟩
      · have hadd : addToken line .pipe = .error .pipeWithLeftArgNotACommand := by
          rw [addToken, show line.getLast? = some .pipe from hline]
        exact Or.inl ⟨Or.inl ⟨rfl, rfl⟩, by rw [hadd]; rfl⟩
      · obtain ⟨c, hc⟩ : ∃ c, line.getLast? = some (.command c) := hline
        have hadd : addToken line .pipe = .ok (line ++ [.pipe]) := by rw [addToken, hc]
        have htail : TailIs .pipe (line ++ [.pipe]) := List.getLast?_concat
        have := ih hT' htail
        simpa [hadd, bind, Except.bind] using this
    · have := ih hT' (tailIs_appendWord line w w)
      simpa [addToken, bind, Except.bind] using this

/-- A word before a sentence belongs to its first command. -/
theorem Sentence.exists_word (s : Sentence) (w : List UInt8) :
    ∃ s' : Sentence, .str w :: s.tokens = s'.tokens := by
  obtain ⟨groups, hg, hw⟩ := s
  match groups, hg with
  | g :: groups, _ =>
    refine ⟨⟨(w :: g) :: groups, by simp, ?_⟩, ?_⟩
    · intro g' hg'
      rcases List.mem_cons.1 hg' with rfl | hg'
      · simp
      · exact hw g' (List.mem_cons_of_mem _ hg')
    · cases groups <;> rfl

/-- A word and a pipe before a sentence are a command of their own. -/
theorem Sentence.exists_pipe (s : Sentence) (w : List UInt8) :
    ∃ s' : Sentence, .str w :: .pipe :: s.tokens = s'.tokens := by
  obtain ⟨groups, hg, hw⟩ := s
  refine ⟨⟨[w] :: groups, by simp, ?_⟩, ?_⟩
  · intro g' hg'
    rcases List.mem_cons.1 hg' with rfl | hg'
    · simp
    · exact hw g' hg'
  · match groups, hg with
    | g :: groups, _ => rfl

/-- **Tokens without one of the three faults are a sentence.** -/
theorem exists_sentence {T : List Token} (hT : WordsAndPipes T) (hne : T ≠ [])
    (hhead : T.head? ≠ some .pipe) (hadj : ¬ AdjacentPipes T) (hlast : T.getLast? ≠ some .pipe) :
    ∃ s : Sentence, T = s.tokens := by
  induction hn : T.length using Nat.strongRecOn generalizing T with
  | ind n ih =>
    subst hn
    match T, hne with
    | t :: T, _ =>
      have hsub : ∀ {x y}, t :: T = x ++ y → WordsAndPipes y ∧ ¬ AdjacentPipes y := by
        intro x y h
        refine ⟨fun u hu => hT u (by rw [h]; exact List.mem_append_right _ hu), fun hy => hadj ?_⟩
        rw [h]
        exact hy.trans (List.suffix_append x y).isInfix
      obtain rfl | ⟨w, rfl⟩ := hT t (List.mem_cons_self ..)
      · exact absurd rfl hhead
      · match T with
        | [] => exact ⟨⟨[[w]], by simp, by simp⟩, rfl⟩
        | .str w' :: T =>
          obtain ⟨hT', hadj'⟩ := hsub (x := [.str w]) rfl
          obtain ⟨sentence, hs⟩ := ih _ (by simp) hT' (by simp) (by simp) hadj'
            (by simpa using hlast) rfl
          rw [hs]
          exact sentence.exists_word w
        | .pipe :: T =>
          obtain ⟨hT', hadj'⟩ := hsub (x := [.str w, .pipe]) rfl
          have hne : T ≠ [] := by
            rintro rfl
            simp at hlast
          have hhead' : T.head? ≠ some .pipe := by
            intro h
            obtain ⟨T', rfl⟩ : ∃ T', T = .pipe :: T' := by
              cases T with
              | nil => cases h
              | cons u T' => exact ⟨T', by rw [Option.some.inj h]⟩
            exact hadj ⟨[.str w], T', rfl⟩
          have hlast' : T.getLast? ≠ some .pipe := by
            rwa [List.getLast?_cons_cons, List.getLast?_cons_of_ne_nil hne] at hlast
          have hlen : T.length < (Token.str w :: .pipe :: T).length :=
            Nat.lt_succ_of_lt (Nat.lt_succ_self _)
          obtain ⟨sentence, hs⟩ := ih _ hlen hT' hne hhead' hadj' hlast' rfl
          rw [hs]
          exact sentence.exists_pipe w
        | .none :: T => simpa using hT .none (by simp)
        | .newLine :: T => simpa using hT .newLine (by simp)

/-- The error of tokens that are no sentence: the first fault in them. -/
def firstFault (T : List Token) : ParserError :=
  if T.head? = some .pipe then .pipeWithNoLeftArg
  else if AdjacentPipes T then .pipeWithLeftArgNotACommand
  else .endsNotWithACommand

/-- **Tokens that are no sentence are answered with the first fault in them**: a pipe at the start,
else two adjacent pipes, else a pipe at the end. -/
theorem lineResult_fault {T : List Token} (hT : WordsAndPipes T) (hne : T ≠ [])
    (hno : ¬ ∃ s : Sentence, T = s.tokens) :
    lineResult T = (firstFault T, Option.none) ∧
      (firstFault T = .endsNotWithACommand → T.getLast? = some .pipe) := by
  rw [firstFault]
  by_cases hhead : T.head? = some .pipe
  · rw [if_pos hhead]
    obtain ⟨T', rfl⟩ : ∃ T', T = .pipe :: T' := by
      cases T with
      | nil => cases hhead
      | cons u T' => exact ⟨T', by rw [Option.some.inj hhead]⟩
    exact ⟨rfl, by simp⟩
  · rw [if_neg hhead]
    obtain ⟨w, T', rfl⟩ : ∃ w T', T = .str w :: T' := by
      cases T with
      | nil => exact absurd rfl hne
      | cons u T' =>
        rcases hT u (List.mem_cons_self ..) with rfl | ⟨w, rfl⟩
        · exact absurd rfl hhead
        · exact ⟨w, T', rfl⟩
    have hfold : (Token.str w :: T').foldlM addToken [] = T'.foldlM addToken (appendWord [] w) :=
      rfl
    rcases foldlM_after hT (tailIs_appendWord [] w w) with ⟨hadj, h⟩ | ⟨hadj, line, h, t, hlast, ht⟩
    · rw [if_pos hadj, lineResult, hfold, h]
      exact ⟨rfl, by simp⟩
    · rw [if_neg hadj, lineResult, hfold, h]
      have hpipe : (Token.str w :: T').getLast? = some .pipe := by
        by_contra hl
        exact hno (exists_sentence hT hne hhead hadj hl)
      obtain rfl : t = .pipe := by
        rw [hpipe] at hlast
        exact (Option.some.inj hlast).symm
      refine ⟨?_, fun _ => hpipe⟩
      exact if_pos ht

/-! ## Lines in the buffer -/

/-- The two ends of a line. -/
inductive LineEnd
  | newline
  | carriageReturnNewline

/-- Their bytes. -/
def LineEnd.bytes : LineEnd → List UInt8
  | .newline => [lineFeed]
  | .carriageReturnNewline => [carriageReturn, lineFeed]

/-- A line: its bytes before the end, none of which ends a line, and its end. -/
structure Line where
  content : List UInt8
  ending : LineEnd
  noLineEnd : NoLineEnd content

def Line.bytes (l : Line) : List UInt8 := l.content ++ l.ending.bytes

/-- A line of spaces. -/
def blankLine (spaces : ℕ) (ending : LineEnd) : Line where
  content := List.replicate spaces space
  ending := ending
  noLineEnd c hc := by
    rw [List.eq_of_mem_replicate hc]
    decide

/-- The bytes of blank lines, each with its number of spaces and its end. -/
def blankLines (B : List (ℕ × LineEnd)) : List UInt8 := B.flatMap fun b => (blankLine b.1 b.2).bytes

theorem blankLines_eq_nil {B : List (ℕ × LineEnd)} (h : blankLines B = []) : B = [] := by
  cases B with
  | nil => rfl
  | cons b B =>
    obtain ⟨n, ending⟩ := b
    cases ending <;> simp [blankLines, Line.bytes, blankLine, LineEnd.bytes] at h

theorem splitLine_line (l : Line) (R : List UInt8) :
    splitLine (l.bytes ++ R) = some (l.content, R) := by
  obtain ⟨content, ending, h⟩ := l
  simp only [Line.bytes, List.append_assoc]
  induction content with
  | nil => cases ending <;> rfl
  | cons c content ih =>
    have hc := h c (List.mem_cons_self ..)
    rw [List.cons_append, splitLine, if_neg hc.1, if_neg hc.2,
      ih fun d hd => h d (List.mem_cons_of_mem _ hd)]
    rfl

theorem tokens_replicate (n : ℕ) : tokens (List.replicate n space) = [] := by
  induction n with
  | zero => rfl
  | succ n ih =>
    rw [List.replicate_succ, tokens, tokensFrom, if_pos rfl]
    exact ih

/-- A line with a byte that is not a space has a token. -/
theorem tokens_ne_nil {l : List UInt8} (hl : NoLineEnd l) (h : ∃ c ∈ l, c ≠ space) :
    tokens l ≠ [] := by
  intro hT
  have hc := content_tokens hl
  rw [hT] at hc
  obtain ⟨c, hmem, hne⟩ := h
  cases hc with
  | spaces n => exact hne (List.eq_of_mem_replicate hmem)

/-- Blank lines are passed over. -/
theorem nextLine_blankLines (B : List (ℕ × LineEnd)) (bs : List UInt8) :
    nextLine (blankLines B ++ bs) = nextLine bs := by
  induction B with
  | nil => rfl
  | cons b B ih =>
    have hsplit := splitLine_line (blankLine b.1 b.2) (blankLines B ++ bs)
    rw [← List.append_assoc] at hsplit
    rw [blankLines, List.flatMap_cons, ← blankLines, nextLine_of_split hsplit,
      if_pos (show tokens (blankLine b.1 b.2).content = [] from tokens_replicate b.1), ih]

/-- **The parser accepts exactly its grammar.** With the bytes `B ++ L ++ R` buffered, blank lines,
a line that is not blank and anything, `parser_pop_next` returns the commands of `L` if its tokens
are a sentence, and else the first fault in them; the bytes left are `R`. -/
theorem parser_accepts_grammar (p : Parser) (B : List (ℕ × LineEnd)) (L : Line) (R : List UInt8)
    (hdata : p.data = blankLines B ++ (L.bytes ++ R)) (hL : ∃ c ∈ L.content, c ≠ space) :
    ∃ p', p'.data = R ∧
      (∀ s : Sentence, tokens L.content = s.tokens →
        ∃ line, parserPopNext p = .ok (p', .none, some line) ∧ s.Matches line) ∧
      ((¬ ∃ s : Sentence, tokens L.content = s.tokens) →
        parserPopNext p = .ok (p', firstFault (tokens L.content), Option.none) ∧
          (firstFault (tokens L.content) = .endsNotWithACommand →
            (tokens L.content).getLast? = some .pipe)) := by
  have hT := tokens_ne_nil L.noLineEnd hL
  have hnext : nextLine p.data = some (lineResult (tokens L.content), R) := by
    rw [hdata, nextLine_blankLines, nextLine_of_split (splitLine_line L R), if_neg hT]
  obtain ⟨p', hp, hR, -⟩ := parserPopNext_of_nextLine hnext
  refine ⟨p', hR, fun s hs => ?_, fun hno => ?_⟩
  · obtain ⟨line, hline, hm⟩ := lineResult_sentence s
    exact ⟨line, by rw [hp, hs, hline], hm⟩
  · obtain ⟨hres, hlast⟩ := lineResult_fault (content_tokens L.noLineEnd).wordsAndPipes hT hno
    exact ⟨by rw [hp, hres], hlast⟩

/-- The line `a |b`. -/
def aBarB : Line where
  content := [97, 32, 124, 98]
  ending := .carriageReturnNewline
  noLineEnd := by
    simp [NoLineEnd]
    decide

/-- A buffer with a blank line, the line `a |b` and the byte `c`, and a line feed behind them. -/
def aBarBParser : Parser := ⟨[32, 10, 97, 32, 124, 98, 13, 10, 99, 10], 9, by decide, by decide⟩

/-- The two words `a` and `b` with a pipe between them. -/
theorem parser_accepts_aBarB : ∃ p' line, p'.data = [99] ∧
    parserPopNext aBarBParser = .ok (p', .none, some line) ∧
    Sentence.Matches ⟨[[[97]], [[98]]], by simp, by simp⟩ line := by
  obtain ⟨p', hp', hs, -⟩ := parser_accepts_grammar aBarBParser [(1, .newline)] aBarB [99] rfl
    ⟨97, by decide, by decide⟩
  obtain ⟨line, hline, hm⟩ := hs ⟨[[[97]], [[98]]], by simp, by simp⟩ rfl
  exact ⟨p', line, hp', hline, hm⟩

end SemOS.Shell
