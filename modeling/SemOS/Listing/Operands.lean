import SemOS.Copy.Operands

/-!
# The operands of myls

`check_flags` of `sems/myls/main.c` returns the number of options, and `main` lists the working
directory if there is nothing else on the command line. Otherwise it takes every word for a path,
the option words too.

* `operands_found_iff`: when mycp and myls find their operands.
* `mainCalls` is what `main` makes of its paths: it calls `stat` for each and looks at the type of
  the file, also where `stat` has failed. `mainCalls_determined_iff`: when that is well-defined.
-/

namespace SemOS.Myls

/-- `struct flags_states`. -/
structure FlagsStates where
  all : Bool
  directory : Bool
  longOpt : Bool
  inode : Bool
  numeric : Bool
  recursive : Bool

/-- `optstring` and `longoptions`, and what lies behind the array. -/
def options (behind : List (Word × Char)) : Options where
  optstring := ['a', 'd', 'l', 'i', 'n', 'R']
  longoptions :=
    [("all".toList, 'a'), ("directory".toList, 'd'), ("long".toList, 'l'), ("inode".toList, 'i'),
      ("numeric".toList, 'n'), ("recursive".toList, 'R')] ++ behind

/-- The `switch` of `check_flags`, on `flags_values` and `n_flags`. -/
def readFlag : FlagsStates × ℕ → Option Char → Option (FlagsStates × ℕ)
  | (fs, n), some 'a' => some ({ fs with all := true }, n + 1)
  | (fs, n), some 'd' => some ({ fs with directory := true }, n + 1)
  | (fs, n), some 'l' => some ({ fs with longOpt := true }, n + 1)
  | (fs, n), some 'i' => some ({ fs with inode := true }, n + 1)
  | (fs, n), some 'n' => some ({ fs with numeric := true }, n + 1)
  | (fs, n), some 'R' => some ({ fs with recursive := true }, n + 1)
  | _, _ => none

/-- The loop of `check_flags`, from flags that `main` has not set; `none` if an option is not
accepted. -/
def readFlags (behind : List (Word × Char)) (fs : FlagsStates) (words : List Word) :
    Option (FlagsStates × ℕ) :=
  ((options behind).scan words).values.foldlM readFlag (fs, 0)

/-- What `check_flags` returns. -/
def checkFlags (behind : List (Word × Char)) (fs : FlagsStates) (words : List Word) : ℕ :=
  match readFlags behind fs words with
  | some (_, nFlags) => nFlags
  | none => 0

/-- The words that `main` takes for paths. -/
def paths (argv : List Word) (nFlags : ℕ) : List Word :=
  if argv.length = 1 + nFlags then [['.']] else argv.tail

/-- The types of files that `main` tells apart. -/
inductive FileType
  | directory
  | regular
  | other
  deriving DecidableEq

/-- A call of `main` for a path. -/
inductive Call
  | printFilesInDir (path : Word)
  | printInfo (path : Word)
  deriving DecidableEq

/-- The branches on `st.st_mode`. -/
def callFor (path : Word) : FileType → Option Call
  | .directory => some (.printFilesInDir path)
  | .regular => some (.printInfo path)
  | .other => none

/-- The calls of `main`, where `stat` finds files of some types. Nobody looks at its result: where
it fails, `st` has not been set, and has the type `unset` of whatever is in its place. -/
def mainCalls (stat : Word → Option FileType) (unset : ℕ → FileType) (argv : List Word)
    (nFlags : ℕ) : List Call :=
  if argv.length = 1 + nFlags then [.printFilesInDir ['.']]
  else argv.tail.zipIdx.filterMap fun p => callFor p.1 ((stat p.1).getD (unset p.2))

/-- `1 + n_flags` is the index of the first operand, and the paths are the operands, or the working
directory if there is none. -/
structure FindsOperands (behind : List (Word × Char)) (fs : FlagsStates) (program : Word)
    (words : List Word) : Prop where
  counter : 1 + checkFlags behind fs words = 1 + ((options behind).scan words).optionWords.length
  paths : paths ((options behind).permuted program words) (checkFlags behind fs words) =
    if ((options behind).scan words).operands = [] then [['.']]
    else ((options behind).scan words).operands

variable {behind : List (Word × Char)} {fs : FlagsStates} {program : Word} {words : List Word}

theorem readFlag_count {s t : FlagsStates × ℕ} {value : Option Char}
    (h : readFlag s value = some t) : t.2 = s.2 + 1 := by
  unfold readFlag at h
  split at h <;> cases h <;> rfl

/-- Accepted options are counted one by one. -/
theorem checkFlags_eq (h : (readFlags behind fs words).isSome) :
    checkFlags behind fs words =
      (((options behind).scan words).optionWords.map Options.optionsIn).sum := by
  obtain ⟨⟨fs', n⟩, hread⟩ := Option.isSome_iff_exists.1 h
  rw [checkFlags, hread, ← Options.length_values]
  exact (Options.count_foldlM readFlag_count hread).trans (Nat.zero_add _)

/-- With the right number, the paths are the operands exactly if there are no option words or no
operands. -/
theorem paths_iff (program : Word) (optionWords operands : List Word) :
    paths (program :: (optionWords ++ operands)) optionWords.length =
        (if operands = [] then [['.']] else operands) ↔ operands = [] ∨ optionWords = [] := by
  by_cases hoperands : operands = []
  · rw [hoperands, paths, if_pos, if_pos rfl]
    · exact iff_of_true rfl (.inl rfl)
    · rw [List.append_nil, List.length_cons, Nat.add_comm]
  · have hpos := List.length_pos_iff.2 hoperands
    rw [paths, if_neg, if_neg hoperands, or_iff_right hoperands, List.tail_cons]
    · exact List.append_left_eq_self
    · rw [List.length_cons, List.length_append]
      omega

/-- The operands are found exactly if there are as many options as option words, and only one kind
of words. -/
theorem findsOperands_iff (h : (readFlags behind fs words).isSome) :
    FindsOperands behind fs program words ↔
      ((options behind).scan words).Balanced ∧
        (((options behind).scan words).operands = [] ∨
          ((options behind).scan words).optionWords = []) := by
  rw [Scan.Balanced, ← checkFlags_eq h, ← paths_iff program]
  constructor
  · rintro ⟨hcount, hpaths⟩
    have hcount := Nat.add_left_cancel hcount
    rw [hcount] at hpaths
    exact ⟨hcount, hpaths⟩
  · rintro ⟨hcount, hpaths⟩
    rw [← hcount] at hpaths
    exact ⟨congrArg (1 + ·) hcount, hpaths⟩

/-! ## The files behind the paths -/

section Calls

variable {stat : Word → Option FileType} {unset unset' : ℕ → FileType} {argv : List Word}
  {nFlags : ℕ} {path : Word}

/-- A word is listed as a directory where `st` has this type. -/
theorem printFilesInDir_mem (h : argv.length ≠ 1 + nFlags) :
    .printFilesInDir path ∈ mainCalls stat unset argv nFlags ↔
      ∃ i, argv.tail[i]? = some path ∧ (stat path).getD (unset i) = .directory := by
  have hcall : ∀ path' type, callFor path' type = some (.printFilesInDir path) ↔
      path' = path ∧ type = .directory := by
    intro path' type
    cases type <;> simp [callFor]
  simp only [mainCalls, if_neg h, List.mem_filterMap, hcall, Prod.exists,
    List.mem_zipIdx_iff_getElem?]
  constructor
  · rintro ⟨path', i, hi, rfl, htype⟩
    exact ⟨i, hi, htype⟩
  · rintro ⟨i, hi, htype⟩
    exact ⟨path, i, hi, rfl, htype⟩

/-- Where `stat` finds all paths, the memory does not matter. -/
theorem mainCalls_congr (h : ∀ path ∈ argv.tail, stat path ≠ none) :
    mainCalls stat unset argv nFlags = mainCalls stat unset' argv nFlags := by
  rw [mainCalls, mainCalls]
  split_ifs
  · rfl
  · refine List.filterMap_congr fun p hp => ?_
    have hmem : p.1 ∈ argv.tail :=
      List.mem_of_getElem? (List.mem_zipIdx_iff_getElem?.1 hp)
    obtain ⟨type, htype⟩ := Option.ne_none_iff_exists'.1 (h p.1 hmem)
    rw [htype, Option.getD_some, Option.getD_some]

/-- **What `main` lists is determined by the files exactly if there is no word besides the options
or `stat` succeeds for all of them.** -/
theorem mainCalls_determined_iff :
    (∀ unset unset', mainCalls stat unset argv nFlags = mainCalls stat unset' argv nFlags) ↔
      argv.length = 1 + nFlags ∨ ∀ path ∈ argv.tail, stat path ≠ none := by
  constructor
  · intro h
    rw [or_iff_not_imp_left]
    intro hlen path hpath hnone
    obtain ⟨i, hi, rfl⟩ := List.getElem_of_mem hpath
    -- it is listed as a directory or not at all
    have hmem : Call.printFilesInDir argv.tail[i] ∈
        mainCalls stat (fun _ => .directory) argv nFlags :=
      (printFilesInDir_mem hlen).2 ⟨i, List.getElem?_eq_getElem hi, by rw [hnone]; rfl⟩
    rw [h _ fun _ => .other, printFilesInDir_mem hlen] at hmem
    obtain ⟨j, -, hother⟩ := hmem
    rw [hnone] at hother
    cases hother
  · rintro (h | h) unset unset'
    · rw [mainCalls, mainCalls, if_pos h, if_pos h]
    · exact mainCalls_congr h

end Calls

/-- **mycp and myls find their operands exactly if the accepted options are as many as the option
words, and mycp gets two operands or a directory as the last one, and myls gets only operands or
only options.** -/
theorem operands_found_iff (behind : List (Word × Char)) (isDir : Word → Bool)
    (fs : FlagsStates) (program : Word) (words : List Word) :
    (∀ flags, Mycp.checkFlags behind words = some flags →
      (Mycp.FindsOperands behind isDir program words flags ↔
        ((Mycp.options behind).scan words).Balanced ∧
          (((Mycp.options behind).scan words).operands.length = 2 ∨
            ((Mycp.options behind).scan words).operands.getLast?.any isDir))) ∧
      ((readFlags behind fs words).isSome →
        (FindsOperands behind fs program words ↔
          ((options behind).scan words).Balanced ∧
            (((options behind).scan words).operands = [] ∨
              ((options behind).scan words).optionWords = []))) :=
  ⟨fun _ h => Mycp.findsOperands_iff h, findsOperands_iff⟩

/-- `mycp -v -f a b`, and `myls d`. -/
theorem operands_found_separate :
    Mycp.FindsOperands [] (fun _ => false) ['m'] [['-', 'v'], ['-', 'f'], ['a'], ['b']]
        ⟨true, false, true, 1, 0, 1⟩ ∧
      FindsOperands [] ⟨false, false, false, false, false, false⟩ ['m'] [['d']] :=
  ⟨((operands_found_iff [] (fun _ => false) ⟨false, false, false, false, false, false⟩ ['m']
      [['-', 'v'], ['-', 'f'], ['a'], ['b']]).1 _ rfl).2 ⟨by decide, .inl rfl⟩,
    ((operands_found_iff [] (fun _ => false) ⟨false, false, false, false, false, false⟩ ['m']
      [['d']]).2 rfl).2 ⟨by decide, .inr rfl⟩⟩

/-- `mycp -vf a b` counts two options in one word, and `myls -l d` takes the option for a path. -/
theorem clustered_misses_operands :
    (¬ ∀ (isDir : Word → Bool) (program : Word) (words : List Word) (flags : Mycp.FlagsStates),
      Mycp.checkFlags [] words = some flags →
        Mycp.FindsOperands [] isDir program words flags) ∧
      ¬ ∀ (fs : FlagsStates) (program : Word) (words : List Word),
        (readFlags [] fs words).isSome → FindsOperands [] fs program words := by
  constructor
  · intro h
    have hcounter := (h (fun _ => false) ['m'] [['-', 'v', 'f'], ['a'], ['b']]
      ⟨true, false, true, 1, 0, 1⟩ rfl).counter
    exact absurd hcounter (by decide)
  · intro h
    have hpaths := (h ⟨false, false, false, false, false, false⟩ ['m'] [['-', 'l'], ['d']]
      rfl).paths
    exact absurd hpaths (by decide)

end SemOS.Myls
