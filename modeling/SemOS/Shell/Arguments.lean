import Mathlib.Data.List.TakeWhile
import SemOS.Shell.Outcomes

/-!
# The argument array of a command

`command_append_arg` keeps the words of a command in an array that it enlarges by `realloc`, and
`execute_cmd` passes the array to `execvp`, which reads up to a null pointer. Nothing writes one:
there is a null pointer behind the words if the memory that `realloc` returned happened to hold one
there, and if there is room for it at all. Of a word the program sees the bytes up to a zero byte.

* `slots_eq`: the array after some words, and `capacity_power`: its capacity is 2 less than a power
  of two.
* `commands_of_words`: every command of an accepted line was built from its words.
* `program_receives_words_iff`: when the program receives exactly the words.
-/

namespace SemOS.Shell

/-- An element of an array of pointers: NULL, a pointer to the bytes of a word with the zero byte
that `token_strdup` puts behind them, or what else memory held. -/
inductive Slot
  | null
  | word (data : List UInt8)
  | other (address : ℕ)
  deriving DecidableEq

/-- `args` with all its `arg_capacity` elements, and `arg_count`. -/
structure ArgArray where
  slots : List Slot
  count : ℕ

/-- `command_append_arg`, on the array. The element `i` of newly allocated memory holds `heap i`. -/
def ArgArray.append (heap : ℕ → Slot) (a : ArgArray) (arg : List UInt8) : ArgArray :=
  let slots :=
    if a.count = a.slots.length then
      a.slots ++
        (List.range' a.slots.length ((a.slots.length + 1) * 2 - a.slots.length)).map heap
    else a.slots
  ⟨slots.set a.count (.word arg), a.count + 1⟩

/-- The array of a command of the words `ws`: the zeroed one, with them appended. -/
def argArray (heap : ℕ → Slot) (ws : List (List UInt8)) : ArgArray :=
  ws.foldl (ArgArray.append heap) ⟨[], 0⟩

/-- The string that the bytes of a word are for `execvp`: they end at the first zero byte. -/
def cString (w : List UInt8) : List UInt8 := w.takeWhile (· ≠ 0)

/-- What a program receives as its arguments: the strings up to a null pointer. Reading behind the
array, or at an address that is none of a word, gives nothing. -/
def programArguments : List Slot → Option (List (List UInt8))
  | [] => none
  | .null :: _ => some []
  | .word w :: slots => (programArguments slots).map (cString w :: ·)
  | .other _ :: _ => none

/-- The array holds the words, and then a null pointer. -/
structure ArgArray.Holds (a : ArgArray) (ws : List (List UInt8)) : Prop where
  count : a.count = ws.length
  words : a.slots.take a.count = ws.map Slot.word
  terminated : a.slots[a.count]? = some .null

variable {heap : ℕ → Slot} {ws : List (List UInt8)} {w : List UInt8} {line line' : CommandLine}
  {T : List Token}

/-! ## The array after some words -/

theorem argArray_concat (heap : ℕ → Slot) (ws : List (List UInt8)) (w : List UInt8) :
    argArray heap (ws ++ [w]) = (argArray heap ws).append heap w := by
  rw [argArray, List.foldl_append]
  rfl

theorem argArray_count (heap : ℕ → Slot) (ws : List (List UInt8)) :
    (argArray heap ws).count = ws.length := by
  induction ws using List.reverseRecOn with
  | nil => rfl
  | append_singleton ws w ih =>
    rw [argArray_concat, List.length_append]
    exact congrArg (· + 1) ih

/-- A word overwrites the first element of the heap. -/
theorem set_word (heap : ℕ → Slot) (ws : List (List UInt8)) (w : List UInt8) (k : ℕ) :
    (ws.map Slot.word ++ (List.range' ws.length (k + 1)).map heap).set ws.length (.word w) =
      (ws ++ [w]).map Slot.word ++ (List.range' (ws ++ [w]).length k).map heap := by
  rw [List.set_append_right _ _ (by rw [List.length_map]), List.length_map, Nat.sub_self,
    List.range'_succ, List.map_cons, List.set_cons_zero, List.map_append, List.length_append,
    List.append_assoc]
  rfl

/-- **The array holds the words and then what the heap held.** -/
theorem slots_eq (heap : ℕ → Slot) (ws : List (List UInt8)) :
    ∃ k, (argArray heap ws).slots = ws.map Slot.word ++ (List.range' ws.length k).map heap := by
  induction ws using List.reverseRecOn with
  | nil => exact ⟨0, rfl⟩
  | append_singleton ws w ih =>
    obtain ⟨k, hk⟩ := ih
    have hlen : (argArray heap ws).slots.length = ws.length + k := by
      rw [hk, List.length_append, List.length_map, List.length_map, List.length_range']
    rw [argArray_concat, ArgArray.append, argArray_count, hlen]
    cases k with
    | zero =>
      refine ⟨ws.length + 1, ?_⟩
      rw [List.range'_zero, List.map_nil, List.append_nil] at hk
      rw [if_pos (Nat.add_zero _).symm, hk, Nat.add_zero,
        show (ws.length + 1) * 2 - ws.length = ws.length + 1 + 1 by omega]
      exact set_word heap ws w _
    | succ k =>
      refine ⟨k, ?_⟩
      rw [if_neg (by omega), hk]
      exact set_word heap ws w k

theorem ofWords_concat (hws : ws ≠ []) (w : List UInt8) :
    Command.ofWords (ws ++ [w]) = (Command.ofWords ws).appendArg w := by
  cases ws with
  | nil => exact absurd rfl hws
  | cons v ws =>
    rw [List.cons_append, Command.ofWords, Command.ofWords, List.foldl_append]
    rfl

theorem argCapacity_appendArg (cmd : Command) (arg : List UInt8) :
    (cmd.appendArg arg).argCapacity =
      if cmd.args.length = cmd.argCapacity then (cmd.argCapacity + 1) * 2
      else cmd.argCapacity := rfl

/-- The capacity of the array is `arg_capacity`. -/
theorem length_slots (heap : ℕ → Slot) (ws : List (List UInt8)) :
    (argArray heap ws).slots.length = (Command.ofWords ws).argCapacity := by
  induction ws using List.reverseRecOn with
  | nil => rfl
  | append_singleton ws w ih =>
    have hlen : ((argArray heap ws).append heap w).slots.length =
        if ws.length = (argArray heap ws).slots.length then
          ((argArray heap ws).slots.length + 1) * 2
        else (argArray heap ws).slots.length := by
      rw [ArgArray.append, argArray_count, List.length_set]
      split
      · rw [List.length_append, List.length_map, List.length_range']
        omega
      · rfl
    rw [argArray_concat, hlen, ih]
    by_cases hws : ws = []
    · rw [hws]
      rfl
    · rw [ofWords_concat hws, argCapacity_appendArg, args_ofWords]

/-- The capacity is 2 less than a power of two. -/
theorem capacity_power (ws : List (List UInt8)) :
    ((Command.ofWords ws).argCapacity + 2).isPowerOfTwo := by
  induction ws using List.reverseRecOn with
  | nil => exact ⟨1, rfl⟩
  | append_singleton ws w ih =>
    by_cases hws : ws = []
    · rw [hws]
      exact ⟨2, rfl⟩
    · rw [ofWords_concat hws, argCapacity_appendArg]
      split
      · obtain ⟨k, hk⟩ := ih
        exact ⟨k + 1, by rw [Nat.pow_succ, ← hk]; omega⟩
      · exact ih

/-- **The array is full when the number of words is 2 less than a power of two.** -/
theorem full_iff (ws : List (List UInt8)) :
    (Command.ofWords ws).argCapacity ≤ ws.length ↔ (ws.length + 2).isPowerOfTwo := by
  have hle := (Command.ofWords ws).argCount_le
  have hle' := (Command.ofWords ws).argCapacity_le
  have hpow := capacity_power ws
  rw [args_ofWords] at hle hle'
  constructor
  · intro h
    rwa [Nat.le_antisymm h hle] at hpow
  · rintro ⟨j, hj⟩
    obtain ⟨k, hk⟩ := hpow
    -- twice the one power of two is more than the other
    have hlt : 2 ^ k < 2 ^ (j + 1) := by
      rw [Nat.pow_succ]
      omega
    have hkj : k ≤ j := Nat.le_of_lt_succ ((Nat.pow_lt_pow_iff_right (by decide)).1 hlt)
    have := Nat.pow_le_pow_right (show 0 < 2 by decide) hkj
    omega

/-- The element behind the words. -/
theorem slots_getElem? (heap : ℕ → Slot) (ws : List (List UInt8)) :
    (argArray heap ws).slots[ws.length]? =
      if (ws.length + 2).isPowerOfTwo then none else some (heap ws.length) := by
  obtain ⟨k, hk⟩ := slots_eq heap ws
  have hlen := length_slots heap ws
  rw [hk, List.length_append, List.length_map, List.length_map, List.length_range'] at hlen
  rw [hk, List.getElem?_append_right (by rw [List.length_map]), List.length_map, Nat.sub_self]
  split
  · rename_i hfull
    have := (full_iff ws).2 hfull
    obtain rfl : k = 0 := by omega
    rfl
  · rename_i hfull
    have := (full_iff ws).not.2 hfull
    obtain ⟨m, rfl⟩ : ∃ m, k = m + 1 := ⟨k - 1, by omega⟩
    rw [List.range'_succ]
    rfl

/-! ## What the program receives -/

theorem cString_eq_iff (w : List UInt8) : cString w = w ↔ 0 ∉ w := by
  rw [cString, List.takeWhile_eq_self_iff]
  simp only [decide_eq_true_eq]
  exact ⟨fun h h0 => h 0 h0 rfl, fun h c hc h0 => h (h0 ▸ hc)⟩

theorem map_cString_eq_iff (ws : List (List UInt8)) :
    ws.map cString = ws ↔ ∀ w ∈ ws, 0 ∉ w := by
  have hid : ws.map cString = ws.map id ↔ ∀ w ∈ ws, cString w = id w := List.map_inj_left
  rw [List.map_id] at hid
  exact hid.trans (forall₂_congr fun w _ => cString_eq_iff w)

theorem programArguments_words (ws : List (List UInt8)) (slots : List Slot) :
    programArguments (ws.map Slot.word ++ slots) =
      (programArguments slots).map (ws.map cString ++ ·) := by
  induction ws with
  | nil =>
    rw [List.map_nil, List.nil_append]
    cases programArguments slots <;> rfl
  | cons w ws ih =>
    rw [List.map_cons, List.cons_append, programArguments, ih]
    cases programArguments slots <;> rfl

theorem programArguments_nil_iff (slots : List Slot) :
    programArguments slots = some [] ↔ slots[0]? = some .null := by
  cases slots with
  | nil => simp [programArguments]
  | cons slot slots => cases slot <;> simp [programArguments]

/-- The array holds the words, and then a null pointer if there is one. -/
theorem holds_iff (heap : ℕ → Slot) (ws : List (List UInt8)) :
    (argArray heap ws).Holds ws ↔ (argArray heap ws).slots[ws.length]? = some .null := by
  obtain ⟨k, hk⟩ := slots_eq heap ws
  have hcount := argArray_count heap ws
  constructor
  · rintro ⟨-, -, h⟩
    rwa [hcount] at h
  · intro h
    refine ⟨hcount, ?_, by rwa [hcount]⟩
    rw [hcount, hk, List.take_left' (by rw [List.length_map])]

/-- The program receives the words if a null pointer is behind them and none has a zero byte. -/
theorem programArguments_iff (heap : ℕ → Slot) (ws : List (List UInt8)) :
    programArguments (argArray heap ws).slots = some ws ↔
      (argArray heap ws).slots[ws.length]? = some .null ∧ ∀ w ∈ ws, 0 ∉ w := by
  obtain ⟨k, hk⟩ := slots_eq heap ws
  rw [hk, programArguments_words, List.getElem?_append_right (by rw [List.length_map]),
    List.length_map, Nat.sub_self, ← programArguments_nil_iff, ← map_cString_eq_iff]
  constructor
  · intro h
    obtain ⟨v, hv, hws⟩ := Option.map_eq_some_iff.1 h
    -- there are as many strings as words, so none is left over
    have hlen := congrArg List.length hws
    rw [List.length_append, List.length_map] at hlen
    obtain rfl : v = [] := List.eq_nil_of_length_eq_zero (by omega)
    rw [List.append_nil] at hws
    exact ⟨hv, hws⟩
  · rintro ⟨hv, hws⟩
    rw [hv, Option.map_some, hws, List.append_nil]

/-! ## The commands of an accepted line -/

/-- Every command of a line is the command of its words. -/
def OfWords (line : CommandLine) : Prop :=
  ∀ c, .command c ∈ line → c = Command.ofWords c.args ∧ c.args ≠ []

theorem OfWords.appendWord (h : OfWords line) (data : List UInt8) :
    OfWords (appendWord line data) := by
  have hnew : ∀ c, Expr.command c = .command (.ofExe data) →
      c = Command.ofWords c.args ∧ c.args ≠ [] := by
    intro c hc
    cases hc
    exact ⟨rfl, List.cons_ne_nil _ _⟩
  rw [SemOS.Shell.appendWord]
  split
  · rename_i cmd hlast
    intro c hc
    obtain hc | hc := List.mem_append.1 hc
    · exact h c (List.mem_of_mem_dropLast hc)
    · cases List.mem_singleton.1 hc
      obtain ⟨hcmd, hne⟩ := h cmd (List.mem_of_getLast? hlast)
      have hargs : (cmd.appendArg data).args = cmd.args ++ [data] := rfl
      rw [hargs, ofWords_concat hne, ← hcmd]
      exact ⟨rfl, by simp⟩
  · intro c hc
    obtain hc | hc := List.mem_append.1 hc
    · exact h c hc
    · exact hnew c (List.mem_singleton.1 hc)

theorem OfWords.addToken {t : Token} (h : OfWords line) (ha : addToken line t = .ok line') :
    OfWords line' := by
  cases t with
  | str data =>
    cases ha
    exact h.appendWord data
  | pipe =>
    rw [SemOS.Shell.addToken] at ha
    split at ha
    · cases ha
    · cases ha
    · cases ha
      intro c hc
      obtain hc | hc := List.mem_append.1 hc
      · exact h c hc
      · cases List.mem_singleton.1 hc
  | none =>
    cases ha
    exact h
  | newLine =>
    cases ha
    exact h

theorem OfWords.foldlM (h : OfWords line) (hT : T.foldlM SemOS.Shell.addToken line = .ok line') :
    OfWords line' := by
  induction T generalizing line with
  | nil =>
    cases hT
    exact h
  | cons t T ih =>
    rw [List.foldlM_cons] at hT
    cases ha : SemOS.Shell.addToken line t with
    | error err =>
      rw [ha] at hT
      cases hT
    | ok line₁ =>
      rw [ha] at hT
      exact ih (h.addToken ha) hT

/-- A next line is answered by its tokens. -/
theorem exists_lineResult {bs r : List UInt8} {res : ParserError × Option CommandLine}
    (h : nextLine bs = some (res, r)) : ∃ T, res = lineResult T := by
  induction hn : bs.length using Nat.strongRecOn generalizing bs with
  | ind n ih =>
    subst hn
    cases hs : splitLine bs with
    | none =>
      rw [nextLine_of_none hs] at h
      cases h
    | some lr =>
      rw [nextLine_of_split hs] at h
      split at h
      · exact ih _ (length_of_splitLine hs) h rfl
      · cases h
        exact ⟨_, rfl⟩

theorem foldlM_of_lineResult (h : lineResult T = (.none, some line)) :
    T.foldlM addToken [] = .ok line := by
  rw [lineResult] at h
  split at h
  · cases h
  · rename_i line' hT
    split at h
    · cases h
    · rw [hT]
      cases h
      rfl

/-- **Every command of an accepted line was built from its words.** -/
theorem commands_of_words {p p' : Parser} (h : parserPopNext p = .ok (p', .none, some line)) :
    OfWords line := by
  have hnil : OfWords [] := fun c hc => nomatch hc
  cases hd : nextLine p.data with
  | none =>
    obtain ⟨-, hp⟩ | ⟨-, hp⟩ | ⟨err, hp⟩ := parserPopNext_cases hd
    · rw [hp] at h
      cases h
    · -- an open line that is answered is answered by its tokens, too
      rw [hp] at h
      exact hnil.foldlM (foldlM_of_lineResult (congrArg Prod.snd (Except.ok.inj h)))
    · rw [hp] at h
      cases h
  | some resr =>
    obtain ⟨res, r⟩ := resr
    obtain ⟨p₁, hp₁, -⟩ := parserPopNext_of_nextLine hd
    obtain ⟨T, hT⟩ := exists_lineResult hd
    rw [hp₁] at h
    cases h
    exact hnil.foldlM (foldlM_of_lineResult hT.symm)

/-- **The array of every command of an accepted line holds its words and a null pointer if and only
if the number of words is not 2 less than a power of two and the memory that the array was given
held a null pointer behind them. The program receives exactly the words if, moreover, none of them
has a zero byte, and only then.** -/
theorem program_receives_words_iff (heap : ℕ → Slot) {p p' : Parser}
    (h : parserPopNext p = .ok (p', .none, some line)) {c : Command} (hc : .command c ∈ line) :
    (argArray heap c.args).slots.length = c.argCapacity ∧
      ((argArray heap c.args).Holds c.args ↔
        ¬ (c.args.length + 2).isPowerOfTwo ∧ heap c.args.length = .null) ∧
      (programArguments (argArray heap c.args).slots = some c.args ↔
        (¬ (c.args.length + 2).isPowerOfTwo ∧ heap c.args.length = .null) ∧
          ∀ w ∈ c.args, 0 ∉ w) := by
  have hslot : (argArray heap c.args).slots[c.args.length]? = some .null ↔
      ¬ (c.args.length + 2).isPowerOfTwo ∧ heap c.args.length = .null := by
    rw [slots_getElem?]
    split
    · rename_i hfull
      simp [hfull]
    · rename_i hfull
      simp [hfull]
  refine ⟨?_, (holds_iff heap _).trans hslot,
    (programArguments_iff heap _).trans (and_congr_left' hslot)⟩
  rw [length_slots]
  exact congrArg Command.argCapacity (commands_of_words h c hc).1.symm

/-- The line `a`, in memory of null pointers. -/
theorem program_receives_a : ∃ p' line c,
    parserPopNext (.holding [97, 10] []) = .ok (p', .none, some line) ∧
      .command c ∈ line ∧
      programArguments (argArray (fun _ => .null) c.args).slots = some [[97]] := by
  obtain ⟨p', hp', -⟩ := parserPopNext_of_nextLine (p := .holding [97, 10] [])
    (show nextLine [97, 10] = some ((.none, some [.command (.ofExe [97])]), []) by decide +kernel)
  have hmem : Expr.command (.ofExe [97]) ∈ [Expr.command (.ofExe [97])] := List.mem_cons_self ..
  have hiff := (program_receives_words_iff (fun _ => .null) hp' hmem).2.2
  exact ⟨p', _, _, hp', hmem, hiff.2 ⟨⟨by decide +kernel, rfl⟩, by decide +kernel⟩⟩

/-- The line `a b` has no room for a null pointer, whatever memory holds. -/
theorem program_of_two_words_fails :
    ¬ ∀ (heap : ℕ → Slot) (p p' : Parser) (line : CommandLine) (c : Command),
      parserPopNext p = .ok (p', .none, some line) → .command c ∈ line →
        (argArray heap c.args).Holds c.args := by
  intro h
  obtain ⟨p', hp', -⟩ := parserPopNext_of_nextLine
    (p := .holding [97, 32, 98, 10] [])
    (show nextLine [97, 32, 98, 10] =
      some ((.none, some [.command (.ofWords [[97], [98]])]), []) by decide +kernel)
  have hholds := h (fun _ => .null) _ p' _ (.ofWords [[97], [98]]) hp' (List.mem_cons_self ..)
  exact absurd hholds.terminated (by decide +kernel)

end SemOS.Shell
