import SemOS.Shell.Consumed

/-!
# Progress of the shell's inner loop

A call of `parser_pop_next` that returns a line or an error has consumed bytes, so the inner loop of
`main` ends: unless the number of bytes to consume is `2 ^ 32`, which is none for `parser_consume`.
Then the same line is answered for ever.

* `progresses_iff`: when a call makes progress or has no effect, and the loop ends.
* `run_progresses_iff`: the same over a run.
-/

namespace SemOS.Shell

variable {p : Parser} {calls : ℕ} {out : Drained} {l : List UInt8}

/-! ## The inner loop -/

/-- A loop that ends does so within any larger number of calls. -/
theorem drainWithin_succ (h : drainWithin calls p = some out) :
    drainWithin (calls + 1) p = some out := by
  induction calls generalizing p out with
  | zero => cases h
  | succ calls ih =>
    rw [drainWithin] at h
    cases hp : parserPopNext p with
    | error err =>
      rw [hp] at h
      rw [drainWithin_of_fault hp]
      exact h
    | ok popped =>
      obtain ⟨p', res⟩ := popped
      rw [hp] at h
      by_cases hres : res = (.none, none)
      · rw [drainWithin, hp]
        simpa only [if_pos hres] using h
      · simp only [if_neg hres] at h
        obtain ⟨out', hout', rfl⟩ := Option.map_eq_some_iff.1 h
        rw [drainWithin_of_some hp hres, ih hout']
        rfl

/-- Where the count wraps around, the same line is answered again and again. -/
theorem drainWithin_spins (hover : p.Overruns) (hwraps : p.Wraps) (calls : ℕ) :
    drainWithin calls p = none := by
  induction calls with
  | zero => rfl
  | succ calls ih =>
    rw [drainWithin_of_some (parserPopNext_wraps hover hwraps) (lineResult_ne _), ih]
    rfl

/-- After a line has been consumed the bytes left are too few for the count to wrap around. -/
theorem not_wraps_of_size (h : p.size + 2 < 2 ^ 32) : ¬ p.Wraps := by
  rintro (⟨-, hsize⟩ | ⟨-, -, hsize⟩) <;> omega

/-- Elsewhere the loop ends within one call more than there are bytes. -/
theorem drainWithin_ends (h : p.size < calls) (hspins : ¬ (p.Overruns ∧ p.Wraps)) :
    drainWithin calls p ≠ none := by
  induction calls generalizing p with
  | zero => omega
  | succ calls ih =>
    cases hd : nextLine p.data with
    | none =>
      obtain ⟨-, hp⟩ | ⟨hspins', -⟩ | ⟨err, hp⟩ := parserPopNext_cases hd
      · rw [drainWithin_of_none hp]
        simp
      · exact absurd hspins' hspins
      · rw [drainWithin_of_fault hp]
        simp
    | some resr =>
      obtain ⟨res, r⟩ := resr
      obtain ⟨p', hp', rfl, -⟩ := parserPopNext_of_nextLine hd
      have hlen := length_of_nextLine hd
      have hsize := p.size_lt
      rw [Parser.length_data, Parser.length_data] at hlen
      have hrest := ih (p := p') (by omega) fun hs => not_wraps_of_size (by omega) hs.2
      rw [drainWithin_of_some hp' (nextLine_ne hd)]
      simpa using hrest

/-- **More calls than `drain` allows make no difference**: without a result the loop never ends. -/
theorem drainWithin_eq_drain (h : p.size < calls) : drainWithin calls p = drain p := by
  by_cases hspins : p.Overruns ∧ p.Wraps
  · rw [drain, drainWithin_spins hspins.1 hspins.2, drainWithin_spins hspins.1 hspins.2]
  · obtain ⟨out, hout⟩ := Option.ne_none_iff_exists'.1
      (drainWithin_ends (Nat.lt_succ_self p.size) hspins)
    obtain ⟨k, rfl⟩ := Nat.exists_eq_add_of_le (Nat.succ_le_of_lt h)
    rw [drain, hout]
    clear h
    induction k with
    | zero => exact hout
    | succ k ih => exact drainWithin_succ ih

/-! ## Progress -/

/-- A call that returns has no line and no error and leaves everything as it is, or it has a line or
an error and leaves fewer bytes; and the inner loop of `main` ends within one call more than there
are bytes. -/
def Parser.Progresses (p : Parser) : Prop :=
  (∀ p' err out, parserPopNext p = .ok (p', err, out) →
    err = .none ∧ out = none ∧ p' = p ∨ (err ≠ .none ∨ out ≠ none) ∧ p'.size < p.size) ∧
    drain p ≠ none

theorem ne_of_pair_ne {err : ParserError} {line : Option CommandLine}
    (h : (err, line) ≠ (.none, none)) : err ≠ .none ∨ line ≠ none := by
  by_contra hboth
  obtain ⟨herr, hline⟩ := not_or.1 hboth
  exact h (by rw [not_not.1 herr, not_not.1 hline])

/-- **A call makes progress or has no effect, and the inner loop ends, exactly unless an open line
with a token is ended where the count of the bytes wraps around.** -/
theorem progresses_iff (p : Parser) : p.Progresses ↔ ¬ (p.Overruns ∧ p.Wraps) := by
  constructor
  · rintro ⟨-, hends⟩ ⟨hover, hwraps⟩
    exact hends (drainWithin_spins hover hwraps _)
  · intro hspins
    refine ⟨fun p' err out h => ?_, drainWithin_ends (Nat.lt_succ_self p.size) hspins⟩
    cases hd : nextLine p.data with
    | none =>
      obtain ⟨rfl, ⟨-, hout⟩ | ⟨hspins', -⟩⟩ := parserPopNext_of_none hd h
      · cases hout
        exact Or.inl ⟨rfl, rfl, rfl⟩
      · exact absurd hspins' hspins
    | some resr =>
      obtain ⟨res, r⟩ := resr
      obtain ⟨p₁, hp₁, rfl, -⟩ := parserPopNext_of_nextLine hd
      have hlen := length_of_nextLine hd
      rw [hp₁] at h
      cases h
      rw [Parser.length_data, Parser.length_data] at hlen
      exact Or.inr ⟨ne_of_pair_ne (nextLine_ne hd), by omega⟩

/-- **In every run, every state makes progress or has no effect, and the inner loop ends there,
exactly when none holds an open line with a token that is ended where the count wraps around.** -/
theorem run_progresses_iff (calls : List Call) :
    (∀ before after p, calls = before ++ after →
      parserMachine.run before parserNew = some p → p.Progresses) ↔
    ∀ before after p, calls = before ++ after →
      parserMachine.run before parserNew = some p → ¬ (p.Overruns ∧ p.Wraps) := by
  constructor
  · intro h before after p hcalls hrun
    exact (progresses_iff p).1 (h before after p hcalls hrun)
  · intro h before after p hcalls hrun
    exact (progresses_iff p).2 (h before after p hcalls hrun)

theorem splitLine_carriageReturn (hl : NoLineEnd l) : splitLine (l ++ [carriageReturn]) = none := by
  induction l with
  | nil => rfl
  | cons c l ih =>
    have hc := hl c (List.mem_cons_self ..)
    rw [List.cons_append, splitLine, if_neg hc.1, if_neg hc.2,
      ih fun d hd => hl d (List.mem_cons_of_mem _ hd)]
    rfl

/-- The letter `a` again and again and a carriage return, `2 ^ 32 - 1` bytes in one feed: their line
is answered for ever. -/
theorem full_buffer_spins :
    ¬ ∀ calls p, parserMachine.run calls parserNew = some p → p.Progresses := by
  intro h
  obtain ⟨n, hn⟩ : ∃ n, n + 2 = 2 ^ 32 := ⟨2 ^ 32 - 2, rfl⟩
  have hlen : (List.replicate n (97 : UInt8) ++ [carriageReturn]).length = n + 1 := by simp
  have hline : NoLineEnd (List.replicate n 97) := by
    intro c hc
    rw [List.eq_of_mem_replicate hc]
    decide
  have hsplit := splitLine_carriageReturn hline
  generalize hstr : List.replicate n (97 : UInt8) ++ [carriageReturn] = str at hlen hsplit
  have hroom : parserNew.size + str.length ≤ (roomFor (fun _ => 0) parserNew str.length).length :=
    (le_roomFor_iff _ (by rw [hlen, show parserNew.size = 0 from rfl]; omega)).2
      fun _ => Or.inl (by decide)
  obtain ⟨p, hfeed, hsize, hdata, -⟩ := parserFeed_of_le hroom
  have hrun : parserMachine.run [.feed (fun _ => 0) str] parserNew = some p := by
    simp only [Machine.run, parserMachine, hfeed, Except.toOption, Option.bind]
  rw [show parserNew.data = [] from rfl, List.nil_append] at hdata
  have hopen : openLine p.data = str := by rw [hdata, openLine_of_none hsplit]
  refine (progresses_iff p).1 (h _ p hrun) ⟨⟨?_, ⟨97, ?_, by decide⟩, Or.inl ?_⟩, Or.inl ⟨?_, ?_⟩⟩
  · rw [hdata, nextLine_of_none hsplit]
  · rw [hopen, ← hstr, List.dropLast_concat, List.mem_replicate]
    exact ⟨by omega, rfl⟩
  · rw [hopen, ← hstr, List.getLast?_concat]
  · rw [hopen, ← hstr, List.getLast?_concat]
  · rw [hsize, hlen, show parserNew.size = 0 from rfl]
    omega

end SemOS.Shell
