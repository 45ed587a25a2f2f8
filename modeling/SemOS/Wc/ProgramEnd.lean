import SemOS.Wc.Printing

/-!
# The program that counts comes to its end

While `main` waits, some pipe is ready, or the child can go on (`Underway.waiting_progress`), so
nobody is stuck before the end; and every step brings the end nearer (`toDo_lt`).

* **`wc_finishes`**: the program always comes to its end, and in how many steps.
-/

namespace SemOS.Wc.Program

open Function

variable {init : StartTable} {K : ℕ} {succeeds : Bool} {stream : Pipe → List UInt8} {s t : State}
  {p : PipeFds} {fds : Table OpenFile} {q : Pipe} {events : List Pipe} {n : ℕ}

/-- A child that has something to write can write a byte, or its pipe is ready. -/
theorem Underway.write_or_ready (h : Underway init s) (hK : 0 < K) (succeeds : Bool)
    (hc : s.child = .running fds) (hreading : Reading p s.fds) (hq : s.toWrite q ≠ []) :
    step K succeeds (.write q 1) s ≠ none ∨ s.Ready p q := by
  have hwired : Wired s.toWrite fds := h.sound_of_child hc
  have hstream := hwired.stream q hq
  have hopen := h.no_sigpipe hc hstream
  by_cases hpipe : s.pipe q = []
  · left
    have hlen : 1 ≤ (s.toWrite q).length := List.length_pos_iff.2 hq
    have hroom : (s.pipe q).length + 1 ≤ K := by
      rw [hpipe]
      exact hK
    simp only [step, writeStep, hc, hstream]
    rw [if_pos ⟨Nat.one_pos, hlen⟩, if_pos hopen, if_pos hroom]
    simp
  · right
    refine ⟨?_, .inl hpipe⟩
    rw [← hreading.names_iff]
    obtain hnames | hholds := hopen
    · exact hnames
    · -- the child has no read end
      rw [hc] at hholds
      obtain ⟨i, hi⟩ := Table.names_iff.1 hholds
      exact absurd hi (hwired.reads i q)

/-- A child that is not yet the program can become it. -/
theorem exec_ne_none (hc : s.child = .forked p fds) : step K succeeds .exec s ≠ none := by
  simp [step, execStep, hc]

theorem exit_ne_none (hc : s.child = .running fds) (hq : ∀ q, s.toWrite q = []) :
    step K succeeds .exit s ≠ none := by
  simp [step, exitStep, hc, hq]

theorem poll_ne_none (hm : s.main = .waiting p) (hq : s.Ready p q) :
    step K succeeds (.epoll [q]) s ≠ none := by
  simp [step, epollStep, hm, hq]

/-- While `main` waits, some pipe is ready, or the child can go on. -/
theorem Underway.waiting_progress (h : Underway init s) (hK : 0 < K)
    (hs : (machine init K succeeds stream).Reachable s) (hm : s.main = .waiting p) :
    ∃ l, (∀ q, l ≠ .close q) ∧ step K succeeds l s ≠ none := by
  obtain ⟨hreading, hactive⟩ := h.sound_of_main hm
  have hready : ∀ {q}, s.Ready p q → ∃ l, (∀ q, l ≠ .close q) ∧ step K succeeds l s ≠ none :=
    fun hq => ⟨.epoll [_], by simp, poll_ne_none hm hq⟩
  have hquiet : (∀ file, ¬ s.child.Holds file) →
      ∃ l, (∀ q, l ≠ .close q) ∧ step K succeeds l s ≠ none := by
    intro hnone
    obtain ⟨u, hu, hR⟩ := reads_simulates.reachable hs
    obtain ⟨q, hq⟩ : ∃ q, u.isOpen q = true := by
      by_contra hclosed
      simp only [not_exists, Bool.not_eq_true] at hclosed
      have := (reads_consistent hu).active
      rw [hclosed, hclosed, hR.activeFds, Bool.toNat_false] at this
      omega
    have hnames := ((hR.isOpen q).1 hq).resolve_left (by simp [hm])
    refine hready (q := q) ⟨hreading.names_iff.1 hnames, .inr ?_⟩
    rintro (hw | hw)
    · exact hreading.not_names q hw
    · exact hnone _ hw
  cases hc : s.child with
  | unborn => exact hquiet fun file => by simp [hc, Child.Holds]
  | exited => exact hquiet fun file => by simp [hc, Child.Holds]
  | forked p' fds => exact ⟨.exec, by simp, exec_ne_none hc⟩
  | running fds =>
    by_cases hdone : ∀ q, s.toWrite q = []
    · exact ⟨.exit, by simp, exit_ne_none hc hdone⟩
    · obtain ⟨q, hq⟩ := not_forall.1 hdone
      obtain hwrite | hq := h.write_or_ready hK succeeds hc hreading hq
      · exact ⟨_, by simp, hwrite⟩
      · exact hready hq

/-- Only at the end nobody moves, even if the child closes nothing before it exits. -/
theorem finished_of_stuck (hK : 0 < K) (hs : (machine init K succeeds stream).Reachable s)
    (hstuck : ∀ l, (∀ q, l ≠ .close q) → step K succeeds l s = none) :
    s.main = .finished ∧ (s.child = .unborn ∨ s.child = .exited) := by
  have hmainStep := hstuck .main (by simp)
  obtain rfl | h := reachable_underway hs
  · simp [step, mainStep, initial] at hmainStep
  -- once the loop has ended the child has nothing left to write
  have hchild : s.activeFds ≤ 0 → s.child = .unborn ∨ s.child = .exited := by
    intro hend
    cases hc : s.child with
    | unborn => exact .inl rfl
    | exited => exact .inr rfl
    | forked p fds => exact absurd (hstuck .exec (by simp)) (exec_ne_none hc)
    | running fds =>
      refine absurd (hstuck .exit (by simp)) (exit_ne_none hc fun q => ?_)
      by_contra hne
      have hholds : ¬ s.fds.Names (.readEnd q) := by
        intro hnames
        obtain ⟨u, hu, hR⟩ := reads_simulates.reachable hs
        have := active_pos (reads_consistent hu) ((hR.isOpen q).2 (.inr hnames))
        rw [hR.activeFds] at this
        omega
      exact h.closed q hholds (h.child.holds hne)
  cases hm : s.main with
  | start => simp [step, mainStep, hm] at hmainStep
  | forked p => simp [step, mainStep, hm] at hmainStep
  | waiting p =>
    obtain ⟨l, hl, hne⟩ := h.waiting_progress hK hs hm
    exact absurd (hstuck l hl) hne
  | handling p events =>
    obtain ⟨-, hne, -, hready⟩ := h.sound_of_main hm
    obtain ⟨q, rest, rfl⟩ := List.exists_cons_of_ne_nil hne
    have hq := (hready q List.mem_cons_self).2
    by_cases hpipe : s.pipe q = []
    · have hzero := hstuck (.read 0) (by simp)
      have hw := hq.resolve_left (not_not_intro hpipe)
      simp [step, readStep, hm, hpipe, hw] at hzero
    · have hone := hstuck (.read 1) (by simp)
      have hlen : 1 ≤ (s.pipe q).length := List.length_pos_iff.2 hpipe
      simp [step, readStep, hm, hlen, bufferSize] at hone
  | reaping =>
    obtain hc | hc := hchild (h.sound_of_main hm)
    · simp [step, mainStep, hm, hc] at hmainStep
    · simp [step, mainStep, hm, hc] at hmainStep
  | finished => exact ⟨rfl, hchild (h.sound_of_main hm)⟩

/-! ## How long it takes -/

def Main.effort : Main → ℕ
  | .start => 7
  | .forked _ => 2
  | .waiting _ | .reaping => 1
  | .handling _ _ | .finished => 0

/-- Whether a stream of the child is open, as a number. -/
def streamOpen (fds : Table OpenFile) (q : Pipe) : ℕ :=
  if fds.lookup (number q) = none then 0 else 1

def Child.effort : Child → ℕ
  | .unborn | .exited => 0
  | .forked _ _ => 4
  | .running fds => 1 + streamOpen fds .stdout + streamOpen fds .stderr

/-- How far the program is from its end. -/
def State.toDo (s : State) : ℕ :=
  3 * ((s.toWrite .stdout).length + (s.toWrite .stderr).length) +
    2 * ((s.pipe .stdout).length + (s.pipe .stderr).length) + 2 * s.activeFds.toNat +
    s.main.effort + s.child.effort

theorem streamOpen_le (fds : Table OpenFile) (q : Pipe) : streamOpen fds q ≤ 1 := by
  unfold streamOpen
  split_ifs
  · exact Nat.zero_le _
  · exact le_rfl

/-- One of the two streams gets another length. -/
theorem length_update (f : Pipe → List UInt8) (q : Pipe) (x : List UInt8) :
    (update f q x .stdout).length + (update f q x .stderr).length + (f q).length =
      (f .stdout).length + (f .stderr).length + x.length := by
  cases q with
  | stdout => simp only [update_self, update_of_ne (show Pipe.stderr ≠ .stdout by decide)]; omega
  | stderr => simp only [update_self, update_of_ne (show Pipe.stdout ≠ .stderr by decide)]; omega

theorem loopHead_toDo : (loopHead p s).toDo + s.main.effort = s.toDo + 1 := by
  rw [loopHead]
  split_ifs <;> simp only [State.toDo, Main.effort] <;> omega

theorem nextEvent_toDo (p : PipeFds) (events : List Pipe) (s : State) :
    (nextEvent p events s).toDo + s.main.effort ≤ s.toDo + 1 := by
  rw [nextEvent]
  split_ifs
  · exact loopHead_toDo.le
  · simp only [State.toDo, Main.effort]
    omega

theorem streamOpen_close (hopen : fds.lookup (number q) ≠ none) :
    streamOpen (fds.close (number q)) .stdout + streamOpen (fds.close (number q)) .stderr <
      streamOpen fds .stdout + streamOpen fds .stderr := by
  have hself : streamOpen (fds.close (number q)) q = 0 := by
    rw [streamOpen, Table.lookup_close, if_pos rfl, if_pos rfl]
  have hbefore : streamOpen fds q = 1 := if_neg hopen
  have hother : ∀ r, streamOpen (fds.close (number q)) r ≤ streamOpen fds r := by
    intro r
    unfold streamOpen
    rw [Table.lookup_close]
    split_ifs <;> simp_all
  have hout := hother .stdout
  have herr := hother .stderr
  cases q <;> omega

/-- Every step brings the end nearer. -/
theorem toDo_lt (hs : (machine init K succeeds stream).Reachable s)
    (hm : Moves K succeeds s t) : t.toDo < s.toDo := by
  cases hm with
  | fork hm =>
    simp only [State.toDo, hm, Main.effort]
    cases succeeds <;> simp only [Child.effort, if_true, Bool.false_eq_true, if_false] <;> omega
  | @plumb p hm =>
    have := loopHead_toDo (p := p) (s := { s with fds := parentTable p s.fds })
    simp only [State.toDo, hm, Main.effort] at this ⊢
    omega
  | poll hm hne hnodup hready =>
    simp only [State.toDo, hm, Main.effort]
    omega
  | @ended p q events hm hpipe hw =>
    have hnext := nextEvent_toDo p events
      { s with
        fds := s.fds.close (p q).1
        activeFds := s.activeFds - 1
        output := s.output ++ countPrints (some []) (s.info q) }
    have hactive : 0 < s.activeFds := by
      obtain rfl | h := reachable_underway hs
      · cases hm
      obtain ⟨u, hu, hR⟩ := reads_simulates.reachable hs
      rw [← hR.activeFds]
      exact active_pos (reads_consistent hu) (hR.isOpen_handled h hm)
    simp only [State.toDo, hm, Main.effort] at hnext ⊢
    omega
  | @count p q events n hm hn hsize hle =>
    have hnext := nextEvent_toDo p events { s with
      pipe := update s.pipe q ((s.pipe q).drop n)
      info := update s.info q ((s.info q).plus (totals ((s.pipe q).take n)))
      output := s.output ++ countPrints (some ((s.pipe q).take n)) (s.info q) }
    have hpipe := length_update s.pipe q ((s.pipe q).drop n)
    rw [List.length_drop] at hpipe
    simp only [State.toDo, hm, Main.effort] at hnext ⊢
    omega
  | reap hm hc =>
    simp only [State.toDo, hm, Main.effort]
    omega
  | @exec p fds hc =>
    have hout := streamOpen_le (childTable p fds) .stdout
    have herr := streamOpen_le (childTable p fds) .stderr
    simp only [State.toDo, hc, Child.effort]
    omega
  | @write fds q r n hc hn hle hr hroom =>
    have hwrite := length_update s.toWrite q ((s.toWrite q).drop n)
    have hpipe := length_update s.pipe r (s.pipe r ++ (s.toWrite q).take n)
    rw [List.length_drop] at hwrite
    rw [List.length_append, List.length_take_of_le hle] at hpipe
    simp only [State.toDo]
    omega
  | broken hc hr hopen =>
    simp only [State.toDo, hc, Child.effort]
    omega
  | @elsewhere fds q n hc hn hle hr =>
    have hwrite := length_update s.toWrite q ((s.toWrite q).drop n)
    rw [List.length_drop] at hwrite
    simp only [State.toDo]
    omega
  | @close fds q hc hq hopen =>
    have := streamOpen_close hopen
    simp only [State.toDo, hc, Child.effort]
    omega
  | exit hc hq =>
    simp only [State.toDo, hc, Child.effort]
    omega

/-- **The program ends.** Over pipes of any size, whatever the child writes to the two streams and
in whatever order, and whether `fork` succeeds: a reachable state in which nobody can move is the
end of `main`, after the child, also where the child closes nothing before it exits. No run takes
more than `3 l + 11` steps for `l` bytes in the two streams. -/
theorem wc_finishes (hK : 0 < K) (init : StartTable) (succeeds : Bool)
    (stream : Pipe → List UInt8) :
    (∀ s, (machine init K succeeds stream).Reachable s →
      (∀ l, (∀ q, l ≠ .close q) → step K succeeds l s = none) →
        s.main = .finished ∧ (s.child = .unborn ∨ s.child = .exited)) ∧
    ∀ ls s, (machine init K succeeds stream).run ls (initial init (written succeeds stream)) =
      some s → ls.length ≤ 3 * ((stream .stdout).length + (stream .stderr).length) + 11 := by
  refine ⟨fun s hs hstuck => finished_of_stuck hK hs hstuck, fun ls s hrun => ?_⟩
  have hle := Machine.length_le_of_run (M := machine init K succeeds stream)
    (I := (machine init K succeeds stream).Reachable) State.toDo
    (fun l s t hs hl => ⟨hs.act hl, toDo_lt hs (step_moves hl)⟩) hrun (.of_init rfl)
  refine hle.trans ?_
  cases succeeds <;> simp [State.toDo, initial, written, Main.effort, Child.effort]

/-- The three standard descriptors, and nothing else. -/
def standardTable : StartTable where
  fds := ((Table.put ∅ 0 (.inherited 0)).put 1 (.inherited 1)).put 2 (.inherited 2)
  inherited := by
    intro fd file h
    simp only [Table.lookup_put, Finmap.lookup_empty] at h
    split_ifs at h
    · exact ⟨2, (Option.some.inj h).symm⟩
    · exact ⟨1, (Option.some.inj h).symm⟩
    · exact ⟨0, (Option.some.inj h).symm⟩
  standard := by
    intro fd hfd
    obtain rfl | rfl | rfl : fd = 0 ∨ fd = 1 ∨ fd = 2 := by omega
    · simp [Table.lookup_put]
    · simp [Table.lookup_put]
    · simp

/-- The program comes to rest. -/
theorem exists_stuck_program (init : StartTable) (K : ℕ) (stream : Pipe → List UInt8) :
    ∃ s, (machine init K true stream).Reachable s ∧ ∀ l, step K true l s = none := by
  obtain ⟨s, hs, -, hstuck⟩ := Machine.exists_stuck (M := machine init K true stream)
    (I := (machine init K true stream).Reachable) State.toDo
    (fun l s t hs hl => ⟨hs.act hl, toDo_lt hs (step_moves hl)⟩) (.of_init rfl)
  exact ⟨s, (Machine.Reachable.of_init rfl).leads hs, hstuck⟩

/-- The test program comes to its end over pipes of one byte, -/
theorem exists_finished_test : ∃ s, (machine standardTable 1 true testOutput).Reachable s ∧
    s.main = .finished := by
  obtain ⟨s, hs, hstuck⟩ := exists_stuck_program standardTable 1 testOutput
  exact ⟨s, hs, (finished_of_stuck Nat.one_pos hs fun l _ => hstuck l).1⟩

/-- with the 15 bytes of its standard output counted, and the lines of `count` before. -/
theorem wc_prints_test : ∃ s calls, (machine standardTable 1 true testOutput).Reachable s ∧
    s.output = traced calls ++ dumped (counted calls) ∧ (counted calls .stdout).bytes = 15 ∧
      (counted calls .stdout).lines = 2 := by
  obtain ⟨s, hs, hm⟩ := exists_finished_test
  obtain ⟨calls, houtput, -, hcalls⟩ := wc_prints hs hm
  obtain ⟨-, hbytes, hlines, -⟩ := hcalls .stdout
  exact ⟨s, calls, hs, houtput, hbytes, hlines⟩

/-- The child has come to its end before. -/
theorem wc_finishes_test : ∃ s, (machine standardTable 1 true testOutput).Reachable s ∧
    s.main = .finished ∧ (s.child = .unborn ∨ s.child = .exited) := by
  obtain ⟨s, hs, hstuck⟩ := exists_stuck_program standardTable 1 testOutput
  exact ⟨s, hs, (wc_finishes Nat.one_pos standardTable true testOutput).1 s hs fun l _ => hstuck l⟩

end SemOS.Wc.Program
