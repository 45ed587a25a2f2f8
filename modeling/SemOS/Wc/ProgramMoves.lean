import SemOS.Wc.Program

/-!
# What can happen in a step

The steps of the two processes, each with what it needs and what it changes (`Moves`). Every step is
one of them (`step_moves`).
-/

namespace SemOS.Wc.Program

open Function

variable {K : ℕ} {succeeds : Bool} {s t : State} {p : PipeFds} {q : Pipe} {events : List Pipe}
  {n : ℕ} {l : Label}

theorem handleEvent_zero (h : s.pipe q = []) : handleEvent p q 0 s =
    { s with
      fds := s.fds.close (p q).1
      activeFds := s.activeFds - 1
      output := s.output ++ countPrints (some []) (s.info q) } := by
  simp [handleEvent, h, count, update_eq_self_iff]

theorem take_ne_nil {b : List UInt8} (hn : 0 < n) (hle : n ≤ b.length) : b.take n ≠ [] := by
  rw [Ne, List.take_eq_nil_iff, not_or]
  exact ⟨hn.ne', List.ne_nil_of_length_pos (hn.trans_le hle)⟩

theorem handleEvent_pos (hn : 0 < n) (hle : n ≤ (s.pipe q).length) : handleEvent p q n s =
    { s with
      pipe := update s.pipe q ((s.pipe q).drop n)
      info := update s.info q ((s.info q).plus (totals ((s.pipe q).take n)))
      output := s.output ++ countPrints (some ((s.pipe q).take n)) (s.info q) } := by
  have hne := take_ne_nil hn hle
  have hpos := mt (count_nonpos_iff _ (s.info q)).1 hne
  rw [handleEvent, if_neg hpos, if_neg hpos, count_eq]

/-- What can happen in a step. -/
inductive Moves (K : ℕ) (succeeds : Bool) (s : State) : State → Prop
  | fork (hm : s.main = .start) : Moves K succeeds s
      { s with
        main := .forked (makePipes s.fds).1
        fds := (makePipes s.fds).2
        child := if succeeds then .forked (makePipes s.fds).1 (makePipes s.fds).2 else .unborn }
  | plumb {p : PipeFds} (hm : s.main = .forked p) :
    Moves K succeeds s (loopHead p { s with fds := parentTable p s.fds })
  | poll {p : PipeFds} {events : List Pipe} (hm : s.main = .waiting p) (hne : events ≠ [])
      (hnodup : events.Nodup) (hready : ∀ q ∈ events, s.Ready p q) :
    Moves K succeeds s { s with main := .handling p events }
  | ended {p : PipeFds} {q : Pipe} {events : List Pipe} (hm : s.main = .handling p (q :: events))
      (hpipe : s.pipe q = []) (hw : ¬ s.IsOpen (.writeEnd q)) :
    Moves K succeeds s (nextEvent p events
      { s with
        fds := s.fds.close (p q).1
        activeFds := s.activeFds - 1
        output := s.output ++ countPrints (some []) (s.info q) })
  | count {p : PipeFds} {q : Pipe} {events : List Pipe} {n : ℕ}
      (hm : s.main = .handling p (q :: events)) (hn : 0 < n) (hsize : n ≤ bufferSize)
      (hle : n ≤ (s.pipe q).length) :
    Moves K succeeds s (nextEvent p events
      { s with
        pipe := update s.pipe q ((s.pipe q).drop n)
        info := update s.info q ((s.info q).plus (totals ((s.pipe q).take n)))
        output := s.output ++ countPrints (some ((s.pipe q).take n)) (s.info q) })
  | reap (hm : s.main = .reaping) (hc : s.child = .unborn ∨ s.child = .exited) :
    Moves K succeeds s { s with main := .finished }
  | exec {p : PipeFds} {fds : Table OpenFile} (hc : s.child = .forked p fds) :
    Moves K succeeds s { s with child := .running (childTable p fds) }
  | write {fds : Table OpenFile} {q r : Pipe} {n : ℕ} (hc : s.child = .running fds) (hn : 0 < n)
      (hle : n ≤ (s.toWrite q).length) (hr : fds.lookup (number q) = some (.writeEnd r))
      (hroom : (s.pipe r).length + n ≤ K) :
    Moves K succeeds s { s with
      toWrite := update s.toWrite q ((s.toWrite q).drop n)
      pipe := update s.pipe r (s.pipe r ++ (s.toWrite q).take n) }
  | broken {fds : Table OpenFile} {q r : Pipe} (hc : s.child = .running fds)
      (hr : fds.lookup (number q) = some (.writeEnd r)) (hopen : ¬ s.IsOpen (.readEnd r)) :
    Moves K succeeds s { s with child := .exited }
  | elsewhere {fds : Table OpenFile} {q : Pipe} {n : ℕ} (hc : s.child = .running fds) (hn : 0 < n)
      (hle : n ≤ (s.toWrite q).length) (hr : ∀ r, fds.lookup (number q) ≠ some (.writeEnd r)) :
    Moves K succeeds s { s with toWrite := update s.toWrite q ((s.toWrite q).drop n) }
  | close {fds : Table OpenFile} {q : Pipe} (hc : s.child = .running fds) (hq : s.toWrite q = [])
      (hopen : fds.lookup (number q) ≠ none) :
    Moves K succeeds s { s with child := .running (fds.close (number q)) }
  | exit {fds : Table OpenFile} (hc : s.child = .running fds) (hq : ∀ q, s.toWrite q = []) :
    Moves K succeeds s { s with child := .exited }

theorem mainStep_moves (h : mainStep succeeds s = some t) : Moves K succeeds s t := by
  rw [mainStep] at h
  split at h
  · rename_i hm
    cases h
    exact .fork hm
  · rename_i p hm
    cases h
    exact .plumb hm
  · cases h
  · cases h
  · rename_i hm
    split at h
    · rename_i hc
      cases h
      exact .reap hm (.inl hc)
    · rename_i hc
      cases h
      exact .reap hm (.inr hc)
    · cases h
    · cases h
  · cases h

theorem epollStep_moves (h : epollStep events s = some t) : Moves K succeeds s t := by
  rw [epollStep] at h
  split at h
  · rename_i p hm
    split_ifs at h with hevents
    cases h
    exact .poll hm hevents.1 hevents.2.1 hevents.2.2
  · cases h

theorem readStep_moves (h : readStep n s = some t) : Moves K succeeds s t := by
  rw [readStep] at h
  split at h
  · rename_i p q events hm
    split_ifs at h with hn
    cases h
    obtain ⟨hsize, hle, hzero⟩ := hn
    rcases Nat.eq_zero_or_pos n with rfl | hpos
    · obtain ⟨hpipe, hw⟩ := hzero rfl
      rw [handleEvent_zero hpipe]
      exact .ended hm hpipe hw
    · rw [handleEvent_pos hpos hle]
      exact .count hm hpos hsize hle
  · cases h

theorem writeStep_moves (h : writeStep K q n s = some t) : Moves K succeeds s t := by
  rw [writeStep] at h
  split at h
  · rename_i fds hc
    split_ifs at h with hn
    split at h
    · rename_i r hr
      split_ifs at h with hopen hroom
      · cases h
        exact .write hc hn.1 hn.2 hr hroom
      · cases h
        exact .broken hc hr hopen
    · rename_i hr
      cases h
      exact .elsewhere hc hn.1 hn.2 hr
  · cases h

theorem step_moves (h : step K succeeds l s = some t) : Moves K succeeds s t := by
  cases l with
  | main => exact mainStep_moves h
  | epoll events => exact epollStep_moves h
  | read n => exact readStep_moves h
  | exec =>
    rw [step, execStep] at h
    split at h
    · rename_i p fds hc
      cases h
      exact .exec hc
    · cases h
  | write q n => exact writeStep_moves h
  | close q =>
    rw [step, closeStep] at h
    split at h
    · rename_i fds hc
      split_ifs at h with hq
      cases h
      exact .close hc hq.1 hq.2
    · cases h
  | exit =>
    rw [step, exitStep] at h
    split at h
    · rename_i fds hc
      split_ifs at h with hq
      cases h
      refine .exit hc fun q => ?_
      cases q with
      | stdout => exact hq.1
      | stderr => exact hq.2
    · cases h

end SemOS.Wc.Program
