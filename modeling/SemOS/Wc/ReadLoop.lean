import SemOS.Foundations.Simulation
import SemOS.Wc.Underway

/-!
# The loop that the program runs

The loop over the events sees of the two pipes what has been written and not yet read; for
`Wc.machine` the bytes that are not yet written are unread as well. `Views` is the relation of the
two, and `reads_simulates` says that the program does what the loop does.

* `counted_of_ended`: so when the loop has ended everything has been counted.
-/

namespace SemOS.Wc.Program

open Function

variable {init : StartTable} {K : ℕ} {succeeds : Bool} {stream : Pipe → List UInt8}
  {s t : State} {u : Wc.State} {p : PipeFds} {q : Pipe} {events : List Pipe} {n : ℕ}

/-- The loop over the events, with reads that do not fail. -/
def reads (stream : Pipe → List UInt8) : Machine (Pipe × ℕ) Wc.State where
  init u := u = Wc.initial stream
  act x := Wc.step ⟨x.1, some x.2⟩

/-- What has been written and not yet read is unread, and so is what is not yet written. -/
structure Views (s : State) (u : Wc.State) : Prop where
  unread : ∀ q, u.unread q = s.pipe q ++ s.toWrite q
  isOpen : ∀ q, u.isOpen q = true ↔ s.main = .start ∨ s.fds.Names (.readEnd q)
  info : u.info = s.info
  activeFds : u.activeFds = s.activeFds

theorem reads_consistent (hu : (reads stream).Reachable u) : Consistent u :=
  hu.invariant (fun u h => h ▸ initial_consistent stream) fun _ _ _ hu hl =>
    step_consistent hu (by simp) hl

/-- The bytes and lines of a stream are counted once, its words at least once. -/
theorem reads_expected (hu : (reads stream).Reachable u) (q : Pipe) :
    (u.expected q).bytes = (stream q).length ∧ (u.expected q).lines = (stream q).count 10 ∧
      runs nonspace (stream q) ≤ (u.expected q).words := by
  refine hu.invariant (I := fun u => (u.expected q).bytes = (stream q).length ∧
    (u.expected q).lines = (stream q).count 10 ∧ runs nonspace (stream q) ≤ (u.expected q).words)
    (fun u h => ?_) fun _ _ _ hu hl => ?_
  · rw [show u = Wc.initial stream from h, initial_expected]
    exact ⟨rfl, rfl, le_rfl⟩
  · rw [step_expected hl q]
    exact ⟨hu.1, hu.2.1, hu.2.2.trans (Nat.le_add_right _ _)⟩

/-- Where `main` goes on to makes no difference, once it has started. -/
theorem Views.goto (h : Views s u) (hs : s.main ≠ .start) (ht : t.main ≠ .start)
    (hfds : t.fds = s.fds) (hpipe : t.pipe = s.pipe) (hwrite : t.toWrite = s.toWrite)
    (hinfo : t.info = s.info) (hactive : t.activeFds = s.activeFds) : Views t u := by
  refine ⟨fun q => ?_, fun q => ?_, h.info.trans hinfo.symm, h.activeFds.trans hactive.symm⟩
  · rw [hpipe, hwrite, h.unread]
  · rw [h.isOpen, hfds, or_iff_right hs, or_iff_right ht]

theorem Views.loopHead (h : Views s u) (hs : s.main ≠ .start) : Views (loopHead p s) u := by
  rw [Program.loopHead]
  split_ifs
  · exact h.goto hs (by simp) rfl rfl rfl rfl rfl
  · exact h.goto hs (by simp) rfl rfl rfl rfl rfl

theorem Views.nextEvent (h : Views s u) (hs : s.main ≠ .start) :
    Views (nextEvent p events s) u := by
  rw [Program.nextEvent]
  split_ifs
  · exact h.loopHead hs
  · exact h.goto hs (by simp) rfl rfl rfl rfl rfl

/-- An open pipe is one of the active ones. -/
theorem active_pos (hu : Consistent u) (hopen : u.isOpen q = true) : 0 < u.activeFds := by
  rw [hu.active]
  cases q with
  | stdout =>
    rw [hopen, Bool.toNat_true]
    omega
  | stderr =>
    rw [hopen, Bool.toNat_true]
    omega

/-- The pipe that `main` handles is open in the loop. -/
theorem Views.isOpen_handled (h : Views s u) (hunderway : Underway init s)
    (hm : s.main = .handling p (q :: events)) : u.isOpen q = true := by
  obtain ⟨hreading, -, -, hready⟩ := hunderway.sound_of_main hm
  exact (h.isOpen q).2 (.inr (hreading.names_iff.2 (hready q List.mem_cons_self).1))

/-- `main` finds the end of a pipe. -/
theorem Views.ended (h : Views s u) (hunderway : Underway init s)
    (hu : (reads stream).Reachable u) (hm : s.main = .handling p (q :: events))
    (hpipe : s.pipe q = []) (hw : ¬ s.IsOpen (.writeEnd q)) :
    ∃ v, (reads stream).Leads u v ∧
      Views { s with
        fds := s.fds.close (p q).1
        activeFds := s.activeFds - 1
        output := s.output ++ countPrints (some []) (s.info q) } v := by
  have hreading := (hunderway.sound_of_main hm).1
  have hstart := hunderway.main_ne_start
  have hopen := h.isOpen_handled hunderway hm
  have hwritten : s.toWrite q = [] := by
    by_contra hne
    exact hw (.inr (hunderway.child.holds hne))
  have hunread : u.unread q = [] := by
    rw [h.unread, hpipe, hwritten, List.append_nil]
  have hstep : (reads stream).act (q, 0) u = some (handle q (some []) [] u) := by
    change Wc.step ⟨q, some 0⟩ u = _
    simp only [Wc.step, hunread]
    rw [if_pos ⟨active_pos (reads_consistent hu) hopen, hopen⟩, if_pos (by simp)]
    rfl
  obtain ⟨hisOpen, hactive⟩ := handle_nil q [] u
  refine ⟨_, .single ⟨_, hstep⟩, fun r => ?_, fun r => ?_, ?_, ?_⟩
  · rw [handle_unread, ← hunread, update_eq_self, h.unread]
  · rw [hisOpen, or_iff_right hstart, hreading.names_close]
    by_cases hr : r = q
    · rw [hr, update_self]
      simp
    · rw [update_of_ne hr, h.isOpen, or_iff_right hstart]
      simp [hr]
  · have hcount : (count (some []) (u.info q)).2 = u.info q := rfl
    rw [handle_info, hcount, update_eq_self, h.info]
  · rw [hactive, h.activeFds]

/-- `main` counts some of the bytes of a pipe. -/
theorem Views.count (h : Views s u) (hunderway : Underway init s)
    (hu : (reads stream).Reachable u) (hm : s.main = .handling p (q :: events))
    (hn : 0 < n) (hsize : n ≤ bufferSize) (hle : n ≤ (s.pipe q).length) :
    ∃ v, (reads stream).Leads u v ∧ Views { s with
      pipe := update s.pipe q ((s.pipe q).drop n)
      info := update s.info q ((s.info q).plus (totals ((s.pipe q).take n)))
      output := s.output ++ countPrints (some ((s.pipe q).take n)) (s.info q) } v := by
  have hopen := h.isOpen_handled hunderway hm
  have htake : (u.unread q).take n = (s.pipe q).take n := by
    rw [h.unread, List.take_append_of_le_length hle]
  have hdrop : (u.unread q).drop n = (s.pipe q).drop n ++ s.toWrite q := by
    rw [h.unread, List.drop_append_of_le_length hle]
  have hlen : n ≤ (u.unread q).length := by
    rw [h.unread, List.length_append]
    omega
  have hne := take_ne_nil hn hle
  have hstep : (reads stream).act (q, n) u = some
      (handle q (some ((s.pipe q).take n)) ((s.pipe q).drop n ++ s.toWrite q) u) := by
    change Wc.step ⟨q, some n⟩ u = _
    simp only [Wc.step, htake, hdrop]
    rw [if_pos ⟨active_pos (reads_consistent hu) hopen, hopen⟩,
      if_pos ⟨hsize, hlen, fun hzero => by omega⟩]
  obtain ⟨hisOpen, hactive⟩ :=
    handle_of_ne_nil hne q ((s.pipe q).drop n ++ s.toWrite q) u
  refine ⟨_, .single ⟨_, hstep⟩, fun r => ?_, fun r => ?_, ?_, hactive.trans h.activeFds⟩
  · rw [handle_unread]
    by_cases hr : r = q
    · subst hr
      simp only [update_self]
    · simp only [update_of_ne hr, h.unread]
  · rw [hisOpen]
    exact h.isOpen r
  · rw [handle_info, count_eq, h.info]

/-- **The loop does what the program does to the two streams.** -/
theorem reads_simulates :
    (reads (written succeeds stream)).Simulates (machine init K succeeds stream) Views := by
  constructor
  · intro s hs
    rw [show s = initial init (written succeeds stream) from hs]
    exact ⟨_, rfl, fun q => rfl, fun q => iff_of_true rfl (.inl rfl), rfl, rfl⟩
  · intro l s t u hs hu hR hl
    have hmoves := step_moves (show step K succeeds l s = some t from hl)
    obtain rfl | h := reachable_underway hs
    · rw [eq_launched hmoves]
      have hpiped := piped_makePipes init
      refine ⟨u, .refl, hR.unread, fun q => ?_, hR.info, hR.activeFds⟩
      exact iff_of_true ((hR.isOpen q).2 (.inl rfl))
        (.inr (Table.names_iff.2 ⟨_, hpiped.lookup_read q⟩))
    · cases hmoves with
      | fork hm => exact absurd hm h.main_ne_start
      | @plumb p hm =>
        have hpiped : Piped init p s.fds := h.sound_of_main hm
        obtain ⟨-, hread⟩ := plumbed_parentTable hpiped
        have hviews : Views { s with fds := parentTable p s.fds } u := by
          refine ⟨hR.unread, fun q => ?_, hR.info, hR.activeFds⟩
          have hnames := Table.names_iff.2 ⟨_, hpiped.lookup_read q⟩
          exact iff_of_true ((hR.isOpen q).2 (.inr hnames))
            (.inr (Table.names_iff.2 ⟨_, hread q⟩))
        exact ⟨u, .refl, hviews.loopHead h.main_ne_start⟩
      | poll hm =>
        exact ⟨u, .refl, hR.goto h.main_ne_start (by simp) rfl rfl rfl rfl rfl⟩
      | ended hm hpipe hw =>
        obtain ⟨v, hv, hRv⟩ := hR.ended h hu hm hpipe hw
        exact ⟨v, hv, hRv.nextEvent h.main_ne_start⟩
      | count hm hn hsize hle =>
        obtain ⟨v, hv, hRv⟩ := hR.count h hu hm hn hsize hle
        exact ⟨v, hv, hRv.nextEvent h.main_ne_start⟩
      | reap hm =>
        exact ⟨u, .refl, hR.goto h.main_ne_start (by simp) rfl rfl rfl rfl rfl⟩
      | @write fds q r n hc hn hle hr hroom =>
        refine ⟨u, .refl, fun q' => ?_, hR.isOpen, hR.info, hR.activeFds⟩
        obtain rfl : q = r := by
          rw [h.lookup_stream hc hn hle] at hr
          cases hr
          rfl
        rw [hR.unread]
        by_cases hq : q' = q
        · subst hq
          simp only [update_self, List.append_assoc, List.take_append_drop]
        · simp only [update_of_ne hq]
      | broken hc hr hopen => exact absurd (h.no_sigpipe hc hr) hopen
      | @elsewhere fds q n hc hn hle hr => exact absurd (h.lookup_stream hc hn hle) (hr q)
      | exec | close | exit => exact ⟨u, .refl, hR.unread, hR.isOpen, hR.info, hR.activeFds⟩

/-- **When the loop has ended**, the pipes are empty, nothing is left to write, and the counters are
those of both streams. -/
theorem counted_of_ended (hs : (machine init K succeeds stream).Reachable s)
    (hend : s.activeFds ≤ 0) (q : Pipe) :
    s.pipe q ++ s.toWrite q = [] ∧ (s.info q).bytes = (written succeeds stream q).length ∧
      (s.info q).lines = (written succeeds stream q).count 10 ∧
      runs nonspace (written succeeds stream q) ≤ (s.info q).words := by
  obtain ⟨u, hu, hR⟩ := reads_simulates.reachable hs
  have hconsistent := reads_consistent hu
  have hactive := hconsistent.active
  have hzero : u.activeFds = 0 := by
    have := hR.activeFds
    omega
  have hclosed : u.isOpen q = false := by
    rw [← Bool.toNat_eq_zero]
    cases q <;> omega
  rw [← hR.info, ← hR.unread, ← hconsistent.expected_eq hzero]
  exact ⟨hconsistent.ended q hclosed, reads_expected hu q⟩

end SemOS.Wc.Program
