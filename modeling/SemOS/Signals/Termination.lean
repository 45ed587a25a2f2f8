import SemOS.Signals.Delivery

/-!
# How the signal channel ends

Every run of the two processes ends, and where it ends depends on the buffer alone.

* `Stopped.printed_takeWhile`: the child prints the bytes before the first zero byte, whether that
  is the terminator or not.
* `channel_ends`: a run takes at most 48 steps for each byte and 7 more; the child has exited, and
  the parent has exited or is left in its `sigsuspend`, by what it has sent behind that byte.
-/

namespace SemOS.Signals

variable {buffer bytes : List UInt8} {i : ℕ} {s : State}

/-- The first zero byte of a list that ends in one. -/
theorem take_eq_takeWhile (hi : i < (bytes ++ [0]).length)
    (hnonzero : (0 : UInt8) ∉ (bytes ++ [0]).take i) (hzero : (bytes ++ [0]).getD i 0 = 0) :
    (bytes ++ [0]).take i = bytes.takeWhile (· ≠ 0) := by
  induction bytes generalizing i with
  | nil =>
    obtain rfl : i = 0 := by
      simp only [List.nil_append, List.length_singleton] at hi
      omega
    rfl
  | cons b bytes ih =>
    cases i with
    | zero =>
      obtain rfl : b = 0 := hzero
      rfl
    | succ i =>
      rw [List.cons_append, List.take_succ_cons, List.mem_cons, not_or] at hnonzero
      have hb : b ≠ 0 := Ne.symm hnonzero.1
      have htail := ih (Nat.lt_of_succ_lt_succ hi) hnonzero.2 hzero
      rw [List.cons_append, List.take_succ_cons, htail,
        List.takeWhile_cons_of_pos (by simpa using hb)]

/-- The child prints what precedes the first zero byte. -/
theorem Stopped.printed_takeWhile (h : Stopped (bytes ++ [0]) i s) :
    s.printed = bytes.takeWhile (· ≠ 0) ++ [10] := by
  rw [h.printed, take_eq_takeWhile h.index h.nonzero h.zero]

/-- Whether that is the terminator. -/
theorem Stopped.last_iff (h : Stopped (bytes ++ [0]) i s) :
    i + 1 = (bytes ++ [0]).length ↔ (0 : UInt8) ∉ bytes := by
  have hi := h.index
  constructor
  · intro hlast
    rw [List.length_append, List.length_singleton, Nat.add_right_cancel_iff] at hlast
    have hnonzero := h.nonzero
    rwa [hlast, List.take_left] at hnonzero
  · intro h0
    rw [h.eq_length h0, List.length_append, List.length_singleton]

/-- Where nothing moves, the child has exited. -/
theorem Agreement.child_exited (h : Agreement buffer s) (hstuck : (machine buffer).Stuck s) :
    s.child = .exited := by
  obtain hhang | ⟨i, hs, -⟩ := h.of_stuck hstuck
  · exact hhang.2.2
  · exact hs.control

/-- Then the parent has exited after the last byte, or hangs at an earlier one. -/
theorem Agreement.parent_of_stuck (h : Agreement buffer s) (hstuck : (machine buffer).Stuck s) :
    ∃ i, Stopped buffer i s ∧
      (i + 1 = buffer.length ∧ s.parent = .exited ∨ i + 1 < buffer.length ∧ Hang s) := by
  have hc := h.child_exited hstuck
  cases h with
  | sending hp hr hq => exact absurd hc hr.child_ne_exited
  | sent hp hr ho => exact absurd hc hr.child_ne_exited
  | taken hp hr hinst hc' hbit hq => simp [hc] at hc'
  | acknowledged hp ha ho =>
    have hpend : s.parentPending sigGot = true := by simpa [State.pending] using ho (false, sigGot)
    have := hstuck .parent
    simp [machine, step, hp, hpend] at this
  | finished hs hlast hp hq =>
    refine ⟨_, hs, .inl ⟨hlast, ?_⟩⟩
    obtain hp | hp := hp
    · -- the child has exited, so `wait` returns
      have := hstuck .parent
      simp [machine, step, hp, hc] at this
    · exact hp
  | ahead hs hlt hp hq =>
    obtain ⟨byte, hp | hp⟩ := hp
    · have := hstuck .parent
      simp [machine, step, hp] at this
    · exact ⟨_, hs, .inr ⟨hlt, ⟨_, _, _, hp⟩, hq _, hc⟩⟩

/-- How the channel is left, when `bytes` and the terminator were to be sent. -/
structure Ended (bytes : List UInt8) (s : State) : Prop where
  child : s.child = .exited
  printed : s.printed = bytes.takeWhile (· ≠ 0) ++ [10]
  exited_iff : s.parent = .exited ↔ (0 : UInt8) ∉ bytes
  hang_iff : Hang s ↔ (0 : UInt8) ∈ bytes

theorem Agreement.ended (h : Agreement (bytes ++ [0]) s)
    (hstuck : (machine (bytes ++ [0])).Stuck s) : Ended bytes s := by
  obtain ⟨i, hs, ⟨hlast, hp⟩ | ⟨hlt, hhang⟩⟩ := h.parent_of_stuck hstuck
  · have h0 := hs.last_iff.1 hlast
    have hfree : ¬ Hang s := by
      rintro ⟨⟨j, k, byte, hp'⟩, -⟩
      simp [hp] at hp'
    exact ⟨hs.control, hs.printed_takeWhile, iff_of_true hp h0, iff_of_false hfree h0⟩
  · have h0 : (0 : UInt8) ∈ bytes := by
      by_contra h0
      exact Nat.ne_of_lt hlt (hs.last_iff.2 h0)
    have hp : s.parent ≠ .exited := by
      obtain ⟨⟨j, k, byte, hp⟩, -⟩ := hhang
      simp [hp]
    exact ⟨hs.control, hs.printed_takeWhile, iff_of_false hp (not_not_intro h0),
      iff_of_true hhang h0⟩

theorem measure_initial (hpos : 0 < buffer.length) :
    (initial buffer).measure buffer.length = 48 * buffer.length + 7 := by
  simp only [initial, sendMessage, if_pos hpos, State.measure, ParentControl.bitsLeft,
    ParentControl.effort, ChildControl.effort, Bool.toNat_false]
  omega

/-- **Termination.** Whatever `main` sends, and in every order of the steps of the two processes:
they come to rest after at most 48 steps for each byte of the buffer and 7 more, with the child
exited after what precedes the first zero byte; and the parent has then exited where this is the
terminator, and hangs where it is not. -/
theorem channel_ends (inp : Input) :
    (∀ ls s, (machine inp.buffer).run ls (initial inp.buffer) = some s →
      ls.length ≤ 48 * inp.buffer.length + 7) ∧
    ∀ s, (machine inp.buffer).Reachable s → (machine inp.buffer).Stuck s → Ended inp.bytes s := by
  have hterm : ∃ bytes, inp.buffer = bytes ++ [0] := ⟨inp.bytes, rfl⟩
  constructor
  · intro ls s hrun
    have hpos : 0 < inp.buffer.length := by simp [Input.buffer]
    rw [← measure_initial hpos]
    exact Machine.length_le_of_run (I := Agreement inp.buffer) (State.measure inp.buffer.length)
      (fun l s s' h hl => ⟨step_agreement hterm h hl, step_measure h hl⟩) hrun
      (initial_agreement hterm)
  · intro s hs hstuck
    exact (reachable_agreement hterm hs).ended hstuck

/-- The two processes do come to rest. -/
theorem exists_stuck_channel (inp : Input) :
    ∃ s, (machine inp.buffer).Reachable s ∧ (machine inp.buffer).Stuck s := by
  have hterm : ∃ bytes, inp.buffer = bytes ++ [0] := ⟨inp.bytes, rfl⟩
  obtain ⟨s, hs, -, hstuck⟩ := Machine.exists_stuck (M := machine inp.buffer)
    (I := Agreement inp.buffer) (State.measure inp.buffer.length)
    (fun l s s' h hl => ⟨step_agreement hterm h hl, step_measure h hl⟩) (initial_agreement hterm)
  exact ⟨s, (Machine.Reachable.of_init rfl).leads hs, hstuck⟩

/-- A file of the bytes `A` and zero. -/
def letterZero : Input := .file 2 [65, 0] (by decide)

/-- It leaves the parent behind. -/
theorem channel_ends_letterZero : ∃ s, (machine letterZero.buffer).Reachable s ∧
    (machine letterZero.buffer).Stuck s ∧ s.printed = [65, 10] ∧ Hang s := by
  obtain ⟨s, hs, hstuck⟩ := exists_stuck_channel letterZero
  obtain ⟨-, hprinted, -, hhang⟩ := (channel_ends letterZero).2 s hs hstuck
  exact ⟨s, hs, hstuck, hprinted, hhang.2 (by decide)⟩

end SemOS.Signals
