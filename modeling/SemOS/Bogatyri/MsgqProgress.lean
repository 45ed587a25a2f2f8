import SemOS.Bogatyri.MsgqSafety
import SemOS.Foundations.Processes

/-!
# Progress of the bogatyri over an unbounded message queue

The receiver of the turn is the byte value of a character, the receivers are the ranks below `N`.
`progress_of_ranks`: where every byte of the line is a rank, some process can move as long as
characters are left. `exists_stuck_song`: where some byte is not, every run ends, since
`songMeasure` decreases, and it ends before that byte is printed, since a byte is only ever printed
by its own rank. The program has 128 processes for 256 byte values.
-/

namespace SemOS.Bogatyri.Msgq

open Function

variable {N : ℕ} {input : List UInt8} {cap : Option ℕ} {r h : Fin N} {s t : State N}

/-- Every byte of the line is the rank of a process. -/
def RanksCover (N : ℕ) (input : List UInt8) : Prop := ∀ c ∈ input, c.toNat < N

instance : Decidable (RanksCover N input) := inferInstanceAs (Decidable (∀ c ∈ input, c.toNat < N))

theorem RanksCover.targetRank_lt (hr : RanksCover N input) {i : ℕ} (hi : i < input.length) :
    targetRank input i < N := by
  rw [targetRank, List.getD_eq_getElem _ _ hi]
  exact hr _ (List.getElem_mem hi)

/-! ## Every rank has a process -/

theorem Holds.step_ne_none {p : ℕ} (hh : Holds input p h (s.control h)) :
    step input none h s ≠ none := by
  rw [Ne, step_eq_none]
  rintro (⟨i, -, hroom⟩ | ⟨hc, -⟩ | hc)
  · simp at hroom
  · simp [Holds, hc] at hh
  · simp [Holds, hc] at hh

/-- The process that a message is addressed to can move, in its receive or on the way to it. -/
theorem Idle.step_ne_none {m : RankMessage} (hi : Idle input r (s.control r)) (hm : m ∈ s.queue)
    (ht : m.mtype = r + 1) : step input cap r s ≠ none := by
  rw [Ne, step_eq_none]
  rintro (⟨i, hc, -⟩ | ⟨-, hq⟩ | hc)
  · simp [Idle, hc] at hi
  · simpa [ht] using MessageQueue.receive_eq_none.1 hq m hm
  · simp [Idle, hc] at hi

/-- With a process for every byte, some process can move while characters are left. -/
theorem progress_of_ranks (hr : RanksCover N input) (hs : Song input s) (ho : s.output ≠ input) :
    ∃ r, step input none r s ≠ none := by
  cases hs.phase with
  | held h hp hq hh hi => exact ⟨h, hh.step_ne_none⟩
  | flying hp hq hi =>
    have hN := hr.targetRank_lt hp
    exact ⟨⟨_, hN⟩, (hi ⟨_, hN⟩).step_ne_none (by rw [hq]; exact List.mem_singleton_self _) rfl⟩
  | orphan hp hN hq hi =>
    have := hr.targetRank_lt (i := 0) (by omega)
    omega
  | spent h hp hq hh hi => exact absurd (hs.output_eq hp) ho
  | closing hp hq hc => exact absurd (hs.output_eq hp) ho

/-! ## Every song ends -/

/-- What process `r` can still do: its way to the broadcast, and the broadcast itself. -/
def weight (input : List UInt8) (r : Fin N) : Control → ℕ
  | .loop i => 8 * (N + 1) + 1 + if i < input.length ∧ targetRank input i = r then 5 else 1
  | .sequence i => 8 * (N + 1) + 1 + if i < input.length ∧ targetRank input i = r then 4 else 10
  | .handOver _ => 8 * (N + 1) + 1 + 9
  | .receive => 8 * (N + 1) + 1
  | .broadcast i => 8 * (N + 1 - i) + 1
  | .exited => 0

/-- What all processes can still do. -/
def work (input : List UInt8) (c : Fin N → Control) : ℕ := ∑ r, weight input r (c r)

theorem work_update (input : List UInt8) (c : Fin N → Control) (r : Fin N) (k : Control) :
    work input (update c r k) + weight input r (c r) = work input c + weight input r k :=
  Processes.sum_update (weight input) c r k

/-- The characters left, the work left in the processes, and the messages left. -/
def songMeasure (input : List UInt8) (s : State N) : ℕ :=
  10 * (input.length - s.printed.length) + work input s.control + 7 * s.queue.length

/-- A process that is about to hand the turn over does not have it any more. -/
theorem Phase.target_of_handOver {i : ℕ} (hs : Phase input s) (hc : s.control r = .handOver i) :
    targetRank input i ≠ r := by
  have hidle : ¬ Idle input r (s.control r) := by simp [Idle, hc]
  cases hs with
  | held h hp hq hh hi =>
    by_cases hr : r = h
    · subst hr
      simp only [Holds, hc, Control.handOver.injEq, reduceCtorEq, false_and, false_or] at hh
      obtain ⟨rfl, ht⟩ := hh
      exact ht
    · exact absurd (hi r hr) hidle
  | flying hp hq hi => exact absurd (hi r) hidle
  | orphan hp hN hq hi => exact absurd (hi r) hidle
  | spent h hp hq hh hi =>
    by_cases hr : r = h
    · subst hr; rw [hc] at hh; cases hh
    · exact absurd (hi r hr) hidle
  | closing hp hq hc' =>
    rcases hc' r with h | h
    · exact absurd h hidle
    · simp [Left, hc] at h

/-- A step of `r` without a print, as far as the measure is concerned. -/
theorem songMeasure_lt_of {c : Control} (hc : t.control = update s.control r c)
    (hp : t.printed = s.printed) (h : weight input r c + 7 * t.queue.length <
      weight input r (s.control r) + 7 * s.queue.length) :
    songMeasure input t < songMeasure input s := by
  have := work_update input s.control r c
  simp only [songMeasure, hc, hp]
  omega

/-- Every step decreases the measure. -/
theorem songMeasure_lt (hs : Song input s) (h : step input cap r s = some t) :
    songMeasure input t < songMeasure input s := by
  have hm := step_moves h
  cases hm with
  | @enter i hc hi ht =>
    refine songMeasure_lt_of rfl rfl ?_
    simp only [hc, weight, hi, ht, and_self, if_true, State.goto_queue]
    omega
  | wait hc hi ht =>
    refine songMeasure_lt_of rfl rfl ?_
    simp only [hc, weight, ht, and_false, if_false, State.goto_queue]
    omega
  | finish hc hi =>
    refine songMeasure_lt_of rfl rfl ?_
    simp only [hc, weight, State.goto_queue]
    split_ifs <;> omega
  | @print i hc hi ht =>
    have hwork := work_update input s.control r (.sequence (i + 1))
    have hp := hs.phase.index_of_sequence hc hi
    simp only [hc, weight, hi, ht, and_self, if_true] at hwork
    simp only [songMeasure, State.goto_control, State.goto_queue, List.length_append,
      List.length_singleton]
    split_ifs at hwork <;> omega
  | @endOfRun i hc hi ht =>
    refine songMeasure_lt_of rfl rfl ?_
    simp only [hc, weight, ht, and_false, if_false, State.goto_queue]
    omega
  | endOfString hc hi =>
    refine songMeasure_lt_of rfl rfl ?_
    simp only [hc, weight, not_lt.2 hi, false_and, if_false, State.goto_queue]
    omega
  | @hand i hc hr =>
    refine songMeasure_lt_of rfl rfl ?_
    simp only [hc, weight, hs.phase.target_of_handOver hc, and_false, if_false, List.length_append,
      List.length_singleton]
    omega
  | @index m q hc hq hm =>
    have hl := MessageQueue.length_receive hq
    refine songMeasure_lt_of rfl rfl ?_
    simp only [hc, weight]
    split_ifs <;> omega
  | eof hc hq hm =>
    have hl := MessageQueue.length_receive hq
    refine songMeasure_lt_of rfl rfl ?_
    simp only [hc, weight]
    omega
  | @sendEof i hc hi =>
    refine songMeasure_lt_of rfl rfl ?_
    simp only [hc, weight, List.length_append, List.length_singleton]
    omega
  | @dropEof i hc hi =>
    refine songMeasure_lt_of rfl rfl ?_
    simp only [hc, weight, State.goto_queue]
    omega
  | @skipSelf i hc hr =>
    have := r.isLt
    refine songMeasure_lt_of rfl rfl ?_
    simp only [hc, weight, State.goto_queue] at *
    omega
  | exit hc hi =>
    refine songMeasure_lt_of rfl rfl ?_
    simp only [hc, weight, State.goto_queue]
    omega

/-- A printed byte is the rank of its printer. -/
theorem Song.ranksCover_output (hs : Song input s) : RanksCover N s.output := by
  intro c hc
  obtain ⟨x, hx, rfl⟩ := List.mem_map.1 hc
  rw [← hs.own x hx]
  exact x.1.isLt

/-- Where a byte of the line is nobody's rank, a state is reached in which no process can move and
characters are left. -/
theorem exists_stuck_song (hr : ¬ RanksCover N input) :
    ∃ s, (machine N input cap).Reachable s ∧ s.output ≠ input ∧ ∀ r, step input cap r s = none := by
  obtain ⟨t, ht, hsong, hstuck⟩ := Machine.exists_stuck (M := machine N input cap)
    (I := Song input) (songMeasure input)
    (fun _ _ _ hs h => ⟨step_song hs h, songMeasure_lt hs h⟩) (initial_song N input)
  exact ⟨t, ⟨_, rfl, ht⟩, fun ho => hr (ho ▸ hsong.ranksCover_output), hstuck⟩

/-- **The turn is never sent to nobody, where every byte is a rank.** In every reachable state in
which some character has not been printed some process can move, exactly when every byte of the
line is below the number of processes. -/
theorem song_progresses_iff (input : List UInt8) :
    (∀ s, (machine maxProcesses input none).Reachable s → s.output ≠ input →
      ∃ r, step input none r s ≠ none) ↔ RanksCover maxProcesses input := by
  constructor
  · intro h
    by_contra hr
    obtain ⟨s, hs, ho, hstuck⟩ := exists_stuck_song hr
    obtain ⟨r, hr⟩ := h s hs ho
    exact hr (hstuck r)
  · intro hr s hs ho
    exact progress_of_ranks hr (reachable_song hs) ho

/-- A line that starts with the two bytes of a Cyrillic letter: no process has rank 208. -/
theorem song_wedges_on_high_byte :
    ¬ ∀ s, (machine maxProcesses [208, 159, 10] none).Reachable s → s.output ≠ [208, 159, 10] →
      ∃ r, step [208, 159, 10] none r s ≠ none := by
  intro h
  have hr : ¬ RanksCover maxProcesses [208, 159, 10] := by
    intro hr
    exact absurd (hr 208 (by simp)) (by decide)
  obtain ⟨s, hs, ho, hstuck⟩ := exists_stuck_song hr
  obtain ⟨r, hr⟩ := h s hs ho
  exact hr (hstuck r)

end SemOS.Bogatyri.Msgq
