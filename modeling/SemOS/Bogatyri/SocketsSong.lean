import SemOS.Bogatyri.SocketsProgress

/-!
# The end of the song over sockets

When every call succeeds, the hand-over of `process_function` comes to its end: what the processes
can still do (`State.toDo`) decreases with every step.

* **`song_finishes`**: nobody waits before all have exited, with the whole string printed, and
  every run is short.
-/

namespace SemOS.Bogatyri.Sockets

open Function

variable {N : ℕ} {input : List UInt8} {r : Fin N} {s t : State N}

/-- What process `r` can still do. The turn is worth the marks to be sent and its way to the rank of
the character. -/
def Control.toDo (input : List UInt8) (r : Fin N) : Control → ℕ
  | .start => if (r : ℕ) = 0 then 2 * N + 9 else 2
  | .loop true i =>
    2 * N + 3 + if input.length ≤ i then 0 else if targetRank N input i = r then 1 else 5
  | .loop false _ => 1
  | .connecting _ _ => 2 * N + 7
  | .sending _ _ => 2 * N + 6
  | .eofConnecting j _ => 2 * (N - j) + 2
  | .eofSending j _ => 2 * (N - (j + 1)) + 3
  | .exited => 0

/-- What all processes can still do, with the index in transit and the characters left. -/
def State.toDo (input : List UInt8) (s : State N) : ℕ :=
  ∑ r, (s.control r).toDo input r + s.inTransit.length * (2 * N + 4) +
    6 * (input.length - s.printed.length)

/-- A step of `r` without a print, as far as the measure is concerned. -/
theorem toDo_lt_of {c : Control} (hc : t.control = update s.control r c)
    (hp : t.printed = s.printed) (h : c.toDo input r + t.inTransit.length * (2 * N + 4) <
      (s.control r).toDo input r + s.inTransit.length * (2 * N + 4)) :
    t.toDo input < s.toDo input := by
  have := Processes.sum_update (Control.toDo input) s.control r c
  simp only [State.toDo, hc, hp]
  omega

/-- A step that moves process `r` only. -/
theorem toDo_goto_lt {c : Control} (hc : c.toDo input r < (s.control r).toDo input r) :
    (s.goto r c).toDo input < s.toDo input :=
  toDo_lt_of rfl rfl (Nat.add_lt_add_right hc _)

/-- A character is printed: one less is left, which is worth more than the way of the turn. -/
theorem toDo_print_lt (h : Turn input s) {i : ℕ} {c : Control} (hc : s.control r = .loop true i)
    (hi : i < input.length) (ht : targetRank N input i = r) (hn : c = if i + 1 < input.length then
      .connecting (targetRank N input (i + 1)) (i + 1) else .loop true (i + 1)) :
    State.toDo input { s.goto r c with printed := s.printed ++ [input.getD i 0] } <
      s.toDo input := by
  have hlen : i = s.printed.length := h.active r i (by rw [hc]; rfl)
  have hsum := Processes.sum_update (Control.toDo input) s.control r c
  have hcw : c.toDo input r ≤ 2 * N + 7 := by
    rw [hn]
    split_ifs with hlast
    · exact le_rfl
    · simp only [Control.toDo, not_lt.1 hlast, if_true]
      omega
  have hround : (s.control r).toDo input r = 2 * N + 4 := by
    simp only [hc, Control.toDo, not_le.2 hi, if_false, ht, if_true]
  simp only [State.toDo, State.goto_control, State.inTransit, State.goto_connections,
    List.length_append, List.length_singleton]
  omega

/-- A process accepts a mark, or the index at the rank of its character. -/
theorem toDo_accept_lt (h : Directed input s) {i : ℕ} {x : Connection} {q : List Connection}
    (hc : s.control r = .loop false i) (hq : accept r s.connections = some (x, q)) :
    State.toDo input { s.goto r (received true i x) with connections := q } < s.toDo input := by
  refine toDo_lt_of rfl rfl ?_
  have htransit := length_inTransit_accept hq
  rw [hc, htransit]
  simp only [State.inTransit]
  obtain hx | ⟨k, hk, hx⟩ := h.sent x (MessageQueue.mem_of_receive hq)
  · have hidx : x.isIndex = false := by simp [Connection.isIndex, hx]
    simp [received, hx, hidx, Control.toDo]
  · have htarget : targetRank N input k = r := by
      have := MessageQueue.receive_pred hq
      simpa [hx] using this
    have hne : (k : ℤ) ≠ -1 := by omega
    have hidx : x.isIndex = true := by simp [Connection.isIndex, hx, hne]
    have hrec : received true i x = .loop true k := by simp [received, hx, hne]
    simp only [hrec, hidx, if_true, Control.toDo, not_le.2 hk, if_false, htarget, Nat.succ_mul]
    omega

/-- Every step takes away from what there is to do. -/
theorem toDo_lt (h : Directed input s) (hg : Goes input r s t) : t.toDo input < s.toDo input := by
  cases hg with
  | begin hc =>
    refine toDo_goto_lt ?_
    rw [hc]
    by_cases h0 : (r : ℕ) = 0
    · simp only [h0, decide_true, Control.toDo, if_true]
      split_ifs <;> omega
    · simp [h0, Control.toDo]
  | finish hc hi =>
    refine toDo_goto_lt ?_
    simp only [hc, Control.toDo, hi, if_true]
    omega
  | print hc hi ht hn => exact toDo_print_lt h.turn hc hi ht hn
  | forward hc hi ht =>
    refine toDo_goto_lt ?_
    simp only [hc, Control.toDo, not_le.2 hi, ht, if_false]
    omega
  | accept hc hq => exact toDo_accept_lt h hc hq
  | connect hc =>
    refine toDo_goto_lt ?_
    simp only [hc, Control.toDo]
    omega
  | @send d i hc =>
    refine toDo_lt_of rfl rfl ?_
    have hidx : (⟨d, some (i : ℤ)⟩ : Connection).isIndex = true := by
      simp only [Connection.isIndex, Option.any_some]
      exact decide_eq_true (by omega)
    have hsend := length_inTransit_send (s := s) ⟨d, some (i : ℤ)⟩
    rw [hidx, if_pos rfl] at hsend
    rw [State.inTransit, hsend, hc, Nat.succ_mul]
    simp only [Control.toDo]
    omega
  | @eofSkip j i hc hj =>
    have := r.isLt
    refine toDo_goto_lt ?_
    simp only [hc, Control.toDo]
    omega
  | eofConnect hc =>
    refine toDo_goto_lt ?_
    simp only [hc, Control.toDo]
    omega
  | @eofSend j i hc =>
    refine toDo_lt_of rfl rfl ?_
    have hsend := length_inTransit_send (s := s) ⟨j, some (-1)⟩
    rw [show (⟨j, some (-1)⟩ : Connection).isIndex = false from rfl, if_neg (by simp),
      Nat.add_zero] at hsend
    rw [State.inTransit, hsend, hc]
    simp only [Control.toDo]
    omega
  | exit hc =>
    refine toDo_goto_lt ?_
    simp only [hc, Control.toDo]
    omega

/-- What there is to do at the start. -/
theorem toDo_initial (hN : 0 < N) (input : List UInt8) :
    (initial N).toDo input = 4 * N + 6 * input.length + 7 := by
  have hsum := Processes.sum_update (fun _ : Fin N => id) (fun _ => 2) ⟨0, hN⟩ (2 * N + 9)
  have hctrl : ∀ r : Fin N, ((initial N).control r).toDo input r =
      update (fun _ : Fin N => 2) ⟨0, hN⟩ (2 * N + 9) r := by
    intro r
    by_cases h0 : (r : ℕ) = 0
    · obtain rfl : r = ⟨0, hN⟩ := Fin.ext h0
      simp [initial, Control.toDo]
    · rw [update_of_ne fun h => h0 (congrArg Fin.val h)]
      simp [initial, Control.toDo, h0]
  have hconst : ∑ _r : Fin N, 2 = N * 2 := by
    rw [Finset.sum_const_nat fun _ _ => rfl, Finset.card_univ, Fintype.card_fin]
  simp only [id_eq, hconst] at hsum
  have hcontrol : ∑ r, ((initial N).control r).toDo input r = 4 * N + 7 := by
    rw [Finset.sum_congr rfl fun r _ => hctrl r]
    exact Nat.add_right_cancel (m := 2) (hsum.trans (by omega))
  have htransit : (initial N).inTransit.length = 0 := rfl
  have hprinted : (initial N).printed.length = 0 := rfl
  rw [State.toDo, hcontrol, htransit, hprinted]
  omega

/-- **The song ends, and ends well, when every call succeeds** and the string fits `input_string`. A
reachable state in which nobody can move is one in which the whole string is printed and every
process has left its loop, and no run takes more than `4 N + 6 l + 7` steps, where `l` is the length
of the string. -/
theorem song_finishes (hN : 0 < N) (input : InputString) :
    (∀ s, (answered N input.bytes).Reachable s → (∀ r, step input.bytes (r, true) s = none) →
      s.printed = input.bytes ∧ ∀ r, s.control r = .exited) ∧
    ∀ ls s, (answered N input.bytes).run ls (initial N) = some s →
      ls.length ≤ 4 * N + 6 * input.bytes.length + 7 := by
  refine ⟨fun s hs => exited_of_stuck hN (reachable_directed hN hs), fun ls s hrun => ?_⟩
  rw [← toDo_initial hN input.bytes]
  exact Machine.length_le_of_run (M := answered N input.bytes) (I := Directed input.bytes)
    (State.toDo input.bytes)
    (fun r s t hs ht => ⟨step_directed hs ht, toDo_lt hs (step_goes ht)⟩) hrun
    (initial_directed hN input.bytes)

/-- Two processes and the string `B A`: rank 0 prints, hands over, and gets the mark of rank 1. -/
theorem song_finishes_of_two : ∃ s, (answered 2 [66, 65]).run
    [0, 0, 0, 0, 1, 1, 1, 1, 1, 1, 0, 1, 1] (initial 2) = some s ∧ s.printed = [66, 65] := by
  obtain ⟨s, hs⟩ : ∃ s, (answered 2 [66, 65]).run [0, 0, 0, 0, 1, 1, 1, 1, 1, 1, 0, 1, 1]
      (initial 2) = some s := Option.isSome_iff_exists.1 (by decide +kernel)
  have hend : ((answered 2 [66, 65]).run [0, 0, 0, 0, 1, 1, 1, 1, 1, 1, 0, 1, 1]
      (initial 2)).map (fun s => (s.control 0, s.control 1)) = some (.exited, .exited) := by
    decide +kernel
  rw [hs] at hend
  obtain ⟨h0, h1⟩ := Prod.mk.inj (Option.some.inj hend)
  refine ⟨s, hs, ((song_finishes (by decide) ⟨[66, 65], by decide, by decide⟩).1 s
    (Machine.reachable_of_run rfl hs) fun r => ?_).1⟩
  obtain rfl | rfl : r = 0 ∨ r = 1 := by omega
  · simp [step, h0]
  · simp [step, h1]

end SemOS.Bogatyri.Sockets
