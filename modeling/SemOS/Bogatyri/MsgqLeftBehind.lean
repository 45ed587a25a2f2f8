import SemOS.Bogatyri.MsgqEof
import Mathlib.Tactic.Ring

/-!
# A rank that no end-of-file mark reaches

The line is the single byte `1`, so rank 1 prints it and broadcasts, and the last rank is the one
left behind. The schedule is given by the policy `Allowed`, in three stages (`Stage`): rank 1
calls the ranks below the last one by one, each taking its mark at once, so the queue stays empty;
then all of them fill the queue with marks for each other, `(N - 2) ^ 2` if they fit; then each
drops its mark for the last rank and exits. The measure of the song makes the policy terminate, and
`Stage` says what its end looks like.
-/

namespace SemOS.Bogatyri.Msgq

open Function

variable {N : ℕ} {r : Fin N} {s t : State N} {Q : ℕ}

/-- The scheduling policy, with `F` the rank that prints and `last` the last one: `F` sends its
next mark when the previous one has been taken; the other broadcasts wait for `F` to be past all
ranks but `last`; the marks for `last` wait for all other marks. -/
def Allowed (F last : Fin N) (r : Fin N) (s : State N) : Prop :=
  match s.control r with
  | .broadcast i =>
    if i < N - 1 then
      if r = F then s.queue = []
      else s.control F = .broadcast (N - 1) ∧ ∀ b, b ≠ last → Left (s.control b)
    else ∀ b, b ≠ last → (∃ j, N - 1 ≤ j ∧ s.control b = .broadcast j) ∨ s.control b = .exited
  | _ => True

/-- The stages of the schedule. -/
inductive Stage (Q : ℕ) (F last : Fin N) (s : State N) : Prop
  /-- `F` has sent its marks to the ranks below `i`, and all but the latest have been taken. -/
  | calling (i : ℕ) (hi : i ≤ N - 1) (hF : s.control F = .broadcast i)
      (hq : s.queue = [] ∨ ∃ b : Fin N, b ≠ F ∧ (b : ℕ) < i ∧ Idle [1] b (s.control b) ∧
        s.queue = [⟨b + 1, -1⟩])
      (hb : ∀ b, b ≠ F → b ≠ last →
        (Idle [1] b (s.control b) ∧ ((b : ℕ) < i → s.queue = [⟨b + 1, -1⟩])) ∨
          (s.control b = .broadcast 0 ∧ (b : ℕ) < i))
  /-- All but the last rank send each other marks; `k` have been sent. -/
  | filling (k : ℕ) (hF : s.control F = .broadcast (N - 1))
      (hb : ∀ b, b ≠ last → ∃ i ≤ N - 1, s.control b = .broadcast i)
      (hk : marksSent s.control = k + (N - 2)) (hq : s.queue.length = min Q k)
      (hm : ∀ m ∈ s.queue, m.mtype < N)
  /-- The queue is full and holds no mark for the last rank. -/
  | draining (hq : s.queue.length = Q) (hm : ∀ m ∈ s.queue, m.mtype < N)
      (hb : ∀ b, b ≠ last → (∃ j, N - 1 ≤ j ∧ s.control b = .broadcast j) ∨ s.control b = .exited)

section Schedule

variable {F last : Fin N}

/-- The marks that are under way while `F` calls the ranks below `i`: none, or the latest. -/
def Calls (F : Fin N) (i : ℕ) (s : State N) : Prop :=
  s.queue = [] ∨ ∃ b : Fin N, b ≠ F ∧ (b : ℕ) < i ∧ Idle [1] b (s.control b) ∧
    s.queue = [⟨b + 1, -1⟩]

/-- The ranks between `F` and `last`: those below `i` have taken their mark, but for the latest. -/
def Called (F last : Fin N) (i : ℕ) (s : State N) : Prop :=
  ∀ b, b ≠ F → b ≠ last →
    (Idle [1] b (s.control b) ∧ ((b : ℕ) < i → s.queue = [⟨b + 1, -1⟩])) ∨
      (s.control b = .broadcast 0 ∧ (b : ℕ) < i)

/-- All but the last rank are past their send to every other. -/
def Done (last : Fin N) (s : State N) : Prop :=
  ∀ b, b ≠ last → (∃ j, N - 1 ≤ j ∧ s.control b = .broadcast j) ∨ s.control b = .exited

theorem lt_of_ne_last (hlast : (last : ℕ) = N - 1) (hr : r ≠ last) : (r : ℕ) < N - 1 := by
  have := Fin.val_ne_of_ne hr
  have := r.isLt
  omega

/-- The last rank goes into `msgrcv`, and finds no mark. -/
theorem last_moves (hlast : (last : ℕ) = N - 1) (hi : Idle [1] last (s.control last))
    (hs : Stage Q F last s) (h : Moves [1] (some Q) last s t) : t = s.goto last .receive := by
  have hno : receiveMessageForMe last s.queue = none := by
    refine MessageQueue.receive_eq_none.2 fun m hm => ?_
    have hlt : m.mtype < N := by
      cases hs with
      | calling i hi hF hq hb =>
        rcases hq with hq | ⟨b, -, hbi, -, hq⟩
        · simp [hq] at hm
        · simp only [hq, List.mem_singleton] at hm
          simp only [hm]
          omega
      | filling k hF hb hk hq hm' => exact hm' m hm
      | draining hq hm' hb => exact hm' m hm
    have := last.isLt
    simp only [beq_eq_false_iff_ne, ne_eq]
    omega
  rcases hi.moves h with rfl | ⟨m, q, hr, -⟩
  · rfl
  · simp [hno] at hr

/-- The stages do not depend on where the last rank waits. -/
theorem Stage.last_receive (hF : F ≠ last) (hlast : (last : ℕ) = N - 1)
    (hi : Idle [1] last (s.control last)) (hs : Stage Q F last s) :
    Stage Q F last (s.goto last .receive) := by
  have hsame : ∀ b, b ≠ last → (s.goto last .receive).control b = s.control b := fun b hb => by
    rw [State.goto_control, update_of_ne hb]
  cases hs with
  | calling i hi' hF' hq hb =>
    refine .calling i hi' (by rw [hsame F hF, hF']) (hq.imp_right ?_) fun b hbF hbl => ?_
    · rintro ⟨b, hbF, hbi, hid, hq⟩
      have hbl : b ≠ last := fun he => by rw [he] at hbi; omega
      exact ⟨b, hbF, hbi, by rwa [hsame b hbl], hq⟩
    · rw [hsame b hbl]
      exact hb b hbF hbl
  | filling k hF' hb hk hq hm =>
    refine .filling k (by rw [hsame F hF, hF']) (fun b hbl => by rw [hsame b hbl]; exact hb b hbl)
      ?_ hq hm
    have := marksSent_update s.control last .receive
    rw [hi.sent] at this
    simp only [sent, Nat.add_zero] at this
    simpa only [State.goto_control, ← hk] using this
  | draining hq hm hb =>
    exact .draining hq hm fun b hbl => by rw [hsame b hbl]; exact hb b hbl

/-- While rank `F` calls, it moves only when the latest mark has been taken. -/
theorem calling_allowed {i : ℕ} (hN : 4 ≤ N) (hF1 : (F : ℕ) = 1) (hlast : (last : ℕ) = N - 1)
    (hF : s.control F = .broadcast i) (ha : Allowed F last F s) (hb : Called F last i s) :
    i < N - 1 ∧ s.queue = [] := by
  simp only [Allowed, hF, if_true] at ha
  split_ifs at ha with hi
  · exact ⟨hi, ha⟩
  · -- rank 0 is not past the others yet
    have h0F : (⟨0, by omega⟩ : Fin N) ≠ F := Fin.ne_of_val_ne (by simp [hF1])
    have h0l : (⟨0, by omega⟩ : Fin N) ≠ last := Fin.ne_of_val_ne (by simp only; omega)
    rcases ha _ h0l with ⟨j, hj, hc⟩ | hc <;>
      rcases hb _ h0F h0l with ⟨hid, -⟩ | ⟨hc', -⟩
    · exact absurd (.inl ⟨j, hc⟩) hid.not_left
    · simp only [hc', Control.broadcast.injEq] at hc
      omega
    · exact absurd (.inr hc) hid.not_left
    · simp [hc'] at hc

/-- The first stage, while rank `F` calls. -/
theorem calling_step_caller {i : ℕ} (hN : 4 ≤ N) (hF1 : (F : ℕ) = 1) (hlast : (last : ℕ) = N - 1)
    (hQ : 1 ≤ Q) (hF : s.control F = .broadcast i) (ha : Allowed F last F s)
    (hb : Called F last i s)
    (h : Moves [1] (some Q) F s t) : Stage Q F last t := by
  obtain ⟨hi, hnil⟩ := calling_allowed hN hF1 hlast hF ha hb
  have hothers : ∀ b, b ≠ F → b ≠ last → b < i → s.control b = .broadcast 0 := by
    intro b hbF hbl hbi
    rcases hb b hbF hbl with ⟨-, hq⟩ | ⟨hc, -⟩
    · simp [hq hbi] at hnil
    · exact hc
  cases h with
  | @sendEof j hc hj hjr hroom =>
    obtain rfl : i = j := by simpa [hF] using hc
    set b₀ : Fin N := ⟨i, hj⟩ with hb₀
    have hb₀F : b₀ ≠ F := Fin.ne_of_val_ne (by simpa [hb₀] using hjr)
    have hb₀l : b₀ ≠ last := Fin.ne_of_val_ne (by simp only [hb₀]; omega)
    refine .calling (i + 1) hi (by simp) (.inr ⟨b₀, hb₀F, by simp [hb₀], ?_, by simp [hnil, hb₀]⟩)
      fun b hbF hbl => ?_
    · rcases hb b₀ hb₀F hb₀l with ⟨hid, -⟩ | ⟨-, hlt⟩
      · simpa only [State.goto_control, update_of_ne hb₀F] using hid
      · simp [hb₀] at hlt
    · simp only [State.goto_control, update_of_ne hbF]
      rcases hb b hbF hbl with ⟨hid, -⟩ | ⟨hc', hlt⟩
      · refine .inl ⟨hid, fun hbi => ?_⟩
        rcases Nat.lt_succ_iff_lt_or_eq.1 hbi with hlt | heq
        · exact absurd (.inl ⟨0, hothers b hbF hbl hlt⟩) hid.not_left
        · simp [hnil, heq]
      · exact .inr ⟨hc', by omega⟩
  | dropEof hc hj hjr hroom =>
    simp only [MessageQueue.hasRoom, Option.all_some, hnil, List.length_nil,
      decide_eq_false_iff_not] at hroom
    omega
  | @skipSelf j hc hjr =>
    obtain rfl : i = j := by simpa [hF] using hc
    refine .calling (i + 1) hi (by simp) (.inl hnil) fun b hbF hbl => ?_
    have hbne : (b : ℕ) ≠ i := fun he => hbF (Fin.ext (by omega))
    simp only [State.goto_control, update_of_ne hbF]
    rcases hb b hbF hbl with ⟨hid, hq⟩ | ⟨hc', hlt⟩
    · exact .inl ⟨hid, fun hbi => hq (by omega)⟩
    · exact .inr ⟨hc', by omega⟩
  | @exit j hc hj =>
    obtain rfl : i = j := by simpa [hF] using hc
    omega
  | _ hc => simp [hF] at hc

/-- The first stage, at a rank that is called. -/
theorem calling_step_called {i : ℕ} (hi : i ≤ N - 1) (hF : s.control F = .broadcast i)
    (hrF : r ≠ F) (hid : Idle [1] r (s.control r))
    (hq : Calls F i s) (hb : Called F last i s)
    (h : Moves [1] (some Q) r s t) : Stage Q F last t := by
  rcases hid.moves h with rfl | ⟨m, q, hr, hm⟩
  · refine .calling i hi (by simpa only [State.goto_control, update_of_ne hrF.symm] using hF)
      (hq.imp_right ?_) fun b hbF hbl => ?_
    · rintro ⟨b, hbF, hbi, hid', hq⟩
      exact ⟨b, hbF, hbi, idle_goto_receive (P := (· = b)) (fun _ h => h ▸ hid') r b rfl, hq⟩
    · by_cases hbr : b = r
      · subst hbr
        rcases hb b hbF hbl with ⟨-, hq⟩ | ⟨hc, -⟩
        · exact .inl ⟨by simp [idle_receive], hq⟩
        · exact absurd (.inl ⟨0, hc⟩) hid.not_left
      · simpa only [State.goto_control, State.goto_queue, update_of_ne hbr] using hb b hbF hbl
  · -- the mark in the queue is for `r`
    rcases hq with hq | ⟨b₀, hb₀F, hb₀i, -, hq⟩
    · simp [receiveMessageForMe, hq] at hr
    rw [receiveMessageForMe, hq, MessageQueue.receive_singleton] at hr
    split_ifs at hr with hmt
    simp only [Option.some.injEq, Prod.mk.injEq] at hr
    obtain ⟨rfl, rfl⟩ := hr
    obtain rfl : b₀ = r := Fin.ext (by simpa using hmt)
    rcases hm with ⟨hne, -⟩ | ⟨-, rfl⟩
    · simp at hne
    · refine .calling i hi (by simpa only [State.goto_control, update_of_ne hb₀F.symm] using hF)
        (.inl rfl) fun b hbF hbl => ?_
      by_cases hbr : b = b₀
      · subst hbr
        exact .inr ⟨by simp, hb₀i⟩
      · simp only [State.goto_control, update_of_ne hbr]
        refine (hb b hbF hbl).imp_left (And.imp_right fun hq' hbi => ?_)
        have := hq' hbi
        rw [hq] at this
        simp only [List.cons.injEq, RankMessage.mk.injEq, Nat.add_right_cancel_iff,
          and_true] at this
        exact absurd (Fin.ext this.symm) hbr

/-- Once all ranks below the last have been called, none of them has sent a mark yet. -/
theorem calling_done {i : ℕ} (hF1 : (F : ℕ) = 1) (hlast : (last : ℕ) = N - 1) (hN : 4 ≤ N)
    (hF : s.control F = .broadcast i) (hFi : s.control F = .broadcast (N - 1))
    (hil : Idle [1] last (s.control last))
    (hq : Calls F i s) (hb : Called F last i s)
    (hleft : ∀ b, b ≠ last → Left (s.control b)) :
    (∀ b, b ≠ last → ∃ i ≤ N - 1, s.control b = .broadcast i) ∧
      marksSent s.control = 0 + (N - 2) ∧ s.queue = [] := by
  obtain rfl : i = N - 1 := by simpa [hF] using hFi
  have hzero : ∀ b, b ≠ F → b ≠ last → s.control b = .broadcast 0 := by
    intro b hbF hbl
    rcases hb b hbF hbl with ⟨hid, -⟩ | ⟨hc, -⟩
    · exact absurd (hleft b hbl) hid.not_left
    · exact hc
  have hnil : s.queue = [] := by
    rcases hq with hq | ⟨b, -, hbi, hid, -⟩
    · exact hq
    · have hbl : b ≠ last := fun he => by rw [he] at hbi; omega
      exact absurd (hleft b hbl) hid.not_left
  refine ⟨fun b hbl => ?_, ?_, hnil⟩
  · by_cases hbF : b = F
    · exact ⟨N - 1, le_rfl, hbF ▸ hF⟩
    · exact ⟨0, Nat.zero_le _, hzero b hbF hbl⟩
  · have hsum : marksSent s.control = sent F (s.control F) := by
      refine Finset.sum_eq_single F (fun b _ hbF => ?_) fun h => absurd (Finset.mem_univ F) h
      by_cases hbl : b = last
      · rw [hbl]; exact hil.sent
      · simp [hzero b hbF hbl, sent]
    rw [hsum, hF]
    simp only [sent, hF1]
    split_ifs <;> omega

/-- When all marks but those for the last rank are sent, the queue is full. -/
theorem filling_full {k : ℕ} (hlast : (last : ℕ) = N - 1) (hN : 4 ≤ N) (hQ : Q ≤ (N - 2) ^ 2)
    (hil : Idle [1] last (s.control last))
    (hb : ∀ b, b ≠ last → ∃ i ≤ N - 1, s.control b = .broadcast i)
    (hk : marksSent s.control = k + (N - 2)) (hq : s.queue.length = min Q k)
    (hall : Done last s) :
    s.queue.length = Q := by
  have hsent : ∀ b, sent b (s.control b) = if b = last then 0 else N - 2 := by
    intro b
    split_ifs with hbl
    · rw [hbl]; exact hil.sent
    · obtain ⟨i, hi, hc⟩ := hb b hbl
      obtain rfl : i = N - 1 := by
        rcases hall b hbl with ⟨j, hj, hc'⟩ | hc' <;> rw [hc] at hc' <;> cases hc'
        omega
      have hbN := lt_of_ne_last hlast hbl
      simp only [hc, sent, hbN, if_true]
      omega
  have hsum : marksSent s.control = (N - 1) * (N - 2) := by
    rw [marksSent, Finset.sum_congr rfl fun b _ => hsent b, Finset.sum_ite, Finset.sum_const_zero,
      Finset.filter_ne', Finset.sum_const, Finset.card_erase_of_mem (Finset.mem_univ last)]
    simp
  obtain ⟨n, rfl⟩ : ∃ n, N = n + 2 := ⟨N - 2, by omega⟩
  have hkn : k = n ^ 2 := by
    have : (n + 1) * n = n ^ 2 + n := by ring
    simp only [Nat.add_sub_cancel, show n + 2 - 1 = n + 1 by omega] at hsum hk
    omega
  rw [hq, hkn]
  exact min_eq_left (by simpa using hQ)

/-- The third stage. -/
theorem draining_step (hlast : (last : ℕ) = N - 1) (hr : r ≠ last) (hq : s.queue.length = Q)
    (hm : ∀ m ∈ s.queue, m.mtype < N)
    (hb : Done last s)
    (h : Moves [1] (some Q) r s t) : Stage Q F last t := by
  have hgo : ∀ c, ((∃ j, N - 1 ≤ j ∧ c = .broadcast j) ∨ c = .exited) →
      Stage Q F last (s.goto r c) := by
    intro c hc
    refine .draining hq hm fun b hbl => ?_
    by_cases hbr : b = r
    · subst hbr; simpa using hc
    · simpa only [State.goto_control, update_of_ne hbr] using hb b hbl
  have hrl := lt_of_ne_last hlast hr
  rcases hb r hr with ⟨j, hj, hc⟩ | hc
  · cases h with
    | sendEof hc' hi hne hroom => simp [hq] at hroom
    | @dropEof i hc' hi hne hroom =>
      rw [hc, Control.broadcast.injEq] at hc'
      exact hgo _ (.inl ⟨i + 1, by omega, rfl⟩)
    | @skipSelf i hc' hi =>
      rw [hc, Control.broadcast.injEq] at hc'
      omega
    | exit hc' hi => exact hgo _ (.inr rfl)
    | _ hc' => simp [hc] at hc'
  · cases h with
    | _ hc' => simp [hc] at hc'

/-- The next round of a broadcast, for a rank below the last. -/
theorem filling_round {k i : ℕ} {q : List RankMessage} (hrF : r ≠ F)
    (hF : s.control F = .broadcast (N - 1))
    (hb : ∀ b, b ≠ last → ∃ i ≤ N - 1, s.control b = .broadcast i) (hlt : i < N - 1)
    (hk : marksSent (update s.control r (.broadcast (i + 1))) = k + (N - 2))
    (hq : q.length = min Q k) (hm : ∀ m ∈ q, m.mtype < N) :
    Stage Q F last { s.goto r (.broadcast (i + 1)) with queue := q } := by
  refine .filling k (by simpa only [State.goto_control, update_of_ne hrF.symm] using hF)
    (fun b hbl => ?_) hk hq hm
  by_cases hbr : b = r
  · subst hbr
    exact ⟨i + 1, hlt, by simp⟩
  · simpa only [State.goto_control, update_of_ne hbr] using hb b hbl

/-- The second stage. -/
theorem filling_step {k : ℕ} (hlast : (last : ℕ) = N - 1) (hN : 4 ≤ N) (hQ : Q ≤ (N - 2) ^ 2)
    (hr : r ≠ last) (ha : Allowed F last r s) (hil : Idle [1] last (s.control last))
    (hF : s.control F = .broadcast (N - 1))
    (hb : ∀ b, b ≠ last → ∃ i ≤ N - 1, s.control b = .broadcast i)
    (hk : marksSent s.control = k + (N - 2)) (hq : s.queue.length = min Q k)
    (hm : ∀ m ∈ s.queue, m.mtype < N) (h : Moves [1] (some Q) r s t) : Stage Q F last t := by
  obtain ⟨i, hi, hc⟩ := hb r hr
  rcases hi.lt_or_eq with hlt | rfl
  · -- the next round of a broadcast, for a rank below the last
    have hrF : r ≠ F := by
      rintro rfl
      rw [hF, Control.broadcast.injEq] at hc
      omega
    have hsent := marksSent_update s.control r (.broadcast (i + 1))
    rw [hc, hk] at hsent
    simp only [sent, min_eq_left (show i ≤ N by omega), min_eq_left (show i + 1 ≤ N by omega)]
      at hsent
    cases h with
    | sendEof hc' hi' hne hroom =>
      obtain rfl := Control.broadcast.inj (hc.symm.trans hc')
      rw [MessageQueue.hasRoom_some] at hroom
      refine filling_round (k := k + 1) hrF hF hb hlt ?_ ?_ fun m hm' => ?_
      · split_ifs at hsent <;> omega
      · have hkQ : k < Q := lt_of_not_ge fun hle => hroom.ne (by rw [hq, min_eq_left hle])
        rw [List.length_append, List.length_singleton, hq, min_eq_right hkQ.le,
          min_eq_right (Nat.succ_le_of_lt hkQ)]
      · rcases List.mem_append.1 hm' with hm' | hm'
        · exact hm m hm'
        · rw [List.mem_singleton.1 hm']
          simp only
          omega
    | dropEof hc' hi' hne hroom =>
      obtain rfl := Control.broadcast.inj (hc.symm.trans hc')
      have hfull : Q ≤ s.queue.length := by simpa [MessageQueue.hasRoom] using hroom
      have hQk : Q ≤ k := hfull.trans (by rw [hq]; exact min_le_right ..)
      refine filling_round (k := k + 1) hrF hF hb hlt ?_ ?_ hm
      · split_ifs at hsent <;> omega
      · rw [hq, min_eq_left hQk, min_eq_left (Nat.le_succ_of_le hQk)]
    | skipSelf hc' hi' =>
      obtain rfl := Control.broadcast.inj (hc.symm.trans hc')
      refine filling_round hrF hF hb hlt ?_ hq hm
      split_ifs at hsent <;> omega
    | exit hc' hi' =>
      obtain rfl := Control.broadcast.inj (hc.symm.trans hc')
      omega
    | _ hc' => simp [hc] at hc'
  · -- all other marks are sent: the third stage
    have hall : Done last s := by
      simp only [Allowed, hc, lt_self_iff_false, if_false] at ha
      exact ha
    exact draining_step hlast hr (filling_full hlast hN hQ hil hb hk hq hall) hm hall h

/-- A step that the policy allows keeps the schedule in a stage. -/
theorem step_stage (hF : (F : ℕ) = 1) (hlast : (last : ℕ) = N - 1) (hN : 4 ≤ N) (hQ : 1 ≤ Q)
    (hQ' : Q ≤ (N - 2) ^ 2) (ha : Allowed F last r s) (hil : Idle [1] last (s.control last))
    (hs : Stage Q F last s) (h : Moves [1] (some Q) r s t) :
    Idle [1] last (t.control last) ∧ Stage Q F last t := by
  have hFl : F ≠ last := Fin.ne_of_val_ne (by omega)
  by_cases hr : r = last
  · subst hr
    obtain rfl := last_moves hlast hil hs h
    exact ⟨by simp [idle_receive], hs.last_receive hFl hlast hil⟩
  refine ⟨by rwa [h.control_of_ne (Ne.symm hr)], ?_⟩
  cases hs with
  | calling i hi hF' hq hb =>
    by_cases hrF : r = F
    · subst hrF
      exact calling_step_caller hN hF hlast hQ hF' ha hb h
    · rcases hb r hrF hr with ⟨hid, -⟩ | ⟨hc, -⟩
      · exact calling_step_called hi hF' hrF hid hq hb h
      · -- the first round of another broadcast
        have ha' := ha
        simp only [Allowed, hc, show 0 < N - 1 by omega, if_true, if_neg hrF] at ha'
        obtain ⟨hb', hk, hnil⟩ := calling_done hF hlast hN hF' ha'.1 hil hq hb ha'.2
        exact filling_step hlast hN hQ' hr ha hil ha'.1 hb' hk (by simp [hnil]) (by simp [hnil]) h
  | filling k hF' hb hk hq hm => exact filling_step hlast hN hQ' hr ha hil hF' hb hk hq hm h
  | draining hq hm hb => exact draining_step hlast hr hq hm hb h

/-- The policy allows no further step. -/
def Halted (Q : ℕ) (F last : Fin N) (s : State N) : Prop :=
  ∀ r, Allowed F last r s → step [1] (some Q) r s = none

/-- A broadcast never waits, so the policy must be what stops it. -/
theorem Halted.not_allowed (h : Halted Q F last s) {i : ℕ} (hc : s.control r = .broadcast i) :
    ¬ Allowed F last r s := by
  intro ha
  obtain ⟨j, hj, -⟩ | ⟨hj, -⟩ | hj := step_eq_none.1 (h r ha) <;> simp [hc] at hj

/-- A rank that waits is in `msgrcv`, and finds no mark. -/
theorem Halted.receive (h : Halted Q F last s) (hid : Idle [1] r (s.control r)) :
    s.control r = .receive ∧ receiveMessageForMe r s.queue = none := by
  have ha : Allowed F last r s := by
    obtain hc | ⟨i, -, hc, -⟩ := hid <;> simp [Allowed, hc]
  obtain ⟨j, hj, -⟩ | h | hj := step_eq_none.1 (h r ha)
  · simp [Idle, hj] at hid
  · exact h
  · simp [Idle, hj] at hid

/-- The first stage goes on: when all are called, rank 0 may start its broadcast. -/
theorem Halted.not_calling {i : ℕ} (h : Halted Q F last s) (hF : (F : ℕ) = 1)
    (hlast : (last : ℕ) = N - 1) (hN : 4 ≤ N) (hi : i ≤ N - 1) (hF' : s.control F = .broadcast i)
    (hq : Calls F i s) (hb : Called F last i s) : False := by
  have hnil : s.queue = [] := by
    obtain hq | ⟨b, -, -, hid, hq⟩ := hq
    · exact hq
    · have := MessageQueue.receive_eq_none.1 (h.receive hid).2 _ (by rw [hq]; exact .head _)
      simp at this
  have hiN : i = N - 1 := by
    by_contra hne
    exact h.not_allowed hF' (by simp [Allowed, hF', show i < N - 1 by omega, hnil])
  subst hiN
  have hleft : ∀ b, b ≠ last → Left (s.control b) := by
    intro b hbl
    by_cases hbF : b = F
    · exact .inl ⟨_, hbF ▸ hF'⟩
    · obtain ⟨-, hq'⟩ | ⟨hc, -⟩ := hb b hbF hbl
      · simp [hq' (lt_of_ne_last hlast hbl)] at hnil
      · exact .inl ⟨0, hc⟩
  have h0F : (⟨0, by omega⟩ : Fin N) ≠ F := Fin.ne_of_val_ne (by simp [hF])
  have h0l : (⟨0, by omega⟩ : Fin N) ≠ last := Fin.ne_of_val_ne (by simp only; omega)
  obtain ⟨hid, -⟩ | ⟨hc, -⟩ := hb _ h0F h0l
  · exact hid.not_left (hleft _ h0l)
  · refine h.not_allowed hc ?_
    simp only [Allowed, hc, show 0 < N - 1 by omega, if_true, if_neg h0F]
    exact ⟨hF', hleft⟩

/-- The second stage goes on: when all other marks are sent, `F` may send its mark for `last`. -/
theorem Halted.not_filling (h : Halted Q F last s) (hF' : s.control F = .broadcast (N - 1))
    (hb : ∀ b, b ≠ last → ∃ i ≤ N - 1, s.control b = .broadcast i) : False := by
  have hall : ∀ b, b ≠ last → s.control b = .broadcast (N - 1) := by
    intro b hbl
    obtain ⟨i, hi, hc⟩ := hb b hbl
    by_cases hiN : i = N - 1
    · rw [hc, hiN]
    · refine absurd ?_ (h.not_allowed hc)
      have hbF : b ≠ F := by
        rintro rfl
        rw [hF', Control.broadcast.injEq] at hc
        omega
      simp only [Allowed, hc, show i < N - 1 by omega, if_true, if_neg hbF]
      exact ⟨hF', fun b' hb' => .inl ((hb b' hb').imp fun _ h => h.2)⟩
  refine h.not_allowed hF' ?_
  simp only [Allowed, hF', lt_self_iff_false, if_false]
  exact fun b hbl => .inl ⟨_, le_rfl, hall b hbl⟩

/-- The third stage goes on until all but the last rank have exited. -/
theorem Halted.exited (h : Halted Q F last s) (hb : Done last s) {b : Fin N} (hbl : b ≠ last) :
    s.control b = .exited := by
  obtain ⟨j, hj, hc⟩ | hc := hb b hbl
  · refine absurd ?_ (h.not_allowed hc)
    simp only [Allowed, hc, not_lt.2 hj, if_false]
    exact hb
  · exact hc

/-- Where the policy allows no further step, the last rank is left behind. -/
theorem leavesBehind_of_stage (hF : (F : ℕ) = 1) (hlast : (last : ℕ) = N - 1) (hN : 4 ≤ N)
    (hil : Idle [1] last (s.control last)) (hs : Stage Q F last s) (h : Halted Q F last s) :
    s.LeavesBehind ∧ ∃ r, Left (s.control r) := by
  have hFl : F ≠ last := Fin.ne_of_val_ne (by omega)
  cases hs with
  | calling i hi hF' hq hb => exact (h.not_calling hF hlast hN hi hF' hq hb).elim
  | filling k hF' hb hk hq hm => exact (h.not_filling hF' hb).elim
  | draining hq hm hb =>
    obtain ⟨hreceive, hno⟩ := h.receive hil
    refine ⟨⟨⟨last, hreceive⟩, fun r hr => ?_, fun r hr => h.exited hb ?_⟩, F,
      .inr (h.exited hb hFl)⟩
    · obtain rfl : r = last := by
        by_contra hrl
        simp [h.exited hb hrl] at hr
      exact hno
    · rintro rfl
      exact hr hreceive

end Schedule

/-- Rank 1 sings the line alone and starts its broadcast. -/
theorem sing_alone (F : Fin N) (hF : (F : ℕ) = 1) :
    (machine N [1] (some Q)).run [F, F, F] (initial N [1]) =
      some { (initial N [1]).goto F (.broadcast 0) with printed := [(F, 1)] } := by
  simp [Machine.run, machine, step, initial, processingPhase, processStringLoop,
    processMyCharactersSequence, targetRank, hF, State.goto]

/-- With a queue for all marks of one broadcast, but not for more than `(N - 2) ^ 2`, some rank can
be left behind. -/
theorem exists_left_behind (hN : 2 ≤ N) (hQ : N - 1 ≤ Q) (hQ' : Q ≤ (N - 2) ^ 2) :
    ∃ s, (machine N [1] (some Q)).Reachable s ∧ s.output = [1] ∧ s.LeavesBehind := by
  have hN4 : 4 ≤ N := by
    by_contra hlt
    obtain rfl | rfl : N = 2 ∨ N = 3 := by omega
    all_goals simp at hQ hQ'; omega
  set F : Fin N := ⟨1, by omega⟩ with hFdef
  set last : Fin N := ⟨N - 1, by omega⟩ with hldef
  have hFl : last ≠ F := Fin.ne_of_val_ne (by simp only [hFdef, hldef]; omega)
  have hrun := sing_alone (Q := Q) F rfl
  set s₀ : State N := { (initial N [1]).goto F (.broadcast 0) with printed := [(F, 1)] } with hs₀
  have hreach : (machine N [1] (some Q)).Reachable s₀ := Machine.reachable_of_run rfl hrun
  have hidle : ∀ b : Fin N, b ≠ F → Idle [1] b (s₀.control b) := by
    intro b hb
    have : (b : ℕ) ≠ 1 := fun h => hb (Fin.ext h)
    refine .inr ⟨0, by simp, ?_, by simpa [targetRank] using this.symm⟩
    simp [hs₀, State.goto, update_of_ne hb, initial, processingPhase]
  have hstage : Stage Q F last s₀ := by
    refine .calling 0 (Nat.zero_le _) (by simp [hs₀, State.goto]) (.inl rfl) fun b hb _ => ?_
    exact .inl ⟨hidle b hb, fun h => absurd h (Nat.not_lt_zero _)⟩
  obtain ⟨t, ht, ⟨hil, hst, hsong⟩, hstuck⟩ :=
    Machine.exists_stuck_where (M := machine N [1] (some Q)) (P := Allowed F last)
      (I := fun s => Idle [1] last (s.control last) ∧ Stage Q F last s ∧ Song [1] s)
      (songMeasure [1])
      (fun r s s' hI ha h => by
        obtain ⟨h₁, h₂⟩ := step_stage rfl rfl hN4 (by omega) hQ' ha hI.1 hI.2.1 (step_moves h)
        exact ⟨⟨h₁, h₂, step_song hI.2.2 h⟩, songMeasure_lt hI.2.2 h⟩)
      ⟨hidle last hFl, hstage, reachable_song hreach⟩
  obtain ⟨hbehind, r, hr⟩ := leavesBehind_of_stage rfl rfl hN4 hil hst hstuck
  exact ⟨t, hreach.leads ht, hsong.output_eq (hsong.phase.printed_of_left hr), hbehind⟩

/-- **The end of the song reaches everyone exactly when the queue is large enough.** For `N`
processes and a queue of `Q` messages, in no interleaving on any line is a rank left behind in
`msgrcv` after the line is printed, if and only if `(N - 2) ^ 2 < Q`. -/
theorem eof_reaches_everyone_iff (N Q : ℕ) (hN : 2 ≤ N) (hQ : N - 1 ≤ Q) :
    (∀ input s, (machine N input (some Q)).Reachable s → s.output = input → ¬ s.LeavesBehind) ↔
      (N - 2) ^ 2 < Q := by
  constructor
  · intro h
    by_contra hlt
    obtain ⟨s, hs, ho, hb⟩ := exists_left_behind hN hQ (not_lt.1 hlt)
    exact h [1] s hs ho hb
  · intro hlt input s hs ho
    exact leavesNobody_of_lt hlt hs ho

/-- Three processes and a queue of two messages: nobody is left behind. -/
theorem eof_reaches_three : (3 - 2) ^ 2 < 2 ∧
    ((∀ input s, (machine 3 input (some 2)).Reachable s → s.output = input → ¬ s.LeavesBehind) ↔
      (3 - 2) ^ 2 < 2) :=
  ⟨by decide, eof_reaches_everyone_iff 3 2 (by decide) (by decide)⟩

/-- Four processes and a queue of three messages, the length of one broadcast. -/
theorem four_leave_one_behind :
    ¬ ∀ input s, (machine 4 input (some 3)).Reachable s → s.output = input → ¬ s.LeavesBehind := by
  intro h
  obtain ⟨s, hs, ho, hb⟩ := exists_left_behind (N := 4) (Q := 3) (by decide) (by decide) (by decide)
  exact h [1] s hs ho hb

end SemOS.Bogatyri.Msgq
