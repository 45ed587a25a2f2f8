import SemOS.Bogatyri.MsgqProgress
import Mathlib.Algebra.BigOperators.Ring.Finset
import Mathlib.Tactic.Linarith

/-!
# The end of the song reaches every process

The end-of-file marks are sent with `IPC_NOWAIT`, so a mark for a full queue is lost, and the
queue also fills with marks for processes that have already gone. The marks in a queue of capacity
`Q` are counted: all processes that are past their loop have together sent at least as many marks
as there are in the queue and have been received (`Marks.bound`). While process `r` has not
received, nobody before its send to `r` has sent more than `N - 2` marks, so at most
`(N - 2) ^ 2` marks can be in the queue when the first mark for `r` is sent.

* `leavesNobody_of_lt`: with `(N - 2) ^ 2 < Q` a waiting process always has a mark once some
  other process is past its send to it.
* `exists_left_behind`: with `N - 1 ≤ Q ≤ (N - 2) ^ 2` a schedule fills the queue before the
  first mark for the last rank is sent, and every such mark is lost.
-/

namespace SemOS.Bogatyri.Msgq

open Function

variable {N : ℕ} {input : List UInt8} {cap : Option ℕ} {r h : Fin N} {s t : State N} {Q : ℕ}

/-- Some process waits in `msgrcv`, no waiting process has a message of its type, and all others
have exited. -/
def State.LeavesBehind (s : State N) : Prop :=
  (∃ r, s.control r = .receive) ∧
    (∀ r : Fin N, s.control r = .receive → receiveMessageForMe r s.queue = none) ∧
    ∀ r, s.control r ≠ .receive → s.control r = .exited

/-- The marks that process `b` has sent or tried to send. -/
def sent (b : Fin N) : Control → ℕ
  | .broadcast i => min i N - if (b : ℕ) < i then 1 else 0
  | .exited => N - 1
  | _ => 0

/-- Whether a process is past its loop, as a number. -/
def hasLeft : Control → ℕ
  | .broadcast _ => 1
  | .exited => 1
  | _ => 0

/-- The number of processes that are past their loop. -/
def departed (c : Fin N → Control) : ℕ := ∑ b, hasLeft (c b)

/-- The marks that all processes have sent or tried to send. -/
def marksSent (c : Fin N → Control) : ℕ := ∑ b, sent b (c b)

theorem departed_update (c : Fin N → Control) (r : Fin N) (k : Control) :
    departed (update c r k) + hasLeft (c r) = departed c + hasLeft k :=
  Processes.sum_update (fun _ => hasLeft) c r k

theorem marksSent_update (c : Fin N → Control) (r : Fin N) (k : Control) :
    marksSent (update c r k) + sent r (c r) = marksSent c + sent r k :=
  Processes.sum_update sent c r k

/-- A broadcaster is past its send to rank `r`. -/
def Passed (r : ℕ) (c : Control) : Prop := (∃ i, c = .broadcast i ∧ r < i) ∨ c = .exited

theorem Idle.hasLeft {c : Control} (hc : Idle input r c) : hasLeft c = 0 := by
  rcases hc with rfl | ⟨i, -, rfl, -⟩ <;> rfl

theorem Idle.sent {c : Control} (hc : Idle input r c) : sent r c = 0 := by
  rcases hc with rfl | ⟨i, -, rfl, -⟩ <;> rfl

theorem hasLeft_of_left {c : Control} (hc : Left c) : hasLeft c = 1 := by
  rcases hc with ⟨i, rfl⟩ | rfl <;> rfl

theorem Passed.left {c : Control} {k : ℕ} (hc : Passed k c) : Left c := by
  rcases hc with ⟨i, rfl, -⟩ | rfl
  · exact .inl ⟨i, rfl⟩
  · exact .inr rfl

/-- The marks of the closing phase. -/
structure Marks (input : List UInt8) (s : State N) : Prop where
  /-- The marks in the queue, and those received by all but the first process that left. -/
  bound : s.queue.length + departed s.control ≤ marksSent s.control + 1
  /-- A waiting process has a mark as soon as one broadcaster is past it. -/
  reached : ∀ r : Fin N, Idle input r (s.control r) → ∀ b, Passed r (s.control b) →
    ∃ m ∈ s.queue, m.mtype = r + 1

theorem departed_eq_zero (hl : ∀ b, ¬ Left (s.control b)) : departed s.control = 0 := by
  refine Finset.sum_eq_zero fun b _ => ?_
  have := hl b
  unfold Left at this
  unfold hasLeft
  split <;> simp_all

/-- Before the first process leaves its loop there is at most one message. -/
theorem marks_of_none_left (hq : s.queue.length ≤ 1) (hc : ∀ b, ¬ Left (s.control b)) :
    Marks input s := by
  refine ⟨?_, fun r _ b hb => absurd hb.left (hc b)⟩
  have := departed_eq_zero hc
  omega

/-- A queue with more than `(N - 2) ^ 2` marks cannot be that of broadcasters which have not
passed the waiting process `r`. -/
theorem Marks.length_le (hm : Marks input s) (hr : Idle input r (s.control r))
    (hc : ∀ b, Idle input b (s.control b) ∨ Left (s.control b)) (hl : Left (s.control h))
    (hp : ∀ b, ¬ Passed r (s.control b)) : s.queue.length ≤ (N - 2) ^ 2 := by
  have hsent : ∀ b, sent b (s.control b) ≤ hasLeft (s.control b) * (N - 2) := by
    intro b
    rcases hc b with hi | ⟨i, hi⟩ | hi
    · rcases hi with hb | ⟨i, -, hb, -⟩ <;> simp [hb, sent]
    · have hbr : b ≠ r := fun he => hr.not_left (by rw [← he, hi]; exact .inl ⟨i, rfl⟩)
      have hir : i ≤ r := by
        by_contra hlt
        exact hp b (.inl ⟨i, hi, not_le.1 hlt⟩)
      have := Fin.val_ne_of_ne hbr
      have := b.isLt
      have := r.isLt
      simp only [hi, sent, hasLeft, one_mul]
      split_ifs <;> omega
    · exact absurd (.inr hi) (hp b)
  -- the broadcasters: at least `h`, and not `r`
  have hone : 1 ≤ departed s.control :=
    (hasLeft_of_left hl).symm.le.trans (Processes.le_sum (fun b => hasLeft (s.control b)) h)
  have hlt : departed s.control < N := by
    have : ∑ b, hasLeft (s.control b) < ∑ _b : Fin N, 1 := by
      refine Finset.sum_lt_sum (fun b _ => ?_) ⟨r, Finset.mem_univ r, by simp [hr.hasLeft]⟩
      unfold hasLeft
      split <;> omega
    simpa [departed] using this
  have htotal : marksSent s.control ≤ departed s.control * (N - 2) := by
    rw [departed, Finset.sum_mul]
    exact Finset.sum_le_sum fun b _ => hsent b
  have hbound := hm.bound
  generalize departed s.control = m at hone hlt htotal hbound
  obtain ⟨k, rfl⟩ : ∃ k, N = k + 2 := ⟨N - 2, by omega⟩
  simp only [Nat.add_sub_cancel] at htotal ⊢
  -- `m (k - 1) + 1 ≤ (k + 1) (k - 1) + 1 = k ^ 2`
  rcases Nat.eq_zero_or_pos k with rfl | hk
  · omega
  · have hmk : m ≤ k + 1 := by omega
    nlinarith [mul_nonneg (sub_nonneg.2 (Int.ofNat_le.2 hmk)) (sub_nonneg.2 (Int.ofNat_le.2 hk))]

/-! ## One step of the closing phase -/

/-- A waiting process that was not moved was waiting before. -/
theorem idle_of_update {c : Control} (hc : Left c) {r' : Fin N}
    (hi : Idle input r' (update s.control r c r')) : r' ≠ r ∧ Idle input r' (s.control r') := by
  by_cases hr : r' = r
  · subst hr
    rw [update_self] at hi
    exact absurd hc hi.not_left
  · rw [update_of_ne hr] at hi
    exact ⟨hr, hi⟩

/-- The marks after a broadcaster's round for rank `i`, which leaves the queue `q`. -/
theorem Marks.round {q : List RankMessage} {i : ℕ} (hm : Marks input s)
    (hc : s.control r = .broadcast i) (hi : i < N) (hsub : ∀ m ∈ s.queue, m ∈ q)
    (hq : q.length + (if i = r then 1 else 0) ≤ s.queue.length + 1)
    (hi' : ∀ r' : Fin N, (r' : ℕ) = i → Idle input r' (s.control r') →
      ∃ m ∈ q, m.mtype = r' + 1) :
    Marks input { s.goto r (.broadcast (i + 1)) with queue := q } := by
  constructor
  · have hb := hm.bound
    have hl := departed_update s.control r (.broadcast (i + 1))
    have hs := marksSent_update s.control r (.broadcast (i + 1))
    simp only [hc, hasLeft] at hl
    simp only [hc, sent, min_eq_left (Nat.succ_le_of_lt hi), min_eq_left hi.le] at hs
    simp only [State.goto_control]
    split_ifs at hs hq <;> omega
  · intro r' hr' b hb
    obtain ⟨hne, hidle⟩ := idle_of_update (.inl ⟨_, rfl⟩) hr'
    by_cases hbr : b = r
    · subst hbr
      -- the round is for `r'` itself, or an earlier one was
      rcases Nat.lt_or_ge r' i with hlt | hge
      · obtain ⟨m, hm', ht⟩ := hm.reached r' hidle b (.inl ⟨i, hc, hlt⟩)
        exact ⟨m, hsub m hm', ht⟩
      · refine hi' r' ?_ hidle
        rcases hb with ⟨j, hj, hlt⟩ | hj
        · simp only [State.goto_control, update_self, Control.broadcast.injEq] at hj
          omega
        · simp at hj
    · simp only [State.goto_control, update_of_ne hbr] at hb
      obtain ⟨m, hm', ht⟩ := hm.reached r' hidle b hb
      exact ⟨m, hsub m hm', ht⟩

/-- The marks when a process goes into `msgrcv`: nothing is sent, received or left. -/
theorem Marks.wait (hm : Marks input s) (hidle : Idle input r (s.control r)) :
    Marks input (s.goto r .receive) := by
  have hl := departed_update s.control r .receive
  have hs := marksSent_update s.control r .receive
  refine ⟨?_, fun r' hr' b hb => ?_⟩
  · have hb := hm.bound
    rw [hidle.hasLeft] at hl
    rw [hidle.sent] at hs
    simp only [hasLeft, sent] at hl hs
    simp only [State.goto_control, State.goto_queue]
    omega
  · have hne : b ≠ r := by
      rintro rfl
      simp [Passed] at hb
    simp only [State.goto_control, update_of_ne hne] at hb
    refine hm.reached r' ?_ b hb
    by_cases hrr : r' = r
    · subst hrr
      exact hidle
    · simpa only [State.goto_control, update_of_ne hrr] using hr'

/-- The marks when a process receives one. -/
theorem Marks.receive {m : RankMessage} {q : List RankMessage} (hm : Marks input s)
    (hidle : Idle input r (s.control r)) (hr : receiveMessageForMe r s.queue = some (m, q)) :
    Marks input { s.goto r (.broadcast 0) with queue := q } := by
  have hl := departed_update s.control r (.broadcast 0)
  have hs := marksSent_update s.control r (.broadcast 0)
  refine ⟨?_, fun r' hr' b hb => ?_⟩
  · have hb := hm.bound
    have hlen := MessageQueue.length_receive hr
    rw [hidle.hasLeft] at hl
    rw [hidle.sent] at hs
    simp only [hasLeft, sent] at hl hs
    simp only [State.goto_control]
    omega
  · obtain ⟨hne, hidle'⟩ := idle_of_update (.inl ⟨_, rfl⟩) hr'
    have hbr : b ≠ r := by
      rintro rfl
      simp [Passed] at hb
    simp only [State.goto_control, update_of_ne hbr] at hb
    obtain ⟨m', hm', ht⟩ := hm.reached r' hidle' b hb
    obtain rfl | hm' := (MessageQueue.mem_receive_iff hr).1 hm'
    · -- the mark received was for `r`, not for `r'`
      have hmr : m'.mtype = r + 1 := by simpa using MessageQueue.receive_pred hr
      exact absurd (Fin.ext (by omega)) hne
    · exact ⟨m', hm', ht⟩

/-- The marks when a broadcaster exits. -/
theorem Marks.exit {i : ℕ} (hm : Marks input s) (hc : s.control r = .broadcast i) (hi : N ≤ i) :
    Marks input (s.goto r .exited) := by
  have hl := departed_update s.control r .exited
  have hs := marksSent_update s.control r .exited
  refine ⟨?_, fun r' hr' b hb => ?_⟩
  · have hb := hm.bound
    have hrN : (r : ℕ) < i := by
      have := r.isLt
      omega
    simp only [hc, hasLeft] at hl
    simp only [hc, sent, min_eq_right hi, hrN, if_true] at hs
    simp only [State.goto_control, State.goto_queue]
    omega
  · obtain ⟨hne, hidle⟩ := idle_of_update (.inr rfl) hr'
    by_cases hbr : b = r
    · subst hbr
      exact hm.reached r' hidle b (.inl ⟨i, hc, by have := r'.isLt; omega⟩)
    · simp only [State.goto_control, update_of_ne hbr] at hb
      exact hm.reached r' hidle b hb

/-- The marks survive a step of the closing phase when the queue is large enough. -/
theorem step_marks_closing (hm : Marks input s) (hQ : (N - 2) ^ 2 < Q)
    (hq : ∀ m ∈ s.queue, m.currentIndex = -1)
    (hc : ∀ r, Idle input r (s.control r) ∨ Left (s.control r))
    (h : Moves input (some Q) r s t) : Marks input t := by
  obtain hidle | hleft := hc r
  · obtain rfl | ⟨m, q, hr, ⟨hne, -⟩ | ⟨-, rfl⟩⟩ := hidle.moves h
    · exact hm.wait hidle
    · exact absurd (hq m (MessageQueue.mem_of_receive hr)) hne
    · exact hm.receive hidle hr
  · cases h with
    | @sendEof i hc' hi hr hs =>
      refine hm.round hc' hi (fun m hm => List.mem_append_left _ hm) (by simp [hr]) ?_
      intro r' hr' _
      exact ⟨⟨i + 1, -1⟩, by simp, by simp [hr']⟩
    | @dropEof i hc' hi hr hs =>
      refine hm.round (q := s.queue) hc' hi (fun m hm => hm) (by simp [hr]) ?_
      intro r' hr' hidle
      -- the queue is too full for a state in which nobody has passed `r'`
      have hfull : Q ≤ s.queue.length := by
        simpa [MessageQueue.hasRoom] using hs
      by_contra hno
      have := hm.length_le hidle hc hleft fun b hb => hno (hm.reached r' hidle b hb)
      omega
    | @skipSelf i hc' hr =>
      refine hm.round (q := s.queue) hc' (by omega) (fun m hm => hm) (by simp [hr]) ?_
      intro r' hr' hidle
      have : r' = r := Fin.ext (by omega)
      subst this
      exact absurd hleft hidle.not_left
    | exit hc' hi => exact hm.exit hc' hi
    | _ hc' => simp [Left, hc'] at hleft

/-! ## Runs -/

/-- Whoever neither waits nor has left is alone with an empty queue. -/
theorem Phase.queue_eq_nil (hs : Phase input s) (hi : ¬ Idle input r (s.control r))
    (hl : ¬ Left (s.control r)) : s.queue = [] := by
  cases hs with
  | held h hp hq => exact hq
  | flying hp hq hi' => exact absurd (hi' r) hi
  | orphan hp hN hq => exact hq
  | spent h hp hq => exact hq
  | closing hp hq hc => exact ((hc r).elim hi hl).elim

/-- The marks after a step before which nobody has left. -/
theorem step_marks_singing (hs : Phase input s) (hq : s.queue.length ≤ 1)
    (hl : ∀ b, ¬ Left (s.control b)) (h : Moves input cap r s t) : Marks input t := by
  have hstay : ∀ c, ¬ Left c → ∀ b, ¬ Left (update s.control r c b) := by
    intro c hc b
    by_cases hb : b = r
    · subst hb; rwa [update_self]
    · rw [update_of_ne hb]; exact hl b
  -- the first process to leave finds or makes the queue empty
  have hleave : ∀ q, q.length = 0 → Marks input { s.goto r (.broadcast 0) with queue := q } := by
    intro q hq0
    refine ⟨?_, fun r' _ b hb => ?_⟩
    · have := departed_update s.control r (.broadcast 0)
      rw [departed_eq_zero hl] at this
      simp only [hasLeft] at this
      simp only [State.goto_control]
      omega
    · by_cases hbr : b = r
      · subst hbr; simp [Passed] at hb
      · simp only [State.goto_control, update_of_ne hbr] at hb
        exact absurd hb.left (hl b)
  cases h with
  | enter | wait | endOfRun => exact marks_of_none_left hq (hstay _ (by simp [Left]))
  | print => exact marks_of_none_left hq (hstay _ (by simp [Left]))
  | hand hc hr =>
    have hnil := hs.queue_eq_nil (r := r) (by simp [Idle, hc]) (hl r)
    exact marks_of_none_left (by simp [hnil]) (hstay _ (by simp [Left]))
  | index hc hq' hm =>
    have := MessageQueue.length_receive hq'
    exact marks_of_none_left (by simp only; omega) (hstay _ (by simp [Left]))
  | @finish i hc hi =>
    have hnil := hs.queue_eq_nil (r := r) (by simp [Idle, hc]; omega) (hl r)
    exact hleave s.queue (by simp [hnil])
  | endOfString hc hi =>
    have hnil := hs.queue_eq_nil (r := r) (by simp [Idle, hc]) (hl r)
    exact hleave s.queue (by simp [hnil])
  | eof hc hq' hm =>
    have := MessageQueue.length_receive hq'
    exact hleave _ (by omega)
  | _ hc => exact absurd (by simp [Left, hc]) (hl r)

/-- The marks along a step of a song. -/
theorem step_marks (hs : Phase input s) (hm : Marks input s) (hQ : (N - 2) ^ 2 < Q)
    (h : Moves input (some Q) r s t) : Marks input t := by
  have hidle : ∀ b, Idle input b (s.control b) → ¬ Left (s.control b) := fun b => Idle.not_left
  cases hs with
  | closing hp hq hc => exact step_marks_closing hm hQ hq hc h
  | held h' hp hq hh hi =>
    refine step_marks_singing (.held h' hp hq hh hi) (by simp [hq]) (fun b => ?_) h
    by_cases hb : b = h'
    · subst hb
      rcases hh with ⟨hc, -⟩ | hc | ⟨hc, -⟩ <;> simp [Left, hc]
    · exact hidle b (hi b hb)
  | flying hp hq hi =>
    exact step_marks_singing (.flying hp hq hi) (by simp [hq]) (fun b => hidle b (hi b)) h
  | orphan hp hN hq hi =>
    exact step_marks_singing (.orphan hp hN hq hi) (by simp [hq]) (fun b => hidle b (hi b)) h
  | spent h' hp hq hh hi =>
    refine step_marks_singing (.spent h' hp hq hh hi) (by simp [hq]) (fun b => ?_) h
    by_cases hb : b = h'
    · subst hb; simp [Left, hh]
    · exact hidle b (hi b hb)

/-- The marks of every reachable state of a non-empty line. -/
theorem reachable_marks (hne : input ≠ []) (hQ : (N - 2) ^ 2 < Q)
    (hs : (machine N input (some Q)).Reachable s) : Phase input s ∧ Marks input s := by
  refine hs.invariant (I := fun s => Phase input s ∧ Marks input s) (fun s h => ?_)
    fun l s s' hI hl => ?_
  · subst h
    refine ⟨(initial_song N input).phase, marks_of_none_left (by simp [initial]) fun b => ?_⟩
    simp [initial, processingPhase, hne, Left]
  · exact ⟨step_phase hI.1 (step_moves hl), step_marks hI.1 hI.2 hQ (step_moves hl)⟩

/-- On an empty line every process goes straight to its broadcast. -/
theorem left_of_nil (hs : (machine N [] cap).Reachable s) : ∀ b, Left (s.control b) := by
  refine hs.invariant (I := fun s => ∀ b, Left (s.control b)) (fun s h b => ?_)
    fun l s s' hI hl b => ?_
  · subst h
    exact .inl ⟨0, by simp [initial, processingPhase]⟩
  · have hm := step_moves hl
    have hgo : ∀ c, Left c → Left (update s.control l c b) := by
      intro c hc
      by_cases hb : b = l
      · subst hb; rwa [update_self]
      · rw [update_of_ne hb]; exact hI b
    have hl' := hI l
    cases hm with
    | sendEof | dropEof | skipSelf => exact hgo _ (.inl ⟨_, rfl⟩)
    | exit => exact hgo _ (.inr rfl)
    | _ hc => simp [Left, hc] at hl'

/-- With a queue of more than `(N - 2) ^ 2` messages nobody is left behind. -/
theorem leavesNobody_of_lt (hQ : (N - 2) ^ 2 < Q)
    (hs : (machine N input (some Q)).Reachable s) (ho : s.output = input) : ¬ s.LeavesBehind := by
  rintro ⟨⟨r, hr⟩, hno, hex⟩
  by_cases hne : input = []
  · subst hne
    have := left_of_nil hs r
    simp [Left, hr] at this
  obtain ⟨hphase, hmarks⟩ := reachable_marks hne hQ hs
  -- some other process has exited: not all of them wait in `msgrcv`
  have hout : ∃ b, s.control b = .exited := by
    by_contra hnone
    have hall : ∀ b, s.control b = .receive := fun b => by
      by_contra hb
      exact hnone ⟨b, hex b hb⟩
    cases hphase with
    | held h hp | flying hp | orphan hp =>
      rw [← s.length_output, ho] at hp
      exact absurd hp (lt_irrefl _)
    | spent h hp hq hh => simp [hall h] at hh
    | closing hp hq hc hl =>
      obtain ⟨b, hb⟩ := hl.resolve_left hne
      simp [Left, hall b] at hb
  obtain ⟨b, hb⟩ := hout
  obtain ⟨m, hm, ht⟩ := hmarks.reached r (hr ▸ idle_receive) b (.inr hb)
  have := MessageQueue.receive_eq_none.1 (hno r hr) m hm
  simp [ht] at this

end SemOS.Bogatyri.Msgq
