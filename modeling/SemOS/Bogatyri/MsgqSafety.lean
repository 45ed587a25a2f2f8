import SemOS.Bogatyri.Msgq
import Mathlib.Data.Fintype.Card
import Mathlib.Data.List.GetD

/-!
# Safety of the bogatyri over a message queue

All processes run the same loop from index `0`, so who may print is a property of all local
indices together with the queue. The song goes through the phases of `Phase`: while characters
are left, either one process holds the turn and the queue is empty, or the queue holds exactly the
message that carries the turn; the end-of-file marks come only after the last character.
`Song` adds what has been printed and by whom, `step_song` is its preservation by one step, and
`reachable_song` its validity in every reachable state, for every capacity of the queue.
-/

namespace SemOS.Bogatyri.Msgq

open Function

variable {N : ℕ} {input : List UInt8} {cap : Option ℕ} {r h : Fin N} {s t : State N} {p : ℕ}

/-- The message that hands the turn over at index `i`. -/
def indexMessage (input : List UInt8) (i : ℕ) : RankMessage := ⟨targetRank input i + 1, i⟩

/-- Process `r` has the turn, at index `p`. -/
def Holds (input : List UInt8) (p : ℕ) (r : Fin N) (c : Control) : Prop :=
  (c = .loop p ∧ targetRank input p = r) ∨ c = .sequence p ∨
    (c = .handOver p ∧ targetRank input p ≠ r)

/-- Process `r` waits for its turn: it is in `msgrcv`, or its index points to the character of
another rank. -/
def Idle (input : List UInt8) (r : Fin N) (c : Control) : Prop :=
  c = .receive ∨ ∃ i < input.length, c = .loop i ∧ targetRank input i ≠ r

/-- The control points after `process_string_loop`. -/
def Left (c : Control) : Prop := (∃ i, c = .broadcast i) ∨ c = .exited

/-- Where the song is. -/
inductive Phase (input : List UInt8) (s : State N) : Prop
  /-- Process `h` has the turn. -/
  | held (h : Fin N) (hp : s.printed.length < input.length) (hq : s.queue = [])
      (hh : Holds input s.printed.length h (s.control h))
      (hi : ∀ r, r ≠ h → Idle input r (s.control r))
  /-- The turn is in the queue. -/
  | flying (hp : s.printed.length < input.length)
      (hq : s.queue = [indexMessage input s.printed.length])
      (hi : ∀ r, Idle input r (s.control r))
  /-- The first character belongs to no process. -/
  | orphan (hp : s.printed.length < input.length) (hN : N ≤ targetRank input 0) (hq : s.queue = [])
      (hi : ∀ r, Idle input r (s.control r))
  /-- Process `h` has printed the last character and is still in its loop. -/
  | spent (h : Fin N) (hp : s.printed.length = input.length) (hq : s.queue = [])
      (hh : s.control h = .sequence input.length) (hi : ∀ r, r ≠ h → Idle input r (s.control r))
  /-- The end-of-file marks travel. -/
  | closing (hp : s.printed.length = input.length) (hq : ∀ m ∈ s.queue, m.currentIndex = -1)
      (hc : ∀ r, Idle input r (s.control r) ∨ Left (s.control r))
      (hl : input = [] ∨ ∃ r, Left (s.control r))

/-- The state of a song: the phase, the text printed so far, and its printers. -/
structure Song (input : List UInt8) (s : State N) : Prop where
  phase : Phase input s
  output : s.output = input.take s.printed.length
  own : ∀ x ∈ s.printed, (x.1 : ℕ) = x.2.toNat

/-! ## One step -/

theorem idle_receive : Idle input r .receive := .inl rfl

theorem Idle.not_left {c : Control} (hc : Idle input r c) : ¬ Left c := by
  rcases hc with rfl | ⟨i, -, rfl, -⟩ <;> simp [Left]

/-- A waiting process either goes into `msgrcv` or takes a message of its type. -/
theorem Idle.moves (hc : Idle input r (s.control r)) (hm : Moves input cap r s t) :
    t = s.goto r .receive ∨ ∃ m q, receiveMessageForMe r s.queue = some (m, q) ∧
      ((m.currentIndex ≠ -1 ∧ t = { s.goto r (.loop m.currentIndex.toNat) with queue := q }) ∨
        (m.currentIndex = -1 ∧ t = { s.goto r (.broadcast 0) with queue := q })) := by
  cases hm with
  | enter hc' hi ht =>
    rcases hc with h | ⟨i, -, h, ht'⟩ <;> rw [hc'] at h
    · cases h
    · cases h; exact absurd ht ht'
  | wait => exact .inl rfl
  | finish hc' hi =>
    rcases hc with h | ⟨i, hi', h, -⟩ <;> rw [hc'] at h
    · cases h
    · cases h; omega
  | index _ hq hm => exact .inr ⟨_, _, hq, .inl ⟨hm, rfl⟩⟩
  | eof _ hq hm => exact .inr ⟨_, _, hq, .inr ⟨hm, rfl⟩⟩
  | _ hc' => rcases hc with h | ⟨i, -, h, -⟩ <;> rw [hc'] at h <;> cases h

theorem idle_goto {c : Control} (hi : ∀ r, r ≠ h → Idle input r (s.control r)) :
    ∀ r, r ≠ h → Idle input r ((s.goto h c).control r) := by
  intro r hr
  rw [State.goto_control, update_of_ne hr]
  exact hi r hr

/-- A set of waiting processes stays one when a process goes into `msgrcv`. -/
theorem idle_goto_receive {P : Fin N → Prop} (hi : ∀ r, P r → Idle input r (s.control r))
    (r' : Fin N) : ∀ r, P r → Idle input r ((s.goto r' .receive).control r) := by
  intro r hr
  by_cases hrr : r = r'
  · subst hrr; simp [idle_receive]
  · rw [State.goto_control, update_of_ne hrr]
    exact hi r hr

/-- In an empty queue there is nothing to receive. -/
theorem Idle.moves_of_empty (hc : Idle input r (s.control r)) (hq : s.queue = [])
    (hm : Moves input cap r s t) : t = s.goto r .receive := by
  rcases hc.moves hm with rfl | ⟨m, q, hr, -⟩
  · rfl
  · simp [receiveMessageForMe, hq] at hr

/-- The phase after a step of the process that has the turn. -/
theorem phase_of_holder (hp : s.printed.length < input.length) (hq : s.queue = [])
    (hh : Holds input s.printed.length h (s.control h))
    (hi : ∀ r, r ≠ h → Idle input r (s.control r)) (hm : Moves input cap h s t) :
    Phase input t := by
  cases hm with
  | enter hc hi' ht =>
    simp only [Holds, hc, Control.loop.injEq, reduceCtorEq, false_and, or_false] at hh
    obtain ⟨rfl, -⟩ := hh
    exact .held h hp hq (by simp [Holds]) (idle_goto hi)
  | wait hc hi' ht =>
    simp only [Holds, hc, Control.loop.injEq, reduceCtorEq, false_and, or_false] at hh
    obtain ⟨rfl, ht'⟩ := hh
    exact absurd ht' ht
  | finish hc hi' =>
    simp only [Holds, hc, Control.loop.injEq, reduceCtorEq, false_and, or_false] at hh
    omega
  | print hc hi' ht =>
    simp only [Holds, hc, Control.sequence.injEq, reduceCtorEq, false_and, or_false,
      false_or] at hh
    subst hh
    rcases Nat.lt_or_ge (s.printed.length + 1) input.length with hlt | hge
    · exact .held h (by simpa using hlt) hq (by simp [Holds]) (idle_goto hi)
    · have hlen : s.printed.length + 1 = input.length := by omega
      exact .spent h (by simpa using hlen) hq (by simp [hlen]) (idle_goto hi)
  | endOfRun hc hi' ht =>
    simp only [Holds, hc, Control.sequence.injEq, reduceCtorEq, false_and, or_false,
      false_or] at hh
    subst hh
    exact .held h hp hq (by simpa [Holds] using ht) (idle_goto hi)
  | endOfString hc hi' =>
    simp only [Holds, hc, Control.sequence.injEq, reduceCtorEq, false_and, or_false,
      false_or] at hh
    omega
  | hand hc hr =>
    simp only [Holds, hc, Control.handOver.injEq, reduceCtorEq, false_and, false_or] at hh
    obtain ⟨rfl, ht⟩ := hh
    refine .flying hp (by simp [hq, indexMessage]) fun r => ?_
    by_cases hr' : r = h
    · subst hr'
      exact .inr ⟨_, hp, by simp, ht⟩
    · exact idle_goto hi r hr'
  | _ hc => simp [Holds, hc] at hh

/-- The phase after a step once the last character is printed. -/
theorem phase_of_closing (hp : s.printed.length = input.length)
    (hq : ∀ m ∈ s.queue, m.currentIndex = -1)
    (hc : ∀ r, Idle input r (s.control r) ∨ Left (s.control r))
    (hl : input = [] ∨ ∃ r, Left (s.control r)) (hm : Moves input cap r s t) : Phase input t := by
  -- where process `r` goes is all that changes in the processes
  have hgo : ∀ c, (Idle input r c ∨ Left c) →
      ∀ r', Idle input r' (update s.control r c r') ∨ Left (update s.control r c r') := by
    intro c hc' r'
    by_cases hr : r' = r
    · subst hr; simpa using hc'
    · rw [update_of_ne hr]; exact hc r'
  have hgone : ∀ c, Left c → input = [] ∨ ∃ r', Left (update s.control r c r') :=
    fun c hc' => .inr ⟨r, by rwa [update_self]⟩
  have hsend : ∀ i : ℕ, ∀ m ∈ s.queue ++ [⟨i + 1, -1⟩], m.currentIndex = -1 := by
    intro i m hm
    rcases List.mem_append.1 hm with hm | hm
    · exact hq m hm
    · rw [List.mem_singleton.1 hm]
  rcases hc r with hidle | hleft
  · rcases hidle.moves hm with rfl | ⟨m, q, hr, ⟨hne, -⟩ | ⟨-, rfl⟩⟩
    · refine .closing hp hq (hgo _ (.inl idle_receive)) (hl.imp_right fun ⟨b, hb⟩ => ⟨b, ?_⟩)
      have hbr : b ≠ r := fun he => hidle.not_left (he ▸ hb)
      rwa [State.goto_control, update_of_ne hbr]
    · exact absurd (hq m (MessageQueue.mem_of_receive hr)) hne
    · exact .closing hp (fun m' hm' => hq m' ((MessageQueue.mem_receive_iff hr).2 (.inr hm')))
        (hgo _ (.inr (.inl ⟨0, rfl⟩))) (hgone _ (.inl ⟨0, rfl⟩))
  · cases hm with
    | sendEof hc' =>
      exact .closing hp (hsend _) (hgo _ (.inr (.inl ⟨_, rfl⟩))) (hgone _ (.inl ⟨_, rfl⟩))
    | dropEof hc' | skipSelf hc' =>
      exact .closing hp hq (hgo _ (.inr (.inl ⟨_, rfl⟩))) (hgone _ (.inl ⟨_, rfl⟩))
    | exit hc' => exact .closing hp hq (hgo _ (.inr (.inr rfl))) (hgone _ (.inr rfl))
    | _ hc' => simp [Left, hc'] at hleft

/-- A step keeps the song in a phase. -/
theorem step_phase (hs : Phase input s) (hm : Moves input cap r s t) : Phase input t := by
  cases hs with
  | held h hp hq hh hi =>
    by_cases hr : r = h
    · subst hr; exact phase_of_holder hp hq hh hi hm
    · obtain rfl := (hi r hr).moves_of_empty hq hm
      refine .held h hp hq ?_ (idle_goto_receive hi r)
      rwa [State.goto_control, update_of_ne (Ne.symm hr)]
  | flying hp hq hi =>
    rcases (hi r).moves hm with rfl | ⟨m, q, hr, hmq⟩
    · exact .flying hp hq fun r' =>
        idle_goto_receive (P := fun _ => True) (fun r' _ => hi r') r r' trivial
    · rw [receiveMessageForMe, hq, MessageQueue.receive_singleton] at hr
      split_ifs at hr with ht
      simp only [Option.some.injEq, Prod.mk.injEq] at hr
      obtain ⟨rfl, rfl⟩ := hr
      have ht' : targetRank input s.printed.length = r := by simpa [indexMessage] using ht
      rcases hmq with ⟨-, rfl⟩ | ⟨hne, -⟩
      · exact .held r hp rfl (.inl ⟨by simp [indexMessage], ht'⟩) (idle_goto fun r' _ => hi r')
      · simp [indexMessage] at hne
  | orphan hp hN hq hi =>
    obtain rfl := (hi r).moves_of_empty hq hm
    exact .orphan hp hN hq fun r' =>
      idle_goto_receive (P := fun _ => True) (fun r' _ => hi r') r r' trivial
  | spent h hp hq hh hi =>
    by_cases hr : r = h
    · subst hr
      cases hm with
      | endOfString hc hi' =>
        refine .closing hp (by simp [hq]) (fun r' => ?_) (.inr ⟨r, .inl ⟨0, by simp⟩⟩)
        by_cases hr' : r' = r
        · subst hr'; exact .inr (.inl ⟨0, by simp⟩)
        · exact .inl (idle_goto hi r' hr')
      | print hc hi' | endOfRun hc hi' =>
        rw [hh, Control.sequence.injEq] at hc
        omega
      | _ hc => simp [hh] at hc
    · obtain rfl := (hi r hr).moves_of_empty hq hm
      refine .spent h hp hq ?_ (idle_goto_receive hi r)
      rwa [State.goto_control, update_of_ne (Ne.symm hr)]
  | closing hp hq hc hl => exact phase_of_closing hp hq hc hl hm

/-- Whoever prints next prints at the index of the characters printed so far. -/
theorem Phase.index_of_sequence {i : ℕ} (hs : Phase input s) (hc : s.control r = .sequence i)
    (hi : i < input.length) : i = s.printed.length := by
  have hidle : ¬ Idle input r (s.control r) := by simp [Idle, hc]
  cases hs with
  | held h hp hq hh hi' =>
    by_cases hr : r = h
    · subst hr
      simpa [Holds, hc] using hh
    · exact absurd (hi' r hr) hidle
  | flying hp hq hi' => exact absurd (hi' r) hidle
  | orphan hp hN hq hi' => exact absurd (hi' r) hidle
  | spent h hp hq hh hi' =>
    by_cases hr : r = h
    · subst hr
      rw [hh, Control.sequence.injEq] at hc
      omega
    · exact absurd (hi' r hr) hidle
  | closing hp hq hc' =>
    rcases hc' r with h | h
    · exact absurd h hidle
    · simp [Left, hc] at h

/-- One step of the song. -/
theorem step_song (hs : Song input s) (h : step input cap r s = some t) : Song input t := by
  have hm := step_moves h
  refine ⟨step_phase hs.phase hm, ?_, ?_⟩
  · cases hm with
    | print hc hi ht =>
      obtain rfl := hs.phase.index_of_sequence hc hi
      have : input.take (s.printed.length + 1) =
          input.take s.printed.length ++ [input.getD s.printed.length 0] := by
        rw [List.take_add_one, List.getElem?_eq_getElem hi, List.getD_eq_getElem _ _ hi]
        rfl
      rw [List.length_append, List.length_singleton, this, ← hs.output]
      simp [State.output]
    | _ => exact hs.output
  · cases hm with
    | print hc hi ht =>
      intro x hx
      rcases List.mem_append.1 hx with hx | hx
      · exact hs.own x hx
      · rw [List.mem_singleton.1 hx]
        exact ht.symm
    | _ => exact hs.own

theorem initial_song (N : ℕ) (input : List UInt8) : Song input (initial N input) := by
  refine ⟨?_, rfl, by simp [initial]⟩
  rcases Nat.eq_zero_or_pos input.length with h0 | hpos
  · exact .closing h0.symm (by simp [initial])
      (fun r => .inr (.inl ⟨0, by simp [initial, processingPhase, h0]⟩))
      (.inl (List.length_eq_zero_iff.1 h0))
  · have hc : ∀ r : Fin N, (initial N input).control r = .loop 0 := fun r => by
      simp [initial, processingPhase, Nat.pos_iff_ne_zero.1 hpos]
    have hidle : ∀ r : Fin N, targetRank input 0 ≠ r →
        Idle input r ((initial N input).control r) := fun r hr => .inr ⟨0, hpos, hc r, hr⟩
    by_cases hN : targetRank input 0 < N
    · refine .held ⟨_, hN⟩ hpos rfl (.inl ⟨hc _, rfl⟩) fun r hr => hidle r fun he => hr ?_
      exact Fin.ext he.symm
    · refine .orphan hpos (not_lt.1 hN) rfl fun r => hidle r fun he => hN ?_
      rw [he]
      exact r.isLt

/-- Every reachable state is a state of a song. -/
theorem reachable_song (hs : (machine N input cap).Reachable s) : Song input s :=
  hs.invariant (fun _ h => h ▸ initial_song N input) fun _ _ _ h hl => step_song h hl

/-! ## What the song guarantees -/

/-- Whether process `r` may print the character at its index. -/
def mayPrint (input : List UInt8) (r : Fin N) : Control → Bool
  | .loop i | .sequence i => decide (i < input.length ∧ targetRank input i = r)
  | _ => false

/-- The processes that may print. -/
def State.entitled (input : List UInt8) (s : State N) : Finset (Fin N) :=
  Finset.univ.filter fun r => mayPrint input r (s.control r)

/-- The index messages in the queue. -/
def State.inFlight (s : State N) : List RankMessage := s.queue.filter (·.currentIndex ≠ -1)

theorem Idle.not_mayPrint {c : Control} (hc : Idle input r c) : mayPrint input r c = false := by
  rcases hc with rfl | ⟨i, -, rfl, ht⟩ <;> simp_all [mayPrint]

theorem Left.not_mayPrint {c : Control} (hc : Left c) : mayPrint input r c = false := by
  rcases hc with ⟨i, rfl⟩ | rfl <;> rfl

theorem entitled_eq_empty (h : ∀ r, mayPrint input r (s.control r) = false) :
    s.entitled input = ∅ := by
  simp [State.entitled, h]

theorem card_entitled_le_one (hi : ∀ r, r ≠ h → Idle input r (s.control r)) :
    (s.entitled input).card ≤ 1 := by
  refine (Finset.card_le_card (t := {h}) fun r hr => ?_).trans (Finset.card_singleton h).le
  by_contra hrh
  have hr' := (Finset.mem_filter.1 hr).2
  rw [(hi r (by simpa using hrh)).not_mayPrint] at hr'
  exact Bool.false_ne_true hr'

/-- The turn is in one place: a process that may print, or an index message. -/
theorem Phase.one_turn (hs : Phase input s) :
    (s.entitled input).card + s.inFlight.length ≤ 1 := by
  cases hs with
  | held h hp hq hh hi | spent h hp hq hh hi =>
    simpa [State.inFlight, hq] using card_entitled_le_one hi
  | flying hp hq hi =>
    simp [entitled_eq_empty fun r => (hi r).not_mayPrint, State.inFlight, hq, indexMessage]
  | orphan hp hN hq hi =>
    simp [entitled_eq_empty fun r => (hi r).not_mayPrint, State.inFlight, hq]
  | closing hp hq hc =>
    have hq' : s.inFlight = [] := by simpa [State.inFlight] using hq
    have hc' : ∀ r, mayPrint input r (s.control r) = false := fun r =>
      (hc r).elim Idle.not_mayPrint Left.not_mayPrint
    simp [entitled_eq_empty hc', hq']

/-- An index message is addressed to the rank of the character at its index. -/
theorem Phase.addressed (hs : Phase input s) {m : RankMessage} (hm : m ∈ s.inFlight) :
    ∃ i < input.length, m.currentIndex = i ∧ m.mtype = targetRank input i + 1 := by
  obtain ⟨hm, hne⟩ := List.mem_filter.1 hm
  cases hs with
  | flying hp hq hi =>
    rw [hq, List.mem_singleton] at hm
    exact ⟨_, hp, by simp [hm, indexMessage]⟩
  | closing hp hq hc => simp [hq m hm] at hne
  | _ => simp_all

theorem Song.output_eq (hs : Song input s) (hp : s.printed.length = input.length) :
    s.output = input := by
  rw [hs.output, hp, List.take_length]

/-- A process leaves its loop only after the last character. -/
theorem Phase.printed_of_left (hs : Phase input s) (hl : Left (s.control r)) :
    s.printed.length = input.length := by
  cases hs with
  | held h hp hq hh hi =>
    by_cases hr : r = h
    · subst hr
      rcases hh with ⟨hc, -⟩ | hc | ⟨hc, -⟩ <;> simp [Left, hc] at hl
    · exact absurd hl (hi r hr).not_left
  | flying hp hq hi => exact absurd hl (hi r).not_left
  | orphan hp hN hq hi => exact absurd hl (hi r).not_left
  | spent h hp => exact hp
  | closing hp => exact hp

/-- An end-of-file mark in the queue means that the whole line is printed. -/
theorem Song.output_eq_of_eof (hs : Song input s) {m : RankMessage} (hm : m ∈ s.queue)
    (he : m.currentIndex = -1) : s.output = input := by
  cases hs.phase with
  | flying hp hq hi =>
    rw [hq, List.mem_singleton] at hm
    simp [hm, indexMessage] at he
  | closing hp hq hc => exact hs.output_eq hp
  | _ => simp_all

/-- **Safety of the song.** At every moment the output is a prefix of the line, each character is
printed by the process of its rank, at most one process may print or one index message is in
flight, every index message is addressed to the rank of the character at its index, and an
end-of-file mark is received only after the whole line is printed. -/
theorem song_is_safe (N : ℕ) (input : List UInt8) (cap : Option ℕ) {s : State N}
    (hs : (machine N input cap).Reachable s) :
    s.output <+: input ∧
      (∀ x ∈ s.printed, (x.1 : ℕ) = x.2.toNat) ∧
      (s.entitled input).card + s.inFlight.length ≤ 1 ∧
      (∀ m ∈ s.inFlight,
        ∃ i < input.length, m.currentIndex = i ∧ m.mtype = targetRank input i + 1) ∧
      ∀ r m q, s.control r = .receive → receiveMessageForMe r s.queue = some (m, q) →
        m.currentIndex = -1 → s.output = input := by
  have hsong := reachable_song hs
  refine ⟨?_, hsong.own, hsong.phase.one_turn, fun m hm => hsong.phase.addressed hm, ?_⟩
  · rw [hsong.output]
    exact List.take_prefix _ _
  · intro r m q _ hq he
    exact hsong.output_eq_of_eof (MessageQueue.mem_of_receive hq) he

/-- Three processes, the line `1 2`: rank 1 has printed and handed the turn over. -/
theorem song_is_safe_handed_over :
    ∃ s, (machine 3 [1, 2] none).run [1, 1, 1, 1, 1] (initial 3 [1, 2]) = some s ∧
      s.output = [1] ∧ s.inFlight = [⟨3, 1⟩] ∧
      (s.entitled [1, 2]).card + s.inFlight.length ≤ 1 := by
  refine ⟨_, rfl, rfl, rfl, ?_⟩
  exact (song_is_safe 3 [1, 2] none (Machine.reachable_of_run rfl
    (show (machine 3 [1, 2] none).run [1, 1, 1, 1, 1] _ = some _ from rfl))).2.2.1

end SemOS.Bogatyri.Msgq
