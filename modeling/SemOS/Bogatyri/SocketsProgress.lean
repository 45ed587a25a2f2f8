import SemOS.Bogatyri.SocketsToken
import SemOS.Foundations.Simulation

/-!
# The progress of the socket bogatyri

When every call succeeds, the hand-over of `process_function` does not stop early.

* `Goes` lists the steps of a process all of whose calls succeed.
* `Closing` is the end of the song, after the last character: the process that has printed it sends
  the end-of-file marks, and every other one has its mark still to come, in transit, or behind it.
* `Directed` is the invariant of these runs: the index always goes to the rank of its character.
* `exited_of_stuck`: nobody waits before all have exited, with the whole string printed.
-/

namespace SemOS.Bogatyri.Sockets

open Function

variable {N : ℕ} {input : List UInt8} {r : Fin N} {s t : State N}

/-- The interleaving of the processes when every call succeeds. -/
def answered (N : ℕ) (input : List UInt8) : Machine (Fin N) (State N) :=
  (machine N input).under fun r => (r, true)

/-! ## The steps when every call succeeds -/

/-- A step of process `r` whose call succeeds takes `s` to `t`. -/
inductive Goes (input : List UInt8) (r : Fin N) (s : State N) : State N → Prop
  | begin (hc : s.control r = .start) : Goes input r s (s.goto r (.loop (decide ((r : ℕ) = 0)) 0))
  | finish {i} (hc : s.control r = .loop true i) (hi : input.length ≤ i) :
      Goes input r s (s.goto r (.eofConnecting 0 i))
  | print {i c} (hc : s.control r = .loop true i) (hi : i < input.length)
      (ht : targetRank N input i = r) (hn : c = if i + 1 < input.length then
        .connecting (targetRank N input (i + 1)) (i + 1) else .loop true (i + 1)) :
      Goes input r s { s.goto r c with printed := s.printed ++ [input.getD i 0] }
  | forward {i} (hc : s.control r = .loop true i) (hi : i < input.length)
      (ht : targetRank N input i ≠ r) :
      Goes input r s (s.goto r (.connecting (targetRank N input i) i))
  | accept {i c q} (hc : s.control r = .loop false i) (hq : accept r s.connections = some (c, q)) :
      Goes input r s { s.goto r (received true i c) with connections := q }
  | connect {d i} (hc : s.control r = .connecting d i) : Goes input r s (s.goto r (.sending d i))
  | send {d i} (hc : s.control r = .sending d i) :
      Goes input r s
        { s.goto r (.loop false i) with connections := s.connections ++ [⟨d, some (i : ℤ)⟩] }
  | eofSkip {j i} (hc : s.control r = .eofConnecting j i) (hj : j = r) :
      Goes input r s (s.goto r (.eofConnecting (j + 1) i))
  | eofConnect {j i} (hc : s.control r = .eofConnecting j i) (hj : j < N) :
      Goes input r s (s.goto r (.eofSending j i))
  | eofSend {j i} (hc : s.control r = .eofSending j i) :
      Goes input r s
        { s.goto r (.eofConnecting (j + 1) i) with
          connections := s.connections ++ [⟨j, some (-1)⟩] }
  | exit {j i} (hc : s.control r = .eofConnecting j i) (hj : N ≤ j) :
      Goes input r s (s.goto r .exited)

theorem step_goes (h : step input (r, true) s = some t) : Goes input r s t := by
  unfold step at h
  simp only at h
  split at h
  · rename_i hc
    obtain rfl := Option.some.inj h
    exact .begin hc
  · rename_i i hc
    obtain rfl := Option.some.inj h
    unfold activeRound
    split_ifs with hi ht hlast
    · exact .finish hc hi
    · exact .print hc (not_le.1 hi) ht (if_pos hlast).symm
    · exact .print hc (not_le.1 hi) ht (if_neg hlast).symm
    · exact .forward hc (not_le.1 hi) ht
  · rename_i i hc
    obtain ⟨⟨c, q⟩, hq, rfl⟩ := Option.map_eq_some_iff.1 h
    exact .accept hc hq
  · rename_i d i hc
    obtain rfl := Option.some.inj h
    exact .connect hc
  · rename_i d i hc
    obtain rfl := Option.some.inj h
    exact .send hc
  · rename_i j i hc
    split_ifs at h with hj hs
    · obtain rfl := Option.some.inj h
      exact .eofSkip hc (hs.resolve_right nofun)
    · obtain rfl := Option.some.inj h
      exact .eofConnect hc hj
    · obtain rfl := Option.some.inj h
      exact .exit hc (not_lt.1 hj)
  · rename_i j i hc
    obtain rfl := Option.some.inj h
    exact .eofSend hc
  · cases h

/-! ## The invariant -/

/-- A process without the turn that has not seen its end-of-file mark. -/
def Idle (r : Fin N) (c : Control) : Prop := c = .start ∧ (r : ℕ) ≠ 0 ∨ ∃ i, c = .loop false i

/-- The process has printed the last character, and has sent the marks of the ranks below `j`. -/
def Closes (r : Fin N) (j : ℕ) : Control → Prop
  | .start => (r : ℕ) = 0 ∧ j = 0
  | .loop active _ => active = true ∧ j = 0
  | .connecting _ _ | .sending _ _ => False
  | .eofConnecting k _ | .eofSending k _ => j = k
  | .exited => j = N

/-- The end of the song. -/
def Closing (s : State N) : Prop :=
  (∀ c ∈ s.connections, c.payload = some (-1)) ∧
    ∃ r j, Closes r j (s.control r) ∧ ∀ v, v ≠ r → s.control v = .exited ∨
      Idle v (s.control v) ∧ ((v : ℕ) < j → ∃ c ∈ s.connections, c.target = v)

/-- What holds of the runs in which every call succeeds. -/
structure Directed (input : List UInt8) (s : State N) : Prop where
  turn : Turn input s
  held : TokenHeld input s
  aimed : ∀ r d i, s.control r = .connecting d i ∨ s.control r = .sending d i →
    i < input.length ∧ d = targetRank N input i
  sent : ∀ c ∈ s.connections, c.payload = some (-1) ∨
    ∃ i < input.length, c = ⟨targetRank N input i, some (i : ℤ)⟩
  closing : s.printed = input → Closing s

/-- A process that has neither the turn nor left is idle. -/
theorem idle_of_holds {c : Control} (h : holds r c = 0) (he : ¬ c.Ending) : Idle r c := by
  cases c with
  | start =>
    refine Or.inl ⟨rfl, fun h0 => ?_⟩
    simp [holds, h0] at h
  | loop active i =>
    cases active with
    | true => simp [holds, Control.activeIndex] at h
    | false => exact Or.inr ⟨i, rfl⟩
  | connecting | sending => simp [holds, Control.activeIndex] at h
  | eofConnecting | eofSending | exited => simp [Control.Ending] at he

/-- The turn is somewhere: the others are idle. -/
theorem Turn.idle (h : Turn input s) (hp : s.printed ≠ input) (hr : holds r (s.control r) = 1)
    {v : Fin N} (hv : v ≠ r) : Idle v (s.control v) := by
  refine idle_of_holds ?_ (h.not_ending hp v)
  have := holds_add_holds_le s.control hv
  have := h.one
  omega

/-- The process that closes goes on. -/
theorem Closing.close {c : Control} {q : List Connection} {j k : ℕ}
    (hmarks : ∀ c ∈ q, c.payload = some (-1)) (hsub : s.connections ⊆ q) (hc : Closes r k c)
    (hothers : ∀ v, v ≠ r → s.control v = .exited ∨
      Idle v (s.control v) ∧ ((v : ℕ) < j → ∃ c ∈ s.connections, c.target = v))
    (hlt : ∀ v, v ≠ r → (v : ℕ) < k → (v : ℕ) < j ∨ ∃ c ∈ q, c.target = v) :
    Closing { s.goto r c with connections := q } := by
  refine ⟨hmarks, r, k, by simpa using hc, fun v hv => ?_⟩
  simp only [State.goto_control, update_of_ne hv]
  refine (hothers v hv).imp_right fun h => ⟨h.1, fun hk => ?_⟩
  obtain hj | hx := hlt v hv hk
  · obtain ⟨x, hx, ht⟩ := h.2 hj
    exact ⟨x, hsub hx, ht⟩
  · exact hx

/-- Another process goes on, and takes at most its own mark. -/
theorem Closing.other {c : Control} {q : List Connection} {j : ℕ} {v : Fin N} (hv : v ≠ r)
    (hsub : q ⊆ s.connections) (hmarks : ∀ c ∈ s.connections, c.payload = some (-1))
    (hkeep : ∀ x ∈ s.connections, x.target ≠ v → x ∈ q) (hcl : Closes r j (s.control r))
    (hothers : ∀ v, v ≠ r → s.control v = .exited ∨
      Idle v (s.control v) ∧ ((v : ℕ) < j → ∃ c ∈ s.connections, c.target = v))
    (hc : c = .exited ∨ Idle v c ∧ ((v : ℕ) < j → ∃ x ∈ q, x.target = v)) :
    Closing { s.goto v c with connections := q } := by
  refine ⟨fun x hx => hmarks x (hsub hx), r, j, ?_, fun w hw => ?_⟩
  · simpa only [State.goto_control, update_of_ne hv.symm] using hcl
  · by_cases hwv : w = v
    · subst hwv
      simpa using hc
    · simp only [State.goto_control, update_of_ne hwv]
      refine (hothers w hw).imp_right fun h => ⟨h.1, fun hj => ?_⟩
      obtain ⟨x, hx, ht⟩ := h.2 hj
      refine ⟨x, hkeep x hx fun h => hwv (Fin.ext ?_), ht⟩
      rw [← ht, h]

/-- A step after the last character. -/
theorem Directed.step_closing (h : Directed input s) (hp : s.printed = input)
    (hg : Goes input r s t) : Closing t := by
  obtain ⟨hmarks, u, j, hcl, hothers⟩ := h.closing hp
  by_cases hr : r = u
  · subst hr
    have keep : ∀ {c : Control}, Closes r j c → Closing (s.goto r c) := fun hc =>
      Closing.close hmarks (List.Subset.refl _) hc hothers fun v _ hj => Or.inl hj
    cases hg with
    | begin hc =>
      rw [hc] at hcl
      exact keep ⟨decide_eq_true hcl.1, hcl.2⟩
    | finish hc =>
      rw [hc] at hcl
      exact keep hcl.2
    | @print i c hc hi =>
      have hlen : i = s.printed.length := h.turn.active r i (by rw [hc]; rfl)
      rw [hlen, hp] at hi
      exact absurd hi (lt_irrefl _)
    | @forward i hc hi =>
      have hlen : i = s.printed.length := h.turn.active r i (by rw [hc]; rfl)
      rw [hlen, hp] at hi
      exact absurd hi (lt_irrefl _)
    | accept hc | connect hc | send hc =>
      rw [hc] at hcl
      simp [Closes] at hcl
    | @eofSkip k i hc hk =>
      rw [hc] at hcl
      obtain rfl : j = k := hcl
      refine Closing.close hmarks (List.Subset.refl _) rfl hothers fun v hv hj => ?_
      have : (v : ℕ) ≠ r := fun h => hv (Fin.ext h)
      omega
    | eofConnect hc =>
      rw [hc] at hcl
      exact keep hcl
    | @eofSend k i hc =>
      rw [hc] at hcl
      obtain rfl : j = k := hcl
      refine Closing.close (fun x hx => ?_) (List.subset_append_left _ _) rfl hothers
        fun v hv hj => ?_
      · obtain hx | hx := List.mem_append.1 hx
        · exact hmarks x hx
        · rw [List.mem_singleton.1 hx]
      · by_cases hvj : (v : ℕ) = j
        · exact Or.inr ⟨_, List.mem_append_right _ (List.mem_singleton_self _), hvj.symm⟩
        · omega
    | @exit k i hc hk =>
      rw [hc] at hcl
      obtain rfl : j = k := hcl
      exact Closing.close hmarks (List.Subset.refl _) rfl hothers fun v _ _ => by omega
  · have hidle := hothers r hr
    cases hg with
    | begin hc =>
      rw [hc] at hidle
      obtain ⟨⟨-, h0⟩ | ⟨i, hi⟩, hconn⟩ := hidle.resolve_left (by simp)
      · exact Closing.other hr (List.Subset.refl _) hmarks (fun x hx _ => hx) hcl hothers
          (Or.inr ⟨Or.inr ⟨0, by simp [h0]⟩, hconn⟩)
      · cases hi
    | @accept i x q hc hq =>
      have hx := hmarks x (MessageQueue.mem_of_receive hq)
      refine Closing.other hr (fun y hy => (MessageQueue.mem_receive_iff hq).2 (Or.inr hy)) hmarks
        (fun y hy hne => ?_) hcl hothers (Or.inl ?_)
      · refine ((MessageQueue.mem_receive_iff hq).1 hy).resolve_left ?_
        rintro rfl
        exact hne (by simpa using MessageQueue.receive_pred hq)
      · simp [received, hx]
    | finish hc | print hc | forward hc | connect hc | send hc | eofSkip hc | eofConnect hc
    | eofSend hc | exit hc =>
      rw [hc] at hidle
      obtain ⟨⟨h, -⟩ | ⟨i, h⟩, -⟩ := hidle.resolve_left (by simp)
      · cases h
      · cases h

/-- The last character is printed. -/
theorem Directed.closing_of_print (h : Directed input s) (hp : s.printed ≠ input) {i : ℕ}
    {c : Control} (hc : s.control r = .loop true i) (hi : i < input.length)
    (hn : c = if i + 1 < input.length then .connecting (targetRank N input (i + 1)) (i + 1)
      else .loop true (i + 1)) (hlast : s.printed ++ [input.getD i 0] = input) :
    Closing { s.goto r c with printed := s.printed ++ [input.getD i 0] } := by
  have hlen : i = s.printed.length := h.turn.active r i (by rw [hc]; rfl)
  have hend : ¬ i + 1 < input.length := by
    have := congrArg List.length hlast
    rw [List.length_append, List.length_singleton] at this
    omega
  have hholds : holds r (s.control r) = 1 := by
    rw [hc]
    exact holds_of_active (i := i) rfl
  -- nothing is in transit, and there are no marks yet
  have hnone : s.connections = [] := by
    have hone := h.turn.one
    have hle := holds_le_holders s.control r
    refine List.eq_nil_iff_forall_not_mem.2 fun x hx => ?_
    obtain hm | ⟨k, hk, rfl⟩ := h.sent x hx
    · have := h.turn.mark x hx hm
      omega
    · have hmem : (⟨targetRank N input k, some (k : ℤ)⟩ : Connection) ∈ s.inTransit := by
        refine List.mem_filter.2 ⟨hx, ?_⟩
        simp only [Connection.isIndex, Option.any_some]
        exact decide_eq_true (by omega)
      have := List.length_pos_of_mem hmem
      omega
  rw [if_neg hend] at hn
  subst hn
  refine ⟨fun x hx => ?_, r, 0, ?_, fun v hv =>
    Or.inr ⟨?_, fun h0 => absurd h0 (Nat.not_lt_zero _)⟩⟩
  · change x ∈ s.connections at hx
    rw [hnone] at hx
    cases hx
  · simp [Closes]
  · simpa only [State.goto_control, update_of_ne hv] using h.turn.idle hp hholds hv

theorem step_directed (h : Directed input s) (hs : step input (r, true) s = some t) :
    Directed input t := by
  have hg := step_goes hs
  -- a step that aims at nobody new and sends nothing new
  have aimed : ∀ {c : Control}, (∀ d i, c = .connecting d i ∨ c = .sending d i →
      i < input.length ∧ d = targetRank N input i) → ∀ v d i,
      update s.control r c v = .connecting d i ∨ update s.control r c v = .sending d i →
        i < input.length ∧ d = targetRank N input i := by
    intro c hc v d i hv
    by_cases hvr : v = r
    · subst hvr
      rw [update_self] at hv
      exact hc d i hv
    · rw [update_of_ne hvr] at hv
      exact h.aimed v d i hv
  refine ⟨step_turn h.turn (step_moves hs), fun hp => ?_, ?_, ?_, fun hp => ?_⟩
  · have hne : s.printed ≠ input := fun heq => hp (step_printed h.turn heq hs)
    have htok := step_tokens h.turn hne hs
    have hl : losesToken (r, true) s = false := by simp [losesToken]
    rw [hl, h.held hne] at htok
    exact htok
  · cases hg with
    | @print i c hc hi ht hn =>
      refine aimed fun d k hk => ?_
      rw [hn] at hk
      split_ifs at hk with hlast
      · obtain hk | hk := hk
        · cases hk
          exact ⟨hlast, rfl⟩
        · cases hk
      · exact absurd hk (by simp)
    | forward hc hi =>
      refine aimed fun d k hk => ?_
      obtain hk | hk := hk
      · cases hk
        exact ⟨hi, rfl⟩
      · cases hk
    | connect hc =>
      refine aimed fun d k hk => ?_
      obtain hk | hk := hk
      · cases hk
      · cases hk
        exact h.aimed r _ _ (Or.inl hc)
    | @accept i x q hc hq =>
      refine aimed fun d k hk => ?_
      unfold received at hk
      split at hk
      · split_ifs at hk <;> simp at hk
      · simp at hk
    | _ => exact aimed fun d k hk => by simp at hk
  · cases hg with
    | @send d i hc =>
      intro x hx
      obtain hx | hx := List.mem_append.1 hx
      · exact h.sent x hx
      · obtain ⟨hi, rfl⟩ := h.aimed r d i (Or.inr hc)
        exact Or.inr ⟨i, hi, List.mem_singleton.1 hx⟩
    | eofSend hc =>
      intro x hx
      obtain hx | hx := List.mem_append.1 hx
      · exact h.sent x hx
      · rw [List.mem_singleton.1 hx]
        exact Or.inl rfl
    | accept hc hq =>
      exact fun x hx => h.sent x ((MessageQueue.mem_receive_iff hq).2 (Or.inr hx))
    | _ => exact h.sent
  · by_cases hne : s.printed = input
    · exact h.step_closing hne hg
    · cases hg with
      | print hc hi ht hn => exact h.closing_of_print hne hc hi hn hp
      | _ => exact absurd hp hne

theorem initial_directed (hN : 0 < N) (input : List UInt8) : Directed input (initial N) := by
  refine ⟨initial_turn N input, fun _ => initial_tokens hN, fun r d i h => by simp [initial] at h,
    fun x hx => by simp [initial] at hx, fun _ => ⟨fun x hx => by simp [initial] at hx, ⟨0, hN⟩, 0,
      ⟨rfl, rfl⟩, fun v hv => Or.inr ⟨Or.inl ⟨rfl, fun h => hv (Fin.ext h)⟩, ?_⟩⟩⟩
  exact fun h => absurd h (Nat.not_lt_zero _)

theorem reachable_directed (hN : 0 < N) (hs : (answered N input).Reachable s) :
    Directed input s :=
  hs.invariant (fun _ h => h ▸ initial_directed hN input) fun _ _ _ h hl => step_directed h hl

/-! ## Somebody can move -/

/-- A process that cannot move has left, or waits for a connection. -/
theorem waits_of_stuck (h : step input (r, true) s = none) :
    s.control r = .exited ∨
      ∃ i, s.control r = .loop false i ∧ ∀ x ∈ s.connections, x.target ≠ r := by
  unfold step at h
  simp only at h
  split at h
  · cases h
  · cases h
  · rename_i i hc
    refine Or.inr ⟨i, hc, fun x hx => ?_⟩
    simpa using MessageQueue.receive_eq_none.1 (Option.map_eq_none_iff.1 h) x hx
  · cases h
  · cases h
  · split_ifs at h
  · cases h
  · rename_i hc
    exact Or.inl hc

/-- **Nobody waits before the end.** -/
theorem exited_of_stuck (hN : 0 < N) (h : Directed input s)
    (hstuck : ∀ r, step input (r, true) s = none) :
    s.printed = input ∧ ∀ r, s.control r = .exited := by
  have hp : s.printed = input := by
    by_contra hne
    have hpast := h.turn.not_ending hne
    -- nobody has the turn, so that an index is in transit
    have hzero : holders s.control = 0 := by
      refine Finset.sum_eq_zero fun r _ => ?_
      obtain hc | ⟨i, hc, -⟩ := waits_of_stuck (hstuck r)
      · exact absurd (by simp [hc, Control.Ending]) (hpast r)
      · rw [hc]
        exact holds_of_inactive rfl (by simp)
    have hheld := h.held hne
    rw [State.tokens, hzero, Nat.zero_add] at hheld
    obtain ⟨x, hx⟩ := List.exists_mem_of_length_pos (show 0 < s.inTransit.length by omega)
    obtain ⟨hmem, hidx⟩ := List.mem_filter.1 hx
    obtain hmark | ⟨i, -, rfl⟩ := h.sent x hmem
    · simp [Connection.isIndex, hmark] at hidx
    · have hlt : targetRank N input i < N := Nat.mod_lt _ hN
      obtain hc | ⟨-, -, hnone⟩ := waits_of_stuck (hstuck ⟨_, hlt⟩)
      · exact absurd (by simp [hc, Control.Ending]) (hpast ⟨_, hlt⟩)
      · exact hnone _ hmem rfl
  refine ⟨hp, ?_⟩
  obtain ⟨-, u, j, hcl, hothers⟩ := h.closing hp
  have hu : s.control u = .exited := by
    obtain hc | ⟨i, hc, -⟩ := waits_of_stuck (hstuck u)
    · exact hc
    · rw [hc] at hcl
      simp [Closes] at hcl
  rw [hu] at hcl
  obtain rfl : j = N := hcl
  intro r
  by_cases hr : r = u
  · rw [hr, hu]
  · obtain hc | ⟨i, hc, hnone⟩ := waits_of_stuck (hstuck r)
    · exact hc
    · obtain ⟨-, hconn⟩ := (hothers r hr).resolve_left (by simp [hc])
      obtain ⟨x, hx, ht⟩ := hconn r.isLt
      exact absurd ht (hnone x hx)

end SemOS.Bogatyri.Sockets
