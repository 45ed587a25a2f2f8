import SemOS.Bogatyri.Sockets

/-!
# The token of the socket bogatyri

Whether the turn of `process_function` survives the answers of its calls. The turn is a token: the
active process holds it, or an index message in transit carries it.

* `losesToken` is the one defect: both hand-over sites set `active = 0` whatever `send` answers,
  and a short `recv` drops the index it was to deliver.
* `step_tokens` counts the tokens over one step, and `token_kept_iff` is the result for runs: the
  token survives exactly where no step before the end of the string is such a loss.
-/

namespace SemOS.Bogatyri.Sockets

open Function

variable {N : ℕ} {input : List UInt8} {s t : State N} {l : Fin N × Bool}

/-- The processes that hold the turn and the index messages in transit, counted together. -/
def State.tokens (s : State N) : ℕ := holders s.control + s.inTransit.length

/-- Whether the step `l` loses an index: its `send` fails, or its `recv` comes up short. -/
def losesToken (l : Fin N × Bool) (s : State N) : Bool :=
  !l.2 && match s.control l.1 with
    | .sending _ _ => true
    | .loop false _ => ((accept l.1 s.connections).map fun p => p.1.isIndex).getD false
    | _ => false

/-- Before the string is fully printed, there is one token. -/
def TokenHeld (input : List UInt8) (s : State N) : Prop := s.printed ≠ input → s.tokens = 1

/-- Before the string is fully printed, the process that moves gives up activity only with its
index in transit. -/
def HandsOver (input : List UInt8) (l : Fin N × Bool) (s : State N) : Prop :=
  s.printed ≠ input → ∀ t i, step input l s = some t →
    (s.control l.1).activeIndex = some i → (t.control l.1).activeIndex = none →
      ∃ d, t.connections = s.connections ++ [⟨d, some (i : ℤ)⟩]

/-! ## Tokens over one step -/

theorem tokens_goto (s : State N) (r : Fin N) (c : Control) (q : List Connection) :
    ({ s.goto r c with connections := q } : State N).tokens + holds r (s.control r) +
        s.inTransit.length =
      s.tokens + holds r c + (q.filter Connection.isIndex).length := by
  have := holders_update s.control r c
  simp only [State.tokens, State.inTransit, State.goto_control]
  omega

/-- A step that leaves the connections alone. -/
theorem tokens_goto_self {r : Fin N} {c : Control} (h : holds r c = holds r (s.control r)) :
    (s.goto r c).tokens = s.tokens := by
  have := tokens_goto s r c s.connections
  rw [h] at this
  change (s.goto r c).tokens + _ + s.inTransit.length = _ + _ + s.inTransit.length at this
  omega

theorem length_inTransit_send (x : Connection) :
    ((s.connections ++ [x]).filter Connection.isIndex).length =
      s.inTransit.length + if x.isIndex then 1 else 0 := by
  rw [List.filter_append, List.length_append, State.inTransit]
  cases hx : x.isIndex <;> simp [hx]

/-- Before the end of the string nobody is past it. -/
theorem Turn.not_ending (h : Turn input s) (hp : s.printed ≠ input) (r : Fin N) :
    ¬ (s.control r).Ending := by
  intro he
  apply hp
  rw [h.output, h.ending r he, List.take_length]

theorem Turn.index_lt (h : Turn input s) (hp : s.printed ≠ input) {r : Fin N} {i : ℕ}
    (hi : (s.control r).activeIndex = some i) : i < input.length := by
  obtain rfl := h.active r i hi
  by_contra hlt
  apply hp
  rw [h.output, List.take_of_length_le (not_lt.1 hlt)]

/-- What process `r` holds once it is past the setting of `active`. -/
theorem holds_begin (r : Fin N) :
    holds r (.loop (decide ((r : ℕ) = 0)) 0) = holds r .start := by
  by_cases h0 : (r : ℕ) = 0 <;> simp [holds, h0, Control.activeIndex]

/-- An accepted connection other than an end-of-file mark gives the turn exactly if it carries an
index and is read. -/
theorem holds_received (r : Fin N) (i : ℕ) (ok : Bool) {c : Connection}
    (hc : c.payload ≠ some (-1)) : holds r (received ok i c) = (ok && c.isIndex).toNat := by
  unfold received
  cases hpay : c.payload with
  | none => simp [Connection.isIndex, hpay, holds, Control.activeIndex]
  | some m =>
    have hne : m ≠ -1 := fun hm => hc (hm ▸ hpay)
    cases ok <;> simp [Connection.isIndex, hpay, hne, holds, Control.activeIndex]

/-- Before the end of the string an active process keeps the turn through its round. -/
theorem tokens_activeRound {r : Fin N} {i : ℕ} (hc : s.control r = .loop true i)
    (hi : i < input.length) : (activeRound input r i s).tokens = s.tokens := by
  have hgoto : ∀ c : Control, c.activeIndex.isSome → (s.goto r c).tokens = s.tokens := by
    intro c hact
    obtain ⟨j, hj⟩ := Option.isSome_iff_exists.1 hact
    apply tokens_goto_self
    rw [hc, holds_of_active hj, holds_of_active (c := .loop true i) rfl]
  unfold activeRound
  rw [if_neg (not_le.2 hi)]
  split_ifs
  · exact hgoto _ rfl
  · exact hgoto _ rfl
  · exact hgoto _ rfl

/-- A short `recv` loses the index of the connection, if it carries one. -/
theorem tokens_received {r : Fin N} {i : ℕ} {ok : Bool} {c : Connection} {q : List Connection}
    (hc : s.control r = .loop false i) (hq : accept r s.connections = some (c, q))
    (hmark : c.payload ≠ some (-1)) :
    ({ s.goto r (received ok i c) with connections := q } : State N).tokens +
      (!ok && c.isIndex).toNat = s.tokens := by
  have htok := tokens_goto s r (received ok i c) q
  rw [holds_received r i ok hmark, hc, holds_of_inactive (c := .loop false i) rfl (by simp),
    length_inTransit_accept hq] at htok
  cases ok <;> cases hx : c.isIndex <;> simp only [hx] at htok ⊢ <;> simp at htok ⊢ <;> omega

/-- A failed `send` loses the index. -/
theorem tokens_sent {r : Fin N} {d i : ℕ} (hc : s.control r = .sending d i) (ok : Bool) :
    ({ s.goto r (.loop false i) with
        connections := s.connections ++ [⟨d, if ok then some (i : ℤ) else none⟩] } :
      State N).tokens + (!ok).toNat = s.tokens := by
  have htok := tokens_goto s r (.loop false i)
    (s.connections ++ [⟨d, if ok then some (i : ℤ) else none⟩])
  rw [hc, holds_of_active (c := .sending d i) rfl,
    holds_of_inactive (c := .loop false i) rfl (by simp), length_inTransit_send] at htok
  have hne : ((i : ℤ) ≠ -1) := by omega
  cases ok <;> simp [Connection.isIndex, hne] at htok ⊢ <;> omega

/-- A step that is no loss keeps the number of tokens, and a loss takes one away. -/
theorem step_tokens (h : Turn input s) (hp : s.printed ≠ input)
    (hs : step input l s = some t) : t.tokens + (losesToken l s).toNat = s.tokens := by
  obtain ⟨r, ok⟩ := l
  unfold step at hs
  simp only at hs
  unfold losesToken
  split at hs
  · rename_i hc
    obtain rfl := Option.some.inj hs
    simp only [hc, Bool.and_false, Bool.toNat_false, Nat.add_zero]
    apply tokens_goto_self
    rw [hc]
    exact holds_begin r
  · rename_i i hc
    obtain rfl := Option.some.inj hs
    simp only [hc, Bool.and_false, Bool.toNat_false, Nat.add_zero]
    exact tokens_activeRound hc (h.index_lt hp (by rw [hc]; rfl))
  · rename_i i hc
    obtain ⟨⟨c, q⟩, hq, rfl⟩ := Option.map_eq_some_iff.1 hs
    simp only [hc, hq, Option.map_some, Option.getD_some]
    refine tokens_received hc hq fun hm => ?_
    apply hp
    rw [h.output, h.mark c (MessageQueue.mem_of_receive hq) hm, List.take_length]
  · rename_i d i hc
    obtain rfl := Option.some.inj hs
    simp only [hc, Bool.and_false, Bool.toNat_false, Nat.add_zero]
    apply tokens_goto_self
    rw [hc, holds_of_active (c := .connecting d i) rfl]
    split_ifs <;> rfl
  · rename_i d i hc
    obtain rfl := Option.some.inj hs
    simp only [hc, Bool.and_true]
    exact tokens_sent hc ok
  · rename_i j i hc
    exact absurd (by simp [hc, Control.Ending]) (h.not_ending hp r)
  · rename_i j i hc
    exact absurd (by simp [hc, Control.Ending]) (h.not_ending hp r)
  · cases hs

/-- Only a `send` ends an activity before the end of the string, and one that is no loss has put
the index in transit. -/
theorem handsOver_of_kept (h : Turn input s) (hk : s.printed ≠ input → losesToken l s = false) :
    HandsOver input l s := by
  obtain ⟨r, ok⟩ := l
  intro hp t i hs hact hnone
  have hlose := hk hp
  simp only at hact hnone
  by_cases hsend : ∃ d, s.control r = .sending d i
  · obtain ⟨d, hc⟩ := hsend
    obtain rfl : ok = true := by simpa [losesToken, hc] using hlose
    refine ⟨d, ?_⟩
    simp only [step, hc, Option.some.injEq] at hs
    rw [← hs]
    rfl
  · exfalso
    have hpast := h.not_ending hp r
    cases step_moves hs with
    | begin hc | lose hc _ | activate hc _ _ _ | leave hc _ _ =>
      simp [hc, Control.activeIndex] at hact
    | send hc | sendFails hc =>
      obtain rfl : _ = i := by simpa [hc, Control.activeIndex] using hact
      exact hsend ⟨_, hc⟩
    | exit hc => exact hpast (by simp [hc, Control.Ending])
    | print hc _ hr => obtain rfl | ⟨_, rfl⟩ := hr <;> simp [Control.activeIndex] at hnone
    | finish | forward | connected | refused | eofSkip | eofConnected | eofSend =>
      simp [Control.activeIndex] at hnone

/-- A fully printed string stays so. -/
theorem step_printed (h : Turn input s) (hp : s.printed = input) (hs : step input l s = some t) :
    t.printed = input := by
  have hm := step_moves (show step input (l.1, l.2) s = some t from hs)
  cases hm with
  | @print i c hc hi hr =>
    have : i = s.printed.length := h.active l.1 i (by rw [hc]; rfl)
    rw [this, hp] at hi
    exact absurd hi (lt_irrefl _)
  | _ => exact hp

/-- A loss prints nothing. -/
theorem printed_of_losesToken (hl : losesToken l s = true) (hs : step input l s = some t) :
    t.printed = s.printed := by
  have hm := step_moves (show step input (l.1, l.2) s = some t from hs)
  cases hm with
  | print hc => simp [losesToken, hc] at hl
  | _ => rfl

/-! ## Tokens over a run -/

/-- At the start rank 0 has the token. -/
theorem initial_tokens (hN : 0 < N) : (initial N).tokens = 1 := by
  have h0 : ∀ r : Fin N, holds r ((initial N).control r) = if r = ⟨0, hN⟩ then 1 else 0 := by
    simp [holds, initial, Control.activeIndex, Fin.ext_iff]
  have hzero : (initial N).inTransit = [] := rfl
  rw [State.tokens, hzero, holders, Finset.sum_congr rfl fun r _ => h0 r]
  simp

/-- **The token.** A run keeps one token until the string is fully printed, and hands it over
before a process gives up activity, exactly where no step before that point is a failed `send` of
an index or a short `recv` of one. -/
theorem token_kept_iff (N : ℕ) (hN : 0 < N) (input : List UInt8) (ls : List (Fin N × Bool)) :
    ((machine N input).Throughout (TokenHeld input) ls (initial N) ∧
      (machine N input).Along (HandsOver input) ls (initial N)) ↔
    (machine N input).Along (fun l s => s.printed ≠ input → losesToken l s = false) ls
      (initial N) := by
  have hinit := initial_turn N input
  have hturn : ∀ l s t, Turn input s → (machine N input).act l s = some t → Turn input t :=
    fun l s t h hs => step_turn h (step_moves (show step input (l.1, l.2) s = some t from hs))
  have hkeep := Machine.throughout_iff_along (M := machine N input) (H := TokenHeld input)
    (P := fun l s => s.printed ≠ input → losesToken l s = false)
    (fun l s t h _ hs => hturn l s t h hs) ?_ ls hinit
    fun _ => initial_tokens hN
  · refine ⟨fun h => hkeep.1 h.1, fun h => ⟨hkeep.2 h, ?_⟩⟩
    exact h.mono (fun l s t h _ hs => hturn l s t h hs)
      (fun l s hI hP => handsOver_of_kept hI hP) hinit
  · intro l s t h hH hs
    have hstep : step input l s = some t := hs
    by_cases hp : s.printed = input
    · have ht := step_printed h hp hstep
      exact ⟨fun _ hne => absurd hp hne, fun _ hne => absurd ht hne⟩
    · have htok := step_tokens h hp hstep
      rw [hH hp] at htok
      constructor
      · intro hHt _
        by_contra hl
        rw [Bool.not_eq_false] at hl
        have ht : t.printed ≠ input := by rwa [printed_of_losesToken hl hstep]
        rw [hHt ht, hl] at htok
        cases htok
      · intro hP _
        simpa [hP hp] using htok

/-- Two processes, the string `AB`: rank 0 forwards the index to rank 1. -/
theorem token_kept_forwarded : (machine 2 [65, 66]).Throughout (TokenHeld [65, 66])
    [(0, true), (0, true), (0, true), (0, true)] (initial 2) := by
  refine ((token_kept_iff 2 (by decide) [65, 66] _).2 ?_).1
  decide

/-- Two processes, the string `AB`: rank 0 connects to rank 1, the `send` of the index fails, and
nobody is active with nothing in transit. -/
theorem failed_send_loses_token : ¬ ∀ N : ℕ, 0 < N → ∀ input : List UInt8, ∀ s,
    (machine N input).Reachable s → TokenHeld input s := by
  intro h
  have hrun : (machine 2 [65, 66]).run [(0, true), (0, true), (0, true), (0, false)] (initial 2) =
    some _ := rfl
  have := h 2 (by decide) [65, 66] _ (Machine.reachable_of_run rfl hrun)
  revert this
  unfold TokenHeld
  decide

end SemOS.Bogatyri.Sockets
