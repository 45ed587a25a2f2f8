import SemOS.Signals.Channel

/-!
# The agreement of sender and receiver

The invariant of the signal channel. The two processes go through the bits of the buffer in step,
until the child decodes a zero byte.

* `Position` is what the child has of the message, `Receiving` that it is ready for the next bit,
  `Stopped` that it has exited at a zero byte.
* `Agreement` has one constructor for each phase of a bit, and two for what follows the child's
  exit: the parent is at the end of its buffer, or ahead of the child. `step_agreement` keeps it,
  `reachable_agreement` is the result for runs.
-/

namespace SemOS.Signals

open Function

variable {buffer : List UInt8} {i k : ℕ} {l : Label} {s t : State}

/-! ## Where the child is -/

/-- The child has installed its two handlers. -/
def Installed (s : State) : Prop := ∀ sign, s.disposition sign = .recieverHandler

/-- The child has still to do so. -/
def Installing (s : State) : Prop :=
  s.child = .install0 ∨ s.child = .install1 ∧ s.disposition sig0 = .recieverHandler

/-- The child has received and printed the bytes before `i`, none of them zero, and of byte `i` the
bits before `k`. -/
structure Position (buffer : List UInt8) (i k : ℕ) (s : State) : Prop where
  index : i < buffer.length
  bit : k < 8
  nonzero : (0 : UInt8) ∉ buffer.take i
  printed : s.printed = buffer.take i

/-- The child is ready for bit `k` of byte `i`. -/
structure Receiving (buffer : List UInt8) (i k : ℕ) (s : State) : Prop extends
    Position buffer i k s where
  control : s.child = .suspended k (partialByte (buffer.getD i 0) k) ∧ Installed s ∨
    Installing s ∧ i = 0 ∧ k = 0

/-- The child has exited at byte `i`, the first that is zero. -/
structure Stopped (buffer : List UInt8) (i : ℕ) (s : State) : Prop where
  index : i < buffer.length
  nonzero : (0 : UInt8) ∉ buffer.take i
  zero : buffer.getD i 0 = 0
  printed : s.printed = buffer.take i ++ [10]
  control : s.child = .exited

/-- The child is past bit `k` of byte `i`. -/
inductive Advanced (buffer : List UInt8) (i k : ℕ) (s : State) : Prop
  | bit (hk : k + 1 < 8) (hr : Receiving buffer i (k + 1) s)
  | byte (hk : k + 1 = 8) (hr : Receiving buffer (i + 1) 0 s)
  | stop (hk : k + 1 = 8) (hs : Stopped buffer i s)

/-- Nothing is pending. -/
def Quiet (s : State) : Prop := ∀ x, s.pending x = false

/-- One signal is pending. -/
def Only (x : Bool × Signal) (s : State) : Prop := ∀ y, s.pending y = decide (y = x)

/-- The invariant of the channel. -/
inductive Agreement (buffer : List UInt8) (s : State) : Prop
  /-- The parent is about to send bit `k` of byte `i`. -/
  | sending {i k : ℕ} (hp : s.parent = .sendBit i k (shifted (buffer.getD i 0) k))
      (hr : Receiving buffer i k s) (hq : Quiet s)
  /-- The bit is pending. -/
  | sent {i k : ℕ} (hp : s.parent = .suspended i k (shifted (buffer.getD i 0) k))
      (hr : Receiving buffer i k s)
      (ho : Only (true, signalOf (nthBit (buffer.getD i 0) k)) s)
  /-- The child has taken it. -/
  | taken {i k : ℕ} (hp : s.parent = .suspended i k (shifted (buffer.getD i 0) k))
      (hr : Position buffer i k s) (hinst : Installed s)
      (hc : s.child = .acknowledge k (partialByte (buffer.getD i 0) k))
      (hbit : s.recievedBit = (nthBit (buffer.getD i 0) k).toNat) (hq : Quiet s)
  /-- The acknowledgement is pending. -/
  | acknowledged {i k : ℕ} (hp : s.parent = .suspended i k (shifted (buffer.getD i 0) k))
      (ha : Advanced buffer i k s) (ho : Only (false, sigGot) s)
  /-- The child has exited at the last byte, and the parent has sent it. -/
  | finished {i : ℕ} (hs : Stopped buffer i s) (hlast : i + 1 = buffer.length)
      (hp : s.parent = .waiting ∨ s.parent = .exited) (hq : Quiet s)
  /-- The child has exited at an earlier one, and the parent goes on. -/
  | ahead {i : ℕ} (hs : Stopped buffer i s) (hlt : i + 1 < buffer.length)
      (hp : ∃ byte, s.parent = .sendBit (i + 1) 0 byte ∨ s.parent = .suspended (i + 1) 0 byte)
      (hq : ∀ sign, s.pending (false, sign) = false)

/-! ## One step of a process -/

theorem Receiving.congr (h : Receiving buffer i k s) (hp : t.printed = s.printed)
    (hc : t.child = s.child) (hd : t.disposition = s.disposition) : Receiving buffer i k t := by
  refine ⟨⟨h.index, h.bit, h.nonzero, hp.trans h.printed⟩, ?_⟩
  unfold Installed Installing
  rw [hc, hd]
  exact h.control

theorem Stopped.congr (h : Stopped buffer i s) (hp : t.printed = s.printed)
    (hc : t.child = s.child) : Stopped buffer i t :=
  ⟨h.index, h.nonzero, h.zero, hp.trans h.printed, hc.trans h.control⟩

theorem Quiet.raise {x : Bool × Signal} (h : Quiet s) (ht : t.pending = update s.pending x true) :
    Only x t := by
  intro y
  rw [ht, update_apply, h y]
  split_ifs with hy <;> simp [hy]

theorem Only.take {x : Bool × Signal} (h : Only x s) (ht : t.pending = update s.pending x false) :
    Quiet t := by
  intro y
  rw [ht, update_apply, h y]
  split_ifs with hy <;> simp [hy]

/-- A child that is ready for a bit only has its handlers to install. -/
theorem Receiving.child (h : Receiving buffer i k s) (hl : step buffer .child s = some t) :
    Receiving buffer i k t ∧ t.parent = s.parent ∧ t.pending = s.pending := by
  obtain ⟨hc, -⟩ | ⟨hc | ⟨hc, hd⟩, hi, hk⟩ := h.control
  · simp [step, hc] at hl
  · simp only [step, hc, Option.some.injEq] at hl
    subst hl
    refine ⟨⟨⟨h.index, h.bit, h.nonzero, h.printed⟩, .inr ⟨.inr ⟨rfl, ?_⟩, hi, hk⟩⟩, rfl, ?_⟩
    · rfl
    · funext ⟨b, sign⟩
      cases b <;> rfl
  · simp only [step, hc, Option.some.injEq] at hl
    subst hl
    refine ⟨⟨⟨h.index, h.bit, h.nonzero, h.printed⟩, .inl ⟨?_, ?_⟩⟩, rfl, ?_⟩
    · rw [hk, partialByte_zero]
    · intro sign
      cases sign with
      | usr1 => exact hd
      | usr2 => rfl
    · funext ⟨b, sign⟩
      cases b <;> rfl

/-- The child never installs handlers past its first bit. -/
theorem Advanced.child (h : Advanced buffer i k s) : step buffer .child s = none := by
  have hready : ∀ {i k}, Receiving buffer i k s → ¬ (i = 0 ∧ k = 0) →
      step buffer .child s = none := by
    intro i k hr hne
    obtain ⟨hc, -⟩ | ⟨-, hik⟩ := hr.control
    · simp [step, hc]
    · exact absurd hik hne
  cases h with
  | bit _ hr => exact hready hr (by omega)
  | byte _ hr => exact hready hr (by omega)
  | stop _ hs => simp [step, hs.control]

/-- The parent sends the bit that the child is ready for. -/
theorem Receiving.send (h : Receiving buffer i k s)
    (hp : s.parent = .sendBit i k (shifted (buffer.getD i 0) k)) (hq : Quiet s)
    (hl : step buffer .parent s = some t) : Agreement buffer t := by
  simp only [step, hp, Option.some.injEq] at hl
  subst hl
  refine .sent rfl (h.congr rfl rfl rfl) ?_
  rw [← bitSignal_shifted _ h.bit]
  exact hq.raise (pending_update_child rfl rfl)

/-- The child takes the bit that is pending. -/
theorem Receiving.take {sign : Signal} (h : Receiving buffer i k s)
    (hp : s.parent = .suspended i k (shifted (buffer.getD i 0) k))
    (ho : Only (true, signalOf (nthBit (buffer.getD i 0) k)) s)
    (hl : step buffer (.deliver sign) s = some t) : Agreement buffer t := by
  obtain ⟨hc, hinst⟩ | ⟨hc | ⟨hc, -⟩, -⟩ := h.control
  · simp only [step, hc] at hl
    split_ifs at hl with hpend
    obtain rfl := Option.some.inj hl
    obtain rfl : sign = signalOf (nthBit (buffer.getD i 0) k) := by
      have := ho (true, sign)
      rw [State.pending, hpend] at this
      simpa using this.symm
    have hd : ∀ sign, deliver sign k (partialByte (buffer.getD i 0) k) s =
        { s with
          childPending := update s.childPending sign false
          recievedBit := handledBit sign s.recievedBit
          child := .acknowledge k (partialByte (buffer.getD i 0) k) } := by
      intro sign
      simp [deliver, hinst sign]
    rw [hd]
    exact .taken hp ⟨h.index, h.bit, h.nonzero, h.printed⟩ hinst rfl (handledBit_signalOf ..)
      (ho.take (pending_update_child rfl rfl))
  · simp [step, hc] at hl
  · simp [step, hc] at hl

/-- What the child makes of a whole byte. -/
theorem Position.next (hterm : ∃ bytes, buffer = bytes ++ [0]) (h : Position buffer i k s)
    (hne : buffer.getD i 0 ≠ 0) :
    i + 1 < buffer.length ∧ (0 : UInt8) ∉ buffer.take (i + 1) ∧
      buffer.take (i + 1) = buffer.take i ++ [buffer.getD i 0] := by
  have hi := h.index
  have hget : buffer.getD i 0 = buffer[i] := List.getD_eq_getElem _ _ hi
  have htake : buffer.take (i + 1) = buffer.take i ++ [buffer.getD i 0] := by
    rw [List.take_add_one, List.getElem?_eq_getElem h.index, hget]
    rfl
  refine ⟨?_, ?_, htake⟩
  · obtain ⟨bytes, rfl⟩ := hterm
    by_contra hge
    apply hne
    have hi := h.index
    simp only [List.length_append, List.length_singleton] at hge hi
    obtain rfl : i = bytes.length := by omega
    simp
  · rw [htake, List.mem_append, not_or]
    exact ⟨h.nonzero, fun h0 => hne (List.mem_singleton.1 h0).symm⟩

/-- The child acknowledges a bit and goes on, to the next byte or to its exit. -/
theorem Position.acknowledge (hterm : ∃ bytes, buffer = bytes ++ [0]) (h : Position buffer i k s)
    (hp : s.parent = .suspended i k (shifted (buffer.getD i 0) k)) (hinst : Installed s)
    (hc : s.child = .acknowledge k (partialByte (buffer.getD i 0) k))
    (hbit : s.recievedBit = (nthBit (buffer.getD i 0) k).toNat) (hq : Quiet s)
    (hl : step buffer .child s = some t) : Agreement buffer t := by
  have ho : ∀ {t : State}, t.parentPending = update s.parentPending sigGot true →
      t.childPending = s.childPending → Only (false, sigGot) t :=
    fun hp hc => hq.raise (pending_update_parent hp hc)
  have hk := h.bit
  simp only [step, hc, Option.some.injEq, hbit, partialByte_succ] at hl
  unfold recieveByte at hl
  split_ifs at hl with hlt hzero
  · subst hl
    exact .acknowledged hp (.bit hlt ⟨⟨h.index, hlt, h.nonzero, h.printed⟩, .inl ⟨rfl, hinst⟩⟩)
      (ho rfl rfl)
  · subst hl
    obtain rfl : k = 7 := by omega
    have hbyte : buffer.getD i 0 = 0 := by
      rw [partialByte_eight] at hzero
      exact UInt8.toNat_inj.1 (by simpa using hzero)
    refine .acknowledged hp (.stop rfl ⟨h.index, h.nonzero, hbyte, ?_, rfl⟩) (ho rfl rfl)
    simp only [h.printed]
  · subst hl
    obtain rfl : k = 7 := by omega
    have hbyte : buffer.getD i 0 ≠ 0 := by
      intro hbyte
      apply hzero
      rw [partialByte_eight, hbyte]
      rfl
    obtain ⟨hi, hnz, htake⟩ := h.next hterm hbyte
    refine .acknowledged hp (.byte rfl ⟨⟨hi, by omega, hnz, ?_⟩, .inl ⟨?_, hinst⟩⟩) (ho rfl rfl)
    · rw [htake, ofInt_partialByte]
      simp only [h.printed]
    · rw [partialByte_zero]

/-- The parent takes the acknowledgement and goes on. -/
theorem Advanced.resume (h : Advanced buffer i k s)
    (hp : s.parent = .suspended i k (shifted (buffer.getD i 0) k))
    (ho : Only (false, sigGot) s) (hl : step buffer .parent s = some t) : Agreement buffer t := by
  have hpend : s.parentPending sigGot = true := by simpa [State.pending] using ho (false, sigGot)
  simp only [step, hp, hpend, if_true, Option.some.injEq] at hl
  subst hl
  have hq : Quiet { s with
      parent := sendByte buffer i k (shifted (buffer.getD i 0) k)
      parentPending := update s.parentPending sigGot false } :=
    ho.take (pending_update_parent rfl rfl)
  cases h with
  | bit hk hr =>
    refine .sending (i := i) (k := k + 1) ?_ (hr.congr rfl rfl rfl) hq
    simp only [sendByte, if_pos hk, sshiftRight_shifted]
  | byte hk hr =>
    refine .sending (i := i + 1) (k := 0) ?_ (hr.congr rfl rfl rfl) hq
    simp only [sendByte, if_neg (show ¬ k + 1 < 8 by omega), sendMessage, if_pos hr.index,
      shifted_zero]
  | stop hk hs =>
    have hparent : sendByte buffer i k (shifted (buffer.getD i 0) k) =
        sendMessage buffer (i + 1) := by
      rw [sendByte, if_neg (by omega)]
    by_cases hlt : i + 1 < buffer.length
    · refine .ahead (hs.congr rfl rfl) hlt ⟨charToInt (buffer.getD (i + 1) 0), .inl ?_⟩
        fun sign => hq (false, sign)
      simp only [hparent, sendMessage, if_pos hlt]
    · have hi := hs.index
      refine .finished (hs.congr rfl rfl) (by omega) (.inl ?_) hq
      simp only [hparent, sendMessage, if_neg hlt]

/-! ## Runs -/

/-- Nothing is delivered to a child while nothing is pending for it. -/
theorem deliver_eq_none {sign : Signal} (h : s.pending (true, sign) = false) :
    step buffer (.deliver sign) s = none := by
  have : s.childPending sign = false := h
  unfold step
  simp only [this]
  split <;> rfl

/-- The suspended parent waits while nothing is pending for it. -/
theorem parent_eq_none {byte : BitVec 32} (hp : s.parent = .suspended i k byte)
    (h : s.pending (false, sigGot) = false) : step buffer .parent s = none := by
  have : s.parentPending sigGot = false := h
  simp [step, hp, this]

/-- Every step keeps the agreement. -/
theorem step_agreement (hterm : ∃ bytes, buffer = bytes ++ [0]) (h : Agreement buffer s)
    (hl : step buffer l s = some t) : Agreement buffer t := by
  cases h with
  | sending hp hr hq =>
    cases l with
    | parent => exact hr.send hp hq hl
    | child =>
      obtain ⟨hr', hp', hpend⟩ := hr.child hl
      exact .sending (hp'.trans hp) hr' (fun x => by rw [hpend, hq x])
    | deliver sign =>
      rw [deliver_eq_none (hq _)] at hl
      cases hl
  | sent hp hr ho =>
    cases l with
    | parent =>
      rw [parent_eq_none hp (by rw [ho]; simp)] at hl
      cases hl
    | child =>
      obtain ⟨hr', hp', hpend⟩ := hr.child hl
      exact .sent (hp'.trans hp) hr' (fun x => by rw [hpend, ho x])
    | deliver sign => exact hr.take hp ho hl
  | taken hp hr hinst hc hbit hq =>
    cases l with
    | parent =>
      rw [parent_eq_none hp (hq _)] at hl
      cases hl
    | child => exact hr.acknowledge hterm hp hinst hc hbit hq hl
    | deliver sign =>
      rw [deliver_eq_none (hq _)] at hl
      cases hl
  | acknowledged hp ha ho =>
    cases l with
    | parent => exact ha.resume hp ho hl
    | child =>
      rw [ha.child] at hl
      cases hl
    | deliver sign =>
      rw [deliver_eq_none (by rw [ho]; simp)] at hl
      cases hl
  | finished hs hlast hp hq =>
    cases l with
    | parent =>
      obtain hp | hp := hp
      · simp only [step, hp, if_pos hs.control, Option.some.injEq] at hl
        subst hl
        exact .finished (hs.congr rfl rfl) hlast (.inr rfl) hq
      · simp [step, hp] at hl
    | child => simp [step, hs.control] at hl
    | deliver sign => simp [step, hs.control] at hl
  | ahead hs hlt hp hq =>
    cases l with
    | parent =>
      obtain ⟨byte, hp | hp⟩ := hp
      · simp only [step, hp, Option.some.injEq] at hl
        subst hl
        exact .ahead (hs.congr rfl rfl) hlt ⟨byte, .inr rfl⟩ hq
      · rw [parent_eq_none hp (hq _)] at hl
        cases hl
    | child => simp [step, hs.control] at hl
    | deliver sign => simp [step, hs.control] at hl

theorem initial_agreement (hterm : ∃ bytes, buffer = bytes ++ [0]) :
    Agreement buffer (initial buffer) := by
  have hpos : 0 < buffer.length := by
    obtain ⟨bytes, rfl⟩ := hterm
    simp
  refine .sending (i := 0) (k := 0) ?_
    ⟨⟨hpos, by omega, by simp, rfl⟩, .inr ⟨.inl rfl, rfl, rfl⟩⟩ ?_
  · simp [initial, sendMessage, hpos]
  · rintro ⟨b, sign⟩
    cases b <;> rfl

/-- Every reachable state agrees. -/
theorem reachable_agreement (hterm : ∃ bytes, buffer = bytes ++ [0])
    (hs : (machine buffer).Reachable s) : Agreement buffer s :=
  hs.invariant (fun _ h => h ▸ initial_agreement hterm) fun _ _ _ h hl => step_agreement hterm h hl

end SemOS.Signals
