import SemOS.Signals.Agreement

/-!
# What the signal channel delivers

The consequences of the agreement of sender and receiver.

* `message_delivered`: a message without zero bytes arrives whole, with never more than one signal
  outstanding.
* `never_hangs_iff`: the parent is left waiting for an acknowledgement by a child that has exited
  exactly where a zero byte precedes the terminator of the buffer.
-/

namespace SemOS.Signals

open Function

variable {buffer msg : List UInt8} {i k : ℕ} {l : Label} {s t : State}

/-! ## Delivery -/

/-- How many bits the parent has sent. -/
def ParentControl.bitsSent (size : ℕ) : ParentControl → ℕ
  | .sendBit i k _ => 8 * i + k
  | .suspended i k _ => 8 * i + k + 1
  | .waiting | .exited => 8 * size

/-- For how many of them it has taken an acknowledgement. -/
def ParentControl.bitsAcknowledged (size : ℕ) : ParentControl → ℕ
  | .sendBit i k _ | .suspended i k _ => 8 * i + k
  | .waiting | .exited => 8 * size

/-- What is promised of the channel at every moment of sending `msg` and its terminator. -/
structure Delivers (msg : List UInt8) (s : State) : Prop where
  /-- At most one signal is outstanding, -/
  outstanding : ∀ x y, s.pending x = true → s.pending y = true → x = y
  /-- and none is raised while it is pending. -/
  raised : ∀ l x, raised l s = some x → s.pending x = false
  output : s.child ≠ .exited → s.printed <+: msg
  complete : s.child = .exited → s.printed = msg ++ [10]
  /-- Once the child has exited the parent has an acknowledgement for every bit it sent. -/
  acknowledged : s.child = .exited → s.parent.bitsSent (msg.length + 1) =
    s.parent.bitsAcknowledged (msg.length + 1) + (s.pending (false, sigGot)).toNat

theorem Receiving.child_ne_exited (h : Receiving buffer i k s) : s.child ≠ .exited := by
  obtain ⟨hc, -⟩ | ⟨hc | ⟨hc, -⟩, -⟩ := h.control
  all_goals simp [hc]

theorem Receiving.raised_child (h : Receiving buffer i k s) : raised .child s = none := by
  obtain ⟨hc, -⟩ | ⟨hc | ⟨hc, -⟩, -⟩ := h.control
  all_goals simp [raised, hc]

/-- Where the first zero byte is the terminator, the child exits there. -/
theorem Stopped.eq_length (hmsg : (0 : UInt8) ∉ msg) (h : Stopped (msg ++ [0]) i s) :
    i = msg.length := by
  have hi := h.index
  rw [List.length_append, List.length_singleton] at hi
  by_contra hne
  have hlt : i < msg.length := by omega
  have hzero := h.zero
  rw [List.getD_append _ _ _ _ hlt, List.getD_eq_getElem _ _ hlt] at hzero
  apply hmsg
  rw [← hzero]
  exact List.getElem_mem hlt

theorem Position.isPrefix_printed (h : Position (msg ++ [0]) i k s) : s.printed <+: msg := by
  have hi := h.index
  rw [List.length_append, List.length_singleton] at hi
  rw [h.printed, List.take_append_of_le_length (by omega)]
  exact List.take_prefix _ _

theorem Stopped.printed_eq (hmsg : (0 : UInt8) ∉ msg) (h : Stopped (msg ++ [0]) i s) :
    s.printed = msg ++ [10] := by
  rw [h.printed, h.eq_length hmsg, List.take_left]

theorem Quiet.outstanding (h : Quiet s) {x y : Bool × Signal} (hx : s.pending x = true) :
    x = y := by
  rw [h x] at hx
  cases hx

theorem Only.outstanding {x y z : Bool × Signal} (h : Only z s) (hx : s.pending x = true)
    (hy : s.pending y = true) : x = y := by
  rw [h x, decide_eq_true_eq] at hx
  rw [h y, decide_eq_true_eq] at hy
  rw [hx, hy]

/-- A suspended parent raises nothing, so a signal can come from the child only. -/
theorem raised_suspended {byte : BitVec 32} (hp : s.parent = .suspended i k byte)
    (hc : raised .child s = none) (l : Label) (x : Bool × Signal) (hx : raised l s = some x) :
    s.pending x = false := by
  cases l with
  | parent => simp [raised, hp] at hx
  | child => rw [hc] at hx; cases hx
  | deliver => cases hx

/-- As long as the child takes bits, it has printed a part of the message. -/
theorem Position.delivers (h : Position (msg ++ [0]) i k s) (hc : s.child ≠ .exited)
    (hout : ∀ x y, s.pending x = true → s.pending y = true → x = y)
    (hraised : ∀ l x, raised l s = some x → s.pending x = false) : Delivers msg s where
  outstanding := hout
  raised := hraised
  output _ := h.isPrefix_printed
  complete hexit := absurd hexit hc
  acknowledged hexit := absurd hexit hc

/-- Once the child has exited, it has printed the message. -/
theorem Stopped.delivers (hmsg : (0 : UInt8) ∉ msg) (h : Stopped (msg ++ [0]) i s)
    (hout : ∀ x y, s.pending x = true → s.pending y = true → x = y)
    (hraised : ∀ l x, raised l s = some x → s.pending x = false)
    (hbits : s.parent.bitsSent (msg.length + 1) =
      s.parent.bitsAcknowledged (msg.length + 1) + (s.pending (false, sigGot)).toNat) :
    Delivers msg s where
  outstanding := hout
  raised := hraised
  output hne := absurd h.control hne
  complete _ := h.printed_eq hmsg
  acknowledged _ := hbits

/-- **Delivery.** A message without zero bytes arrives whole, at any interleaving. -/
theorem message_delivered (msg : List UInt8) (hmsg : (0 : UInt8) ∉ msg) {s : State}
    (hs : (machine (msg ++ [0])).Reachable s) : Delivers msg s := by
  cases reachable_agreement ⟨msg, rfl⟩ hs with
  | sending hp hr hq =>
    exact hr.toPosition.delivers hr.child_ne_exited (fun _ _ hx _ => hq.outstanding hx)
      fun _ x _ => hq x
  | sent hp hr ho =>
    exact hr.toPosition.delivers hr.child_ne_exited (fun _ _ => ho.outstanding)
      (raised_suspended hp hr.raised_child)
  | taken hp hr hinst hc hbit hq =>
    exact hr.delivers (by simp [hc]) (fun _ _ hx _ => hq.outstanding hx) fun _ x _ => hq x
  | acknowledged hp ha ho =>
    have hreceiving : ∀ {i k}, Receiving (msg ++ [0]) i k s → Delivers msg s := fun hr =>
      hr.toPosition.delivers hr.child_ne_exited (fun _ _ => ho.outstanding)
        (raised_suspended hp hr.raised_child)
    cases ha with
    | bit _ hr => exact hreceiving hr
    | byte _ hr => exact hreceiving hr
    | stop _ hstop =>
      have hchild : raised .child s = none := by
        simp [raised, hstop.control]
      refine hstop.delivers hmsg (fun _ _ => ho.outstanding) (raised_suspended hp hchild) ?_
      -- the last acknowledgement is still on its way
      rw [hp, ho (false, sigGot), decide_eq_true rfl]
      rfl
  | finished hstop hlast hp hq =>
    refine hstop.delivers hmsg (fun _ _ hx _ => hq.outstanding hx) (fun _ x _ => hq x) ?_
    rw [hq (false, sigGot)]
    obtain hp | hp := hp <;> rw [hp] <;> rfl
  | ahead hstop hlt hp hq =>
    have := hstop.eq_length hmsg
    rw [List.length_append, List.length_singleton] at hlt
    omega

/-- A schedule of the message `A` and its terminator. -/
def letterSchedule : List Label :=
  [.child, .child] ++ (List.range 16).flatMap (fun k =>
    [.parent, .deliver (signalOf (k == 0 || k == 6)), .child, .parent]) ++ [.parent]

/-- The message `A`, run to its end. -/
theorem message_delivered_letter : ∃ s, (machine [65, 0]).run letterSchedule (initial [65, 0]) =
    some s ∧ s.printed = [65, 10] ∧ Delivers [65] s := by
  have hrun : ((machine [65, 0]).run letterSchedule (initial [65, 0])).map State.printed =
      some [65, 10] := by decide +kernel
  obtain ⟨s, hs, hp⟩ := Option.map_eq_some_iff.1 hrun
  exact ⟨s, hs, hp, message_delivered [65] (by decide) (Machine.reachable_of_run rfl hs)⟩

/-! ## Hanging -/

/-- The parent is in `sigsuspend` with no acknowledgement pending, and the child has exited. -/
def Hang (s : State) : Prop :=
  (∃ i k byte, s.parent = .suspended i k byte) ∧ s.pending (false, sigGot) = false ∧
    s.child = .exited

/-- The bits that the parent has not yet an acknowledgement for. -/
def ParentControl.bitsLeft (size : ℕ) : ParentControl → ℕ
  | .sendBit i k _ | .suspended i k _ => 8 * (size - i) - k
  | .waiting | .exited => 0

def ParentControl.effort : ParentControl → ℕ
  | .sendBit _ _ _ => 5
  | .waiting => 1
  | _ => 0

def ChildControl.effort : ChildControl → ℕ
  | .install0 => 2
  | .install1 => 1
  | .acknowledge _ _ => 3
  | _ => 0

/-- How far the two processes are from where nothing moves. -/
def State.measure (size : ℕ) (s : State) : ℕ :=
  6 * s.parent.bitsLeft size + s.parent.effort + s.child.effort +
    4 * ((s.childPending .usr1).toNat + (s.childPending .usr2).toNat) +
    (s.parentPending .usr1).toNat

theorem toNat_update_le (f : Signal → Bool) (sign : Signal) :
    (update f sign true .usr1).toNat + (update f sign true .usr2).toNat ≤
      (f .usr1).toNat + (f .usr2).toNat + 1 := by
  cases sign with
  | usr1 => exact (Nat.add_comm 1 _).trans_le (Nat.add_le_add_right (Nat.le_add_left _ _) 1)
  | usr2 => exact Nat.add_le_add_right (Nat.le_add_right _ _) 1

theorem toNat_update_lt {f : Signal → Bool} {sign : Signal} (h : f sign = true) :
    (update f sign false .usr1).toNat + (update f sign false .usr2).toNat + 1 =
      (f .usr1).toNat + (f .usr2).toNat := by
  cases sign with
  | usr1 => simp [h, Nat.add_comm]
  | usr2 => simp [h]

/-- The parent is at a bit of its buffer whenever it takes an acknowledgement. -/
theorem Agreement.index_lt {byte : BitVec 32} (h : Agreement buffer s)
    (hp : s.parent = .suspended i k byte) (hpend : s.pending (false, sigGot) = true) :
    i < buffer.length ∧ k < 8 := by
  cases h with
  | sending hp' => simp [hp] at hp'
  | sent hp' hr ho => simp [ho (false, sigGot)] at hpend
  | taken hp' hr hinst hc hbit hq => simp [hq (false, sigGot)] at hpend
  | acknowledged hp' ha ho =>
    rw [hp, ParentControl.suspended.injEq] at hp'
    obtain ⟨rfl, rfl, -⟩ := hp'
    cases ha with
    | bit hk hr => exact ⟨hr.index, by omega⟩
    | byte hk hr =>
      have := hr.index
      exact ⟨by omega, by omega⟩
    | stop hk hstop => exact ⟨hstop.index, by omega⟩
  | finished hs hlast hp' hq =>
    obtain hp' | hp' := hp' <;> simp [hp] at hp'
  | ahead hs hlt hp' hq => simp [hq sigGot] at hpend

/-- The parent's next bit. -/
theorem sendByte_measure (hi : i < buffer.length) (hk : k < 8) (byte : BitVec 32) :
    6 * (sendByte buffer i k byte).bitsLeft buffer.length + (sendByte buffer i k byte).effort ≤
      6 * (8 * (buffer.length - i) - k) - 1 := by
  unfold sendByte sendMessage
  split_ifs <;> simp only [ParentControl.bitsLeft, ParentControl.effort] <;> omega

theorem recieveByte_measure (k : ℕ) (byte : ℤ) (s : State) (size : ℕ) :
    (recieveByte k byte s).measure size + s.child.effort = s.measure size := by
  unfold recieveByte
  split_ifs <;> simp only [State.measure, ChildControl.effort] <;> omega

/-- A step of the parent brings the end nearer. -/
theorem parent_measure (h : Agreement buffer s) (hl : step buffer .parent s = some t) :
    t.measure buffer.length < s.measure buffer.length := by
  simp only [step] at hl
  split at hl
  · rename_i i k byte hp
    obtain rfl := Option.some.inj hl
    have := toNat_update_le s.childPending (bitSignal byte)
    simp only [State.measure, hp, ParentControl.bitsLeft, ParentControl.effort]
    omega
  · rename_i i k byte hp
    split_ifs at hl with hpend
    obtain rfl := Option.some.inj hl
    obtain ⟨hi, hk⟩ := h.index_lt hp hpend
    have := sendByte_measure hi hk byte
    have hgot : s.parentPending .usr1 = true := hpend
    have htaken : update s.parentPending sigGot false .usr1 = false := rfl
    have hleft : s.parent.bitsLeft buffer.length = 8 * (buffer.length - i) - k := by rw [hp]; rfl
    have heffort : s.parent.effort = 0 := by rw [hp]; rfl
    simp only [State.measure, hleft, heffort, hgot, htaken, Bool.toNat_true, Bool.toNat_false]
    omega
  · rename_i hp
    split_ifs at hl
    obtain rfl := Option.some.inj hl
    simp only [State.measure, hp, ParentControl.bitsLeft, ParentControl.effort]
    omega
  · cases hl

/-- A step of the child does. -/
theorem child_measure (hl : step buffer .child s = some t) :
    t.measure buffer.length < s.measure buffer.length := by
  simp only [step] at hl
  split at hl
  · rename_i hc
    obtain rfl := Option.some.inj hl
    simp only [State.measure, hc, ChildControl.effort]
    omega
  · rename_i hc
    obtain rfl := Option.some.inj hl
    simp only [State.measure, hc, ChildControl.effort]
    omega
  · rename_i k byte hc
    obtain rfl := Option.some.inj hl
    have := recieveByte_measure k (byte + s.recievedBit * 2 ^ k)
      { s with parentPending := update s.parentPending sigGot true } buffer.length
    have hle : (update s.parentPending sigGot true .usr1).toNat ≤ 1 := Bool.toNat_le _
    have heffort : s.child.effort = 3 := by rw [hc]; rfl
    simp only [heffort] at this
    have hparent : ({ s with parentPending := update s.parentPending sigGot true } :
        State).measure buffer.length ≤ s.measure buffer.length + 1 := by
      simp only [State.measure]
      omega
    omega
  all_goals cases hl

/-- The delivery of a signal to the child does. -/
theorem deliver_measure {sign : Signal} (hl : step buffer (.deliver sign) s = some t) :
    t.measure buffer.length < s.measure buffer.length := by
  simp only [step] at hl
  split at hl
  · rename_i k byte hc
    split_ifs at hl with hpend
    obtain rfl := Option.some.inj hl
    have := toNat_update_lt hpend
    unfold deliver
    simp only
    split <;> simp only [State.measure, hc, ChildControl.effort] <;> omega
  · cases hl

theorem step_measure (h : Agreement buffer s) (hl : step buffer l s = some t) :
    t.measure buffer.length < s.measure buffer.length := by
  cases l with
  | parent => exact parent_measure h hl
  | child => exact child_measure hl
  | deliver sign => exact deliver_measure hl

/-- Only the end of the message, a hang, or nothing at all stops the two processes. -/
theorem Agreement.of_stuck (h : Agreement buffer s) (hstuck : (machine buffer).Stuck s) :
    Hang s ∨ ∃ i, Stopped buffer i s ∧ i + 1 = buffer.length := by
  have hready : ∀ {i k sign}, Receiving buffer i k s → s.pending (true, sign) = true → False := by
    intro i k sign hr hpend
    obtain ⟨hc, -⟩ | ⟨hc | ⟨hc, -⟩, -⟩ := hr.control
    · have hp : s.childPending sign = true := hpend
      have := hstuck (.deliver sign)
      simp [machine, step, hc, hp] at this
    · have := hstuck .child
      simp [machine, step, hc] at this
    · have := hstuck .child
      simp [machine, step, hc] at this
  cases h with
  | sending hp hr hq =>
    have := hstuck .parent
    simp [machine, step, hp] at this
  | sent hp hr ho => exact (hready hr ((ho _).trans (decide_eq_true rfl))).elim
  | taken hp hr hinst hc hbit hq =>
    have := hstuck .child
    simp [machine, step, hc] at this
  | acknowledged hp ha ho =>
    have hpend : s.parentPending sigGot = true := by simpa [State.pending] using ho (false, sigGot)
    have := hstuck .parent
    simp [machine, step, hp, hpend] at this
  | finished hs hlast hp hq => exact .inr ⟨_, hs, hlast⟩
  | ahead hs hlt hp hq =>
    obtain ⟨byte, hp | hp⟩ := hp
    · have := hstuck .parent
      simp [machine, step, hp] at this
    · exact .inl ⟨⟨_, _, _, hp⟩, hq _, hs.control⟩

/-- **Hanging.** Whatever `main` sends: the parent never waits in vain for a child that has exited
exactly when no byte before the terminator is zero. -/
theorem never_hangs_iff (inp : Input) :
    (∀ s, (machine inp.buffer).Reachable s → ¬ Hang s) ↔ (0 : UInt8) ∉ inp.bytes := by
  have hterm : ∃ bytes, inp.buffer = bytes ++ [0] := ⟨inp.bytes, rfl⟩
  have hlen : inp.buffer.length = inp.bytes.length + 1 := by simp [Input.buffer]
  constructor
  · intro hfree h0
    obtain ⟨t, ht, -, hstuck⟩ := Machine.exists_stuck (M := machine inp.buffer)
      (I := Agreement inp.buffer) (State.measure inp.buffer.length)
      (fun l s s' h hl => ⟨step_agreement hterm h hl, step_measure h hl⟩)
      (initial_agreement hterm)
    have hreach : (machine inp.buffer).Reachable t := (Machine.Reachable.of_init rfl).leads ht
    obtain hhang | ⟨i, hs, hlast⟩ := (reachable_agreement hterm hreach).of_stuck hstuck
    · exact hfree t hreach hhang
    · apply hs.nonzero
      have hi : i = inp.bytes.length := by omega
      rw [hi, Input.buffer, List.take_left]
      exact h0
  · rintro h0 s hs ⟨⟨i, k, byte, hp⟩, hpend, hc⟩
    cases reachable_agreement hterm hs with
    | sending hp' hr hq => exact hr.child_ne_exited hc
    | sent hp' hr ho => exact hr.child_ne_exited hc
    | taken hp' hr hinst hc' hbit hq => simp [hc] at hc'
    | acknowledged hp' ha ho => simp [ho (false, sigGot)] at hpend
    | finished hstop hlast hp' hq => obtain hp' | hp' := hp' <;> simp [hp] at hp'
    | ahead hstop hlt hp' hq =>
      have := Stopped.eq_length h0 hstop
      omega

/-- A file of one byte, which is zero: the child exits at it, and the parent hangs on the next. -/
theorem zero_byte_hangs : ¬ ∀ inp : Input, ∀ s, (machine inp.buffer).Reachable s → ¬ Hang s := by
  intro h
  have hrun : ((machine [0, 0]).run ([Label.child, .child] ++ (List.range 8).flatMap (fun _ =>
      [Label.parent, .deliver sig0, .child, .parent]) ++ [Label.parent]) (initial [0, 0])).map
      (fun s => (s.parent, s.pending (false, sigGot), s.child)) =
      some (.suspended 1 0 0, false, .exited) := by decide +kernel
  obtain ⟨s, hs, heq⟩ := Option.map_eq_some_iff.1 hrun
  rw [Prod.mk.injEq, Prod.mk.injEq] at heq
  obtain ⟨hp, hpend, hc⟩ := heq
  exact h (.file 1 [0] (by decide)) s (Machine.reachable_of_run rfl hs)
    ⟨⟨1, 0, 0, hp⟩, hpend, hc⟩

end SemOS.Signals
