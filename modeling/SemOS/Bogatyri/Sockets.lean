import Mathlib.Data.List.GetD
import SemOS.Foundations.Machine
import SemOS.Foundations.MessageQueue
import SemOS.Foundations.Processes

/-!
# The bogatyri over sockets

`process_function` of `sems/bogatyri/sockets2.c`: `N` processes, one per rank, print a string. One
process is active and carries the current index; the character there belongs to the rank that is
its value modulo `N`. After printing, and when the character is another rank's, the active process
connects to the rank of the current character and sends it the index; an inactive process accepts
a connection and becomes active with the index it receives, or leaves on the end-of-file mark.

* Every `connect`, `send` and `recv` may fail: the label of a step is a process and the answer of
  the call it makes. A connection whose `send` failed carries no value, and a short `recv` loses
  the one it carries.
* `Moves` lists what a step does. `Turn` is the invariant of the hand-over, with `step_turn` for
  one step and `reachable_turn` for every reachable state; `turn_is_safe` is what follows for the
  output.
-/

namespace SemOS.Bogatyri.Sockets

open Function

/-- `MAX_MSG_SIZE`. -/
def maxMsgSize : ℕ := 1024

/-- An argument of the program that `strcpy` can copy into `input_string`, with its terminator. -/
structure InputString where
  bytes : List UInt8
  noZero : 0 ∉ bytes
  fits : bytes.length < maxMsgSize

/-- Where a process is in `process_function`. -/
inductive Control
  /-- Before `active` is set. -/
  | start
  /-- At the head of the loop. -/
  | loop (active : Bool) (currentIndex : ℕ)
  /-- In `connect_to_process`, to hand the index over. -/
  | connecting (target currentIndex : ℕ)
  /-- Connected, before the `send` of the index. -/
  | sending (target currentIndex : ℕ)
  /-- At the head of the loop that sends the end-of-file mark to rank `i`. -/
  | eofConnecting (i currentIndex : ℕ)
  /-- Connected, before the `send` of the mark. -/
  | eofSending (i currentIndex : ℕ)
  | exited
  deriving DecidableEq

/-- A connection to rank `target`, with the value sent on it; `none` when the `send` failed. -/
structure Connection where
  target : ℕ
  payload : Option ℤ
  deriving DecidableEq

/-- The processes, the connections not yet accepted, and what has been printed. -/
structure State (N : ℕ) where
  control : Fin N → Control
  connections : List Connection
  printed : List UInt8

variable {N : ℕ}

/-- Process `r` goes to the control point `c`. -/
def State.goto (s : State N) (r : Fin N) (c : Control) : State N :=
  { s with control := update s.control r c }

@[simp] theorem State.goto_control (s : State N) (r : Fin N) (c : Control) :
    (s.goto r c).control = update s.control r c := rfl

@[simp] theorem State.goto_connections (s : State N) (r : Fin N) (c : Control) :
    (s.goto r c).connections = s.connections := rfl

@[simp] theorem State.goto_printed (s : State N) (r : Fin N) (c : Control) :
    (s.goto r c).printed = s.printed := rfl

/-- `(unsigned char) input_string[i] % pids_count`. -/
def targetRank (N : ℕ) (input : List UInt8) (i : ℕ) : ℕ := (input.getD i 0).toNat % N

/-- `accept` on the server socket of rank `r`. -/
def accept (r : ℕ) (q : List Connection) : Option (Connection × List Connection) :=
  MessageQueue.receive (fun c => c.target == r) q

/-- The round of an active process, up to its next call. -/
def activeRound (input : List UInt8) (r : Fin N) (i : ℕ) (s : State N) : State N :=
  if input.length ≤ i then s.goto r (.eofConnecting 0 i)
  else if targetRank N input i = r then
    { s.goto r (if i + 1 < input.length then .connecting (targetRank N input (i + 1)) (i + 1)
        else .loop true (i + 1)) with printed := s.printed ++ [input.getD i 0] }
  else s.goto r (.connecting (targetRank N input i) i)

/-- What an inactive process does with an accepted connection; `ok` is a full `recv`. -/
def received (ok : Bool) (i : ℕ) (c : Connection) : Control :=
  match c.payload with
  | some m => if ok then if m = -1 then .exited else .loop true m.toNat else .loop false i
  | none => .loop false i

/-- One piece of process `r`, with the answer `ok` of the call it makes; `none` when it has
exited, or polls in vain. -/
def step (input : List UInt8) (l : Fin N × Bool) (s : State N) : Option (State N) :=
  let (r, ok) := l
  match s.control r with
  | .start => some (s.goto r (.loop (decide ((r : ℕ) = 0)) 0))
  | .loop true i => some (activeRound input r i s)
  | .loop false i =>
    (accept r s.connections).map fun (c, q) => { s.goto r (received ok i c) with connections := q }
  | .connecting t i => some (s.goto r (if ok then .sending t i else .loop true i))
  | .sending t i =>
    some { s.goto r (.loop false i) with
      connections := s.connections ++ [⟨t, if ok then some (i : ℤ) else none⟩] }
  | .eofConnecting j i =>
    if j < N then
      some (s.goto r (if j = r ∨ ok = false then .eofConnecting (j + 1) i else .eofSending j i))
    else some (s.goto r .exited)
  | .eofSending j i =>
    some { s.goto r (.eofConnecting (j + 1) i) with
      connections := s.connections ++ [⟨j, if ok then some (-1) else none⟩] }
  | .exited => none

/-- All processes before `active` is set. -/
def initial (N : ℕ) : State N := ⟨fun _ => .start, [], []⟩

/-- The interleaving of the `N` processes with all answers of their calls. -/
def machine (N : ℕ) (input : List UInt8) : Machine (Fin N × Bool) (State N) where
  init s := s = initial N
  act := step input

/-! ## What a step does -/

/-- `Moves input r s t`: a step of process `r` takes `s` to `t`. -/
inductive Moves (input : List UInt8) (r : Fin N) (s : State N) : State N → Prop
  | begin (hc : s.control r = .start) : Moves input r s (s.goto r (.loop (decide ((r : ℕ) = 0)) 0))
  | finish {i} (hc : s.control r = .loop true i) (hi : input.length ≤ i) :
      Moves input r s (s.goto r (.eofConnecting 0 i))
  | print {i c} (hc : s.control r = .loop true i) (hi : i < input.length)
      (hr : c = .loop true (i + 1) ∨ ∃ t, c = .connecting t (i + 1)) :
      Moves input r s { s.goto r c with printed := s.printed ++ [input.getD i 0] }
  | forward {i} (t) (hc : s.control r = .loop true i) (hi : i < input.length) :
      Moves input r s (s.goto r (.connecting t i))
  | lose {i c q} (hc : s.control r = .loop false i) (hq : accept r s.connections = some (c, q)) :
      Moves input r s { s.goto r (.loop false i) with connections := q }
  | activate {i c q m} (hc : s.control r = .loop false i)
      (hq : accept r s.connections = some (c, q)) (hm : c.payload = some m) (hne : m ≠ -1) :
      Moves input r s { s.goto r (.loop true m.toNat) with connections := q }
  | leave {i c q} (hc : s.control r = .loop false i)
      (hq : accept r s.connections = some (c, q)) (hm : c.payload = some (-1)) :
      Moves input r s { s.goto r .exited with connections := q }
  | connected {t i} (hc : s.control r = .connecting t i) : Moves input r s (s.goto r (.sending t i))
  | refused {t i} (hc : s.control r = .connecting t i) : Moves input r s (s.goto r (.loop true i))
  | send {t i} (hc : s.control r = .sending t i) :
      Moves input r s
        { s.goto r (.loop false i) with connections := s.connections ++ [⟨t, some (i : ℤ)⟩] }
  | sendFails {t i} (hc : s.control r = .sending t i) :
      Moves input r s { s.goto r (.loop false i) with connections := s.connections ++ [⟨t, none⟩] }
  | eofSkip {j i} (hc : s.control r = .eofConnecting j i) :
      Moves input r s (s.goto r (.eofConnecting (j + 1) i))
  | eofConnected {j i} (hc : s.control r = .eofConnecting j i) :
      Moves input r s (s.goto r (.eofSending j i))
  | exit {j i} (hc : s.control r = .eofConnecting j i) : Moves input r s (s.goto r .exited)
  | eofSend {j i p} (hc : s.control r = .eofSending j i) (hp : p = some (-1) ∨ p = none) :
      Moves input r s
        { s.goto r (.eofConnecting (j + 1) i) with connections := s.connections ++ [⟨j, p⟩] }

variable {input : List UInt8} {r : Fin N} {ok : Bool} {s t : State N}

/-- A step does what `Moves` lists, and nothing else. -/
theorem step_moves (h : step input (r, ok) s = some t) : Moves input r s t := by
  unfold step at h
  simp only at h
  split at h
  · rename_i hc
    obtain rfl := Option.some.inj h
    exact .begin hc
  · rename_i i hc
    obtain rfl := Option.some.inj h
    unfold activeRound
    split_ifs with hi ht hlast
    · exact .finish hc hi
    · exact .print hc (not_le.1 hi) (.inr ⟨_, rfl⟩)
    · exact .print hc (not_le.1 hi) (.inl rfl)
    · exact .forward _ hc (not_le.1 hi)
  · rename_i i hc
    obtain ⟨⟨c, q⟩, hq, rfl⟩ := Option.map_eq_some_iff.1 h
    simp only [received]
    split
    · rename_i m hm
      split_ifs with hok hne
      · exact .leave hc hq (hne ▸ hm)
      · exact .activate hc hq hm hne
      · exact .lose hc hq
    · exact .lose hc hq
  · rename_i t i hc
    obtain rfl := Option.some.inj h
    split_ifs
    · exact .connected hc
    · exact .refused hc
  · rename_i t i hc
    obtain rfl := Option.some.inj h
    split_ifs
    · exact .send hc
    · exact .sendFails hc
  · rename_i j i hc
    split_ifs at h with hj hs
    · obtain rfl := Option.some.inj h
      exact .eofSkip hc
    · obtain rfl := Option.some.inj h
      exact .eofConnected hc
    · obtain rfl := Option.some.inj h
      exact .exit hc
  · rename_i j i hc
    obtain rfl := Option.some.inj h
    refine .eofSend hc ?_
    split_ifs
    · exact .inl rfl
    · exact .inr rfl
  · simp at h

/-! ## One process -/

/-- The process `r` alone, at `c`, with the connections `q`. -/
def alone (c : Control) (q : List Connection) : State N := ⟨fun _ => c, q, []⟩

/-- A piece of process `r` goes by its own control point and the connections. -/
theorem step_local (s : State N) : step input (r, ok) s =
    (step input (r, ok) (alone (s.control r) s.connections)).map fun t =>
      ⟨update s.control r (t.control r), t.connections, s.printed ++ t.printed⟩ := by
  simp only [step, alone]
  cases s.control r with
  | start => simp [State.goto]
  | loop active i =>
    cases active with
    | true =>
      simp only [activeRound]
      split_ifs <;> simp [State.goto]
    | false => simp [State.goto, Function.comp_def]
  | connecting t i => simp [State.goto]
  | sending t i => simp [State.goto]
  | eofConnecting j i =>
    dsimp only
    split_ifs <;> simp [State.goto]
  | eofSending j i => simp [State.goto]
  | exited => rfl

/-! ## The invariant of the hand-over -/

/-- The index that a process carries while `active` is set. -/
def Control.activeIndex : Control → Option ℕ
  | .loop true i | .connecting _ i | .sending _ i | .eofConnecting _ i | .eofSending _ i => some i
  | _ => none

/-- The control points that follow the end of the string or the end-of-file mark. -/
def Control.Ending (c : Control) : Prop :=
  (∃ j i, c = .eofConnecting j i ∨ c = .eofSending j i) ∨ c = .exited

/-- Whether process `r` has the turn, as a number: it is active, or rank 0 before it becomes so. -/
def holds (r : Fin N) (c : Control) : ℕ :=
  if c.activeIndex.isSome ∨ (c = .start ∧ (r : ℕ) = 0) then 1 else 0

/-- The number of processes that have the turn. -/
def holders (c : Fin N → Control) : ℕ := ∑ r, holds r (c r)

theorem holders_update (c : Fin N → Control) (r : Fin N) (k : Control) :
    holders (update c r k) + holds r (c r) = holders c + holds r k :=
  Processes.sum_update holds c r k

theorem holds_le_holders (c : Fin N → Control) (r : Fin N) : holds r (c r) ≤ holders c :=
  Processes.le_sum (fun r => holds r (c r)) r

theorem holds_add_holds_le (c : Fin N → Control) {r r' : Fin N} (h : r' ≠ r) :
    holds r' (c r') + holds r (c r) ≤ holders c :=
  Processes.add_le_sum (fun r => holds r (c r)) h

/-- Whether a connection carries an index. -/
def Connection.isIndex (c : Connection) : Bool := c.payload.any (· ≠ -1)

/-- The index messages in transit. -/
def State.inTransit (s : State N) : List Connection := s.connections.filter Connection.isIndex

/-- Accepting a connection takes its index out of transit. -/
theorem length_inTransit_accept {c : Connection} {q : List Connection}
    (h : accept r s.connections = some (c, q)) :
    s.inTransit.length = (q.filter Connection.isIndex).length + if c.isIndex then 1 else 0 := by
  have := ((MessageQueue.receive_perm h).filter Connection.isIndex).length_eq
  rw [State.inTransit, this, List.filter_cons]
  split_ifs <;> simp

/-- The invariant: the turn is in one place and carries the number of characters printed. -/
structure Turn (input : List UInt8) (s : State N) : Prop where
  output : s.printed = input.take s.printed.length
  one : holders s.control + s.inTransit.length ≤ 1
  active : ∀ r i, (s.control r).activeIndex = some i → i = s.printed.length
  fresh : ∀ r : Fin N, (r : ℕ) = 0 → s.control r = .start → s.printed = []
  carried : ∀ c ∈ s.connections, c.isIndex → c.payload = some (s.printed.length : ℤ)
  ending : ∀ r, (s.control r).Ending → s.printed.length = input.length
  mark : ∀ c ∈ s.connections, c.payload = some (-1) → s.printed.length = input.length

theorem holds_of_active {c : Control} {i : ℕ} (hc : c.activeIndex = some i) : holds r c = 1 := by
  simp [holds, hc]

theorem holds_of_inactive {c : Control} (hc : c.activeIndex = none) (hs : c ≠ .start) :
    holds r c = 0 := by
  simp [holds, hc, hs]

/-- A step that prints nothing: process `r` goes to `c`, and the connections become `q`. -/
theorem Turn.goto {c : Control} {q : List Connection} (h : Turn input s)
    (hone : (q.filter Connection.isIndex).length + holds r c ≤
      s.inTransit.length + holds r (s.control r))
    (hactive : ∀ i, c.activeIndex = some i → i = s.printed.length) (hstart : c ≠ .start)
    (hcarried : ∀ x ∈ q, x.isIndex → x.payload = some (s.printed.length : ℤ))
    (hending : c.Ending → s.printed.length = input.length)
    (hmark : ∀ x ∈ q, x.payload = some (-1) → s.printed.length = input.length) :
    Turn input { s.goto r c with connections := q } := by
  have hcontrol : ∀ r', update s.control r c r' = if r' = r then c else s.control r' :=
    fun r' => update_apply ..
  refine ⟨h.output, ?_, fun r' i hi => ?_, fun r' h0 hi => ?_, hcarried, fun r' hi => ?_, hmark⟩
  · have := h.one
    have := holders_update s.control r c
    simp only [State.inTransit, State.goto_control] at *
    omega
  · simp only [State.goto_control, hcontrol] at hi
    split_ifs at hi
    · exact hactive i hi
    · exact h.active r' i hi
  · simp only [State.goto_control, hcontrol] at hi
    split_ifs at hi
    · exact absurd hi hstart
    · exact h.fresh r' h0 hi
  · simp only [State.goto_control, hcontrol] at hi
    split_ifs at hi
    · exact hending hi
    · exact h.ending r' hi

/-- A step that only moves process `r`. -/
theorem Turn.goto' {c : Control} (h : Turn input s) (hone : holds r c ≤ holds r (s.control r))
    (hactive : ∀ i, c.activeIndex = some i → i = s.printed.length) (hstart : c ≠ .start)
    (hending : c.Ending → s.printed.length = input.length) : Turn input (s.goto r c) :=
  h.goto (q := s.connections) (by simp only [State.inTransit]; omega) hactive hstart h.carried
    hending h.mark

/-- An active process goes on with its index. -/
theorem Turn.keep {c : Control} {i : ℕ} (h : Turn input s) (hi : (s.control r).activeIndex = some i)
    (hc : c.activeIndex = some i) (hending : c.Ending → s.printed.length = input.length) :
    Turn input (s.goto r c) := by
  refine h.goto' ?_ ?_ ?_ hending
  · rw [holds_of_active hc, holds_of_active hi]
  · intro j hj
    obtain rfl : i = j := Option.some.inj (hc.symm.trans hj)
    exact h.active r i hi
  · rintro rfl
    cases hc

/-- Process `r` accepts the connection `x`. -/
theorem Turn.accept {c : Control} {x : Connection} {q : List Connection} (h : Turn input s)
    (hq : Sockets.accept r s.connections = some (x, q))
    (hone : holds r c ≤ holds r (s.control r) + if x.isIndex then 1 else 0)
    (hactive : ∀ i, c.activeIndex = some i → i = s.printed.length) (hstart : c ≠ .start)
    (hending : c.Ending → s.printed.length = input.length) :
    Turn input { s.goto r c with connections := q } := by
  have hlen := length_inTransit_accept hq
  have hsub : ∀ y ∈ q, y ∈ s.connections := fun y hy =>
    (MessageQueue.mem_receive_iff hq).2 (.inr hy)
  apply h.goto _ hactive hstart _ hending
  · intro y hy
    exact h.mark y (hsub y hy)
  · omega
  · intro y hy
    exact h.carried y (hsub y hy)

/-- Process `r` sends on the connection `x`. -/
theorem Turn.send {c : Control} {x : Connection} (h : Turn input s)
    (hone : (if x.isIndex then 1 else 0) + holds r c ≤ holds r (s.control r))
    (hactive : ∀ i, c.activeIndex = some i → i = s.printed.length) (hstart : c ≠ .start)
    (hcarried : x.isIndex → x.payload = some (s.printed.length : ℤ))
    (hending : c.Ending → s.printed.length = input.length)
    (hmark : x.payload = some (-1) → s.printed.length = input.length) :
    Turn input { s.goto r c with connections := s.connections ++ [x] } := by
  apply h.goto _ hactive hstart _ hending
  · intro y hy hm
    obtain hy | hy := List.mem_append.1 hy
    · exact h.mark y hy hm
    · rw [List.mem_singleton.1 hy] at hm
      exact hmark hm
  · have hlen : ([x].filter Connection.isIndex).length = if x.isIndex then 1 else 0 := by
      cases hx : x.isIndex <;> simp [hx]
    rw [List.filter_append, List.length_append, hlen]
    simp only [State.inTransit]
    omega
  · intro y hy hidx
    obtain hy | hy := List.mem_append.1 hy
    · exact h.carried y hy hidx
    · rw [List.mem_singleton.1 hy] at hidx ⊢
      exact hcarried hidx

/-- The active process prints: nobody else has the turn. -/
theorem Turn.print {c : Control} {i : ℕ} (h : Turn input s) (hc : s.control r = .loop true i)
    (hi : i < input.length) (hci : c.activeIndex = some (i + 1)) (hend : ¬ c.Ending) :
    Turn input { s.goto r c with printed := s.printed ++ [input.getD i 0] } := by
  obtain rfl : i = s.printed.length := h.active r i (by rw [hc]; rfl)
  have hr : holds r (s.control r) = 1 := holds_of_active (by rw [hc]; rfl)
  have hle : holders s.control + s.inTransit.length ≤ 1 := h.one
  have hnone : s.inTransit = [] := by
    have := holds_le_holders s.control r
    exact List.length_eq_zero_iff.1 (by omega)
  have hothers : ∀ r', r' ≠ r → holds r' (s.control r') = 0 := by
    intro r' hne
    have := holds_add_holds_le s.control hne
    omega
  have hcontrol : ∀ r', update s.control r c r' = if r' = r then c else s.control r' :=
    fun r' => update_apply ..
  have hlen : (s.printed ++ [input.getD s.printed.length 0]).length = s.printed.length + 1 := by
    simp
  have hlast : ∀ {P : Prop}, s.printed.length = input.length → P := fun h => by omega
  refine ⟨?_, ?_, fun r' i hi' => ?_, fun r' h0 hi' => ?_, fun x hx hi' => ?_, fun r' hi' => ?_,
    fun x hx hm => hlast (h.mark x hx hm)⟩
  · have : input.take (s.printed.length + 1) =
        input.take s.printed.length ++ [input.getD s.printed.length 0] := by
      rw [List.take_add_one, List.getElem?_eq_getElem hi, List.getD_eq_getElem _ _ hi]
      rfl
    rw [hlen, this, ← h.output]
  · have := holders_update s.control r c
    rw [hr, holds_of_active hci] at this
    simp only [State.inTransit, State.goto_control, State.goto_connections] at *
    omega
  · simp only [State.goto_control, hcontrol] at hi'
    rw [hlen]
    split_ifs at hi' with hrr
    · rw [hci] at hi'
      exact (Option.some.inj hi').symm
    · have := hothers r' hrr
      rw [holds_of_active hi'] at this
      omega
  · simp only [State.goto_control, hcontrol] at hi'
    split_ifs at hi' with hrr
    · simp [hi', Control.activeIndex] at hci
    · have := hothers r' hrr
      simp [holds, hi', h0] at this
  · have : x ∈ s.inTransit := List.mem_filter.2 ⟨hx, hi'⟩
    simp [hnone] at this
  · simp only [State.goto_control, hcontrol] at hi'
    split_ifs at hi'
    · exact absurd hi' hend
    · exact hlast (h.ending r' hi')

/-- Every step keeps the turn. -/
theorem step_turn (h : Turn input s) (hm : Moves input r s t) : Turn input t := by
  have hp : s.printed.length ≤ input.length := by
    have := congrArg List.length h.output
    rw [List.length_take] at this
    omega
  cases hm with
  | begin hc =>
    refine h.goto' ?_ (fun i hi => ?_) (by simp) (by simp [Control.Ending])
    · by_cases h0 : (r : ℕ) = 0 <;> simp [holds, hc, h0, Control.activeIndex]
    · by_cases h0 : (r : ℕ) = 0
      · have : i = 0 := by simpa [Control.activeIndex, h0] using hi.symm
        simp [this, h.fresh r h0 hc]
      · simp [Control.activeIndex, h0] at hi
  | @finish i hc hi =>
    have hactive : (s.control r).activeIndex = some i := by rw [hc]; rfl
    have := h.active r i hactive
    exact h.keep hactive rfl fun _ => by omega
  | print hc hi hr =>
    rcases hr with rfl | ⟨t, rfl⟩
    · exact h.print hc hi rfl (by simp [Control.Ending])
    · exact h.print hc hi rfl (by simp [Control.Ending])
  | @forward i t hc hi => exact h.keep (i := i) (by rw [hc]; rfl) rfl (by simp [Control.Ending])
  | @lose i x q hc hq =>
    refine h.accept hq ?_ (by simp [Control.activeIndex]) (by simp) (by simp [Control.Ending])
    rw [hc]
    exact Nat.le_add_right _ _
  | @activate i x q m hc hq hm hne =>
    have hidx : x.isIndex = true := by simp [Connection.isIndex, hm, hne]
    have hmp := h.carried x (MessageQueue.mem_of_receive hq) hidx
    rw [hm, Option.some.injEq] at hmp
    subst hmp
    refine h.accept hq ?_ (by simp [Control.activeIndex]) (by simp) (by simp [Control.Ending])
    rw [hidx, if_pos rfl, holds_of_active (c := .loop true _) rfl]
    exact Nat.le_add_left _ _
  | @leave i x q hc hq hm =>
    refine h.accept hq ?_ (by simp [Control.activeIndex]) (by simp)
      fun _ => h.mark x (MessageQueue.mem_of_receive hq) hm
    rw [holds_of_inactive (c := .exited) rfl (by simp)]
    exact Nat.zero_le _
  | @connected t i hc => exact h.keep (i := i) (by rw [hc]; rfl) rfl (by simp [Control.Ending])
  | @refused t i hc => exact h.keep (i := i) (by rw [hc]; rfl) rfl (by simp [Control.Ending])
  | @send t i hc =>
    obtain rfl := h.active r i (by rw [hc]; rfl)
    refine h.send ?_ (by simp [Control.activeIndex]) (by simp) (fun _ => rfl)
      (by simp [Control.Ending]) fun hm => ?_
    · rw [hc, holds_of_active (c := .sending t _) rfl, holds_of_inactive (c := .loop false _) rfl
        (by simp)]
      split_ifs <;> omega
    · rw [Option.some.injEq] at hm
      omega
  | @sendFails t i hc =>
    have hidx : (⟨t, none⟩ : Connection).isIndex = false := rfl
    refine h.send ?_ (by simp [Control.activeIndex]) (by simp) (by simp [hidx])
      (by simp [Control.Ending]) (by simp)
    rw [holds_of_inactive (c := .loop false _) rfl (by simp), hidx]
    exact Nat.zero_le _
  | @eofSkip j i hc =>
    exact h.keep (i := i) (by rw [hc]; rfl) rfl fun _ => h.ending r (by simp [hc, Control.Ending])
  | @eofConnected j i hc =>
    exact h.keep (i := i) (by rw [hc]; rfl) rfl fun _ => h.ending r (by simp [hc, Control.Ending])
  | @exit j i hc =>
    exact h.goto' (by simp [holds, hc, Control.activeIndex]) (by simp [Control.activeIndex])
      (by simp) fun _ => h.ending r (by simp [hc, Control.Ending])
  | @eofSend j i p hc hp =>
    obtain rfl := h.active r i (by rw [hc]; rfl)
    have hend : s.printed.length = input.length := h.ending r (by simp [hc, Control.Ending])
    have hidx : (⟨j, p⟩ : Connection).isIndex = false := by
      rcases hp with rfl | rfl <;> simp [Connection.isIndex]
    refine h.send ?_ (by simp [Control.activeIndex]) (by simp) (by simp [hidx]) (fun _ => hend)
      fun _ => hend
    rw [hc, holds_of_active (c := .eofSending j _) rfl,
      holds_of_active (c := .eofConnecting (j + 1) _) rfl, hidx]
    simp

theorem initial_turn (N : ℕ) (input : List UInt8) : Turn input (initial N) := by
  refine ⟨rfl, ?_, by simp [initial, Control.activeIndex], fun _ _ _ => rfl, by simp [initial],
    by simp [initial, Control.Ending], by simp [initial]⟩
  have hzero : (initial N).inTransit = [] := rfl
  have : holders (initial N).control ≤ 1 := by
    have h0 : ∀ r : Fin N, holds r ((initial N).control r) = if (r : ℕ) = 0 then 1 else 0 := by
      simp [holds, initial, Control.activeIndex]
    rw [holders, Finset.sum_congr rfl fun r _ => h0 r, ← Finset.card_filter]
    refine Finset.card_le_one.2 fun a ha b hb => Fin.ext ?_
    rw [(Finset.mem_filter.1 ha).2, (Finset.mem_filter.1 hb).2]
  rw [hzero, List.length_nil]
  omega

/-- Every reachable state has the turn in one place. -/
theorem reachable_turn (hs : (machine N input).Reachable s) : Turn input s :=
  hs.invariant (fun _ h => h ▸ initial_turn N input) fun _ _ _ h hl => step_turn h (step_moves hl)

/-! ## What the turn guarantees -/

/-- The processes in which `active` is set. -/
def State.activeProcesses (s : State N) : Finset (Fin N) :=
  Finset.univ.filter fun r => (s.control r).activeIndex.isSome

theorem card_activeProcesses_le (s : State N) : s.activeProcesses.card ≤ holders s.control := by
  rw [State.activeProcesses, Finset.card_filter, holders]
  refine Finset.sum_le_sum fun r _ => ?_
  unfold holds
  split_ifs <;> simp_all

/-- **Safety under failures.** Whatever calls fail: the output is a prefix of the string, at most
one process is active or one index message is in transit, the index carried is the number of
characters printed, and a process has left its loop only after the whole string is printed. -/
theorem turn_is_safe (N : ℕ) (input : List UInt8) {s : State N}
    (hs : (machine N input).Reachable s) :
    s.printed <+: input ∧
      s.activeProcesses.card + s.inTransit.length ≤ 1 ∧
      (∀ r i, (s.control r).activeIndex = some i → i = s.printed.length) ∧
      (∀ c ∈ s.inTransit, c.payload = some (s.printed.length : ℤ)) ∧
      ∀ r, s.control r = .exited → s.printed = input := by
  have h := reachable_turn hs
  refine ⟨?_, ?_, h.active, fun c hc => ?_, fun r hr => ?_⟩
  · rw [h.output]
    exact List.take_prefix _ _
  · have := card_activeProcesses_le s
    have := h.one
    omega
  · obtain ⟨hc, hidx⟩ := List.mem_filter.1 hc
    exact h.carried c hc hidx
  · rw [h.output, h.ending r (.inr hr), List.take_length]

/-- Two processes, the string `2 1`: the first `connect` fails, and the turn stays with rank 0. -/
theorem turn_is_safe_refused : ∃ s, (machine 2 [2, 1]).run
    [(0, true), (0, true), (0, false), (0, true)] (initial 2) = some s ∧ s.printed = [2] ∧
      s.activeProcesses.card + s.inTransit.length ≤ 1 := by
  refine ⟨_, rfl, rfl, ?_⟩
  exact (turn_is_safe 2 [2, 1] (Machine.reachable_of_run rfl (show (machine 2 [2, 1]).run
    [(0, true), (0, true), (0, false), (0, true)] _ = some _ from rfl))).2.1

end SemOS.Bogatyri.Sockets
