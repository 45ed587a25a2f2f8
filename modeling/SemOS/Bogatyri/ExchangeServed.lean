import SemOS.Bogatyri.ExchangeSorted

/-!
# What the processes of the exchange hold

`Agreed` says what every process holds, and what is under way to a worker: the messages sent to it
without those it has received. A worker that the coordinator has passed over gets none. `Served` is
the part of it that is about one worker, with what each of its calls makes of it.
-/

namespace SemOS.Bogatyri.Exchange

open Qsort (Sorts)

variable {n : ℕ} {qsort : (Int32 → Int32 → Int32) → List Int32 → List Int32} {system : Pids n}
  {w : Fin n}

/-- The workers of `order` have come, and the coordinator has the variables `v`. -/
def Coordinator.Holds (qsort : (Int32 → Int32 → Int32) → List Int32 → List Int32)
    (system : Pids n) (order : List (Fin n)) (v : Vars) : Coordinator n → Prop
  | .starting => order = [] ∧ v = initialVars n
  | .accepting i => i = order.length + 1 ∧ v = gathered system order
  | .receiving i client => ∃ earlier, order = earlier ++ [client] ∧ i = earlier.length + 1 ∧
      v = gathered system earlier
  | .sorting => order.length = n ∧ v = gathered system order
  | .connecting _ _ | .sendingCount _ | .sendingPids _ | .exchanged =>
    order.length = n ∧ v = final qsort system (coordinatorIndex n)
  | .started => order.length = n ∧ v = (final qsort system (coordinatorIndex n)).start

/-- How many values the coordinator has sent to a worker, if it has connected to it. -/
def Coordinator.sent : Coordinator n → Fin n → Option ℕ
  | .connecting k _, w => if (w : ℕ) < k then some 2 else none
  | .sendingCount k, w => if w < k then some 2 else if w = k then some 0 else none
  | .sendingPids k, w => if w < k then some 2 else if w = k then some 1 else none
  | .exchanged, _ | .started, _ => some 2
  | _, _ => none

/-- How many values the coordinator has sent to a worker. -/
def State.sent (s : State n) (w : Fin n) : Option ℕ :=
  (s.reply w).bind fun _ => s.coordinator.sent w

/-- How many of them a worker has received. -/
def Worker.got : Worker → ℕ
  | .receivingPids => 1
  | .searching | .exchanged | .started => 2
  | _ => 0

/-- The worker tries to connect. -/
def Worker.isConnecting : Worker → Bool
  | .connecting _ => true
  | _ => false

/-- The variables of a worker. -/
def Worker.vars (qsort : (Int32 → Int32 → Int32) → List Int32 → List Int32) (system : Pids n)
    (w : Fin n) : Worker → Vars
  | .receivingPids => { initialVars n with pidsCount := n + 1 }
  | .searching => sorted qsort system
  | .exchanged => final qsort system w.succ
  | .started => (final qsort system w.succ).start
  | _ => initialVars n

/-- What there is of one worker. -/
structure Side where
  control : Worker
  vars : Vars
  pending : Bool
  request : Option Int32
  reply : Option (List Value)

/-- The part of a state that is about the worker `w`. -/
def State.side (s : State n) (w : Fin n) : Side :=
  ⟨s.worker w, s.vars w.succ, s.pending w, s.request w, s.reply w⟩

/-- A worker that has come or not (`came`), and to which the coordinator has sent `sent` values. -/
structure Served (qsort : (Int32 → Int32 → Int32) → List Int32 → List Int32) (system : Pids n)
    (w : Fin n) (came : Prop) (sent : Option ℕ) (x : Side) : Prop where
  once : came → x.pending = false
  connected : came ∨ x.pending = true → x.control.isConnecting = false
  request : ∀ pid ∈ x.request, pid = system.pid w.succ
  vars : x.vars = x.control.vars qsort system w
  reply : x.reply = sent.map fun m => ((values qsort system).take m).drop x.control.got
  got_le : ∀ m ∈ sent, x.control.got ≤ m

/-- **The workers of `order` have come; what all processes hold.** -/
structure Agreed (qsort : (Int32 → Int32 → Int32) → List Int32 → List Int32) (system : Pids n)
    (order : List (Fin n)) (s : State n) : Prop where
  nodup : order.Nodup
  holds : s.coordinator.Holds qsort system order (s.vars 0)
  served : ∀ w, Served qsort system w (w ∈ order) (s.sent w) (s.side w)

/-! ## One worker -/

section Served

variable {came came' : Prop} {sent sent' : Option ℕ} {x : Side}

theorem Served.congr (h : Served qsort system w came sent x) (hcame : came' ↔ came)
    (hsent : sent' = sent) : Served qsort system w came' sent' x := by
  subst hsent
  exact ⟨fun hc => h.once (hcame.1 hc), fun hc => h.connected (hc.imp_left hcame.1), h.request,
    h.vars, h.reply, h.got_le⟩

/-- A worker that tries to connect has not come. -/
theorem Served.not_came (h : Served qsort system w came sent x) {attempt : ℕ}
    (hx : x.control = .connecting attempt) : ¬ (came ∨ x.pending = true) := by
  intro hc
  have hcontrol := h.connected hc
  rw [hx] at hcontrol
  cases hcontrol

/-- It connects, which it does before it comes. -/
theorem Served.connect (h : Served qsort system w came sent x) {attempt : ℕ}
    (hx : x.control = .connecting attempt) :
    Served qsort system w came sent { x with control := .sending, pending := true } := by
  have hcame : ¬ came := fun hc => h.not_came hx (Or.inl hc)
  obtain ⟨-, -, hrequest, hvars, hreply, hgot⟩ := h
  rw [hx] at hvars hreply hgot
  exact ⟨fun hc => absurd hc hcame, fun _ => rfl, hrequest, hvars, hreply, hgot⟩

/-- It tries again, or gives up. -/
theorem Served.attempt (h : Served qsort system w came sent x) {attempt : ℕ}
    (hx : x.control = .connecting attempt) {c : Worker} (hgot : c.got = 0)
    (hvars : c.vars qsort system w = initialVars n) :
    Served qsort system w came sent { x with control := c } := by
  have hcame := h.not_came hx
  obtain ⟨honce, -, hrequest, hv, hreply, hle⟩ := h
  rw [hx] at hv hreply hle
  refine ⟨honce, fun hc => absurd hc hcame, hrequest, hv.trans hvars.symm, ?_, ?_⟩
  · simp only [hgot]
    exact hreply
  · simp only [hgot]
    exact hle

/-- It sends its number. -/
theorem Served.send (h : Served qsort system w came sent x) (hx : x.control = .sending) :
    Served qsort system w came sent
      { x with control := .binding, request := some (system.pid w.succ) } := by
  obtain ⟨honce, -, -, hvars, hreply, hgot⟩ := h
  rw [hx] at hvars hreply hgot
  exact ⟨honce, fun _ => rfl, fun pid hp => (Option.some.inj hp).symm, hvars, hreply, hgot⟩

/-- It goes on without a value. -/
theorem Served.goto (h : Served qsort system w came sent x) {c : Worker} {v : Vars}
    (hc : c.isConnecting = false) (hgot : c.got = x.control.got)
    (hv : v = c.vars qsort system w) :
    Served qsort system w came sent { x with control := c, vars := v } := by
  refine ⟨h.once, fun _ => hc, h.request, hv, ?_, ?_⟩
  · simp only [hgot]
    exact h.reply
  · simp only [hgot]
    exact h.got_le

/-- It receives the number of values. -/
theorem Served.receiveCount (h : Served qsort system w came sent x)
    (hx : x.control = .receivingCount) {c : ℕ} {l : List Value}
    (hr : x.reply = some (.count c :: l)) :
    Served qsort system w came sent
      { x with control := .receivingPids, vars := { x.vars with pidsCount := c },
               reply := some l } := by
  obtain ⟨honce, -, hrequest, hvars, hreply, -⟩ := h
  rw [hx] at hvars hreply
  obtain ⟨m, hm, htake⟩ := Option.map_eq_some_iff.1 (hreply.symm.trans hr)
  cases m with
  | zero => cases htake
  | succ m =>
    obtain ⟨rfl, rfl⟩ :
        n + 1 = c ∧ ([.pids (sortedPids qsort system)] : List Value).take m = l := by
      simpa [values, Worker.got] using htake
    refine ⟨honce, fun _ => rfl, hrequest, by rw [hvars]; rfl, ?_, fun k hk => ?_⟩
    · simp [hm, values, Worker.got]
    · obtain rfl := Option.some.inj (hm.symm.trans hk)
      exact Nat.succ_pos m

/-- It receives the numbers. -/
theorem Served.receivePids (hq : Sorts qsort) (h : Served qsort system w came sent x)
    (hx : x.control = .receivingPids) {pids : List Int32} {l : List Value}
    (hr : x.reply = some (.pids pids :: l)) :
    Served qsort system w came sent
      { x with control := .searching, vars := x.vars.receive pids, reply := some l } := by
  obtain ⟨honce, -, hrequest, hvars, hreply, -⟩ := h
  rw [hx] at hvars hreply
  obtain ⟨m, hm, htake⟩ := Option.map_eq_some_iff.1 (hreply.symm.trans hr)
  match m with
  | 0 => cases htake
  | 1 => cases htake
  | m + 2 =>
    obtain ⟨rfl, rfl⟩ : sortedPids qsort system = pids ∧ [] = l := by
      simpa [values, Worker.got] using htake
    refine ⟨honce, fun _ => rfl, hrequest, ?_, ?_, fun k hk => ?_⟩
    · rw [hvars]
      exact receive_sorted hq
    · simp [hm, values, Worker.got]
    · obtain rfl := Option.some.inj (hm.symm.trans hk)
      exact Nat.le_add_left 2 m

/-- The coordinator connects to it. -/
theorem Served.reached (h : Served qsort system w came sent x) (hx : x.control = .accepting) :
    Served qsort system w came (some 0) { x with reply := some [] } := by
  have hgot : x.control.got = 0 := by rw [hx]; rfl
  refine ⟨h.once, h.connected, h.request, h.vars, by simp, fun m hm => ?_⟩
  exact Nat.le_trans (Nat.le_of_eq hgot) (Nat.zero_le m)

/-- The coordinator sends it the next value. -/
theorem Served.append {m : ℕ} (h : Served qsort system w came (some m) x) {value : Value}
    (hvalue : (values qsort system)[m]? = some value) :
    Served qsort system w came (some (m + 1))
      { x with reply := x.reply.map (· ++ [value]) } := by
  have hgot : x.control.got ≤ m := h.got_le m rfl
  have hlen : m ≤ (values qsort system).length :=
    Nat.le_of_lt (List.getElem?_eq_some_iff.1 hvalue).1
  refine ⟨h.once, h.connected, h.request, h.vars, ?_, fun k hk => ?_⟩
  · have hle : x.control.got ≤ ((values qsort system).take m).length := by
      rwa [List.length_take_of_le hlen]
    rw [h.reply, Option.map_some, Option.map_some, Option.map_some, List.take_add_one, hvalue,
      List.drop_append_of_le_length hle]
    rfl
  · obtain rfl := Option.some.inj hk
    exact Nat.le_succ_of_le hgot

/-- It comes. -/
theorem Served.come (h : Served qsort system w came sent x) (hx : x.pending = true) :
    Served qsort system w True sent { x with pending := false } :=
  ⟨fun _ => rfl, fun _ => h.connected (Or.inr hx), h.request, h.vars, h.reply, h.got_le⟩

/-- Its number is received. -/
theorem Served.number (h : Served qsort system w came sent x) :
    Served qsort system w came sent { x with request := none } :=
  ⟨h.once, h.connected, fun _ hp => (nomatch hp), h.vars, h.reply, h.got_le⟩

end Served

end SemOS.Bogatyri.Exchange
