import SemOS.Bogatyri.ExchangeProgress
import SemOS.Bogatyri.SocketsPhases
import SemOS.Bogatyri.SocketsSong

/-!
# The termination of the socket program

The program of `sems/bogatyri/sockets2.c` when every call succeeds: every `fork`, every server, and
every `connect`, `send` and `recv` of the loop. The calls of the exchange succeed, up to attempts to
`connect` before the other side listens, and no process runs out of these (`Call.patient`).

* `Call` are the labels of these runs, and `answered` is the machine.
* `step_cases` says of a step which of the three parts of the program has moved: `main`, the
  exchange, or the song.
* **`sockets2_finishes`**: `main` gets to its end, after all children, with the whole string
  printed, and every run is short.
-/

namespace SemOS.Bogatyri.Sockets2

open Function

variable {n : ℕ} {qsort : (Int32 → Int32 → Int32) → List Int32 → List Int32}
  {system : Exchange.Pids n} {terminal : Bool} {str : Sockets.InputString} {s t : State n}
  {p : Fin (n + 1)}

/-- Who moves, when its call succeeds. -/
inductive Call (n : ℕ)
  | main
  | exchange (l : Exchange.Label n)
  | song (p : Fin (n + 1))
  deriving DecidableEq

/-- The label of the call. -/
def Call.label : Call n → Label n
  | .main => .main true
  | .exchange l => .exchange l
  | .song p => .song p true

/-- The process does not come to the end of its attempts to connect in the exchange. -/
def Call.patient : Call n → State n → Bool
  | .exchange l, s => !Exchange.givesUp l s.exchange
  | _, _ => true

/-- The program when every call succeeds. -/
def answered (qsort : (Int32 → Int32 → Int32) → List Int32 → List Int32) (system : Exchange.Pids n)
    (terminal : Bool) (str : Sockets.InputString) : Machine (Call n) (State n) :=
  (machine qsort system terminal str).under Call.label

/-! ## The children -/

/-- Which children there are, when no `fork` has failed. -/
def Main.Launched (s : State n) : Main → Prop
  | .start => True
  | .launching i => ∀ p : Fin (n + 1), (p : ℕ) < i → s.child p ≠ .unborn
  | .waiting _ _ | .finished => ∀ p, s.child p ≠ .unborn

/-- No `fork` has failed, and no server. -/
structure Whole (s : State n) : Prop where
  launched : s.main.Launched s
  unfailed : ∀ p, s.child p ≠ .failed

/-- A child goes on. -/
theorem Whole.move (h : Whole s) {c : Child} (hc : c ≠ .unborn ∧ c ≠ .failed)
    (htc : t.child = update s.child p c) (htm : t.main = s.main) : Whole t := by
  have hborn : ∀ q, s.child q ≠ .unborn → t.child q ≠ .unborn := by
    intro q hq
    rw [htc]
    by_cases hqp : q = p
    · subst hqp
      rw [update_self]
      exact hc.1
    · rwa [update_of_ne hqp]
  have hlaunched := h.launched
  refine ⟨?_, fun q => ?_⟩
  · rw [htm]
    cases hm : s.main with
    | start => trivial
    | launching i =>
      rw [hm] at hlaunched
      exact fun q hq => hborn q (hlaunched q hq)
    | waiting i reaped =>
      rw [hm] at hlaunched
      exact fun q => hborn q (hlaunched q)
    | finished =>
      rw [hm] at hlaunched
      exact fun q => hborn q (hlaunched q)
  · rw [htc]
    by_cases hqp : q = p
    · subst hqp
      rw [update_self]
      exact hc.2
    · rw [update_of_ne hqp]
      exact h.unfailed q

/-- A child in its loop moves when it enters it, and by its pieces. -/
theorem songStep_cases {ok : Bool} (h : songStep str p ok s = some t) :
    (s.child p = .exchanging ∧ started s.exchange p = true ∧
        t = s.goto p (.singing (.loop (s.exchange.vars p).active 0))) ∨
      ∃ (c : Sockets.Control) (r : Fin (n + 1)) (v : Sockets.State (n + 1)),
        s.child p = .singing c ∧ (s.exchange.vars p).myRank.toNat = r ∧
          Sockets.step str.bytes (r, ok) (Sockets.alone c s.connections) = some v ∧
            t = s.sung p r v := by
  rw [songStep] at h
  split at h
  · rename_i hc
    split_ifs at h with he
    exact Or.inl ⟨hc, he, (Option.some.inj h).symm⟩
  · rename_i c hc
    split_ifs at h with hr
    obtain ⟨v, hv, rfl⟩ := Option.map_eq_some_iff.1 h
    exact Or.inr ⟨c, ⟨_, hr.1⟩, v, hc, rfl, hv, rfl⟩
  · cases h
  · cases h

theorem step_whole (h : Whole s) {l : Call n}
    (hl : step qsort system terminal str l.label s = some t) : Whole t := by
  have hlaunched := h.launched
  cases l with
  | main =>
    rw [Call.label, step, mainStep] at hl
    split at hl
    · cases hl
      exact ⟨fun p hp => absurd hp (Nat.not_lt_zero _), h.unfailed⟩
    · rename_i i hm
      rw [hm] at hlaunched
      by_cases hi : i < n + 1
      · rw [dif_pos hi, if_pos rfl] at hl
        obtain rfl := Option.some.inj hl
        refine ⟨fun q hq => ?_, fun q => ?_⟩
        · by_cases hqi : q = ⟨i, hi⟩
          · subst hqi
            simp [State.goto]
          · have hne : (q : ℕ) ≠ i := fun h => hqi (Fin.ext h)
            simp only [State.goto, update_of_ne hqi]
            exact hlaunched q (by omega)
        · by_cases hqi : q = ⟨i, hi⟩
          · subst hqi
            simp [State.goto]
          · simp only [State.goto, update_of_ne hqi]
            exact h.unfailed q
      · rw [dif_neg hi] at hl
        obtain rfl := Option.some.inj hl
        exact ⟨fun q => hlaunched q (q.isLt.trans_le (not_lt.1 hi)), h.unfailed⟩
    · rename_i i reaped hm
      rw [hm] at hlaunched
      split_ifs at hl <;> cases hl <;> exact ⟨hlaunched, h.unfailed⟩
    · cases hl
  | exchange l =>
    rw [Call.label, step, exchangeStep] at hl
    split_ifs at hl
    obtain ⟨e, -, rfl⟩ := Option.map_eq_some_iff.1 hl
    exact ⟨hlaunched, h.unfailed⟩
  | song p =>
    obtain ⟨-, -, rfl⟩ | ⟨c, r, v, -, -, -, rfl⟩ := songStep_cases hl
    · exact h.move (c := .singing _) ⟨by simp, by simp⟩ rfl rfl
    · obtain ⟨hchild, hmain, -⟩ := sung_child s p r v
      exact h.move ⟨by simp, by simp⟩ hchild hmain

/-! ## The parts of the program -/

/-- What `main` has to do. -/
def Main.toDo (n : ℕ) : Main → ℕ
  | .start => 2 * n + 5
  | .launching i => n + 1 - i + (n + 3)
  | .waiting i _ => n + 2 - i
  | .finished => 0

/-- Which part of the program has moved. -/
theorem step_cases (hq : Qsort.Sorts qsort)
    (hs : (machine qsort system terminal str).Reachable s) {u : Sockets.State (n + 1)}
    (hR : Sings system s u) {l : Call n}
    (hl : step qsort system terminal str l.label s = some t) :
    (t.main.toDo n < s.main.toDo n ∧ t.exchange = s.exchange ∧ Sings system t u) ∨
      (t.main = s.main ∧ (∃ l', l = .exchange l' ∧
        Exchange.step qsort system l' s.exchange = some t.exchange) ∧ Sings system t u) ∨
      (t.main = s.main ∧ t.exchange = s.exchange ∧ ∃ r v,
        Sockets.step str.bytes (r, true) u = some v ∧ Sings system t v) := by
  have hmanaged := reachable_managed hs
  have hmain := hmanaged.main
  cases l with
  | main =>
    refine Or.inl ?_
    rw [Call.label, step, mainStep] at hl
    split at hl
    · rename_i hm
      cases hl
      refine ⟨?_, rfl, hR.congr (fun _ => rfl) rfl rfl⟩
      rw [hm]
      simp only [Main.toDo]
      omega
    · rename_i i hm
      rw [hm] at hmain
      by_cases hi : i < n + 1
      · rw [dif_pos hi, if_pos rfl] at hl
        obtain rfl := Option.some.inj hl
        refine ⟨?_, rfl, hR.congr (fun q => ?_) rfl rfl⟩
        · rw [hm]
          simp only [Main.toDo]
          omega
        · by_cases hqi : q = ⟨i, hi⟩
          · subst hqi
            simp only [State.goto, update_self]
            rw [hmain _ le_rfl]
            rfl
          · simp only [State.goto, update_of_ne hqi]
      · rw [dif_neg hi] at hl
        obtain rfl := Option.some.inj hl
        refine ⟨?_, rfl, hR.congr (fun _ => rfl) rfl rfl⟩
        rw [hm]
        simp only [Main.toDo]
        omega
    · rename_i i reaped hm
      rw [hm] at hmain
      have hle := hmain.1
      split_ifs at hl with hi <;> cases hl <;>
        refine ⟨?_, rfl, hR.congr (fun _ => rfl) rfl rfl⟩ <;> rw [hm] <;>
          simp only [Main.toDo] <;> omega
    · cases hl
  | exchange l =>
    rw [Call.label, step, exchangeStep] at hl
    split_ifs at hl
    obtain ⟨e, he, rfl⟩ := Option.map_eq_some_iff.1 hl
    exact Or.inr (Or.inl ⟨rfl, ⟨l, rfl, he⟩, hR.congr (fun _ => rfl) rfl rfl⟩)
  | song p =>
    refine Or.inr (Or.inr ?_)
    obtain ⟨hc, he, rfl⟩ | ⟨c, r, v, hc, hr, hv, rfl⟩ := songStep_cases hl
    · obtain ⟨v, hv, hRv⟩ := hR.enter hq hs hc he true
      exact ⟨rfl, rfl, _, v, hv, hRv⟩
    · obtain ⟨-, hmain', hexchange, -⟩ := sung_child s p r v
      obtain ⟨hrank, -⟩ := vars_of_singing hq hs (hmanaged.entered p c hc)
      obtain rfl : r = rank system p := Fin.ext (hr.symm.trans hrank)
      obtain ⟨w, hw, hRw⟩ := hR.sing hc hv
      exact ⟨hmain', hexchange, _, w, hw, hRw⟩

/-- What holds of the runs in which every call succeeds. -/
structure Answered (qsort : (Int32 → Int32 → Int32) → List Int32 → List Int32)
    (system : Exchange.Pids n) (terminal : Bool) (str : Sockets.InputString) (s : State n) :
    Prop where
  reachable : (machine qsort system terminal str).Reachable s
  whole : Whole s
  exchange : Exchange.Patient qsort system s.exchange
  song : ∃ u, Sings system s u ∧ Sockets.Directed str.bytes u

theorem initial_answered :
    Answered qsort system terminal str (initial n) :=
  ⟨.of_init rfl, ⟨trivial, fun _ => by simp [initial]⟩, Exchange.patient_initial,
    Sockets.initial (n + 1), ⟨fun _ => rfl, rfl, rfl⟩,
    Sockets.initial_directed (Nat.succ_pos n) str.bytes⟩

theorem step_answered (hq : Qsort.Sorts qsort) (h : Answered qsort system terminal str s)
    {l : Call n} (hp : l.patient s = true)
    (hl : step qsort system terminal str l.label s = some t) :
    Answered qsort system terminal str t := by
  obtain ⟨u, hR, hu⟩ := h.song
  have hreach := h.reachable.act hl
  have hwhole := step_whole h.whole hl
  have hexchange := h.exchange
  obtain ⟨-, he, hRt⟩ | ⟨-, ⟨l', rfl, he⟩, hRt⟩ | ⟨-, he, r, v, hv, hRt⟩ :=
    step_cases hq h.reachable hR hl
  · exact ⟨hreach, hwhole, by rwa [he], u, hRt, hu⟩
  · have hpatient : Exchange.givesUp l' s.exchange = false := by simpa [Call.patient] using hp
    exact ⟨hreach, hwhole,
      Exchange.step_patient hq hexchange (Exchange.step_moves he) hpatient, u, hRt, hu⟩
  · exact ⟨hreach, hwhole, by rwa [he], v, hRt, Sockets.step_directed hu hv⟩

/-! ## Somebody can move -/

/-- A child that has set `active` takes no step of the exchange. -/
theorem exchangeStep_of_started {e : Exchange.State n} {l : Exchange.Label n}
    (h : started e (mover l) = true) : Exchange.step qsort system l e = none := by
  cases l with
  | accept client =>
    have hc : e.coordinator = .started := by simpa [started, mover] using h
    simp [Exchange.step, Exchange.acceptStep, hc]
  | coordinator =>
    have hc : e.coordinator = .started := by simpa [started, mover] using h
    simp [Exchange.step, Exchange.coordinatorStep, hc]
  | worker w =>
    have hw : e.worker w = .started := by simpa [started, mover] using h
    simp [Exchange.step, Exchange.workerStep, hw]

theorem started_of_allStarted {e : Exchange.State n} (h : e.AllStarted) (p : Fin (n + 1)) :
    started e p = true := by
  cases p using Fin.cases with
  | zero => exact decide_eq_true h.1
  | succ w => exact decide_eq_true (h.2 w)

/-- The exchange gets to its end. -/
theorem started_of_stuck (h : Answered qsort system terminal str s)
    (hborn : ∀ p, s.child p ≠ .unborn)
    (hstuck : ∀ l : Call n, step qsort system terminal str l.label s = none) (p : Fin (n + 1)) :
    started s.exchange p = true := by
  obtain ⟨order, ha⟩ := h.exchange.agreed
  refine started_of_allStarted (Exchange.allStarted_of_stuck ha h.exchange.steady fun l => ?_) p
  cases hc : s.child (mover l) with
  | unborn => exact absurd hc (hborn _)
  | failed => exact absurd hc (h.whole.unfailed _)
  | singing c =>
    exact exchangeStep_of_started ((reachable_managed h.reachable).entered _ c hc)
  | exchanging =>
    have := hstuck (.exchange l)
    rw [Call.label, step, exchangeStep, if_pos hc] at this
    exact Option.map_eq_none_iff.1 this

/-- A child that has entered its loop cannot move when its process of the song cannot. -/
theorem song_of_stuck (hq : Qsort.Sorts qsort)
    (hs : (machine qsort system terminal str).Reachable s) {u : Sockets.State (n + 1)}
    (hR : Sings system s u) {c : Sockets.Control} (hc : s.child p = .singing c)
    (hstuck : songStep str p true s = none) :
    Sockets.step str.bytes (rank system p, true) u = none := by
  obtain ⟨hrank, hcount, -⟩ := vars_of_singing hq hs ((reachable_managed hs).entered p c hc)
  have hlt : (s.exchange.vars p).myRank.toNat < n + 1 := by
    rw [hrank]
    exact (rank system p).isLt
  have hfin : (⟨_, hlt⟩ : Fin (n + 1)) = rank system p := Fin.ext hrank
  rw [songStep, hc] at hstuck
  simp only [hlt, hcount, and_self, dite_true, hfin, Option.map_eq_none_iff] at hstuck
  rw [Sockets.step_local, hR.control p, hc, Child.song, hR.connections, hstuck]
  rfl

/-- **Nobody waits before the end.** -/
theorem finished_of_stuck (hq : Qsort.Sorts qsort)
    (h : Answered qsort system terminal str s)
    (hstuck : ∀ l : Call n, step qsort system terminal str l.label s = none) :
    s.main = .finished ∧ (∀ p, s.child p = .singing .exited) ∧
      s.printed.map Prod.snd = str.bytes := by
  have hmanaged := reachable_managed h.reachable
  have hmain : mainStep terminal str true s = none := hstuck .main
  have hlaunched := h.whole.launched
  have hborn : ∀ p, s.child p ≠ .unborn := by
    cases hm : s.main with
    | start => simp [mainStep, hm] at hmain
    | launching i =>
      rw [mainStep, hm] at hmain
      by_cases hi : i < n + 1 <;> simp [hi] at hmain
    | waiting i reaped | finished => rwa [hm] at hlaunched
  have hstarted := started_of_stuck h hborn hstuck
  -- every child has entered its loop
  have hsinging : ∀ p, ∃ c, s.child p = .singing c := by
    intro p
    cases hc : s.child p with
    | unborn => exact absurd hc (hborn p)
    | failed => exact absurd hc (h.whole.unfailed p)
    | singing c => exact ⟨c, rfl⟩
    | exchanging =>
      have := hstuck (.song p)
      simp [Call.label, step, songStep, hc, hstarted p] at this
  obtain ⟨u, hR, hu⟩ := h.song
  have hsurj : Surjective (rank system) := Finite.injective_iff_surjective.1 rank_injective
  obtain ⟨hprinted, hexited⟩ := Sockets.exited_of_stuck (Nat.succ_pos n) hu fun r => by
    obtain ⟨p, rfl⟩ := hsurj r
    obtain ⟨c, hc⟩ := hsinging p
    exact song_of_stuck hq h.reachable hR hc (hstuck (.song p))
  have hchild : ∀ p, s.child p = .singing .exited := by
    intro p
    obtain ⟨c, hc⟩ := hsinging p
    have := hexited (rank system p)
    rw [hR.control p, hc] at this
    rw [hc, show c = .exited from this]
  refine ⟨?_, hchild, hR.printed.symm.trans hprinted⟩
  have hended : s.ended = n + 1 := by
    rw [State.ended, Finset.filter_true_of_mem fun p _ => by rw [hchild p]; rfl, Finset.card_univ,
      Fintype.card_fin]
  have hmanages := hmanaged.main
  cases hm : s.main with
  | finished => rfl
  | start => simp [mainStep, hm] at hmain
  | launching i =>
    rw [mainStep, hm] at hmain
    by_cases hi : i < n + 1 <;> simp [hi] at hmain
  | waiting i reaped =>
    rw [hm] at hmanages
    obtain ⟨-, -, hor⟩ := hmanages
    rw [mainStep, hm] at hmain
    dsimp only at hmain
    split_ifs at hmain with hi hr hb
    omega

/-! ## Every run ends -/

/-- What the children can still do in the song. -/
def State.songToDo (system : Exchange.Pids n) (input : List UInt8) (s : State n) : ℕ :=
  ∑ p, (s.child p).song.toDo input (rank system p) +
    (s.connections.filter Sockets.Connection.isIndex).length * (2 * (n + 1) + 4) +
    6 * (input.length - s.printed.length)

def State.toDo (system : Exchange.Pids n) (input : List UInt8) (s : State n) : ℕ :=
  s.main.toDo n + s.exchange.toDo + s.songToDo system input

theorem songToDo_eq {input : List UInt8} {u : Sockets.State (n + 1)} (hR : Sings system s u) :
    s.songToDo system input = u.toDo input := by
  have hbij : Bijective (rank system) := Finite.injective_iff_bijective.1 rank_injective
  have hsum : ∑ p, (s.child p).song.toDo input (rank system p) =
      ∑ r, (u.control r).toDo input r := by
    rw [← hbij.sum_comp fun r => (u.control r).toDo input r]
    exact Finset.sum_congr rfl fun p _ => by rw [hR.control p]
  have hlen : s.printed.length = u.printed.length := by rw [hR.printed, List.length_map]
  rw [State.songToDo, hsum, hlen, ← hR.connections]
  rfl

theorem toDo_lt (hq : Qsort.Sorts qsort) (h : Answered qsort system terminal str s) {l : Call n}
    (hl : step qsort system terminal str l.label s = some t) :
    t.toDo system str.bytes < s.toDo system str.bytes := by
  obtain ⟨u, hR, hu⟩ := h.song
  obtain ⟨hm, he, hRt⟩ | ⟨hm, ⟨l', -, he⟩, hRt⟩ | ⟨hm, he, r, v, hv, hRt⟩ :=
    step_cases hq h.reachable hR hl
  · rw [State.toDo, State.toDo, songToDo_eq hR, songToDo_eq hRt, he]
    omega
  · obtain ⟨order, ha⟩ := h.exchange.agreed
    have := Exchange.toDo_lt ha (Exchange.step_moves he)
    rw [State.toDo, State.toDo, songToDo_eq hR, songToDo_eq hRt, hm]
    omega
  · have := Sockets.toDo_lt hu (Sockets.step_goes hv)
    rw [State.toDo, State.toDo, songToDo_eq hR, songToDo_eq hRt, hm, he]
    omega

theorem toDo_initial (system : Exchange.Pids n) (input : List UInt8) :
    (initial n).toDo system input = 32 * n + 6 * input.length + 21 := by
  have hsong : (initial n).songToDo system input = 4 * (n + 1) + 6 * input.length + 7 := by
    rw [songToDo_eq (u := Sockets.initial (n + 1)) ⟨fun _ => rfl, rfl, rfl⟩,
      Sockets.toDo_initial (Nat.succ_pos n)]
  have hexchange : (initial n).exchange.toDo = 26 * n + 5 := Exchange.toDo_initial n
  have hmain : (initial n).main.toDo n = 2 * n + 5 := rfl
  rw [State.toDo, hsong, hexchange, hmain]
  omega

/-- **The program ends, and ends well, when every call succeeds** and no process runs out of its
attempts to connect in the exchange. A state from which such a run cannot go on is the end of
`main`, after all children have come to the end of their loops, and the whole string is printed. No
such run takes more than `32 n + 6 l + 21` steps, where `l` is the length of the string, in whatever
order the processes move. -/
theorem sockets2_finishes (hq : Qsort.Sorts qsort) (system : Exchange.Pids n) (terminal : Bool)
    (str : Sockets.InputString) :
    ∀ ls s, (answered qsort system terminal str).run ls (initial n) = some s →
      (answered qsort system terminal str).Along (fun l s => l.patient s = true) ls (initial n) →
        ls.length ≤ 32 * n + 6 * str.bytes.length + 21 ∧
        ((∀ l : Call n, step qsort system terminal str l.label s = none) →
          s.main = .finished ∧ (∀ p, s.child p = .singing .exited) ∧
            s.printed.map Prod.snd = str.bytes) := by
  intro ls s hrun halong
  constructor
  · have hle := Machine.length_le_of_along (M := answered qsort system terminal str)
      (I := Answered qsort system terminal str) (State.toDo system str.bytes)
      (fun _ _ _ h hp hl => ⟨step_answered hq h hp hl, toDo_lt hq h hl⟩) hrun halong
      initial_answered
    rwa [toDo_initial] at hle
  · exact finished_of_stuck hq
      (halong.invariant (fun _ _ _ h hp hl => step_answered hq h hp hl) initial_answered hrun)

/-- After the end of `main` and of all children nobody can move. -/
theorem step_of_exited (hm : s.main = .finished) (hc : ∀ p, s.child p = .singing .exited)
    (l : Call n) : step qsort system terminal str l.label s = none := by
  cases l with
  | main => simp [Call.label, step, mainStep, hm]
  | exchange l => simp [Call.label, step, exchangeStep, hc]
  | song p => simp [Call.label, step, songStep, hc, Sockets.step, Sockets.alone]

/-- A run of the coordinator 7 and the worker 12, in which every call succeeds, to its end. -/
def twoCalls (c w : Fin 2) : List (Call 1) :=
  List.replicate 4 .main ++ Exchange.twoSchedule.map .exchange ++ List.replicate 4 (.song w) ++
    List.replicate 5 (.song c) ++ List.replicate 7 (.song w) ++ [.song c] ++
    List.replicate 3 .main

/-- The two print `AB` within their 65 steps. -/
theorem sockets2_finishes_of_two :
    ∃ s, (answered Qsort.insertionSort Exchange.twoPids true twoString).run (twoCalls 0 1)
      (initial 1) = some s ∧ s.main = .finished ∧ (twoCalls 0 1).length ≤ 65 ∧
        s.printed.map Prod.snd = [65, 66] := by
  obtain ⟨s, hs⟩ : ∃ s, (answered Qsort.insertionSort Exchange.twoPids true twoString).run
      (twoCalls 0 1) (initial 1) = some s := Option.isSome_iff_exists.1 (by decide +kernel)
  have hpatient : (answered Qsort.insertionSort Exchange.twoPids true twoString).Along
      (fun l s => l.patient s = true) (twoCalls 0 1) (initial 1) := by
    decide +kernel
  have hend : ((answered Qsort.insertionSort Exchange.twoPids true twoString).run
      (twoCalls 0 1) (initial 1)).map
        (fun s => (s.main, s.child 0, s.child 1)) =
          some (.finished, .singing .exited, .singing .exited) := by
    decide +kernel
  rw [hs] at hend
  obtain ⟨hm, hend⟩ := Prod.mk.inj (Option.some.inj hend)
  obtain ⟨h0, h1⟩ := Prod.mk.inj hend
  obtain ⟨hle, hstuck⟩ := sockets2_finishes Qsort.sorts_insertionSort Exchange.twoPids true
    twoString _ s hs hpatient
  have hexited : ∀ p, s.child p = .singing .exited := Fin.forall_fin_two.2 ⟨h0, h1⟩
  obtain ⟨hfin, -, hprinted⟩ := hstuck (step_of_exited hm hexited)
  exact ⟨s, hs, hfin, hle, hprinted⟩

end SemOS.Bogatyri.Sockets2
