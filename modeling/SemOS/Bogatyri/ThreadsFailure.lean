import SemOS.Bogatyri.ThreadsProgress

/-!
# The threaded bogatyri when a thread cannot be created

The error path of `main` in `sems/bogatyri/main.c`. When `pthread_create` fails for thread `i`,
`main` overwrites `thread_count` with `N`, wakes everybody and joins the `i` threads that exist,
while they still take numbers and count on.

* A move is a step of `main` or of a thread that has been created; a wait in `pthread_join` is a
  step that is not possible yet.
* `Phase` is the invariant: before the overwrite the count stays below `N`, after it at `N` or
  above, and it never is `N` when a thread has incremented it, so no character is ever read.
* `failure_is_clean`: nothing is printed, nobody sleeps after the broadcast, and everybody can get
  to the end.
-/

namespace SemOS.Bogatyri.Threads

open Function

/-- Where `main` is. -/
inductive Main
  /-- Before the `pthread_create` of this thread. -/
  | creating (created : ℕ)
  /-- After the failure, before the lock. -/
  | failed
  /-- Before the `pthread_join` of this thread. -/
  | joining (joined : ℕ)
  | returned
  deriving DecidableEq

/-- The threads and `main`. A thread that does not exist yet is at its start. -/
structure Failing (N : ℕ) where
  threads : State N
  main : Main

/-- What moves: `main`, or a thread. -/
inductive Move (N : ℕ)
  | main
  | thread (l : Label N)
  deriving DecidableEq

variable {N : ℕ}

/-- How many threads exist when the creation of thread `i` is to fail. -/
def Main.created (i : ℕ) : Main → ℕ
  | .creating created => created
  | .failed | .joining _ | .returned => i

/-- The critical section of the error path. -/
def State.markCreated (s : State N) : State N :=
  { s.broadcast with threadCount := UInt64.ofNat N }

/-- A step of `main`. -/
def mainStep (i : Fin N) (s : Failing N) : Option (Failing N) :=
  match s.main with
  | .creating created =>
    some { s with main := if created = (i : ℕ) then .failed else .creating (created + 1) }
  | .failed => some ⟨s.threads.markCreated, .joining 0⟩
  | .joining joined =>
    if h : joined < (i : ℕ) then
      match s.threads.control ⟨joined, h.trans i.2⟩ with
      | .exited _ => some { s with main := .joining (joined + 1) }
      | _ => none
    else some { s with main := .returned }
  | .returned => none

/-- A move. -/
def failingStep (input : List UInt8) (i : Fin N) : Move N → Failing N → Option (Failing N)
  | .main, s => mainStep i s
  | .thread l, s =>
    if (l.thread : ℕ) < s.main.created i then
      (step input l s.threads).map fun threads => { s with threads := threads }
    else none

/-- `main` and the threads, when the creation of thread `i` fails. -/
def failingMachine (N : ℕ) (input : List UInt8) (i : Fin N) : Machine (Move N) (Failing N) where
  init s := s = ⟨initial N, .creating 0⟩
  act := failingStep input i

/-- `main` has broadcast. -/
def Main.Broadcast : Main → Prop
  | .joining _ | .returned => True
  | _ => False

variable {input : List UInt8} {i r : Fin N} {s t : Failing N} {u v : State N} {l : Label N}

/-! ## The count -/

/-- How many threads have a number. -/
def State.numbered (u : State N) : ℕ := ∑ r, (u.numbers r).isSome.toNat

theorem numbered_lt (hr : u.control r = .start) : u.numbered < N := by
  calc u.numbered < ∑ _r : Fin N, 1 :=
        Finset.sum_lt_sum (fun r _ => Bool.toNat_le _)
          ⟨r, Finset.mem_univ r, by simp [State.numbers, hr, Control.number]⟩
    _ = N := by simp

/-- One more thread has incremented the count, which does not wrap around. -/
theorem toNat_threadCount_succ (hN : N < 2 ^ 63) (h : u.threadCount.toNat ≤ N + u.numbered)
    (hr : u.control r = .start) : (u.threadCount + 1).toNat = u.threadCount.toNat + 1 := by
  have := numbered_lt hr
  rw [UInt64.toNat_add]
  exact Nat.mod_eq_of_lt (by simp only [UInt64.reduceToNat]; omega)

theorem numbered_acquire (hr : u.control r = .start) (n : UInt64) :
    (u.goto r (.barrier n)).numbered = u.numbered + 1 := by
  have hsum := Processes.sum_update (fun _ (n : Option UInt64) => n.isSome.toNat) u.numbers r
    (some n)
  have hnone : u.numbers r = none := by rw [State.numbers, hr]; rfl
  rw [hnone, ← numbers_acquire] at hsum
  simpa [State.numbered] using hsum

theorem numbered_goto {c : Control} (hc : c.number = (u.control r).number) :
    (u.goto r c).numbered = u.numbered := by
  rw [State.numbered, numbers_goto hc, State.numbered]

theorem numbered_broadcast (u : State N) : u.broadcast.numbered = u.numbered := by
  rw [State.numbered, numbers_broadcast, State.numbered]

/-! ## The phases -/

/-- No character has been read or printed. -/
structure Silent (u : State N) : Prop where
  printed : u.printed = []
  char : u.currentChar = 0
  range : u.indexOutOfRange = false

theorem Silent.goto (h : Silent u) (r : Fin N) (c : Control) : Silent (u.goto r c) :=
  ⟨h.printed, h.char, h.range⟩

/-- The threads before the overwrite: the count is right, and nobody has passed the barrier. -/
structure Early (u : State N) : Prop where
  silent : Silent u
  count : u.threadCount.toNat = u.numbered
  barrier : ∀ r, ¬ (u.control r).PastBarrier

/-- The threads after it: the count is at least `N`, and nobody sleeps. -/
structure Late (u : State N) : Prop where
  silent : Silent u
  count : N ≤ u.threadCount.toNat
  count_le : u.threadCount.toNat ≤ N + u.numbered
  awake : ∀ r, ¬ (u.control r).Asleep

/-- What `main` has done. -/
inductive Phase (i : Fin N) (s : Failing N) : Prop
  | creating {created : ℕ} (hmain : s.main = .creating created) (hle : created ≤ i)
      (hearly : Early s.threads) (hstart : ∀ r : Fin N, created ≤ r → s.threads.control r = .start)
  | failed (hmain : s.main = .failed) (hearly : Early s.threads)
      (hstart : ∀ r : Fin N, i ≤ r → s.threads.control r = .start)
  | joining {joined : ℕ} (hmain : s.main = .joining joined) (hle : joined ≤ i)
      (hlate : Late s.threads) (hexit : ∀ r : Fin N, r < joined → (s.threads.control r).Exited)
  | returned (hmain : s.main = .returned) (hlate : Late s.threads)
      (hexit : ∀ r : Fin N, r < i → (s.threads.control r).Exited)

/-! ## Steps of the threads -/

/-- How far a thread is from its end, by its own steps. -/
def Control.toGo (c : Control) : ℕ := 4 * c.events + c.effort

/-- How far all threads are. -/
def toGo (control : Fin N → Control) : ℕ := ∑ r, (control r).toGo

theorem toGo_update_lt {control : Fin N → Control} {c : Control}
    (h : c.toGo < (control r).toGo) : toGo (update control r c) < toGo control := by
  have := Processes.sum_update (fun _ => Control.toGo) control r c
  simp only [toGo]
  omega

/-- Where nobody sleeps, a broadcast changes nothing. -/
theorem broadcast_control_of_awake (h : ∀ r, ¬ (u.control r).Asleep) :
    u.broadcast.control = u.control := by
  funext r
  have hr := h r
  rw [State.broadcast_control, Condition.broadcast_apply]
  cases hc : u.control r <;> rw [hc] at hr <;> first | rfl | exact absurd trivial hr

/-- While a thread has not been created, the count stays below `N`, and the barrier is closed. -/
theorem early_step (hN : N < 2 ^ 63) (h : Early u) (hi : u.control i = .start)
    (hl : l.thread ≠ i) (hstep : step input l u = some v) :
    Early v ∧ (∀ r, r ≠ l.thread → v.control r = u.control r) ∧
      ((∃ r, l = .run r) → toGo v.control < toGo u.control) := by
  obtain ⟨hsilent, hcount, hbarrier⟩ := h
  have hbelow := numbered_lt hi
  have hgoto : ∀ c, ¬ c.PastBarrier → ∀ r, ¬ (update u.control l.thread c r).PastBarrier := by
    intro c hc r
    rw [update_apply]
    split_ifs
    · exact hc
    · exact hbarrier r
  have hframe : ∀ c r, r ≠ l.thread → update u.control l.thread c r = u.control r :=
    fun c r hr => update_of_ne hr ..
  have hpast : ∀ {c}, u.control l.thread = c → ¬ c.PastBarrier := fun hc => hc ▸ hbarrier l.thread
  have hm := step_moves hstep
  cases hm with
  | acquire hc _ =>
    have hnumbered := numbered_acquire hc (u.lastAssigned + 1)
    refine ⟨⟨⟨hsilent.printed, hsilent.char, hsilent.range⟩, ?_, hgoto _ id⟩, hframe _, fun _ => ?_⟩
    · rw [toNat_threadCount_succ hN (by omega) hc, hcount]
      exact hnumbered.symm
    · exact toGo_update_lt (by rw [hc]; exact Nat.lt_succ_self 7)
  | acquireLast hc hlast =>
    -- thread `i` still has no number
    have hnumbered := numbered_acquire hc (u.lastAssigned + 1)
    have hstill : (u.goto l.thread (.barrier (u.lastAssigned + 1))).control i = .start := by
      rw [State.goto_control, update_of_ne (Ne.symm hl), hi]
    have := numbered_lt hstill
    rw [toNat_threadCount_succ hN (by omega) hc] at hlast
    omega
  | @barrierWait n hc _ =>
    refine ⟨⟨hsilent.goto .., hcount.trans (numbered_goto (by rw [hc]; rfl)).symm, hgoto _ id⟩,
      hframe _, fun _ => toGo_update_lt ?_⟩
    rw [hc]
    simp [Control.toGo, Control.events, Control.effort]
  | barrierPass hc hge => exact absurd (hcount ▸ hbelow) hge
  | barrierSpurious hc =>
    refine ⟨⟨hsilent.goto .., hcount.trans (numbered_goto (by rw [hc]; rfl)).symm, hgoto _ id⟩,
      hframe _, ?_⟩
    rintro ⟨r, rfl⟩
    simp only [Label.thread] at hc
    simp [step, hc] at hstep
  | finish hc _ | wait hc _ _ | sing hc _ _ | unlock hc | spurious hc =>
    exact absurd trivial (hpast hc)

/-- Where nobody sleeps, a thread goes to a control point at which it is not asleep either. -/
theorem goto_awake {r : Fin N} {c : Control} (hawake : ∀ r, ¬ (u.control r).Asleep)
    (hc : ¬ c.Asleep) (hr : ¬ (u.control r).Exited) (hlt : c.toGo < (u.control r).toGo) :
    (∀ r', ¬ (update u.control r c r').Asleep) ∧
      (∀ r', (u.control r').Exited → (update u.control r c r').Exited) ∧
        toGo (update u.control r c) < toGo u.control := by
  refine ⟨fun r' => ?_, fun r' hr' => ?_, toGo_update_lt hlt⟩
  · rw [update_apply]
    split_ifs
    · exact hc
    · exact hawake r'
  · rw [update_of_ne]
    · exact hr'
    · rintro rfl
      exact hr hr'

/-- A thread that goes on with its loop leaves the count alone. -/
theorem Late.goto_loop {r : Fin N} {n : UInt64} (h : Late u) (hr : ¬ (u.control r).Exited)
    (hnumber : (Control.loop n).number = (u.control r).number)
    (hlt : (Control.loop n).toGo < (u.control r).toGo) :
    Late (u.goto r (.loop n)) ∧
      (∀ r', (u.control r').Exited → ((u.goto r (.loop n)).control r').Exited) ∧
        toGo (u.goto r (.loop n)).control < toGo u.control := by
  obtain ⟨hawake, hexit, hless⟩ := goto_awake h.awake (c := .loop n) id hr hlt
  exact ⟨⟨h.silent.goto .., h.count, h.count_le.trans_eq (by rw [numbered_goto hnumber]), hawake⟩,
    hexit, hless⟩

/-- After the overwrite nobody sleeps any more, and those who have left stay away. -/
theorem late_step (hN : N < 2 ^ 63) (h : Late u) (hstep : step input l u = some v) :
    Late v ∧ (∀ r, (u.control r).Exited → (v.control r).Exited) ∧
      toGo v.control < toGo u.control := by
  obtain ⟨hsilent, hcount, hle, hawake⟩ := id h
  have hm := step_moves hstep
  cases hm with
  | acquire hc _ =>
    have hsucc := toNat_threadCount_succ hN hle hc
    obtain ⟨hawake', hexit, hlt⟩ := goto_awake hawake (c := .barrier (u.lastAssigned + 1)) id
      (by rw [hc]; exact id) (by rw [hc]; exact Nat.lt_succ_self 7)
    refine ⟨⟨⟨hsilent.printed, hsilent.char, hsilent.range⟩, ?_, ?_, hawake'⟩, hexit, hlt⟩
    · simp only [hsucc]
      exact Nat.le_succ_of_le hcount
    · have hnumbered := numbered_acquire hc (u.lastAssigned + 1)
      simp only [hsucc]
      exact (Nat.succ_le_succ hle).trans_eq (congrArg (N + ·) hnumbered.symm)
  | acquireLast hc hlast =>
    -- the count is past `N` already
    rw [toNat_threadCount_succ hN hle hc] at hlast
    omega
  | barrierWait hc hlt => exact absurd hlt (not_lt.2 hcount)
  | barrierPass hc _ =>
    refine h.goto_loop (by rw [hc]; exact id) (by rw [hc]; rfl) ?_
    rw [hc]
    simp [Control.toGo, Control.events, Control.effort]
  | @finish n hc _ =>
    have hless : (Control.exited n).toGo < (u.control l.thread).toGo := by
      rw [hc]
      simp [Control.toGo, Control.events, Control.effort]
    obtain ⟨hawake', hexit, hlt⟩ := goto_awake hawake (c := .exited n) id (by rw [hc]; exact id)
      hless
    have hcontrol : (u.broadcast.goto l.thread (.exited n)).control =
        update u.control l.thread (.exited n) := by
      rw [State.goto_control, broadcast_control_of_awake hawake]
    rw [hcontrol]
    refine ⟨⟨⟨hsilent.printed, hsilent.char, hsilent.range⟩, hcount, ?_, ?_⟩, hexit, hlt⟩
    · refine hle.trans_eq ?_
      rw [numbered_goto, numbered_broadcast]
      rw [broadcast_control_of_awake hawake, hc]
      rfl
    · rwa [hcontrol]
  | wait hc h0 _ | sing hc h0 _ => exact absurd hsilent.char h0
  | unlock hc =>
    refine h.goto_loop (by rw [hc]; exact id) (by rw [hc]; rfl) ?_
    rw [hc]
    simp [Control.toGo, Control.events, Control.effort]
  | barrierSpurious hc | spurious hc =>
    have := hawake l.thread
    rw [hc] at this
    exact absurd trivial this

/-! ## Steps of main -/

/-- The overwrite opens the barrier and wakes everybody. -/
theorem Early.markCreated (hN : N < 2 ^ 63) (h : Early u) : Late u.markCreated := by
  have hcount : (UInt64.ofNat N).toNat = N := UInt64.toNat_ofNat_of_lt' (by
    simp only [UInt64.size]
    omega)
  refine ⟨⟨h.silent.printed, h.silent.char, h.silent.range⟩, hcount.ge, ?_, ?_⟩
  · exact hcount.le.trans (Nat.le_add_right _ _)
  · exact fun r => Control.not_asleep_wake _

/-- How far `main` is from its end. -/
def Main.toGo (i : ℕ) : Main → ℕ
  | .creating created => i - created + (i + 3)
  | .failed => i + 2
  | .joining joined => i - joined + 1
  | .returned => 0

/-- How far `main` and the threads are: a step of `main` outweighs the threads that it wakes. -/
def Failing.measure (i : Fin N) (s : Failing N) : ℕ :=
  s.main.toGo i * (3 * N + 1) + toGo s.threads.control

theorem toGo_broadcast_le (u : State N) : toGo u.broadcast.control ≤ toGo u.control + 3 * N := by
  calc toGo u.broadcast.control ≤ ∑ r, ((u.control r).toGo + 3) := by
        apply Finset.sum_le_sum
        intro r _
        cases hc : u.control r <;>
          simp [hc, Control.wake, Control.toGo, Control.events, Control.effort]
    _ = toGo u.control + 3 * N := by
        rw [Finset.sum_add_distrib]
        simp [toGo, Nat.mul_comm]

/-- A step of `main` brings its end nearer by more than it sets the threads back. -/
theorem measure_lt_of_main {m : Main} (hm : m.toGo i < s.main.toGo i)
    (hu : toGo u.control ≤ toGo s.threads.control + 3 * N) :
    Failing.measure i ⟨u, m⟩ < s.measure i := by
  have hmul : (m.toGo i + 1) * (3 * N + 1) ≤ s.main.toGo i * (3 * N + 1) :=
    Nat.mul_le_mul_right _ hm
  rw [Nat.add_mul, Nat.one_mul] at hmul
  simp only [Failing.measure]
  omega

theorem main_phase (hN : N < 2 ^ 63) (h : Phase i s) (hstep : mainStep i s = some t) :
    Phase i t ∧ t.measure i < s.measure i := by
  cases h with
  | @creating created hmain hle hearly hstart =>
    simp only [mainStep, hmain, Option.some.injEq] at hstep
    subst hstep
    split_ifs with hi
    · subst hi
      refine ⟨.failed rfl hearly hstart, measure_lt_of_main ?_ (Nat.le_add_right _ _)⟩
      simp only [hmain, Main.toGo]
      omega
    · refine ⟨.creating rfl (by omega) hearly fun r hr => hstart r (by omega),
        measure_lt_of_main ?_ (Nat.le_add_right _ _)⟩
      simp only [hmain, Main.toGo]
      omega
  | failed hmain hearly hstart =>
    simp only [mainStep, hmain, Option.some.injEq] at hstep
    subst hstep
    refine ⟨.joining rfl (Nat.zero_le _) (hearly.markCreated hN) fun r hr =>
      absurd hr (Nat.not_lt_zero _), measure_lt_of_main ?_ (toGo_broadcast_le s.threads)⟩
    simp only [hmain, Main.toGo]
    omega
  | @joining joined hmain hle hlate hexit =>
    simp only [mainStep, hmain] at hstep
    split at hstep
    · rename_i hlt
      split at hstep
      · rename_i n hn
        cases hstep
        refine ⟨.joining rfl hlt hlate fun r hr => ?_,
          measure_lt_of_main ?_ (Nat.le_add_right _ _)⟩
        · obtain hr | hr := Nat.lt_succ_iff_lt_or_eq.1 hr
          · exact hexit r hr
          · obtain rfl : r = ⟨joined, hlt.trans i.2⟩ := Fin.ext hr
            simp [hn, Control.Exited]
        · simp only [hmain, Main.toGo]
          omega
      · cases hstep
    · rename_i hge
      cases hstep
      obtain rfl : joined = i := Nat.le_antisymm hle (not_lt.1 hge)
      refine ⟨.returned rfl hlate hexit, measure_lt_of_main ?_ (Nat.le_add_right _ _)⟩
      simp only [hmain, Main.toGo]
      omega
  | returned hmain _ _ =>
    simp only [mainStep, hmain] at hstep
    cases hstep

theorem thread_phase (hN : N < 2 ^ 63) (h : Phase i s) (hl : (l.thread : ℕ) < s.main.created i)
    (hstep : step input l s.threads = some v) :
    Phase i ⟨v, s.main⟩ ∧ ((∃ r, l = .run r) →
      Failing.measure i ⟨v, s.main⟩ < s.measure i) := by
  have hmeasure : toGo v.control < toGo s.threads.control →
      Failing.measure i ⟨v, s.main⟩ < s.measure i := fun hlt => Nat.add_lt_add_left hlt _
  cases h with
  | @creating created hmain hle hearly hstart =>
    rw [hmain, Main.created] at hl
    obtain ⟨hearly', hframe, hlt⟩ := early_step hN hearly (hstart i hle)
      (Fin.ne_of_val_ne (by omega)) hstep
    refine ⟨.creating hmain hle hearly' fun r hr => ?_, fun hrun => hmeasure (hlt hrun)⟩
    exact (hframe r (Fin.ne_of_val_ne (by omega))).trans (hstart r hr)
  | failed hmain hearly hstart =>
    rw [hmain, Main.created] at hl
    obtain ⟨hearly', hframe, hlt⟩ := early_step hN hearly (hstart i le_rfl)
      (Fin.ne_of_val_ne (by omega)) hstep
    refine ⟨.failed hmain hearly' fun r hr => ?_, fun hrun => hmeasure (hlt hrun)⟩
    exact (hframe r (Fin.ne_of_val_ne (by omega))).trans (hstart r hr)
  | joining hmain hle hlate hexit =>
    obtain ⟨hlate', hkept, hlt⟩ := late_step hN hlate hstep
    exact ⟨.joining hmain hle hlate' fun r hr => hkept r (hexit r hr), fun _ => hmeasure hlt⟩
  | returned hmain hlate hexit =>
    obtain ⟨hlate', hkept, hlt⟩ := late_step hN hlate hstep
    exact ⟨.returned hmain hlate' fun r hr => hkept r (hexit r hr), fun _ => hmeasure hlt⟩

/-- Every move keeps the phases. -/
theorem move_phase (hN : N < 2 ^ 63) {m : Move N} (h : Phase i s)
    (hstep : failingStep input i m s = some t) : Phase i t ∧
      ((∀ r, m ≠ .thread (.spurious r)) → t.measure i < s.measure i) := by
  cases m with
  | main =>
    obtain ⟨ht, hlt⟩ := main_phase hN h hstep
    exact ⟨ht, fun _ => hlt⟩
  | thread l =>
    obtain ⟨hl, hstep⟩ := Option.ite_none_right_eq_some.1 hstep
    obtain ⟨v, hv, rfl⟩ := Option.map_eq_some_iff.1 hstep
    obtain ⟨ht, hlt⟩ := thread_phase hN h hl hv
    refine ⟨ht, fun hrun => hlt ?_⟩
    cases l with
    | run r => exact ⟨r, rfl⟩
    | spurious r => exact absurd rfl (hrun r)

theorem initial_phase (i : Fin N) : Phase i (⟨initial N, .creating 0⟩ : Failing N) := by
  refine .creating rfl (Nat.zero_le _) ⟨⟨rfl, rfl, rfl⟩, ?_, fun _ => id⟩ fun _ _ => rfl
  simp [State.numbered, State.numbers, initial, Control.number]

/-! ## The end -/

/-- Only at the end is there nothing to do but to wake up for no reason. -/
theorem returned_of_stuck (h : Phase i s)
    (hstuck : ∀ m, (∀ r, m ≠ .thread (.spurious r)) → failingStep input i m s = none) :
    s.main = .returned ∧ ∀ r : Fin N, r < i → (s.threads.control r).Exited := by
  have hmain : mainStep i s = none := hstuck .main (by simp)
  cases h with
  | creating hm _ _ _ => simp [mainStep, hm] at hmain
  | failed hm _ _ => simp [mainStep, hm] at hmain
  | @joining joined hm hle hlate hexit =>
    simp only [mainStep, hm] at hmain
    split at hmain
    · rename_i hlt
      -- the thread to be joined can move, or has exited
      have hthread := hstuck (.thread (.run ⟨joined, hlt.trans i.2⟩)) (by simp)
      have hawake := hlate.awake ⟨joined, hlt.trans i.2⟩
      simp only [failingStep, Label.thread, hm, Main.created, if_pos hlt, Option.map_eq_none_iff]
        at hthread
      split at hmain
      · cases hmain
      · rename_i hno
        cases hc : s.threads.control ⟨joined, hlt.trans i.2⟩ <;> rw [hc] at hawake <;>
          first
          | exact absurd hc (hno _)
          | exact absurd trivial hawake
          | simp [step, hc] at hthread
    · cases hmain
  | returned hm _ hexit => exact ⟨hm, hexit⟩

/-- What is promised when the creation of thread `i` fails. -/
structure FailsCleanly (input : List UInt8) (i : Fin N) (s : Failing N) : Prop where
  /-- Nothing is printed, -/
  silent : s.threads.printed = [] ∧ s.threads.indexOutOfRange = false
  /-- after the broadcast no thread sleeps, -/
  awake : s.main.Broadcast → ∀ r : Fin N, r < i → ¬ (s.threads.control r).Asleep
  /-- and all threads can exit, so that `main` joins them and returns. -/
  finishes : ∃ t, (failingMachine N input i).Leads s t ∧ t.main = .returned ∧
    ∀ r : Fin N, r < i → (t.threads.control r).Exited

/-- **A failed creation is handled cleanly**, whichever thread it is and whatever the interleaving.
-/
theorem failure_is_clean (N : ℕ) (hN : N < 2 ^ 63) (input : List UInt8) (i : Fin N) {s : Failing N}
    (hs : (failingMachine N input i).Reachable s) : FailsCleanly input i s := by
  have hphase : Phase i s := hs.invariant (fun _ h => h ▸ initial_phase i)
    fun _ _ _ h hstep => (move_phase hN h hstep).1
  refine ⟨?_, ?_, ?_⟩
  · cases hphase with
    | creating _ _ h _ | failed _ h _ => exact ⟨h.silent.printed, h.silent.range⟩
    | joining _ _ h _ | returned _ h _ => exact ⟨h.silent.printed, h.silent.range⟩
  · intro hb r _
    cases hphase with
    | creating hm _ _ _ | failed hm _ _ =>
      rw [hm] at hb
      exact hb.elim
    | joining _ _ h _ | returned _ h _ => exact h.awake r
  · obtain ⟨t, hst, ht, hstuck⟩ := Machine.exists_stuck_where (M := failingMachine N input i)
      (P := fun m _ => ∀ r, m ≠ .thread (.spurious r)) (Failing.measure i)
      (fun m _ _ h hm hstep => ⟨(move_phase hN h hstep).1, (move_phase hN h hstep).2 hm⟩) hphase
    obtain ⟨hmain, hexit⟩ := returned_of_stuck ht hstuck
    exact ⟨t, hst, hmain, hexit⟩

/-- Of two threads the second cannot be created: the first one exits, and `main` returns. -/
theorem failure_is_clean_second : ∃ s, (failingMachine 2 [65] 1).run [.main, .thread (.run 0),
    .thread (.run 0), .main, .main, .thread (.run 0), .thread (.run 0), .main, .main]
    ⟨initial 2, .creating 0⟩ = some s ∧ s.main = .returned ∧ FailsCleanly [65] 1 s := by
  refine ⟨_, rfl, rfl, ?_⟩
  apply failure_is_clean 2 (by decide) [65] 1
  exact Machine.reachable_of_run rfl (show (failingMachine 2 [65] 1).run [.main, .thread (.run 0),
    .thread (.run 0), .main, .main, .thread (.run 0), .thread (.run 0), .main, .main]
    ⟨initial 2, .creating 0⟩ = some _ from rfl)

end SemOS.Bogatyri.Threads
