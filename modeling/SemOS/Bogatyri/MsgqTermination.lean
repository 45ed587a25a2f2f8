import SemOS.Bogatyri.MsgqEof
import SemOS.Bogatyri.MsgqPhases

/-!
# The end of the program

Where every byte of the line is a rank and the queue takes more than `(N - 2) ^ 2` messages, the
program can come to its end from every state in which no `fork` has failed. `main` forks the
children that are left; then the program follows the registry machine until all have their ranks,
and the song machine until all have exited, by `Leads.lift`; then `main` waits for them.

* `exists_exited`: the song can come to its end.
* **`program_finishes_iff`**: so can the program, exactly if every byte of the line is a rank.
-/

namespace SemOS.Bogatyri

open Function

/-! ## The end of the song -/

namespace Msgq

variable {N Q : ℕ} {input : List UInt8} {cap : Option ℕ} {s t : State N} {r h : Fin N}

/-- Who holds the turn can move, as the queue is empty. -/
theorem Holds.moves {p : ℕ} (hcap : MessageQueue.hasRoom cap ([] : List RankMessage) = true)
    (hq : s.queue = []) (hh : Holds input p h (s.control h)) : step input cap h s ≠ none := by
  rw [Ne, step_eq_none, hq, hcap]
  rintro (⟨i, -, hroom⟩ | ⟨hc, -⟩ | hc)
  · cases hroom
  · simp [Holds, hc] at hh
  · simp [Holds, hc] at hh

/-- Where nobody can move and every byte is a rank, the line is printed. -/
theorem printed_of_stuck (hcap : MessageQueue.hasRoom cap ([] : List RankMessage) = true)
    (hr : RanksCover N input) (hs : Phase input s) (hstuck : ∀ r, step input cap r s = none) :
    s.printed.length = input.length := by
  cases hs with
  | held h hp hq hh hi => exact absurd (hstuck h) (hh.moves hcap hq)
  | flying hp hq hi =>
    have hN := hr.targetRank_lt hp
    have hm : indexMessage input s.printed.length ∈ s.queue := by
      rw [hq]
      exact List.mem_singleton_self _
    exact absurd (hstuck ⟨_, hN⟩) ((hi ⟨_, hN⟩).step_ne_none hm rfl)
  | orphan hp hN hq hi =>
    have := hr.targetRank_lt (i := 0) (by omega)
    omega
  | spent h hp => exact hp
  | closing hp => exact hp

/-- **From every state of the song all processes can exit.** -/
theorem exists_exited (hr : RanksCover N input) (hQ : (N - 2) ^ 2 < Q)
    (hs : (machine N input (some Q)).Reachable s) :
    ∃ t, (machine N input (some Q)).Leads s t ∧ ∀ r, t.control r = .exited := by
  obtain ⟨t, hst, hsong, hstuck⟩ := Machine.exists_stuck (M := machine N input (some Q))
    (I := Song input) (songMeasure input)
    (fun _ _ _ hs h => ⟨step_song hs h, songMeasure_lt hs h⟩) (reachable_song hs)
  have hstuck : ∀ r, step input (some Q) r t = none := hstuck
  have hcap : MessageQueue.hasRoom (some Q) ([] : List RankMessage) = true := by
    rw [MessageQueue.hasRoom_some]
    exact Nat.zero_lt_of_lt hQ
  have hprinted := printed_of_stuck hcap hr hsong.phase hstuck
  have hbehind := leavesNobody_of_lt hQ (hs.leads hst) (hsong.output_eq hprinted)
  refine ⟨t, hst, fun r => ?_⟩
  -- nobody is about to hand over, since the line is printed
  have hends : ∀ r, (t.control r = .receive ∧ receiveMessageForMe r t.queue = none) ∨
      t.control r = .exited := by
    intro r
    obtain ⟨i, hc, -⟩ | hend := step_eq_none.1 (hstuck r)
    · exfalso
      cases hsong.phase with
      | held h hp | flying hp | orphan hp => omega
      | spent h hp hq hh hi =>
        by_cases hrh : r = h
        · rw [hrh, hh] at hc
          cases hc
        · simpa [Idle, hc] using hi r hrh
      | closing hp hq hcl => simpa [Idle, Left, hc] using hcl r
    · exact hend
  obtain ⟨hc, -⟩ | hc := hends r
  · refine absurd ⟨⟨r, hc⟩, fun q hq => ?_, fun q hq => ?_⟩ hbehind
    · obtain ⟨-, hnone⟩ | hex := hends q
      · exact hnone
      · rw [hq] at hex
        cases hex
    · exact (hends q).resolve_left fun h => hq h.1
  · exact hc

end Msgq

namespace Program

variable {N Q : ℕ} {system : Registry.Pids N} {stdin : List UInt8} {cap : Option ℕ}
  {before : Resources} {s t : State N} {i : Fin N} {c : Child N}

/-! ## Launching -/

/-- `main` has forked all children. -/
def Main.Launched : Main → Prop
  | .waiting _ | .cleaning | .finished => True
  | _ => False

/-- Where `main` is as long as its calls succeed. -/
inductive OnTrack (N : ℕ) : Main → Prop
  | start : OnTrack N .start
  | launching {k : ℕ} (hk : k ≤ N) : OnTrack N (.launching k)
  | launched {m : Main} (hm : m.Launched) : OnTrack N m

/-- What `main` has to do until all children are forked. -/
def toLaunch (N : ℕ) : Main → ℕ
  | .start => N + 2
  | .launching i => N + 1 - i
  | _ => 0

theorem readString_of_ne_nil (hin : stdin ≠ []) :
    Threads.readString stdin = some (inputStr stdin) := by
  simp [inputStr, Threads.readString, Threads.fgets, hin]

/-- `main` stays on track, or its `fork` fails, and then it stays there. -/
theorem step_onTrack (hin : stdin ≠ []) (hmanaged : Managed s)
    (h : s.main = .forkFailed ∨ OnTrack N s.main) (hm : Moves system stdin cap s t) :
    t.main = .forkFailed ∨ OnTrack N t.main := by
  cases hm with
  | noInput hm hr =>
    rw [readString_of_ne_nil hin] at hr
    cases hr
  | read hm hr => exact Or.inr (.launching (Nat.zero_le _))
  | @fork k hm => exact Or.inr (.launching k.isLt)
  | forkFails hm => exact Or.inl rfl
  | launched => exact Or.inr (.launched (m := .waiting 0) trivial)
  | @reap k => exact Or.inr (.launched (m := .waiting ((k : ℕ) + 1)) trivial)
  | reaped => exact Or.inr (.launched (m := .cleaning) trivial)
  | clean => exact Or.inr (.launched (m := .finished) trivial)
  | rank | enter | sing => exact h
  | orphaned hc hq ht =>
    exact absurd hq (hmanaged.queue_of_alive (alive_of_orphaned hc ht))

theorem reachable_onTrack (hin : stdin ≠ []) (hs : (machine system stdin cap before).Reachable s)
    (hfork : s.main ≠ .forkFailed) : OnTrack N s.main := by
  have hinv : Managed s ∧ (s.main = .forkFailed ∨ OnTrack N s.main) := by
    refine hs.invariant (I := fun s => Managed s ∧ (s.main = .forkFailed ∨ OnTrack N s.main))
      (fun s h => ⟨reachable_managed (.of_init h), ?_⟩)
      fun _ _ _ h hl => ⟨step_managed h.1 (step_moves hl), step_onTrack hin h.1 h.2 (step_moves hl)⟩
    rw [show s = initial N before from h]
    exact Or.inr .start
  exact hinv.2.resolve_left hfork

/-- While children are left `main` can go on, and comes nearer to the last one. -/
theorem launch_step (hin : stdin ≠ []) (hl : toLaunch N s.main ≠ 0) :
    ∃ t, mainStep stdin true s = some t ∧ OnTrack N t.main ∧
      toLaunch N t.main < toLaunch N s.main := by
  cases hm : s.main with
  | start =>
    refine ⟨_, by rw [mainStep, hm]; simp only [readString_of_ne_nil hin]; rfl,
      .launching (Nat.zero_le _), ?_⟩
    simp only [toLaunch]
    omega
  | launching k =>
    by_cases hk : k < N
    · refine ⟨_, by rw [mainStep, hm]; simp only [dif_pos hk, if_true]; rfl, .launching hk, ?_⟩
      simp only [toLaunch]
      omega
    · refine ⟨_, by rw [mainStep, hm]; simp only [dif_neg hk]; rfl,
        .launched (m := .waiting 0) trivial, ?_⟩
      rw [hm] at hl
      simp only [toLaunch] at hl ⊢
      omega
  | _ =>
    rw [hm] at hl
    exact absurd rfl hl

/-- `main` can fork the children that are left. -/
theorem exists_launched (hin : stdin ≠ []) (hs : (machine system stdin cap before).Reachable s)
    (hfork : s.main ≠ .forkFailed) :
    ∃ t, (machine system stdin cap before).Leads s t ∧ t.main.Launched := by
  obtain ⟨t, hst, htrack, hstuck⟩ := Machine.exists_stuck_where
    (M := machine system stdin cap before) (I := fun s => OnTrack N s.main)
    (P := fun l s => l = .main true ∧ toLaunch N s.main ≠ 0) (fun s => toLaunch N s.main)
    (fun l s u hI hP hl => by
      obtain ⟨rfl, hne⟩ := hP
      obtain ⟨v, hv, hvtrack, hlt⟩ := launch_step hin hne
      obtain rfl : v = u := Option.some.inj (hv.symm.trans hl)
      exact ⟨hvtrack, hlt⟩) (reachable_onTrack hin hs hfork)
  refine ⟨t, hst, ?_⟩
  by_contra hnot
  have hne : toLaunch N t.main ≠ 0 := by
    generalize t.main = m at htrack hnot
    cases htrack with
    | start => exact Nat.succ_ne_zero _
    | launching hk =>
      simp only [toLaunch]
      omega
    | launched hm => exact absurd hm hnot
  obtain ⟨u, hu, -⟩ := launch_step hin hne
  have hnone : mainStep stdin true t = none := hstuck (.main true) ⟨rfl, hne⟩
  rw [hnone] at hu
  cases hu

/-! ## Following the two machines -/

/-- What stays true of the program once all children are forked. -/
structure Underway (system : Registry.Pids N) (stdin : List UInt8) (cap : Option ℕ)
    (before : Resources) (s : State N) : Prop where
  reach : (machine system stdin cap before).Reachable s
  launched : s.main.Launched

theorem Underway.born (h : Underway system stdin cap before s) (i : Fin N) :
    s.child i ≠ .unborn := by
  have hmain := (reachable_managed h.reach).main
  have hl := h.launched
  cases hm : s.main with
  | waiting k =>
    rw [hm] at hmain
    exact (hmain i).1
  | cleaning | finished =>
    rw [hm] at hmain
    intro hu
    have := hmain i
    rw [hu] at this
    cases this
  | _ =>
    rw [hm] at hl
    exact hl.elim

/-- A step of a child. -/
theorem Underway.act {l : Fin N} (h : Underway system stdin cap before s)
    (hl : childStep system stdin cap l s = some t) (hm : t.main = s.main) :
    Underway system stdin cap before t :=
  ⟨h.reach.act (l := .child l) hl, hm ▸ h.launched⟩

/-- A step of the registry machine is one of the program. -/
theorem Underway.rank {u v : Registry.State N} (h : Underway system stdin cap before s)
    (hR : Ranks s u) (hl : Registry.step system i u = some v) :
    ∃ t, childStep system stdin cap i s = some t ∧ t.main = s.main ∧ Ranks t v := by
  have hmanaged := reachable_managed h.reach
  rw [Registry.step_local, hR.control i, hR.lock] at hl
  obtain ⟨w, hw, rfl⟩ := Option.map_eq_some_iff.1 hl
  cases hc : s.child i with
  | unborn => exact absurd hc (h.born i)
  | failed => exact absurd hc (hmanaged.sound i)
  | singing rank c =>
    rw [hc] at hw
    cases hw
  | ranking c =>
    rw [hc] at hw
    have halive : (s.child i).Alive := alive_of_ranking hc hw
    have hfile := hR.file (hmanaged.setUp_of_alive halive)
    have hv : Registry.step system i
        (Registry.alone c (s.resources.registry.getD []) s.lock) = some w := by rwa [hfile]
    have hchild : childStep system stdin cap i s = rankingStep system i c s := by
      rw [childStep, hc]
      cases c with
      | returned n => cases hw
      | _ => rfl
    obtain ⟨-, hRt⟩ := hR.rank hmanaged hc hv
    refine ⟨s.ranked i c w, ?_, rfl, hRt⟩
    rw [hchild, rankingStep, hv]
    rfl

/-- The program can follow the registry machine until all children have their ranks. -/
theorem exists_ranked (h : Underway system stdin cap before s) :
    ∃ t, (machine system stdin cap before).Leads s t ∧ Underway system stdin cap before t ∧
      ∀ i, (t.child i).registry = .returned (system.rank i) := by
  obtain ⟨u, hu, hR⟩ := registry_simulates.reachable h.reach
  obtain ⟨v, huv, hv⟩ := Registry.exists_returned hu
  have hlift : ∀ (i : Fin N) s u v, Underway system stdin cap before s ∧ Ranks s u →
      Registry.step system i u = some v → ∃ t, (machine system stdin cap before).Leads s t ∧
        Underway system stdin cap before t ∧ Ranks t v := by
    rintro i s u v ⟨h, hR⟩ hl
    obtain ⟨t, ht, hm, hRt⟩ := h.rank hR hl
    exact ⟨t, Relation.ReflTransGen.single ⟨.child i, ht⟩, h.act ht hm, hRt⟩
  obtain ⟨t, hst, ht, hRt⟩ := Machine.Leads.lift (M := machine system stdin cap before)
    (R := fun s u => Underway system stdin cap before s ∧ Ranks s u) hlift huv ⟨h, hR⟩
  exact ⟨t, hst, ht, fun i => by rw [← hRt.control i, hv i]⟩

/-- The program when all children have their ranks. -/
structure Ranked (system : Registry.Pids N) (stdin : List UInt8) (cap : Option ℕ)
    (before : Resources) (s : State N) : Prop extends Underway system stdin cap before s where
  ranked : ∀ i, (s.child i).registry = .returned (system.rank i)

theorem Ranked.cases (h : Ranked system stdin cap before s) (i : Fin N) :
    s.child i = .ranking (.returned (system.rank i)) ∨
      ∃ c, s.child i = .singing (system.rank i) c := by
  have hi := h.ranked i
  cases hc : s.child i with
  | unborn | failed =>
    rw [hc] at hi
    cases hi
  | ranking c =>
    rw [hc] at hi
    exact Or.inl (congrArg Child.ranking hi)
  | singing rank c =>
    rw [hc] at hi
    obtain rfl : rank = system.rank i := Fin.ext (Registry.Control.returned.inj hi)
    exact Or.inr ⟨c, rfl⟩

/-- A step of a child that stays past the registry. -/
theorem Ranked.act {c : Msgq.Control} (h : Ranked system stdin cap before s)
    (hl : childStep system stdin cap i s = some t) (hm : t.main = s.main)
    (hc : t.child = update s.child i (.singing (system.rank i) c)) :
    Ranked system stdin cap before t := by
  refine ⟨h.toUnderway.act hl hm, fun j => ?_⟩
  rw [hc]
  by_cases hj : j = i
  · subst hj
    rw [update_self]
    rfl
  · rw [update_of_ne hj]
    exact h.ranked j

/-- A child that has its rank can go on into `processing_phase`. -/
theorem Ranked.enter {u : Msgq.State N} (h : Ranked system stdin cap before s)
    (hR : Sings system (inputStr stdin) s u) (i : Fin N) :
    ∃ t c, (machine system stdin cap before).Leads s t ∧ Ranked system stdin cap before t ∧
      Sings system (inputStr stdin) t u ∧ t.child i = .singing (system.rank i) c := by
  have hmanaged := reachable_managed h.reach
  obtain hc | ⟨c, hc⟩ := h.cases i
  · have halive : (s.child i).Alive := by
      rw [hc]
      exact ⟨by simp, rfl⟩
    obtain ⟨q, hq⟩ := Option.ne_none_iff_exists'.1 (hmanaged.queue_of_alive halive)
    have hstep : childStep system stdin cap i s =
        some (enterProcessingPhase stdin i (system.rank i) s) := by
      rw [childStep, hc]
      simp only [Fin.is_lt, dite_true, Fin.eta]
    have hchild : (enterProcessingPhase stdin i (system.rank i) s).child =
        update s.child i (.singing (system.rank i) (Msgq.processingPhase (inputStr stdin))) := by
      rw [enterProcessingPhase, hq]
      rfl
    refine ⟨_, Msgq.processingPhase (inputStr stdin),
      Relation.ReflTransGen.single ⟨.child i, hstep⟩, h.act hstep rfl hchild,
      hR.enter hmanaged hc, ?_⟩
    rw [hchild, update_self]
  · exact ⟨s, c, Relation.ReflTransGen.refl, h, hR, hc⟩

/-- A step of the song machine is one of the program, after the entry of the child. -/
theorem Ranked.sing {u v : Msgq.State N} (h : Ranked system stdin cap before s)
    (hR : Sings system (inputStr stdin) s u)
    (hl : Msgq.step (inputStr stdin) cap (system.rank i) u = some v) :
    ∃ t, (machine system stdin cap before).Leads s t ∧ Ranked system stdin cap before t ∧
      Sings system (inputStr stdin) t v := by
  obtain ⟨s', c, hss', h', hR', hc⟩ := h.enter hR i
  have hmanaged := reachable_managed h'.reach
  rw [Msgq.step_local, hR'.control i, hc, Child.song] at hl
  obtain ⟨w, hw, rfl⟩ := Option.map_eq_some_iff.1 hl
  have halive : (s'.child i).Alive := alive_of_singing hc hw
  have hq := hR'.queue (hmanaged.setUp_of_alive halive)
  have hstep : childStep system stdin cap i s' = some (s'.sung i (system.rank i) w) := by
    rw [childStep, hc]
    simp only [hq]
    rw [singingStep, hw]
    rfl
  obtain ⟨-, hRt⟩ := hR'.sing hmanaged hc hq hw
  exact ⟨_, hss'.tail ⟨.child i, hstep⟩, h'.act hstep rfl rfl, hRt⟩

/-- The program can follow the song machine until all children have exited. -/
theorem Ranked.exists_ended (h : Ranked system stdin (some Q) before s)
    (hbefore : before.queue.getD [] = []) (hr : Msgq.RanksCover N (inputStr stdin))
    (hQ : (N - 2) ^ 2 < Q) :
    ∃ t, (machine system stdin (some Q) before).Leads s t ∧
      Underway system stdin (some Q) before t ∧ ∀ i, (t.child i).ended = true := by
  obtain ⟨u, hu, hR⟩ := (song_simulates hbefore).reachable h.reach
  obtain ⟨v, huv, hv⟩ := Msgq.exists_exited hr hQ hu
  have hlift : ∀ (r : Fin N) s u v,
      Ranked system stdin (some Q) before s ∧ Sings system (inputStr stdin) s u →
      Msgq.step (inputStr stdin) (some Q) r u = some v →
      ∃ t, (machine system stdin (some Q) before).Leads s t ∧
        Ranked system stdin (some Q) before t ∧ Sings system (inputStr stdin) t v := by
    rintro r s u v ⟨h, hR⟩ hl
    have hinj : Injective system.rank := Registry.rank_injective
    obtain ⟨i, rfl⟩ := Finite.injective_iff_surjective.1 hinj r
    exact h.sing hR hl
  obtain ⟨t, hst, ht, hRt⟩ := Machine.Leads.lift (M := machine system stdin (some Q) before)
    (R := fun s u => Ranked system stdin (some Q) before s ∧ Sings system (inputStr stdin) s u)
    hlift huv ⟨h, hR⟩
  refine ⟨t, hst, ht.toUnderway, fun i => ?_⟩
  have hcontrol := hRt.control i
  rw [hv] at hcontrol
  obtain hc | ⟨c, hc⟩ := ht.cases i
  · rw [hc] at hcontrol
    simp only [Child.song, Msgq.processingPhase] at hcontrol
    split_ifs at hcontrol
  · rw [hc] at hcontrol ⊢
    rw [← show Msgq.Control.exited = c from hcontrol]
    rfl

/-! ## Waiting -/

/-- What `main` has to do once all children have exited. -/
def toFinish (N : ℕ) : Main → ℕ
  | .waiting i => N - i + 2
  | .cleaning => 1
  | _ => 0

/-- Once all children have exited `main` can go on, and comes nearer to its end. -/
theorem finish_step (h : s.main.Launched) (he : ∀ i, (s.child i).ended = true)
    (hl : toFinish N s.main ≠ 0) :
    ∃ t, mainStep stdin true s = some t ∧ t.main.Launched ∧ t.child = s.child ∧
      toFinish N t.main < toFinish N s.main := by
  cases hm : s.main with
  | waiting k =>
    by_cases hk : k < N
    · refine ⟨{ s with main := .waiting (k + 1) }, ?_, trivial, rfl, ?_⟩
      · rw [mainStep, hm]
        simp only [dif_pos hk, he, if_true]
      · simp only [toFinish]
        omega
    · refine ⟨{ s with main := .cleaning }, ?_, trivial, rfl, ?_⟩
      · rw [mainStep, hm]
        simp only [dif_neg hk]
      · simp only [toFinish]
        omega
  | cleaning =>
    refine ⟨{ s with main := .finished, resources := cleanupSystemResources }, ?_, trivial, rfl,
      Nat.zero_lt_one⟩
    rw [mainStep, hm]
  | finished =>
    rw [hm] at hl
    exact absurd rfl hl
  | _ =>
    rw [hm] at h
    exact h.elim

/-- `main` can finish. -/
theorem Underway.exists_finished (h : Underway system stdin cap before s)
    (he : ∀ i, (s.child i).ended = true) :
    ∃ t, (machine system stdin cap before).Leads s t ∧ t.main = .finished := by
  obtain ⟨t, hst, ⟨hlaunched, hend⟩, hstuck⟩ := Machine.exists_stuck_where
    (M := machine system stdin cap before)
    (I := fun s => s.main.Launched ∧ ∀ i, (s.child i).ended = true)
    (P := fun l s => l = .main true ∧ toFinish N s.main ≠ 0) (fun s => toFinish N s.main)
    (fun l s u hI hP hl => by
      obtain ⟨rfl, hne⟩ := hP
      obtain ⟨v, hv, hvl, hchild, hlt⟩ := finish_step hI.1 hI.2 hne
      obtain rfl : v = u := Option.some.inj (hv.symm.trans hl)
      exact ⟨⟨hvl, hchild ▸ hI.2⟩, hlt⟩) ⟨h.launched, he⟩
  refine ⟨t, hst, ?_⟩
  have hzero : toFinish N t.main = 0 := by
    by_contra hne
    obtain ⟨u, hu, -⟩ := finish_step hlaunched hend hne
    have hnone : mainStep stdin true t = none := hstuck (.main true) ⟨rfl, hne⟩
    rw [hnone] at hu
    cases hu
  cases hm : t.main with
  | finished => rfl
  | waiting k =>
    rw [hm] at hzero
    cases hzero
  | cleaning =>
    rw [hm] at hzero
    cases hzero
  | _ =>
    rw [hm] at hlaunched
    exact hlaunched.elim

/-- **The program can come to its end exactly if every byte of the line is a rank.** With a queue of
more than `(N - 2) ^ 2` messages: from every state in which no `fork` has failed there is a way to
the end, with the whole line printed. -/
theorem program_finishes_iff (hN : 0 < N) (hQ : (N - 2) ^ 2 < Q) (hin : stdin ≠ [])
    (hbefore : before.queue.getD [] = []) :
    (∀ s, (machine system stdin (some Q) before).Reachable s → s.main ≠ .forkFailed →
      ∃ t, (machine system stdin (some Q) before).Leads s t ∧ t.main = .finished ∧
        t.output = inputStr stdin) ↔
    Msgq.RanksCover N (inputStr stdin) := by
  constructor
  · intro h
    obtain ⟨t, ht, -, houtput⟩ := h (initial N before) (.of_init rfl) nofun
    rw [← houtput]
    intro c hc
    obtain ⟨x, hx, rfl⟩ := List.mem_map.1 hc
    rw [← rank_of_printed hbefore (Machine.Reachable.of_init rfl |>.leads ht) hx]
    have hlt := Finset.card_lt_univ_of_notMem
      (s := Finset.univ.filter fun q => system.pid q < system.pid x.1) (x := x.1) (by simp)
    rwa [Fintype.card_fin] at hlt
  · intro hr s hs hfork
    obtain ⟨s₁, h₁, hlaunched⟩ := exists_launched hin hs hfork
    obtain ⟨s₂, h₂, hunder, hranked⟩ := exists_ranked ⟨hs.leads h₁, hlaunched⟩
    obtain ⟨s₃, h₃, hunder', hended⟩ :=
      Ranked.exists_ended ⟨hunder, hranked⟩ hbefore hr hQ
    obtain ⟨t, h₄, hfinished⟩ := hunder'.exists_finished hended
    have hlead := ((h₁.trans h₂).trans h₃).trans h₄
    exact ⟨t, hlead, hfinished, output_of_finished hN hbefore (hs.leads hlead) hfinished⟩

theorem program_of_two_finishes :
    ∃ t, (machine Registry.two [1] (some 1) ⟨none, none, false⟩).Leads
      (initial 2 ⟨none, none, false⟩) t ∧ t.main = .finished ∧ t.output = [1] :=
  (program_finishes_iff (by decide) (by decide) (by decide) (by rfl)).2 (fun c hc => by
      obtain rfl : c = 1 := List.mem_singleton.1 (show c ∈ [1] from hc)
      decide) _ (.of_init rfl) nofun

end Program

end SemOS.Bogatyri
