import SemOS.Pcat.Positions

/-!
# The wake-ups of pcat

Whoever waits without a wake-up still has to wait (`Heard`). `step_heard` holds for both versions:
the semaphores remember what happens between the check and the wait, and with the monitor nothing
happens in between. So no wake-up is lost (`no_lost_wakeup`), unless `saferead` stores behind the
storage and overwrites the size (`size_overwritten`).
-/

namespace SemOS.Pcat

open Function

variable {v : Version} {inp : Input} {s t : State} {l : Move} {a : Side} {f : File}

/-! ## The invariant -/

/-- Whoever waits without a wake-up still has to wait. -/
def Heard (inp : Input) (s : State) : Prop :=
  ∀ a f, inp.files[(s.process a).file]? = some f → (s.process a).phase = .waiting →
    (s.process a).wakeups = 0 → waits inp.capacity f.size s.buffer a = true

theorem initial_heard (inp : Input) : Heard inp initial := fun _ _ _ h => by cases h

/-- A step of `a` that leaves the size, after which `a` still has to wait if it waits. -/
theorem Heard.of_update (hs : Heard inp s) {k : Process} (ht : t.process = update s.process a k)
    (hsize : t.buffer.size = s.buffer.size)
    (hk : k.phase = .waiting → k.file = (s.process a).file ∧ ∀ f,
      inp.files[(s.process a).file]? = some f → waits inp.capacity f.size s.buffer a = true) :
    Heard inp t := by
  have hwaits : ∀ n b, waits inp.capacity n t.buffer b = waits inp.capacity n s.buffer b := by
    intro n b
    cases b <;> simp only [waits, hsize]
  intro b f hf hp hw
  rw [hwaits]
  rw [ht] at hf hp hw
  by_cases hb : b = a
  · subst hb
    rw [update_self] at hf hp
    obtain ⟨hfile, hk⟩ := hk hp
    rw [hfile] at hf
    exact hk f hf
  · rw [update_of_ne hb] at hf hp hw
    exact hs b f hf hp hw

/-- **No wake-up is lost**: every step keeps `Heard`. -/
theorem step_heard (hs : Heard inp s) (hl : StoresApart v inp l s) (h : step v inp l s = some t) :
    Heard inp t := by
  have hm := step_moves h
  cases hm with
  | @block a f hf hp hw =>
    refine hs.of_update rfl rfl fun _ => ⟨rfl, fun g hg => ?_⟩
    obtain rfl : f = g := Option.some.inj (hf.symm.trans hg)
    exact hw
  | grant hf hp hw =>
    refine hs.of_update rfl rfl fun h => ?_
    cases v <;> cases h
  | wake hf hp hw => exact hs.of_update rfl rfl fun h => by cases h
  | locate hf hp => exact hs.of_update rfl rfl fun h => by cases h
  | @complete a f o hf hp =>
    -- the side itself goes on to its next check, the other one has a wake-up if it waits
    intro b g hg hp' hw
    cases a <;> cases b <;> simp only [State.complete, Side.other, update_self, ne_eq,
      reduceCtorEq, not_false_eq_true, update_of_ne, Version.post_phase] at hp' hw
    · have := v.post_wakeups_pos hp'
      omega
    · have := v.post_wakeups_pos hp'
      omega
  | @copy a f o k c hf hp hc hk =>
    cases a with
    | writer => exact hs.of_update rfl rfl fun h => by cases h
    | reader => exact hs.of_update rfl rfl fun h => by cases h
  | overwrite hf hp hc hk hq hreach => exact hl.absurd hp hq hreach
  | spurious hp => exact hs.of_update rfl rfl fun h => by cases h

/-! ## Runs -/

/-- **No wake-up is lost** in a run that does not store into `buffer_t`. A side that waits while its
condition already holds, the bytes or the room that it waits for being there, has a wake-up that it
has not taken: a count of its semaphore, or a signal to its condition variable. -/
theorem no_lost_wakeup (v : Version) (inp : Input)
    (hs : (machine v inp).ReachableWhere (StoresApart v inp) s) (a : Side)
    (hf : inp.files[(s.process a).file]? = some f) (hp : (s.process a).phase = .waiting)
    (hw : waits inp.capacity f.size s.buffer a = false) : 0 < (s.process a).wakeups := by
  have hheard : Heard inp s := by
    refine hs.invariant (fun _ h => ?_) fun l s t hs hl h => step_heard hs hl h
    cases h
    exact initial_heard inp
  by_contra h0
  exact Bool.eq_false_iff.1 hw (hheard a f hf hp (Nat.eq_zero_of_not_pos h0))

/-- One file of two bytes. -/
def onePair : Input where
  capacity := 4
  files := [.uniform 2 pair_lt_max 97]
  outside _ := 0
  control := mappings
  pos := small_pos
  lt := small_lt
  apart := small_apart

/-- The reader looks first and waits; then the writer publishes the file. -/
theorem no_lost_wakeup_onePair : ∃ s,
    (machine .monitors onePair).ReachableWhere (StoresApart .monitors onePair) s ∧
      (s.process .reader).phase = .waiting ∧ waits 4 2 s.buffer .reader = false ∧
        0 < (s.process .reader).wakeups := by
  obtain ⟨s, hs, hfile, hp, hw⟩ : ∃ s, (machine .monitors onePair).runWhere
      (StoresApart .monitors onePair) [.run .reader, .run .writer, .run .writer, .copy .writer 2,
        .run .writer] initial = some s ∧ (s.process .reader).file = 0 ∧
          (s.process .reader).phase = .waiting ∧ waits 4 2 s.buffer .reader = false :=
    ⟨_, rfl, rfl, rfl, rfl⟩
  have hreach : (machine .monitors onePair).ReachableWhere (StoresApart .monitors onePair) s :=
    Machine.reachableWhere_of_run rfl hs
  exact ⟨s, hreach, hp, hw, no_lost_wakeup .monitors onePair hreach .reader
    (f := .uniform 2 (by decide) 97) (by rw [hfile]; rfl) hp hw⟩

/-- Two files that fit into the buffer one by one. Fourteen bytes of the second one are stored
behind the storage. -/
def overTheEnd : Input where
  capacity := 4096
  files := [.uniform 100 (by decide) 97, .uniform 4010 (by decide) 98]
  outside _ := 0
  control := mappings
  pos := page_pos
  lt := page_lt
  apart := page_apart

/-- The first file has been printed, and the reader waits for the second one and has taken its
wake-up. `saferead` overwrites the size, which is then as large as the reader needs. -/
theorem size_overwritten : ¬ ∀ v inp s, (machine v inp).Reachable s → ∀ a f,
    inp.files[(s.process a).file]? = some f → (s.process a).phase = .waiting →
      waits inp.capacity f.size s.buffer a = false → 0 < (s.process a).wakeups := by
  intro h
  have hrun : ((machine .semaphors overTheEnd).run [.run .writer, .copy .writer 100, .run .writer,
      .run .reader, .copy .reader 100, .run .reader, .run .reader, .run .reader, .run .reader,
      .run .writer, .copy .writer 4010] initial).map (fun s => ((s.process .reader).file,
        (s.process .reader).phase, waits 4096 4010 s.buffer .reader,
          (s.process .reader).wakeups)) = some (1, .waiting, false, 0) := by
    decide +kernel
  obtain ⟨s, hs, ho⟩ := Option.map_eq_some_iff.1 hrun
  simp only [Prod.mk.injEq] at ho
  obtain ⟨hfile, hp, hw, hnone⟩ := ho
  have hpos := h .semaphors overTheEnd s (Machine.reachable_of_run rfl hs) .reader
    (.uniform 4010 (by decide) 98) (by rw [hfile]; rfl) hp hw
  rw [hnone] at hpos
  exact absurd hpos (Nat.lt_irrefl 0)

end SemOS.Pcat
