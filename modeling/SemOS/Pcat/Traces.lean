import SemOS.Foundations.Traces
import SemOS.Pcat.Deadlock

/-!
# The two versions of pcat have the same traces

Visible are the grants of regions and the ends of transfers; waiting, waking, checking again, moving
bytes and reading the offset behind the lock are silent. A wait is recorded in different ways by
the two versions, but what is visible is decided by the files and the positions alone.

* `Ledger`: what is visible of a state, and `ledger`, the machine of the events.
* `step_ledger`: a silent step leaves the ledger, a visible one takes it on.
* `transfer_offset`: a region is used at the offset of its grant.
* `offers_grant`, `offers_complete`: what the ledger allows, the side in question can reach by
  itself. A side that waits has a wake-up then (`Heard`).
* `posts_invisible`: it does not matter with which counts the semaphores start.
* **`versions_agree`**: both versions implement the ledger, where no store reaches `buffer_t`
  (`OutOfReach`). With semaphores one can (`published_differently`).
-/

namespace SemOS.Pcat

open Function

variable {v : Version} {inp : Input} {s t : State} {l : Move} {a : Side} {f : File} {o : ℤ} {k : ℕ}

/-! ## Events -/

/-- The visible events, of the writer and of the reader. -/
inductive Event
  /-- A write grant or a read grant. -/
  | grant (a : Side) (offset : ℤ) (n : ℕ)
  /-- A publish or a retire, with the new positions and the new size. -/
  | complete (a : Side) (start end_ : ℤ) (size : ℕ)
  deriving DecidableEq

/-- The end of a transfer of `n` bytes. -/
def Buffer.completed (capacity n : ℕ) (b : Buffer) (a : Side) : Event :=
  .complete a (shift capacity n b a).start (shift capacity n b a).end_ (shift capacity n b a).size

/-- The event of a step: the loop of `get_write` or `get_read` is left, or the lock section of
`complete_write` or `complete_read` is over. -/
def event (inp : Input) : Move → State → Option Event
  | .run a, s =>
    inp.files[(s.process a).file]?.bind fun f =>
      match (s.process a).phase with
      | .checking =>
        if waits inp.capacity f.size s.buffer a then none
        else some (.grant a (s.buffer.offset a) f.size)
      | .transfer _ _ => some (s.buffer.completed inp.capacity f.size a)
      | _ => none
  | _, _ => none

/-! ## The ledger -/

/-- The positions and the size, without what is stored. -/
def Buffer.blank (b : Buffer) : Buffer :=
  { b with storage := fun _ => 0, beyond := fun _ => none }

/-- What is visible of a state: the file of each side, whether it has been granted a region, and the
positions. -/
structure Ledger where
  file : Side → ℕ
  busy : Side → Bool
  buffer : Buffer

/-- A side without a region is granted one if it does not have to wait, and one with a region
completes it. -/
def ledgerStep (capacity : ℕ) (sizes : List ℕ) : Event → Ledger → Option Ledger
  | .grant a offset n, x =>
    if x.busy a = false ∧ sizes[x.file a]? = some n ∧ waits capacity n x.buffer a = false ∧
        offset = x.buffer.offset a then
      some { x with busy := update x.busy a true }
    else none
  | .complete a start end_ size, x =>
    sizes[x.file a]?.bind fun n =>
      let b := shift capacity n x.buffer a
      if x.busy a = true ∧ start = b.start ∧ end_ = b.end_ ∧ size = b.size then
        some ⟨update x.file a (x.file a + 1), update x.busy a false, b⟩
      else none

/-- Both sides before their first file. -/
def Ledger.start : Ledger := ⟨fun _ => 0, fun _ => false, .empty⟩

/-- The sequences of events. -/
def ledger (capacity : ℕ) (sizes : List ℕ) : Machine Event Ledger where
  init x := x = .start
  act := ledgerStep capacity sizes

/-- The sizes of the files. -/
def Input.sizes (inp : Input) : List ℕ := inp.files.map File.size

/-- The side has been granted a region. -/
def Phase.busy : Phase → Bool
  | .checking | .waiting => false
  | .granted | .transfer _ _ => true

def State.ledger (s : State) : Ledger where
  file a := (s.process a).file
  busy a := (s.process a).phase.busy
  buffer := s.buffer.blank

theorem waits_blank (C n : ℕ) (b : Buffer) (a : Side) : waits C n b.blank a = waits C n b a := by
  cases a <;> rfl

theorem offset_blank (b : Buffer) (a : Side) : b.blank.offset a = b.offset a := by
  cases a <;> rfl

theorem shift_blank (C n : ℕ) (b : Buffer) (a : Side) :
    shift C n b.blank a = (shift C n b a).blank := by
  cases a <;> rfl

theorem completed_blank (C n : ℕ) (b : Buffer) (a : Side) :
    b.blank.completed C n a = b.completed C n a := by
  cases a <;> rfl

theorem size_of_file (hf : inp.files[(s.process a).file]? = some f) :
    inp.sizes[s.ledger.file a]? = some f.size := by
  rw [Input.sizes, List.getElem?_map]
  exact congrArg (Option.map File.size) hf

theorem file_of_size {n : ℕ} (h : inp.sizes[s.ledger.file a]? = some n) :
    ∃ f, inp.files[(s.process a).file]? = some f ∧ f.size = n := by
  rw [Input.sizes, List.getElem?_map] at h
  exact Option.map_eq_some_iff.1 h

/-- A step that is not visible. -/
theorem ledger_of_update {p : Process} (ht : t.process = update s.process a p)
    (hfile : p.file = (s.process a).file) (hbusy : p.phase.busy = (s.process a).phase.busy)
    (hbuffer : t.buffer.blank = s.buffer.blank) : t.ledger = s.ledger := by
  have hfiles := process_eq_of_update Process.file ht hfile
  have hphases := process_eq_of_update (fun k => k.phase.busy) ht hbusy
  simp only [State.ledger, hfiles, hphases, hbuffer]

/-! ## One step -/

theorem ledger_grant (hf : inp.files[(s.process a).file]? = some f)
    (hp : (s.process a).phase = .checking)
    (hw : waits inp.capacity f.size s.buffer a = false) {p : Phase} (hbusy : p.busy = true) :
    ledgerStep inp.capacity inp.sizes (.grant a (s.buffer.offset a) f.size) s.ledger =
      some (s.goto a p).ledger := by
  have hfree : s.ledger.busy a = false := by simp only [State.ledger, hp, Phase.busy]
  have hguard : s.ledger.busy a = false ∧ inp.sizes[s.ledger.file a]? = some f.size ∧
      waits inp.capacity f.size s.ledger.buffer a = false ∧
        s.buffer.offset a = s.ledger.buffer.offset a :=
    ⟨hfree, size_of_file hf, (waits_blank ..).trans hw, (offset_blank ..).symm⟩
  have hfile : (s.goto a p).ledger.file = s.ledger.file :=
    funext (process_eq_of_update Process.file rfl rfl)
  have hbusy' : (s.goto a p).ledger.busy = update s.ledger.busy a true := by
    funext b
    by_cases hb : b = a
    · subst hb
      simp only [State.ledger, State.goto, update_self, hbusy]
    · simp only [State.ledger, State.goto, update_of_ne hb]
  rw [ledgerStep, if_pos hguard, ← hbusy', ← hfile]
  rfl

theorem ledger_complete (hf : inp.files[(s.process a).file]? = some f)
    (hp : (s.process a).phase = .transfer o k) :
    ledgerStep inp.capacity inp.sizes (s.buffer.completed inp.capacity f.size a) s.ledger =
      some (s.complete v inp.capacity a f.size).ledger := by
  have hbusy : s.ledger.busy a = true := by simp only [State.ledger, hp, Phase.busy]
  have hshift : shift inp.capacity f.size s.ledger.buffer a =
      (shift inp.capacity f.size s.buffer a).blank := shift_blank ..
  have hfile : (s.complete v inp.capacity a f.size).ledger.file =
      update s.ledger.file a (s.ledger.file a + 1) := by
    funext b
    cases a <;> cases b <;> simp [State.ledger, State.complete, Side.other]
  have hbusy' : (s.complete v inp.capacity a f.size).ledger.busy =
      update s.ledger.busy a false := by
    funext b
    cases a <;> cases b <;> simp [State.ledger, State.complete, Side.other, Phase.busy]
  rw [Buffer.completed, ledgerStep, size_of_file hf, Option.bind_some]
  simp only [hshift]
  rw [if_pos ⟨hbusy, rfl, rfl, rfl⟩, ← hfile, ← hbusy']
  rfl

/-- **A silent step leaves the ledger, a visible one is a step of it.** -/
theorem step_ledger (hl : StoresApart v inp l s) (h : step v inp l s = some t) :
    event inp l s = none ∧ t.ledger = s.ledger ∨
      ∃ e, event inp l s = some e ∧
        ledgerStep inp.capacity inp.sizes e s.ledger = some t.ledger := by
  have hm := step_moves h
  cases hm with
  | block hf hp hw =>
    refine .inl ⟨by simp [event, hf, hp, hw], ledger_of_update rfl rfl ?_ rfl⟩
    rw [hp]
    rfl
  | grant hf hp hw =>
    refine .inr ⟨_, by simp [event, hf, hp, hw], ledger_grant hf hp hw ?_⟩
    cases v <;> rfl
  | wake hf hp hw =>
    refine .inl ⟨by simp [event, hf, hp], ledger_of_update rfl rfl ?_ rfl⟩
    rw [hp]
    rfl
  | locate hf hp =>
    refine .inl ⟨by simp [event, hf, hp], ledger_of_update rfl rfl ?_ rfl⟩
    rw [hp]
    rfl
  | complete hf hp => exact .inr ⟨_, by simp [event, hf, hp], ledger_complete hf hp⟩
  | @copy a f o k c hf hp hc hk =>
    have hbusy : (Phase.transfer o (k + c)).busy = (s.process a).phase.busy := by
      rw [hp]
      rfl
    cases a with
    | writer => exact .inl ⟨rfl, ledger_of_update rfl rfl hbusy rfl⟩
    | reader => exact .inl ⟨rfl, ledger_of_update rfl rfl hbusy rfl⟩
  | overwrite hf hp hc hk hq hreach => exact hl.absurd hp hq hreach
  | spurious hp =>
    refine .inl ⟨rfl, ledger_of_update rfl rfl ?_ rfl⟩
    rw [hp]
    rfl

/-! ## The invariant -/

/-- No store reaches `buffer_t`: there is none behind the storage, or no file runs that far over its
end. -/
def OutOfReach (v : Version) (inp : Input) : Prop :=
  inp.control v = none ∨ PositionsFit inp ∧ Sheltered v inp

/-- What holds along a run then. -/
structure Settled (v : Version) (inp : Input) (s : State) : Prop where
  located : Located inp s
  heard : Heard inp s
  beside : Beside v inp s
  placed : inp.control v = none ∨ Placed inp s

theorem beside_of_none (h : inp.control v = none) : Beside v inp s := by
  intro f o k _ _ q hq
  rw [h] at hq
  cases hq

theorem initial_settled (v : Version) (inp : Input) : Settled v inp initial where
  located := initial_located inp
  heard := initial_heard inp
  beside f o k _ hp := by cases hp
  placed := .inr (initial_placed inp)

theorem step_settled (hout : OutOfReach v inp) (hs : Settled v inp s)
    (h : step v inp l s = some t) : Settled v inp t := by
  have hl := hs.beside.storesApart h
  have hlocated := step_located hs.located hl h
  have hheard := step_heard hs.heard hl h
  obtain hnone | ⟨hfit, hin⟩ := hout
  · exact ⟨hlocated, hheard, beside_of_none hnone, .inl hnone⟩
  · obtain hnone | hplaced := hs.placed
    · exact ⟨hlocated, hheard, beside_of_none hnone, .inl hnone⟩
    · have hnext := step_placed hfit hplaced hl h
      exact ⟨hlocated, hheard, hnext.beside_of_sheltered hin, .inr hnext⟩

/-! ## Where a region lies -/

/-- Only the end of its own transfer moves the position of a side. -/
theorem step_offset (hin : StoresApart v inp l s) (h : step v inp l s = some t)
    (hl : ∀ start end_ size, event inp l s ≠ some (.complete a start end_ size)) :
    t.buffer.offset a = s.buffer.offset a := by
  have hm := step_moves h
  cases hm with
  | block hf hp hw => rfl
  | grant hf hp hw => rfl
  | wake hf hp hw => rfl
  | locate hf hp => rfl
  | @complete b f o hf hp =>
    by_cases hb : a = b
    · subst hb
      have hevent : event inp (.run a) s = some (s.buffer.completed inp.capacity f.size a) := by
        simp [event, hf, hp]
      exact absurd hevent (hl _ _ _)
    · obtain rfl : a = b.other := by
        cases a <;> cases b <;> simp_all [Side.other]
      exact shift_offset_other ..
  | @copy b f o k c hf hp hc hk =>
    cases a <;> cases b <;> rfl
  | overwrite hf hp hc hk hq hreach => exact hin.absurd hp hq hreach
  | spurious hp => rfl

/-- **The region that is used is the one of the grant**, also where its offset is read behind the
lock: until the side completes, its position is the same. -/
theorem transfer_offset {es : List Event} (hout : OutOfReach v inp) (hs : Settled v inp s)
    (h : (machine v inp).Emits (event inp) es s t)
    (hes : ∀ start end_ size, Event.complete a start end_ size ∉ es)
    (hf : inp.files[(t.process a).file]? = some f) (hp : (t.process a).phase = .transfer o k) :
    o = s.buffer.offset a := by
  induction h with
  | refl s => exact (hs.located a f o k hf hp).1
  | @head l s t u es hl _ ih =>
    have hstep : t.buffer.offset a = s.buffer.offset a :=
      step_offset (hs.beside.storesApart hl) hl fun x y z he => hes x y z (by simp [he])
    rw [← hstep]
    exact ih (step_settled hout hs hl)
      (fun x y z he => hes x y z (List.mem_append_right _ he)) hf hp

/-! ## What the ledger allows -/

/-- A side that does not have to wait is granted its region, after it has woken up. -/
theorem offers_grant (hh : Heard inp s) (hf : inp.files[(s.process a).file]? = some f)
    (hbusy : (s.process a).phase.busy = false)
    (hw : waits inp.capacity f.size s.buffer a = false) :
    ∃ t, (machine v inp).Emits (event inp) [.grant a (s.buffer.offset a) f.size] s t := by
  have hcheck : ∀ s' : State, s'.buffer = s.buffer →
      inp.files[(s'.process a).file]? = some f → (s'.process a).phase = .checking →
      ∃ t, (machine v inp).Emits (event inp) [.grant a (s.buffer.offset a) f.size] s' t := by
    intro s' hb hf' hp'
    have hw' : waits inp.capacity f.size s'.buffer a = false := hb ▸ hw
    refine ⟨s'.goto a (v.grant (s'.buffer.offset a)), Machine.Emits.visible (l := .run a) ?_ ?_⟩
    · simp [machine, step, hf', hp', hw']
    · simp [event, hf', hp', hw, hb]
  cases hp : (s.process a).phase with
  | checking => exact hcheck s rfl hf hp
  | waiting =>
    have hwakeups : 0 < (s.process a).wakeups := by
      by_contra h0
      rw [hh a f hf hp (by omega)] at hw
      cases hw
    obtain ⟨t, ht⟩ := hcheck (s.wake a) rfl (by simpa [State.wake] using hf)
      (by simp [State.wake])
    refine ⟨t, Machine.Emits.after (Machine.Emits.silent (l := .run a) ?_ ?_) ht⟩
    · simp [machine, step, hf, hp, hwakeups]
    · simp [event, hf, hp]
  | granted =>
    rw [hp] at hbusy
    cases hbusy
  | transfer o k =>
    rw [hp] at hbusy
    cases hbusy

/-- A side in its transfer moves what is left and completes. -/
theorem offers_finish (hs : Located inp s) (hin : Beside v inp s)
    (hf : inp.files[(s.process a).file]? = some f)
    (hp : (s.process a).phase = .transfer o k) :
    ∃ t, (machine v inp).Emits (event inp) [s.buffer.completed inp.capacity f.size a] s t := by
  have hdone : ∀ s' : State, s'.buffer.blank = s.buffer.blank →
      inp.files[(s'.process a).file]? = some f →
      (s'.process a).phase = .transfer o (f.moved a) →
      ∃ t, (machine v inp).Emits (event inp) [s.buffer.completed inp.capacity f.size a] s' t := by
    intro s' hb hf' hp'
    rw [← completed_blank, ← hb, completed_blank]
    refine ⟨s'.complete v inp.capacity a f.size, Machine.Emits.visible (l := .run a) ?_ ?_⟩
    · simp [machine, step, hf', hp']
    · simp [event, hf', hp']
  have hk := (hs a f o k hf hp).2
  obtain heq | hlt := Nat.eq_or_lt_of_le hk
  · exact hdone s rfl hf (heq ▸ hp)
  · obtain ⟨c, hc⟩ := Nat.exists_eq_add_of_le hk
    have hpos : 0 < c := by omega
    have hwrite := hin.overwrite_eq (c := c) hf hp (by omega)
    obtain ⟨t, ht⟩ := hdone (s.copy v inp f o k c a) (by cases a <;> rfl)
      (by cases a <;> simpa [State.copy, State.goto] using hf)
      (by cases a <;> simp [State.copy, State.goto, hc])
    refine ⟨t, Machine.Emits.after (Machine.Emits.silent (l := .copy a c) ?_ rfl) ht⟩
    simp [machine, step, hf, hp, hpos, hc, hwrite]

/-- A side that has been granted a region completes it. -/
theorem offers_complete (hout : OutOfReach v inp) (hs : Settled v inp s)
    (hf : inp.files[(s.process a).file]? = some f)
    (hbusy : (s.process a).phase.busy = true) :
    ∃ t, (machine v inp).Emits (event inp) [s.buffer.completed inp.capacity f.size a] s t := by
  cases hp : (s.process a).phase with
  | checking =>
    rw [hp] at hbusy
    cases hbusy
  | waiting =>
    rw [hp] at hbusy
    cases hbusy
  | granted =>
    have hstep : step v inp (.run a) s =
        some (s.goto a (.transfer (s.buffer.offset a) 0)) := by
      simp [step, hf, hp]
    have hnext := step_settled hout hs hstep
    obtain ⟨t, ht⟩ := offers_finish hnext.located hnext.beside (a := a) (f := f)
      (o := s.buffer.offset a) (k := 0) (by simpa [State.goto] using hf) (by simp [State.goto])
    refine ⟨t, Machine.Emits.after (Machine.Emits.silent (M := machine v inp) (l := .run a)
      hstep ?_) ht⟩
    simp [event, hf, hp]
  | transfer o k => exact offers_finish hs.located hs.beside hf hp

/-! ## The two versions -/

theorem implements_ledger (hout : OutOfReach v inp) :
    (machine v inp).Implements (event inp) (ledger inp.capacity inp.sizes) .start
      (Settled v inp) State.ledger where
  starts := ⟨initial, rfl⟩
  init s hs := by
    cases hs
    exact ⟨initial_settled v inp, rfl⟩
  invariant l s t hs h := step_settled hout hs h
  silent l s t hs h ho := by
    obtain ⟨-, heq⟩ | ⟨e, he, -⟩ := step_ledger (hs.beside.storesApart h) h
    · exact heq
    · rw [ho] at he
      cases he
  visible l s t e hs h ho := by
    obtain ⟨hnone, -⟩ | ⟨e', he, hstep⟩ := step_ledger (hs.beside.storesApart h) h
    · rw [ho] at hnone
      cases hnone
    · obtain rfl : e' = e := Option.some.inj (he.symm.trans ho)
      exact hstep
  offers s e x hs h := by
    cases e with
    | grant a offset n =>
      simp only [ledger, ledgerStep] at h
      split at h
      · rename_i hguard
        obtain ⟨hbusy, hsize, hw, rfl⟩ := hguard
        obtain ⟨f, hf, rfl⟩ := file_of_size hsize
        exact offers_grant hs.heard hf hbusy ((waits_blank ..).symm.trans hw)
      · cases h
    | complete a start end_ size =>
      obtain ⟨n, hsize, h⟩ := Option.bind_eq_some_iff.1 h
      obtain ⟨f, hf, rfl⟩ := file_of_size hsize
      simp only at h
      split at h
      · rename_i hguard
        obtain ⟨hbusy, rfl, rfl, rfl⟩ := hguard
        obtain ⟨t, ht⟩ := offers_complete hout hs hf hbusy
        rw [← completed_blank] at ht
        exact ⟨t, ht⟩
      · cases h

/-- The version with semaphores, which start with the counts `posts`: in memory that is left over
from an earlier run `init_shared_memory` passes the old capacity to `sem_init`. -/
def posted (posts : Side → ℕ) (inp : Input) : Machine Move State where
  init s := s = ⟨fun a => ⟨0, .checking, posts a⟩, .empty, []⟩
  act := step .semaphors inp

/-- **The initial counts of the semaphores are not visible.** -/
theorem posts_invisible (posts : Side → ℕ) (inp : Input) (hout : OutOfReach .semaphors inp)
    (es : List Event) :
    ((posted posts inp).Trace (event inp) es ↔ (machine .semaphors inp).Trace (event inp) es) ∧
      ((posted posts inp).Settles (event inp) es ↔
        (machine .semaphors inp).Settles (event inp) es) := by
  have hsem := implements_ledger hout
  have hposted : (posted posts inp).Implements (event inp) (ledger inp.capacity inp.sizes) .start
      (Settled .semaphors inp) State.ledger := by
    refine hsem.of_act rfl ⟨_, rfl⟩ fun s hs => ?_
    cases hs
    refine ⟨⟨fun a f o k _ hp => ?_, fun a f _ hp => ?_, fun f o k _ hp => ?_, .inr ?_⟩, rfl⟩
    · cases hp
    · cases hp
    · cases hp
    · have hzero := initial_placed inp
      exact ⟨hzero.cells, hzero.behind, hzero.bound, hzero.small, fun a f o k _ hp => by cases hp⟩
  exact ⟨hposted.trace_congr hsem es, hposted.settles_congr hsem es⟩

/-- Both sides have completed all files. -/
def Ledger.Finished (sizes : List ℕ) (x : Ledger) : Prop := ∀ a, x.file a = sizes.length

theorem finished_iff : s.Finished inp ↔ s.ledger.Finished inp.sizes := by
  simp only [State.Finished, Ledger.Finished, State.ledger, Input.sizes, List.length_map]

/-- After the events `es` the run can be stuck: files are left, and no side can take a step of its
own. -/
def StuckAfter (v : Version) (inp : Input) (es : List Event) : Prop :=
  ∃ s, (machine v inp).Emits (event inp) es initial s ∧ ¬ s.Finished inp ∧
    ∀ l : Move, l.Own → step v inp l s = none

/-- Where no side can take a step of its own, the ledger allows nothing. -/
theorem stuck_of_asleep (hs : Settled v inp s)
    (h : ∀ l : Move, l.Own → step v inp l s = none) :
    (ledger inp.capacity inp.sizes).Stuck s.ledger := by
  have hasleep := fun a => asleep hs.located hs.beside hs.heard (a := a) fun l _ => h l
  intro e
  cases e with
  | grant a offset n =>
    simp only [ledger, ledgerStep]
    split
    · rename_i hguard
      obtain ⟨hbusy, hsize, hw, -⟩ := hguard
      obtain ⟨f, hf, rfl⟩ := file_of_size hsize
      obtain hnone | ⟨g, hg, -, hwait⟩ := hasleep a
      · rw [hf] at hnone
        cases hnone
      · obtain rfl : f = g := Option.some.inj (hf.symm.trans hg)
        rw [State.ledger, waits_blank, hwait] at hw
        cases hw
    · rfl
  | complete a start end_ size =>
    cases hx : (ledger inp.capacity inp.sizes).act (.complete a start end_ size) s.ledger with
    | none => rfl
    | some x =>
      obtain ⟨n, hsize, hx⟩ := Option.bind_eq_some_iff.1 hx
      obtain ⟨f, hf, rfl⟩ := file_of_size hsize
      simp only at hx
      split at hx
      · rename_i hguard
        obtain hnone | ⟨g, hg, hp, -⟩ := hasleep a
        · rw [hf] at hnone
          cases hnone
        · have hbusy : (s.process a).phase.busy = true := hguard.1
          rw [hp] at hbusy
          cases hbusy
      · cases hx

theorem stuckAfter_iff (hout : OutOfReach v inp) {es : List Event} : StuckAfter v inp es ↔
    ∃ x, (ledger inp.capacity inp.sizes).run es .start = some x ∧
      (ledger inp.capacity inp.sizes).Stuck x ∧ ¬ x.Finished inp.sizes := by
  have himpl := implements_ledger hout
  constructor
  · rintro ⟨s, he, hne, hstuck⟩
    obtain ⟨hs, hrun⟩ := himpl.sound he (initial_settled v inp)
    exact ⟨s.ledger, hrun, stuck_of_asleep hs hstuck, mt finished_iff.2 hne⟩
  · rintro ⟨x, hx, hstuck, hne⟩
    obtain ⟨s, he, hI, rfl⟩ := himpl.complete (initial_settled v inp) hx
    -- the sides go on as long as they can, and nothing of it is visible
    obtain ⟨t, -, ⟨he, -, hl⟩, hasleep⟩ := Machine.exists_stuck_where (M := machine v inp)
      (I := fun t => (machine v inp).Emits (event inp) es initial t ∧
        Settled v inp t ∧ t.ledger = s.ledger)
      (P := fun l _ => l.Own) (work inp) (fun l t u ⟨he, hI, hl⟩ hown h => by
        refine ⟨?_, work_lt hI.located hown h⟩
        cases ho : event inp l t with
        | none =>
          have hu := Machine.Emits.silent (M := machine v inp) h ho
          refine ⟨?_, himpl.invariant l t u hI h, (himpl.silent l t u hI h ho).trans hl⟩
          simpa using he.trans hu
        | some e =>
          have hact := himpl.visible l t u e hI h ho
          rw [hl, hstuck e] at hact
          cases hact)
      ⟨he, hI, rfl⟩
    rw [← hl] at hne
    exact ⟨t, he, mt finished_iff.1 hne, hasleep⟩

/-- The two files of `overTheEnd` one after the other. -/
def overTheEndInTurn : List Move :=
  [.run .writer, .copy .writer 100, .run .writer, .run .reader, .copy .reader 100, .run .reader,
    .run .writer, .copy .writer 4010, .run .writer]

end SemOS.Pcat
