import Mathlib.Logic.Function.Basic
import SemOS.Foundations.Machine
import SemOS.Pcat.Buffer

/-!
# The writer and the reader of pcat

`sems/pcat/on_semaphors/pcat.c` (two processes, `sem_t`) and `sems/pcat/on_monitors/pcat.c` (two
threads, `pthread_cond_t`): for every file the writer runs `buf_write` and the reader `buf_read`.
Each of them is granted a region of the size of the file under the lock, moves the bytes without
it, and shifts its position under the lock again.

* A step is one section under the lock, one return from a wait, or one call of `read` or `write`
  on a file; `machine` is the interleaving of both sides.
* `Version` says how a side sleeps. The count of a semaphore outlives the wait, a signal to a
  condition variable reaches only a side that waits, and `pthread_cond_wait` may return unsignalled.
* `Moves` lists what a step does; `StoresApart` excludes the store that reaches `buffer_t`.
-/

namespace SemOS.Pcat

open Function

/-! ## The input of a run -/

/-- One of the files in a run: the size from `fstat`, the bytes, how many of them `saferead` stores
before the end of the file or an error, and how many of them the standard output takes from
`safewrite` before an error. -/
structure File where
  size : ℕ
  byte : ℕ → UInt8
  stored : ℕ
  written : ℕ
  size_lt : size < 2 ^ 63
  stored_le : stored ≤ size
  written_le : written ≤ size

/-- A file of `n` equal bytes that is moved as a whole. -/
def File.uniform (n : ℕ) (h : n < 2 ^ 63) (b : UInt8) : File :=
  ⟨n, fun _ => b, n, n, h, le_refl n, le_refl n⟩

inductive Version
  | semaphors
  | monitors
  deriving DecidableEq

/-- The capacity, the files in argument order, what memory holds outside the storage, and where
`buffer_t` lies relative to the storage, if a store behind the storage can reach it. It is not in
the storage. -/
structure Input where
  capacity : ℕ
  files : List File
  outside : ℤ → UInt8
  control : Version → Option ℤ
  pos : 0 < capacity
  lt : capacity < 2 ^ 64
  apart : ∀ v, ∀ q ∈ control v, (capacity : ℤ) ≤ q ∨ q + 32 ≤ 0

/-- A page for `buffer_t`, behind the page of the storage: `init_shared_memory` maps the storage
after `buffer_t`, and mappings are laid out downwards. With the monitor `buffer_t` is a local
variable of `main`, and the storage is on the heap. -/
def mappings : Version → Option ℤ
  | .semaphors => some 4096
  | .monitors => none

theorem mappings_apart {C : ℕ} (h : C ≤ 4096) :
    ∀ v, ∀ q ∈ mappings v, (C : ℤ) ≤ q ∨ q + 32 ≤ 0 := by
  intro v q hq
  cases v with
  | semaphors =>
    obtain rfl := Option.some.inj hq
    exact .inl (by omega)
  | monitors => cases hq

/-- The capacity of the program, a small one, and the sizes of two files are in bounds. -/
theorem page_pos : 0 < 4096 := by decide

theorem page_lt : 4096 < 2 ^ 64 := by decide

theorem page_lt_max : 4096 < 2 ^ 63 := by decide

theorem small_pos : 0 < 4 := by decide

theorem small_lt : 4 < 2 ^ 64 := by decide

theorem pair_lt_max : 2 < 2 ^ 63 := by decide

theorem page_apart : ∀ v, ∀ q ∈ mappings v, ((4096 : ℕ) : ℤ) ≤ q ∨ q + 32 ≤ 0 :=
  mappings_apart (Nat.le_refl _)

theorem small_apart : ∀ v, ∀ q ∈ mappings v, ((4 : ℕ) : ℤ) ≤ q ∨ q + 32 ≤ 0 :=
  mappings_apart (by decide)

/-! ## Sides, phases, versions -/

inductive Side
  | writer
  | reader
  deriving DecidableEq

def Side.other : Side → Side
  | .writer => .reader
  | .reader => .writer

/-- Where a side is in `buf_write` or `buf_read`. -/
inductive Phase
  /-- Before it takes the lock and looks at the size. -/
  | checking
  /-- In `sem_wait` or `pthread_cond_wait`, without the lock. -/
  | waiting
  /-- The lock is released, the offset not read yet. -/
  | granted
  /-- In the transfer loop: the offset, and how many bytes have been moved. -/
  | transfer (offset : ℤ) (moved : ℕ)
  deriving DecidableEq

/-- One side: its file, counted from 0, its phase, and the wake-ups it has not taken. -/
structure Process where
  file : ℕ
  phase : Phase
  wakeups : ℕ

/-- `sem_post` counts; `pthread_cond_signal` wakes the side if it waits. -/
def Version.post (v : Version) (k : Process) : Process :=
  match v with
  | .semaphors => { k with wakeups := k.wakeups + 1 }
  | .monitors => if k.phase = .waiting then { k with wakeups := 1 } else k

/-- With semaphores the offset is read before the lock is released, with the monitor after. -/
def Version.grant (v : Version) (offset : ℤ) : Phase :=
  match v with
  | .semaphors => .transfer offset 0
  | .monitors => .granted

/-! ## States -/

structure State where
  process : Side → Process
  buffer : Buffer
  output : List UInt8

/-- The condition of the loop in `get_write` and in `get_read`. -/
def waits (capacity n : ℕ) (b : Buffer) : Side → Bool
  | .writer => toULong (capacity - b.size) < n
  | .reader => b.size < n

/-- The region that `get_write` and `get_read` return. -/
def Buffer.offset (b : Buffer) : Side → ℤ
  | .writer => b.end_
  | .reader => b.start

/-- The lock section of `complete_write` and of `complete_read`. -/
def shift (capacity n : ℕ) (b : Buffer) : Side → Buffer
  | .writer => updBufferSize capacity (shiftEndByK capacity n b)
  | .reader => updBufferSize capacity (shiftStartByK capacity n b)

/-- How many bytes a side moves of a file. -/
def File.moved (f : File) : Side → ℕ
  | .writer => f.stored
  | .reader => f.written

theorem File.moved_le (f : File) (a : Side) : f.moved a ≤ f.size := by
  cases a with
  | writer => exact f.stored_le
  | reader => exact f.written_le

/-- The side `a` goes on to phase `p`. -/
def State.goto (s : State) (a : Side) (p : Phase) : State :=
  { s with process := update s.process a ⟨(s.process a).file, p, (s.process a).wakeups⟩ }

/-- The side `a` returns from its wait. -/
def State.wake (s : State) (a : Side) : State :=
  { s with
    process := update s.process a
      ⟨(s.process a).file, .checking, (s.process a).wakeups - 1⟩ }

/-- One call of `read` by `saferead`, or of `write` by `safewrite`: `c` bytes move. -/
def State.copy (v : Version) (inp : Input) (s : State) (f : File) (offset : ℤ) (k c : ℕ) :
    Side → State
  | .writer =>
    { s.goto .writer (.transfer offset (k + c)) with
      buffer := s.buffer.store (offset + k) c fun d => f.byte (k + d) }
  | .reader =>
    { s.goto .reader (.transfer offset (k + c)) with
      output := s.output ++ (List.range c).map fun d : ℕ =>
        s.buffer.load inp.capacity inp.outside (inp.control v) (offset + k + d) }

/-- What the call of `read` does to `buffer_t`, if its bytes reach it. -/
def State.overwrite (v : Version) (inp : Input) (s : State) (f : File) (offset : ℤ) (k c : ℕ) :
    Side → Option State
  | .writer =>
    match inp.control v with
    | none => some s
    | some q =>
      (s.buffer.overwrite q (offset + k) c fun d => f.byte (k + d)).map fun b =>
        { s with buffer := b }
  | .reader => some s

/-- The end of `complete_write` and `complete_read`: the position moves on by the size of the file,
whatever has been moved, and the other side is notified. -/
def State.complete (v : Version) (capacity : ℕ) (s : State) (a : Side) (n : ℕ) : State where
  process :=
    update (update s.process a ⟨(s.process a).file + 1, .checking, (s.process a).wakeups⟩)
      a.other (v.post (s.process a.other))
  buffer := shift capacity n s.buffer a
  output := s.output

/-! ## Steps -/

inductive Move
  /-- A section under the lock, the return from a wait, or the reading of the offset. -/
  | run (a : Side)
  /-- A call of `read` or `write` that moves `c` bytes. -/
  | copy (a : Side) (c : ℕ)
  /-- A return of `pthread_cond_wait` without a signal. -/
  | wakeUp (a : Side)
  deriving DecidableEq

/-- One step; `none` when the side waits, has no file left, or does not stand there. -/
def step (v : Version) (inp : Input) : Move → State → Option State
  | .run a, s =>
    inp.files[(s.process a).file]?.bind fun f =>
      match (s.process a).phase with
      | .checking =>
        if waits inp.capacity f.size s.buffer a then some (s.goto a .waiting)
        else some (s.goto a (v.grant (s.buffer.offset a)))
      | .waiting => if 0 < (s.process a).wakeups then some (s.wake a) else none
      | .granted => some (s.goto a (.transfer (s.buffer.offset a) 0))
      | .transfer _ k =>
        if k = f.moved a then some (s.complete v inp.capacity a f.size) else none
  | .copy a c, s =>
    inp.files[(s.process a).file]?.bind fun f =>
      match (s.process a).phase with
      | .transfer offset k =>
        if 0 < c ∧ k + c ≤ f.moved a then
          (s.overwrite v inp f offset k c a).map fun s => s.copy v inp f offset k c a
        else none
      | _ => none
  | .wakeUp a, s =>
    if v = .monitors ∧ (s.process a).phase = .waiting ∧ (s.process a).wakeups = 0 then
      some (s.goto a .checking)
    else none

/-- Both sides before their first file. The semaphores start at 0: `init_shared_memory` passes the
capacity to `sem_init` before it has stored it. -/
def initial : State where
  process _ := ⟨0, .checking, 0⟩
  buffer := .empty
  output := []

/-- The interleaving of the writer and the reader. -/
def machine (v : Version) (inp : Input) : Machine Move State where
  init s := s = initial
  act := step v inp

/-- Both loops of `main` are over. -/
def State.Finished (inp : Input) (s : State) : Prop :=
  ∀ a, (s.process a).file = inp.files.length

/-! ## Stores beside `buffer_t` -/

/-- A call that moves `c` bytes in this phase stores beside the `buffer_t` at `control`. -/
def Phase.StoresApart (control : Option ℤ) (c : ℕ) : Phase → Prop
  | .transfer offset k => ∀ q ∈ control, offset + k + c ≤ q ∨ q + 32 ≤ offset + k
  | _ => True

instance (control : Option ℤ) (c : ℕ) : ∀ p : Phase, Decidable (p.StoresApart control c)
  | .transfer offset k =>
    inferInstanceAs (Decidable (∀ q ∈ control, offset + k + c ≤ q ∨ q + 32 ≤ offset + k))
  | .checking => isTrue trivial
  | .waiting => isTrue trivial
  | .granted => isTrue trivial

/-- What the step stores does not reach `buffer_t`. -/
def StoresApart (v : Version) (inp : Input) : Move → State → Prop
  | .copy .writer c, s => (s.process .writer).phase.StoresApart (inp.control v) c
  | _, _ => True

instance (v : Version) (inp : Input) : ∀ l s, Decidable (StoresApart v inp l s)
  | .copy .writer c, s =>
    inferInstanceAs (Decidable ((s.process .writer).phase.StoresApart (inp.control v) c))
  | .copy .reader _, _ => isTrue trivial
  | .run _, _ => isTrue trivial
  | .wakeUp _, _ => isTrue trivial

/-! ## What a step does -/

/-- `Moves v inp s l t`: the step `l` takes `s` to `t`, one constructor for every way on. -/
inductive Moves (v : Version) (inp : Input) (s : State) : Move → State → Prop
  | block {a f} (hf : inp.files[(s.process a).file]? = some f)
      (hp : (s.process a).phase = .checking)
      (hw : waits inp.capacity f.size s.buffer a = true) :
      Moves v inp s (.run a) (s.goto a .waiting)
  | grant {a f} (hf : inp.files[(s.process a).file]? = some f)
      (hp : (s.process a).phase = .checking)
      (hw : waits inp.capacity f.size s.buffer a = false) :
      Moves v inp s (.run a) (s.goto a (v.grant (s.buffer.offset a)))
  | wake {a f} (hf : inp.files[(s.process a).file]? = some f)
      (hp : (s.process a).phase = .waiting) (hw : 0 < (s.process a).wakeups) :
      Moves v inp s (.run a) (s.wake a)
  | locate {a f} (hf : inp.files[(s.process a).file]? = some f)
      (hp : (s.process a).phase = .granted) :
      Moves v inp s (.run a) (s.goto a (.transfer (s.buffer.offset a) 0))
  | complete {a f offset} (hf : inp.files[(s.process a).file]? = some f)
      (hp : (s.process a).phase = .transfer offset (f.moved a)) :
      Moves v inp s (.run a) (s.complete v inp.capacity a f.size)
  | copy {a f offset k c} (hf : inp.files[(s.process a).file]? = some f)
      (hp : (s.process a).phase = .transfer offset k) (hc : 0 < c) (hk : k + c ≤ f.moved a) :
      Moves v inp s (.copy a c) (s.copy v inp f offset k c a)
  | overwrite {f offset k c q b} (hf : inp.files[(s.process .writer).file]? = some f)
      (hp : (s.process .writer).phase = .transfer offset k) (hc : 0 < c)
      (hk : k + c ≤ f.moved .writer) (hq : q ∈ inp.control v)
      (hreach : ¬ (offset + k + c ≤ q ∨ q + 32 ≤ offset + k)) :
      Moves v inp s (.copy .writer c) (State.copy v inp { s with buffer := b } f offset k c .writer)
  | spurious {a} (hp : (s.process a).phase = .waiting) :
      Moves v inp s (.wakeUp a) (s.goto a .checking)

variable {v : Version} {inp : Input} {s t : State} {l : Move} {a : Side}

/-- What a call of `read` or `write` leaves of `buffer_t`. -/
theorem overwrite_cases {f : File} {o : ℤ} {k c : ℕ} {u : State}
    (h : s.overwrite v inp f o k c a = some u) :
    u = s ∨ a = .writer ∧ ∃ b, u = { s with buffer := b } ∧
      ∃ q ∈ inp.control v, ¬ (o + k + c ≤ q ∨ q + 32 ≤ o + k) := by
  cases a with
  | reader => exact .inl (Option.some.inj h).symm
  | writer =>
    cases hq : inp.control v with
    | none =>
      simp only [State.overwrite, hq] at h
      exact .inl (Option.some.inj h).symm
    | some q =>
      simp only [State.overwrite, hq] at h
      obtain ⟨b, hb, rfl⟩ := Option.map_eq_some_iff.1 h
      by_cases hapart : o + k + c ≤ q ∨ q + 32 ≤ o + k
      · rw [Buffer.overwrite_apart hapart] at hb
        obtain rfl := Option.some.inj hb
        exact .inl rfl
      · exact .inr ⟨rfl, b, rfl, q, rfl, hapart⟩

/-- A step does what `Moves` lists, and nothing else. -/
theorem step_moves (h : step v inp l s = some t) : Moves v inp s l t := by
  cases l with
  | run a =>
    obtain ⟨f, hf, h⟩ := Option.bind_eq_some_iff.1 h
    split at h
    · rename_i hp
      split_ifs at h with hw
      · obtain rfl := Option.some.inj h
        exact .block hf hp hw
      · obtain rfl := Option.some.inj h
        exact .grant hf hp (Bool.eq_false_iff.2 hw)
    · rename_i hp
      split_ifs at h with hw
      obtain rfl := Option.some.inj h
      exact .wake hf hp hw
    · rename_i hp
      obtain rfl := Option.some.inj h
      exact .locate hf hp
    · rename_i offset k hp
      split_ifs at h with hk
      obtain rfl := Option.some.inj h
      exact .complete hf (hk ▸ hp)
  | copy a c =>
    obtain ⟨f, hf, h⟩ := Option.bind_eq_some_iff.1 h
    split at h
    · rename_i offset k hp
      split_ifs at h with hc
      obtain ⟨u, hu, rfl⟩ := Option.map_eq_some_iff.1 h
      obtain rfl | ⟨rfl, b, rfl, q, hq, hreach⟩ := overwrite_cases hu
      · exact .copy hf hp hc.1 hc.2
      · exact .overwrite hf hp hc.1 hc.2 hq hreach
    · cases h
  | wakeUp a =>
    simp only [step] at h
    split_ifs at h with hw
    obtain rfl := Option.some.inj h
    exact .spurious hw.2.1

/-- What the writer reads in now is stored beside `buffer_t`. -/
def Beside (v : Version) (inp : Input) (s : State) : Prop :=
  ∀ f o k, inp.files[(s.process .writer).file]? = some f →
    (s.process .writer).phase = .transfer o k →
      ∀ q ∈ inp.control v, o + f.stored ≤ q ∨ q + 32 ≤ o

/-- Then every call of `read` is. -/
theorem Beside.storesApart (hs : Beside v inp s) (h : step v inp l s = some t) :
    StoresApart v inp l s := by
  cases l with
  | run a => trivial
  | wakeUp a => trivial
  | copy a c =>
    cases a with
    | reader => trivial
    | writer =>
      obtain ⟨f, hf, h⟩ := Option.bind_eq_some_iff.1 h
      change (s.process .writer).phase.StoresApart (inp.control v) c
      cases hp : (s.process .writer).phase with
      | checking => trivial
      | waiting => trivial
      | granted => trivial
      | transfer o k =>
        simp only [hp] at h
        obtain ⟨hc, -⟩ := Option.ite_none_right_eq_some.1 h
        have hmoved : k + c ≤ f.stored := hc.2
        intro q hq
        have := hs f o k hf hp q hq
        omega

/-- Such a call leaves `buffer_t`. -/
theorem Beside.overwrite_eq {f : File} {o : ℤ} {k c : ℕ} (hs : Beside v inp s)
    (hf : inp.files[(s.process a).file]? = some f) (hp : (s.process a).phase = .transfer o k)
    (hk : k + c ≤ f.moved a) : s.overwrite v inp f o k c a = some s := by
  cases a with
  | reader => rfl
  | writer =>
    cases hq : inp.control v with
    | none => simp only [State.overwrite, hq]
    | some q =>
      have hmoved : k + c ≤ f.stored := hk
      have hapart := hs f o k hf hp q hq
      simp only [State.overwrite, hq]
      rw [Buffer.overwrite_apart (by omega), Option.map_some]

/-- A store that reaches `buffer_t` is excluded. -/
theorem StoresApart.absurd {o q : ℤ} {k c : ℕ} {P : Prop}
    (h : StoresApart v inp (.copy .writer c) s) (hp : (s.process .writer).phase = .transfer o k)
    (hq : q ∈ inp.control v) (hreach : ¬ (o + k + c ≤ q ∨ q + 32 ≤ o + k)) : P := by
  simp only [StoresApart, hp] at h
  exact (hreach (h q hq)).elim

end SemOS.Pcat
