import SemOS.Bogatyri.SocketsPhases
import SemOS.Foundations.Processes

/-!
# The output of the socket program

`main` does not flush its first two lines before it forks. On a terminal they are written out at
once. Otherwise they stay in its buffer, every child starts with a copy of it, and writes that copy
out before its first character, or when it exits.

* `Terminal` and `File` say what the buffers hold and what is written out, on a terminal and
  elsewhere.
* **`sockets2_output`**: what a run that has finished has written out. Elsewhere the two lines are
  there once for every child, and once more for `main`.
-/

namespace SemOS.Bogatyri.Sockets2

open Function Stdio

variable {n : ℕ} {qsort : (Int32 → Int32 → Int32) → List Int32 → List Int32}
  {system : Exchange.Pids n} {str : Sockets.InputString} {s t : State n} {p : Fin (n + 1)}
  {c : Child}

/-- The characters given to `putchar`. -/
def State.chars (s : State n) : List UInt8 := s.printed.map Prod.snd

/-- The last line, once `main` has written it. -/
def Main.last : Main → List UInt8
  | .finished => done
  | _ => []

/-! ## On a terminal -/

/-- Nothing is left in a buffer, and all is written out in order. -/
structure Terminal (str : Sockets.InputString) (s : State n) : Prop where
  mainBuffer : s.mainBuffer = []
  buffer : ∀ p, s.buffer p = []
  output : s.output = (if s.main = .start then [] else header n str.bytes) ++ s.chars ++ s.main.last
  start : s.main = .start → s.printed = []

/-- While a child runs `main` has neither begun nor finished. -/
theorem Managed.running (h : Managed s) (hp : s.child p ≠ .unborn)
    (he : (s.child p).ended = false) : s.main ≠ .start ∧ s.main.last = [] := by
  have hmain := h.main
  cases hm : s.main with
  | start =>
    rw [hm] at hmain
    exact absurd (hmain p) hp
  | finished =>
    rw [hm] at hmain
    have hlt : s.ended < s.born := by
      refine Finset.card_lt_card ((Finset.ssubset_iff_of_subset fun q hq => ?_).2 ⟨p, ?_, ?_⟩)
      · simp only [Finset.mem_filter, Finset.mem_univ, true_and] at hq ⊢
        intro hu
        rw [hu] at hq
        cases hq
      · simpa using hp
      · simp [he]
    exact absurd hmain (Nat.ne_of_lt hlt)
  | _ => exact ⟨nofun, rfl⟩

theorem running_of_singing {r : Fin (n + 1)} {ok : Bool} {d : Sockets.Control}
    {v : Sockets.State (n + 1)} {q : List Sockets.Connection} (hc : s.child p = .singing d)
    (hv : Sockets.step str.bytes (r, ok) (Sockets.alone d q) = some v) :
    s.child p ≠ .unborn ∧ (s.child p).ended = false := by
  rw [hc]
  refine ⟨by simp, ?_⟩
  cases d with
  | exited => cases hv
  | _ => rfl

/-- What a piece of the loop of a child writes out. -/
theorem sung_output (s : State n) (p r : Fin (n + 1)) (v : Sockets.State (n + 1)) :
    (s.sung p r v).mainBuffer = s.mainBuffer ∧
      (v.printed = [] ∧ v.control r ≠ .exited ∧ (s.sung p r v).buffer = s.buffer ∧
          (s.sung p r v).output = s.output ∨
        ¬ (v.printed = [] ∧ v.control r ≠ .exited) ∧
          (s.sung p r v).buffer = update s.buffer p [] ∧
          (s.sung p r v).output = s.output ++ s.buffer p ++ v.printed) := by
  rw [State.sung]
  split_ifs with h
  · exact ⟨rfl, Or.inl ⟨h.1, h.2, rfl, rfl⟩⟩
  · exact ⟨rfl, Or.inr ⟨h, rfl, rfl⟩⟩

theorem header_eq (n : ℕ) (str : List UInt8) : ∃ text, header n str = text ++ [newline] :=
  ⟨_, rfl⟩

theorem header_ne_nil (n : ℕ) (str : List UInt8) : header n str ≠ [] := by
  obtain ⟨text, h⟩ := header_eq n str
  rw [h]
  simp

/-- The characters after a piece of the loop of a child. -/
theorem sung_chars (s : State n) (p r : Fin (n + 1)) (v : Sockets.State (n + 1)) :
    (s.sung p r v).chars = s.chars ++ v.printed := by
  rw [State.chars, (sung_child s p r v).2.2.2.2, List.map_append, List.map_map]
  simp [State.chars, Function.comp_def]

theorem step_terminal (hmanaged : Managed s) (h : Terminal str s)
    (hm : Moves qsort system true str s t) : Terminal str t := by
  have hbuffer : ∀ p q, update s.buffer p [] q = [] := fun p q => by
    by_cases hq : q = p
    · subst hq
      simp
    · rw [update_of_ne hq, h.buffer]
  have houtput := h.output
  cases hm with
  | begin hm =>
    obtain ⟨text, htext⟩ := header_eq n str.bytes
    have hput : put true s.mainBuffer (header n str.bytes) = (header n str.bytes, []) := by
      rw [h.mainBuffer, htext, put_lines, List.nil_append]
    have hchars : s.chars = [] := congrArg (List.map Prod.snd) (h.start hm)
    refine ⟨by rw [hput], h.buffer, ?_, (by simp)⟩
    simp only [hm, if_true, hchars, Main.last, List.append_nil] at houtput
    simp [hput, houtput, Main.last, State.chars, h.start hm]
  | @fork p hm =>
    refine ⟨h.mainBuffer, fun q => ?_, by
      simpa [hm, Main.last, State.chars, State.goto] using houtput, (by simp)⟩
    simp only [h.mainBuffer]
    exact hbuffer p q
  | forkFails hm | launched hm | reap hm | childless hm =>
    exact ⟨h.mainBuffer, h.buffer, by simpa [hm, Main.last, State.chars] using houtput, (by simp)⟩
  | finish hm =>
    refine ⟨rfl, h.buffer, ?_, (by simp)⟩
    simp only [hm, reduceCtorEq, if_false, Main.last, List.append_nil] at houtput
    simp [Main.last, h.mainBuffer, houtput, State.chars]
  | exchange => exact ⟨h.mainBuffer, h.buffer, houtput, h.start⟩
  | @serverFails p hc =>
    refine ⟨h.mainBuffer, hbuffer p, ?_, h.start⟩
    simpa [State.flush, State.goto, State.chars, h.buffer] using houtput
  | enter => exact ⟨h.mainBuffer, h.buffer, houtput, h.start⟩
  | @sing p r ok d v hc hr hv =>
    obtain ⟨hborn, hrun⟩ := running_of_singing hc hv
    obtain ⟨hstart, hlast⟩ := hmanaged.running hborn hrun
    obtain ⟨-, hmain, -⟩ := sung_child s p r v
    rw [if_neg hstart, hlast, List.append_nil] at houtput
    obtain ⟨hbuf, ⟨hnil, -, hb, ho⟩ | ⟨-, hb, ho⟩⟩ := sung_output s p r v
    · refine ⟨hbuf.trans h.mainBuffer, fun q => by rw [hb, h.buffer], ?_,
        fun hs => absurd (hmain ▸ hs) hstart⟩
      rw [hmain, if_neg hstart, hlast, ho, sung_chars, hnil, houtput]
      simp
    · refine ⟨hbuf.trans h.mainBuffer, fun q => by rw [hb, hbuffer], ?_,
        fun hs => absurd (hmain ▸ hs) hstart⟩
      rw [hmain, if_neg hstart, hlast, ho, sung_chars, houtput, h.buffer]
      simp

/-! ## Elsewhere -/

/-- What `main` holds in its buffer. -/
def Main.kept (h : List UInt8) : Main → List UInt8
  | .start | .finished => []
  | _ => h

/-- Whether a child has written out its copy, as a number. -/
def mark (c : Child) (b : List UInt8) : ℕ := if c ≠ .unborn ∧ b = [] then 1 else 0

/-- The number of children that have written out their copies. -/
def State.flushed (s : State n) : ℕ := ∑ p, mark (s.child p) (s.buffer p)

/-- What has been written out: the characters, and a copy of the two lines for every child that has
written out anything or exited. -/
structure File (str : Sockets.InputString) (s : State n) : Prop where
  mainBuffer : s.mainBuffer = s.main.kept (header n str.bytes)
  buffer : ∀ p, s.buffer p = [] ∨
    s.buffer p = header n str.bytes ∧ s.child p ≠ .unborn ∧ (s.child p).ended = false
  output : ∃ body, Stamped (header n str.bytes) s.flushed s.chars body ∧
    s.output = body ++ if s.main = .finished then header n str.bytes ++ done else []

/-- One child goes on, with its buffer. -/
theorem flushed_update {b : List UInt8} (hchild : t.child = update s.child p c)
    (hbuffer : t.buffer = update s.buffer p b) :
    t.flushed + mark (s.child p) (s.buffer p) = s.flushed + mark c b := by
  have := Processes.sum_update (fun _ : Fin (n + 1) => fun k : Child × List UInt8 => mark k.1 k.2)
    (fun p => (s.child p, s.buffer p)) p (c, b)
  have hpair : ∀ q, update (fun p => (s.child p, s.buffer p)) p (c, b) q =
      (t.child q, t.buffer q) := by
    intro q
    rw [hchild, hbuffer]
    by_cases hq : q = p
    · subst hq
      simp
    · simp [hq]
  simp only [hpair] at this
  exact this

/-- A child writes out its buffer, if it still holds its copy. -/
theorem File.stamped {l body : List UInt8} {m : ℕ} (h : File str s)
    (hs : Stamped (header n str.bytes) m l body) (p : Fin (n + 1)) :
    Stamped (header n str.bytes) (m + if s.buffer p = [] then 0 else 1) l (body ++ s.buffer p) := by
  obtain hb | ⟨hb, -⟩ := h.buffer p
  · rw [if_pos hb, hb, List.append_nil]
    exact hs
  · rw [if_neg (by rw [hb]; exact header_ne_nil n str.bytes), hb]
    exact hs.stamp

/-- A child that has written out its buffer. -/
theorem flushed_of_flush (hp : s.child p ≠ .unborn) (hc : c ≠ .unborn)
    (hchild : t.child = update s.child p c) (hbuffer : t.buffer = update s.buffer p []) :
    t.flushed = s.flushed + if s.buffer p = [] then 0 else 1 := by
  have := flushed_update hchild hbuffer
  by_cases hb : s.buffer p = []
  · simp only [mark, hp, hb, hc, ne_eq, not_false_eq_true, and_self, if_true] at this ⊢
    omega
  · simp only [mark, hp, hb, hc, ne_eq, not_false_eq_true, and_self, and_false, if_true,
      if_false] at this ⊢
    omega

/-- A child that goes on with its buffer as it is. -/
theorem flushed_of_goto (hp : s.child p ≠ .unborn) (hc : c ≠ .unborn)
    (hchild : t.child = update s.child p c) (hbuffer : t.buffer = s.buffer) :
    t.flushed = s.flushed := by
  have := flushed_update (b := s.buffer p) hchild (by rw [hbuffer, update_eq_self])
  simp only [mark, hp, hc, ne_eq, not_false_eq_true, true_and] at this
  exact Nat.add_right_cancel this

/-- The buffers when one child goes on. -/
theorem File.buffer_update (h : File str s) {b : List UInt8}
    (hb : b = [] ∨ b = header n str.bytes ∧ c ≠ .unborn ∧ c.ended = false) (q : Fin (n + 1)) :
    update s.buffer p b q = [] ∨ update s.buffer p b q = header n str.bytes ∧
      update s.child p c q ≠ .unborn ∧ (update s.child p c q).ended = false := by
  by_cases hq : q = p
  · subst hq
    simpa using hb
  · simpa [hq] using h.buffer q

/-- While a child runs, what has been written out is what the children have written out. -/
theorem File.output_running (h : File str s) (hmanaged : Managed s) (hp : s.child p ≠ .unborn)
    (he : (s.child p).ended = false) :
    s.main ≠ .finished ∧ Stamped (header n str.bytes) s.flushed s.chars s.output := by
  have hfin : s.main ≠ .finished := fun hf => by
    have hlast := (hmanaged.running hp he).2
    rw [hf] at hlast
    exact absurd hlast (by decide)
  obtain ⟨body, hstamped, houtput⟩ := h.output
  rw [if_neg hfin, List.append_nil] at houtput
  exact ⟨hfin, houtput ▸ hstamped⟩

/-- A running child goes on and writes nothing out. -/
theorem File.goto (h : File str s) (hmanaged : Managed s) (hp : s.child p ≠ .unborn)
    (he : (s.child p).ended = false) (hc : c ≠ .unborn ∧ c.ended = false)
    (hmain : t.main = s.main ∧ t.mainBuffer = s.mainBuffer)
    (hchild : t.child = update s.child p c) (hbuffer : t.buffer = s.buffer)
    (hprinted : t.chars = s.chars) (houtput : t.output = s.output) : File str t := by
  obtain ⟨hfin, hstamped⟩ := h.output_running hmanaged hp he
  refine ⟨by rw [hmain.1, hmain.2, h.mainBuffer], fun q => ?_, t.output, ?_, ?_⟩
  · have hq := h.buffer_update (p := p) ((h.buffer p).imp_right fun hb => ⟨hb.1, hc⟩) q
    rwa [update_eq_self, ← hbuffer, ← hchild] at hq
  · rw [flushed_of_goto hp hc.1 hchild hbuffer, hprinted, houtput]
    exact hstamped
  · rw [hmain.1, if_neg hfin, List.append_nil]

/-- A running child writes out its buffer, with at most one more character. -/
theorem File.flush (h : File str s) (hmanaged : Managed s) (hp : s.child p ≠ .unborn)
    (he : (s.child p).ended = false) (hc : c ≠ .unborn) {l : List UInt8}
    (hl : l = [] ∨ ∃ x, l = [x]) (hmain : t.main = s.main ∧ t.mainBuffer = s.mainBuffer)
    (hchild : t.child = update s.child p c) (hbuffer : t.buffer = update s.buffer p [])
    (hprinted : t.chars = s.chars ++ l) (houtput : t.output = s.output ++ s.buffer p ++ l) :
    File str t := by
  obtain ⟨hfin, hstamped⟩ := h.output_running hmanaged hp he
  refine ⟨by rw [hmain.1, hmain.2, h.mainBuffer], fun q => ?_, t.output, ?_, ?_⟩
  · rw [hbuffer, hchild]
    exact h.buffer_update (Or.inl rfl) q
  · have hflush := h.stamped hstamped p
    rw [flushed_of_flush hp hc hchild hbuffer, hprinted, houtput]
    obtain rfl | ⟨x, rfl⟩ := hl
    · rw [List.append_nil, List.append_nil]
      exact hflush
    · exact hflush.char x
  · rw [hmain.1, if_neg hfin, List.append_nil]

/-- A new child starts with a copy of the two lines. -/
theorem File.fork (h : File str s) (hmanaged : Managed s) (hm : s.main = .launching p) :
    File str { s.goto p .exchanging with
      main := .launching (p + 1), buffer := update s.buffer p s.mainBuffer } := by
  have hmain := hmanaged.main
  have hbuf := h.mainBuffer
  obtain ⟨body, hstamped, houtput⟩ := h.output
  rw [hm] at hmain hbuf
  have hunborn : s.child p = .unborn := hmain p le_rfl
  have hne : s.mainBuffer ≠ [] := by
    rw [hbuf]
    exact header_ne_nil n str.bytes
  refine ⟨hbuf, h.buffer_update (Or.inr ⟨hbuf, by simp, rfl⟩), body, ?_, ?_⟩
  · have hflushed := flushed_update (s := s) (t := { s.goto p .exchanging with
      main := .launching (p + 1), buffer := update s.buffer p s.mainBuffer }) rfl rfl
    simp only [mark, hunborn, hne, ne_eq, not_true_eq_false, false_and, and_false, if_false,
      Nat.add_zero] at hflushed
    rw [hflushed]
    exact hstamped
  · simpa [hm, State.goto] using houtput

theorem step_file (hmanaged : Managed s) (h : File str s)
    (hm : Moves qsort system false str s t) : File str t := by
  have hbuf := h.mainBuffer
  obtain ⟨body, hstamped, houtput⟩ := h.output
  cases hm with
  | begin hm =>
    rw [hm] at hbuf
    refine ⟨by rw [put_file, hbuf]; rfl, h.buffer, body, hstamped, ?_⟩
    simpa [put_file, hm] using houtput
  | fork hm => exact h.fork hmanaged hm
  | forkFails hm | launched hm | reap hm | childless hm =>
    rw [hm] at hbuf
    exact ⟨hbuf, h.buffer, body, hstamped, by simpa [hm] using houtput⟩
  | finish hm =>
    rw [hm] at hbuf
    have hheader : s.mainBuffer = header n str.bytes := hbuf
    refine ⟨rfl, h.buffer, body, hstamped, ?_⟩
    simp only [hm, reduceCtorEq, if_false, List.append_nil] at houtput
    simp [houtput, hheader]
  | exchange => exact ⟨hbuf, h.buffer, body, hstamped, houtput⟩
  | @serverFails p hc he =>
    exact h.flush hmanaged (c := .failed) (by simp [hc]) (by rw [hc]; rfl) (by simp) (Or.inl rfl)
      ⟨rfl, rfl⟩ rfl rfl (List.append_nil _).symm (List.append_nil _).symm
  | @enter p hc he =>
    exact h.goto hmanaged (by simp [hc]) (by rw [hc]; rfl) ⟨by simp, rfl⟩ ⟨rfl, rfl⟩ rfl rfl rfl rfl
  | @sing p r ok d v hc hr hv =>
    obtain ⟨hborn, hrun⟩ := running_of_singing hc hv
    obtain ⟨hchild, hmain, -⟩ := sung_child s p r v
    obtain ⟨hmb, ⟨hnil, hex, hb, ho⟩ | ⟨-, hb, ho⟩⟩ := sung_output s p r v
    · have hgoes : (Child.singing (v.control r)).ended = false := by
        cases hv' : v.control r with
        | exited => exact absurd hv' hex
        | _ => rfl
      exact h.goto hmanaged hborn hrun ⟨by simp, hgoes⟩ ⟨hmain, hmb⟩ hchild hb
        (by rw [sung_chars, hnil, List.append_nil]) ho
    · exact h.flush hmanaged hborn hrun (by simp) ((printed_of_step hv).imp_right fun hx =>
        hx.imp fun _ => And.left) ⟨hmain, hmb⟩ hchild hb (sung_chars ..) ho

/-! ## A run that has finished -/

end SemOS.Bogatyri.Sockets2
