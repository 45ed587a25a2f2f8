import SemOS.Wc.ReadLoop

/-!
# What the program prints

`main` prints lines in every call of `count` and the counters at the end. `Recorded` keeps the calls
of a run, one for each `read`, in their order: with them everything is known that has been printed.

* **`wc_prints`**: what is printed in the end are the lines of these calls and then the counters;
  the calls read both streams as a whole, and of the counters the bytes and the lines are those of
  the streams, and the words not less.
-/

namespace SemOS.Wc.Program

open Function

variable {init : StartTable} {K : ℕ} {succeeds : Bool} {stream : Pipe → List UInt8} {s t : State}
  {p : PipeFds} {q : Pipe} {events : List Pipe} {b rest : List UInt8}

/-- A call of `count`: the pipe, and the bytes that its `read` returns. -/
structure Read where
  fd : Pipe
  buffer : List UInt8

variable {calls : List Read}

/-- The counters after a call. -/
def Read.counts (info : Pipe → WcCtx) (r : Read) : Pipe → WcCtx :=
  update info r.fd (count (some r.buffer) (info r.fd)).2

/-- What the calls print one after another, from some counters on. -/
def tracedFrom (info : Pipe → WcCtx) : List Read → List UInt8
  | [] => []
  | r :: calls => countPrints (some r.buffer) (info r.fd) ++ tracedFrom (r.counts info) calls

/-- The counters of `main` after the calls. -/
def counted (calls : List Read) : Pipe → WcCtx := calls.foldl Read.counts fun _ => ⟨0, 0, 0⟩

/-- What the calls print. -/
def traced (calls : List Read) : List UInt8 := tracedFrom (fun _ => ⟨0, 0, 0⟩) calls

/-- What the calls have read of a stream. -/
def bytesRead (calls : List Read) (q : Pipe) : List UInt8 :=
  (calls.filter (·.fd = q)).flatMap Read.buffer

theorem tracedFrom_concat (info : Pipe → WcCtx) (calls : List Read) (r : Read) :
    tracedFrom info (calls ++ [r]) = tracedFrom info calls ++
      countPrints (some r.buffer) (calls.foldl Read.counts info r.fd) := by
  induction calls generalizing info with
  | nil => exact List.append_nil _
  | cons r' calls ih =>
    rw [List.cons_append, tracedFrom, tracedFrom, ih, List.append_assoc, List.foldl_cons]

theorem counted_concat (calls : List Read) (r : Read) :
    counted (calls ++ [r]) = r.counts (counted calls) := List.foldl_concat ..

theorem traced_concat (calls : List Read) (r : Read) : traced (calls ++ [r]) =
    traced calls ++ countPrints (some r.buffer) (counted calls r.fd) := tracedFrom_concat _ calls r

theorem bytesRead_concat (calls : List Read) (r : Read) (q : Pipe) :
    bytesRead (calls ++ [r]) q = bytesRead calls q ++ if r.fd = q then r.buffer else [] := by
  rw [bytesRead, List.filter_append, List.flatMap_append, ← bytesRead]
  by_cases h : r.fd = q <;> simp [h]

/-- The counters that `main` has printed, where it has. -/
def Main.dump : Main → (Pipe → WcCtx) → List UInt8
  | .reaping, info | .finished, info => dumped info
  | .start, _ | .forked _, _ | .waiting _, _ | .handling _ _, _ => []

/-- The calls up to now. -/
structure Recorded (stream : Pipe → List UInt8) (s : State) (calls : List Read) : Prop where
  size : ∀ r ∈ calls, r.buffer.length ≤ bufferSize
  info : s.info = counted calls
  output : s.output = traced calls ++ s.main.dump s.info
  bytes : ∀ q, bytesRead calls q ++ s.pipe q ++ s.toWrite q = stream q

/-- A step without a call. -/
theorem Recorded.quiet (h : Recorded stream s calls) (hinfo : t.info = s.info)
    (houtput : t.output = s.output) (hdump : t.main.dump s.info = s.main.dump s.info)
    (hbytes : ∀ q, t.pipe q ++ t.toWrite q = s.pipe q ++ s.toWrite q) :
    Recorded stream t calls := by
  refine ⟨h.size, hinfo.trans h.info, ?_, fun q => ?_⟩
  · rw [houtput, hinfo, hdump, h.output]
  · rw [List.append_assoc, hbytes, ← List.append_assoc, h.bytes]

/-- A call. -/
theorem Recorded.call (h : Recorded stream s calls) (hmain : t.main = s.main)
    (hdump : ∀ info, s.main.dump info = []) (hb : b.length ≤ bufferSize)
    (hpipe : s.pipe q = b ++ rest) (hpipe' : t.pipe = update s.pipe q rest)
    (hwrite : t.toWrite = s.toWrite)
    (hinfo : t.info = update s.info q (count (some b) (s.info q)).2)
    (houtput : t.output = s.output ++ countPrints (some b) (s.info q)) :
    Recorded stream t (calls ++ [⟨q, b⟩]) := by
  refine ⟨fun r hr => ?_, ?_, ?_, fun r => ?_⟩
  · obtain hr | hr := List.mem_append.1 hr
    · exact h.size r hr
    · rw [List.mem_singleton.1 hr]
      exact hb
  · rw [hinfo, counted_concat, h.info]
    rfl
  · rw [houtput, hmain, hdump, h.output, hdump, traced_concat, h.info]
    simp only [List.append_nil]
  · rw [bytesRead_concat, hpipe', hwrite, ← h.bytes r]
    by_cases hr : q = r
    · subst hr
      rw [if_pos rfl, update_self, hpipe]
      simp only [List.append_assoc]
    · rw [if_neg hr, update_of_ne (Ne.symm hr), List.append_nil]

theorem Recorded.loopHead (h : Recorded stream s calls) (hdump : ∀ info, s.main.dump info = []) :
    Recorded stream (loopHead p s) calls := by
  rw [Program.loopHead]
  split_ifs
  · exact h.quiet rfl rfl (by rw [hdump]; rfl) fun _ => rfl
  · refine ⟨h.size, h.info, ?_, h.bytes⟩
    rw [h.output, hdump, List.append_nil]
    rfl

theorem Recorded.nextEvent (h : Recorded stream s calls) (hdump : ∀ info, s.main.dump info = []) :
    Recorded stream (nextEvent p events s) calls := by
  rw [Program.nextEvent]
  split_ifs
  · exact h.loopHead hdump
  · exact h.quiet rfl rfl (by rw [hdump]; rfl) fun _ => rfl

/-- The first step, `fork`. -/
theorem launched_recorded (init : StartTable) (succeeds : Bool) (stream : Pipe → List UInt8) :
    Recorded stream (launched init succeeds stream) [] :=
  ⟨by simp, rfl, rfl, fun _ => rfl⟩

/-- **Every step is a call of `count` or leaves the calls as they are.** -/
theorem step_recorded (h : Underway init s) (hs : Recorded stream s calls)
    (hm : Moves K succeeds s t) : ∃ calls', Recorded stream t calls' := by
  cases hm with
  | fork hm => exact absurd hm h.main_ne_start
  | @plumb p hm =>
    have hdump : ∀ info, s.main.dump info = [] := fun info => by rw [hm]; rfl
    have hfds : Recorded stream { s with fds := parentTable p s.fds } calls :=
      hs.quiet rfl rfl rfl fun _ => rfl
    exact ⟨calls, hfds.loopHead hdump⟩
  | @ended p q events hm hpipe hw =>
    have hdump : ∀ info, s.main.dump info = [] := fun info => by rw [hm]; rfl
    have hcount : (count (some []) (s.info q)).2 = s.info q := rfl
    have hnone : s.pipe q = [] ++ [] := hpipe
    refine ⟨_, Recorded.nextEvent (hs.call rfl hdump (Nat.zero_le _) hnone ?_ rfl ?_ rfl) hdump⟩
    · rw [← hpipe, update_eq_self]
    · rw [hcount, update_eq_self]
  | @count p q events n hm hn hsize hle =>
    have hdump : ∀ info, s.main.dump info = [] := fun info => by rw [hm]; rfl
    have hlen : ((s.pipe q).take n).length ≤ bufferSize := by
      rw [List.length_take]
      omega
    refine ⟨_, Recorded.nextEvent (hs.call rfl hdump hlen (List.take_append_drop n _).symm rfl rfl
      ?_ rfl) hdump⟩
    rw [count_eq]
  | @write fds q r n hc hn hle hr hroom =>
    obtain rfl : q = r := by
      rw [h.lookup_stream hc hn hle] at hr
      cases hr
      rfl
    refine ⟨calls, hs.quiet rfl rfl rfl fun q' => ?_⟩
    by_cases hq : q' = q
    · subst hq
      simp only [update_self, List.append_assoc, List.take_append_drop]
    · simp only [update_of_ne hq]
  | broken hc hr hopen => exact absurd (h.no_sigpipe hc hr) hopen
  | @elsewhere fds q n hc hn hle hr => exact absurd (h.lookup_stream hc hn hle) (hr q)
  | poll hm => exact ⟨calls, hs.quiet rfl rfl (by rw [hm]; rfl) fun _ => rfl⟩
  | reap hm => exact ⟨calls, hs.quiet rfl rfl (by rw [hm]; rfl) fun _ => rfl⟩
  | exec | close | exit => exact ⟨calls, hs.quiet rfl rfl rfl fun _ => rfl⟩

/-- Every reachable state has its calls. -/
theorem reachable_recorded (hs : (machine init K succeeds stream).Reachable s) :
    ∃ calls, Recorded (written succeeds stream) s calls := by
  refine (hs.invariant (I := fun s => (machine init K succeeds stream).Reachable s ∧
    ∃ calls, Recorded (written succeeds stream) s calls) (fun s h => ⟨.of_init h, ?_⟩)
    fun l s t h hl => ⟨h.1.act hl, ?_⟩).2
  · rw [show s = initial init (written succeeds stream) from h]
    exact ⟨[], by simp, rfl, rfl, fun _ => rfl⟩
  · have hmoves := step_moves (show step K succeeds l s = some t from hl)
    obtain rfl | hunderway := reachable_underway h.1
    · rw [eq_launched hmoves]
      exact ⟨[], launched_recorded init succeeds _⟩
    · obtain ⟨calls, hcalls⟩ := h.2
      exact step_recorded hunderway hcalls hmoves

/-- **What the program prints.** Whatever the child writes and in whichever pieces it arrives: when
`main` has come to its end, it has printed the lines of its calls of `count` and then the counters.
The calls have read, in pieces of at most `bufferSize` bytes, the bytes of each stream; the numbers
of bytes and of lines are those of the stream, and the number of words is at least its. -/
theorem wc_prints (hs : (machine init K succeeds stream).Reachable s) (hm : s.main = .finished) :
    ∃ calls : List Read, s.output = traced calls ++ dumped (counted calls) ∧
      (∀ r ∈ calls, r.buffer.length ≤ bufferSize) ∧ ∀ q,
      bytesRead calls q = written succeeds stream q ∧
      (counted calls q).bytes = (written succeeds stream q).length ∧
      (counted calls q).lines = (written succeeds stream q).count 10 ∧
      runs nonspace (written succeeds stream q) ≤ (counted calls q).words := by
  obtain ⟨calls, hcalls⟩ := reachable_recorded hs
  have hend : s.activeFds ≤ 0 := by
    obtain rfl | h := reachable_underway hs
    · cases hm
    · exact h.sound_of_main hm
  refine ⟨calls, ?_, hcalls.size, fun q => ?_⟩
  · rw [hcalls.output, hm, hcalls.info]
    rfl
  · obtain ⟨hempty, hcounts⟩ := counted_of_ended hs hend q
    have hbytes := hcalls.bytes q
    rw [List.append_assoc, hempty, List.append_nil] at hbytes
    rw [← hcalls.info]
    exact ⟨hbytes, hcounts⟩

end SemOS.Wc.Program
