import SemOS.Wc.ProgramMoves

/-!
# The invariant of the program that counts

After `fork` the child has its two streams and `main` its two read ends; a pipe is closed in `main`
only after all writers have gone, and an event is handled only where `read` does not block
(`Underway`). Every step keeps this (`step_underway`).
-/

namespace SemOS.Wc.Program

open Function

variable {init : StartTable} {K : ℕ} {succeeds : Bool} {stream toWrite : Pipe → List UInt8}
  {s t : State} {p : PipeFds} {fds : Table OpenFile} {q r : Pipe} {events : List Pipe} {n : ℕ}
  {c : Child}

/-- What the child is, where it is. -/
def Child.Sound (init : StartTable) (toWrite : Pipe → List UInt8) : Child → Prop
  | .unborn | .exited => ∀ q, toWrite q = []
  | .forked p fds => Piped init p fds
  | .running fds => Wired toWrite fds

/-- `main` has the read ends, at different numbers. -/
structure Reading (p : PipeFds) (fds : Table OpenFile) : Prop extends Plumbed p fds where
  injective : Injective fun q => (p q).1

/-- What `main` is, where it is. -/
def Main.Sound (init : StartTable) (s : State) : Main → Prop
  | .start => False
  | .forked p => Piped init p s.fds
  | .waiting p => Reading p s.fds ∧ 0 < s.activeFds
  | .handling p events => Reading p s.fds ∧ events ≠ [] ∧ events.Nodup ∧ ∀ q ∈ events, s.Ready p q
  | .reaping | .finished => s.activeFds ≤ 0

/-- The invariant after `fork`. -/
structure Underway (init : StartTable) (s : State) : Prop where
  child : s.child.Sound init s.toWrite
  main : s.main.Sound init s
  closed : ∀ q, ¬ s.fds.Names (.readEnd q) → ¬ s.child.Holds (.writeEnd q)

theorem Underway.sound_of_main (h : Underway init s) {m : Main} (hm : s.main = m) :
    m.Sound init s :=
  hm ▸ h.main

theorem Underway.sound_of_child (h : Underway init s) (hc : s.child = c) :
    c.Sound init s.toWrite :=
  hc ▸ h.child

theorem Underway.main_ne_start (h : Underway init s) : s.main ≠ .start :=
  fun hm => h.sound_of_main hm

/-- A child that has a stream left to write to has its pipe open. -/
theorem Child.Sound.holds (h : c.Sound init toWrite) (hq : toWrite q ≠ []) :
    c.Holds (.writeEnd q) := by
  cases c with
  | unborn => exact absurd (h q) hq
  | forked p fds => exact Table.names_iff.2 ⟨_, Piped.lookup_write h q⟩
  | running fds => exact Table.names_iff.2 ⟨_, Wired.stream h q hq⟩
  | exited => exact absurd (h q) hq

theorem Plumbed.not_names (h : Plumbed p fds) (q : Pipe) : ¬ fds.Names (.writeEnd q) := by
  rw [Table.names_iff]
  rintro ⟨i, hi⟩
  exact h.writes i q hi

/-- What `main` has open of a pipe is its read end, at its number. -/
theorem Plumbed.names_iff (h : Plumbed p fds) :
    fds.Names (.readEnd q) ↔ fds.lookup (p q).1 ≠ none := by
  rw [Table.names_iff]
  constructor
  · rintro ⟨i, hi⟩
    rw [← h.reads i q hi, hi]
    simp
  · intro hopen
    obtain ⟨file, hfile⟩ := Option.ne_none_iff_exists'.1 hopen
    exact ⟨(p q).1, by rw [hfile, h.own q file hfile]⟩

/-- After the end of a pipe. -/
theorem Reading.close (h : Reading p fds) (q : Pipe) : Reading p (fds.close (p q).1) := by
  refine ⟨⟨fun i r hi => ?_, fun r file hi => ?_, fun i r hi => ?_⟩, h.injective⟩
  · rw [Table.lookup_close] at hi
    split_ifs at hi
    exact h.reads i r hi
  · rw [Table.lookup_close] at hi
    split_ifs at hi
    exact h.own r file hi
  · rw [Table.lookup_close] at hi
    split_ifs at hi
    exact h.writes i r hi

theorem Reading.names_close (h : Reading p fds) :
    (fds.close (p q).1).Names (.readEnd r) ↔ r ≠ q ∧ fds.Names (.readEnd r) := by
  rw [(h.close q).names_iff, h.names_iff, Table.lookup_close]
  by_cases hr : r = q
  · rw [hr, if_pos rfl]
    simp
  · rw [if_neg fun heq => hr (h.injective heq)]
    simp [hr]

/-- A child that has written a piece of a stream. -/
theorem Wired.drop (h : Wired toWrite fds) (n : ℕ) :
    Wired (update toWrite q ((toWrite q).drop n)) fds := by
  refine ⟨fun r hr => ?_, h.reads, h.writes⟩
  apply h.stream
  by_cases heq : r = q
  · rw [heq, update_self] at hr
    rw [heq]
    rintro hnil
    rw [hnil, List.drop_nil] at hr
    exact hr rfl
  · rwa [update_of_ne heq] at hr

/-- A child that has closed a stream it is done with. -/
theorem Wired.close (h : Wired toWrite fds) (hq : toWrite q = []) :
    Wired toWrite (fds.close (number q)) := by
  refine ⟨fun r hr => ?_, fun i r hi => ?_, fun i r hi => ?_⟩
  · have hne : number r ≠ number q := by
      intro heq
      have : r = q := by
        cases r <;> cases q <;> first | rfl | cases heq
      exact hr (this ▸ hq)
    rw [Table.lookup_close, if_neg hne]
    exact h.stream r hr
  · rw [Table.lookup_close] at hi
    split_ifs at hi
    exact h.reads i r hi
  · rw [Table.lookup_close] at hi
    split_ifs at hi
    exact h.writes i r hi

/-- An event stays ready while its pipe is open in `main`, loses no byte and gets no writer. -/
theorem State.Ready.mono (h : s.Ready p q) (hopen : t.fds.lookup (p q).1 ≠ none)
    (hpipe : s.pipe q ≠ [] → t.pipe q ≠ [])
    (hw : t.IsOpen (.writeEnd q) → s.IsOpen (.writeEnd q)) : t.Ready p q :=
  ⟨hopen, h.2.imp hpipe (mt hw)⟩

theorem loopHead_underway (hchild : s.child.Sound init s.toWrite)
    (hclosed : ∀ q, ¬ s.fds.Names (.readEnd q) → ¬ s.child.Holds (.writeEnd q))
    (hreading : Reading p s.fds) : Underway init (loopHead p s) := by
  rw [loopHead]
  split_ifs with hactive
  · exact ⟨hchild, ⟨hreading, hactive⟩, hclosed⟩
  · exact ⟨hchild, not_lt.1 hactive, hclosed⟩

theorem nextEvent_underway (hchild : s.child.Sound init s.toWrite)
    (hclosed : ∀ q, ¬ s.fds.Names (.readEnd q) → ¬ s.child.Holds (.writeEnd q))
    (hreading : Reading p s.fds) (hnodup : events.Nodup) (hready : ∀ q ∈ events, s.Ready p q) :
    Underway init (nextEvent p events s) := by
  rw [nextEvent]
  split_ifs with hnil
  · exact loopHead_underway hchild hclosed hreading
  · exact ⟨hchild, ⟨hreading, hnil, hnodup, hready⟩, hclosed⟩

/-- A move of the child, under which no pipe loses a byte or gets a writer. -/
theorem Underway.of_child (h : Underway init s) (hmain : t.main = s.main) (hfds : t.fds = s.fds)
    (hactive : t.activeFds = s.activeFds)
    (hpipe : ∀ q, s.pipe q ≠ [] → t.pipe q ≠ []) (hchild : t.child.Sound init t.toWrite)
    (hholds : ∀ q, t.child.Holds (.writeEnd q) → s.child.Holds (.writeEnd q)) :
    Underway init t := by
  refine ⟨hchild, ?_, fun q hq => mt (hholds q) (h.closed q (hfds ▸ hq))⟩
  rw [hmain]
  cases hcontrol : s.main with
  | start => exact absurd hcontrol h.main_ne_start
  | handling p events =>
    obtain ⟨hreading, hne, hnodup, hready⟩ := h.sound_of_main hcontrol
    refine ⟨hfds ▸ hreading, hne, hnodup, fun q hq => ?_⟩
    refine (hready q hq).mono (hfds ▸ (hready q hq).1) (hpipe q) fun hopen => ?_
    rw [State.IsOpen, hfds] at hopen
    exact hopen.imp_right (hholds q)
  | _ =>
    have hm := h.sound_of_main hcontrol
    simpa only [Main.Sound, hfds, hactive] using hm

/-- A stream that the child has still to write to is its own pipe. -/
theorem Underway.lookup_stream (h : Underway init s) (hc : s.child = .running fds) (hn : 0 < n)
    (hle : n ≤ (s.toWrite q).length) : fds.lookup (number q) = some (.writeEnd q) :=
  Wired.stream (h.sound_of_child hc) q (List.ne_nil_of_length_pos (by omega))

/-- The child leaves no byte behind on its way out. -/
theorem Underway.no_sigpipe (h : Underway init s) (hc : s.child = .running fds)
    (hr : fds.lookup (number q) = some (.writeEnd r)) : s.IsOpen (.readEnd r) := by
  by_contra hopen
  rw [State.IsOpen, not_or] at hopen
  refine h.closed r hopen.1 ?_
  rw [hc]
  exact Table.names_iff.2 ⟨_, hr⟩

theorem step_underway (h : Underway init s) (hm : Moves K succeeds s t) : Underway init t := by
  have hchild := h.child
  cases hm with
  | fork hm => exact absurd hm h.main_ne_start
  | @plumb p hm =>
    have hpiped : Piped init p s.fds := h.sound_of_main hm
    obtain ⟨hplumbed, hread⟩ := plumbed_parentTable hpiped
    refine loopHead_underway hchild (fun q hq => ?_)
      ⟨hplumbed, fun q r heq => hpiped.fst_injective heq⟩
    exact absurd (Table.names_iff.2 ⟨_, hread q⟩) hq
  | @poll p events hm hne hnodup hready =>
    exact ⟨hchild, ⟨(h.sound_of_main hm).1, hne, hnodup, hready⟩, h.closed⟩
  | @ended p q events hm hpipe hw =>
    obtain ⟨hreading, -, hnodup, hready⟩ := h.sound_of_main hm
    rw [List.nodup_cons] at hnodup
    refine nextEvent_underway hchild (fun r hr => ?_) (hreading.close q) hnodup.2 fun r hr => ?_
    · rw [hreading.names_close, not_and_or, not_not] at hr
      obtain rfl | hr := hr
      · exact fun hholds => hw (.inr hholds)
      · exact h.closed r hr
    · have hrq : r ≠ q := by
        rintro rfl
        exact hnodup.1 hr
      have hrready := hready r (List.mem_cons_of_mem q hr)
      refine hrready.mono ?_ id (Or.imp_left Table.Names.of_close)
      rw [← (hreading.close q).names_iff, hreading.names_close, hreading.names_iff]
      exact ⟨hrq, hrready.1⟩
  | @count p q events n hm hn hsize hle =>
    obtain ⟨hreading, -, hnodup, hready⟩ := h.sound_of_main hm
    rw [List.nodup_cons] at hnodup
    refine nextEvent_underway hchild h.closed hreading hnodup.2 fun r hr => ?_
    have hrq : r ≠ q := by
      rintro rfl
      exact hnodup.1 hr
    have hrready := hready r (List.mem_cons_of_mem q hr)
    have hpipe : update s.pipe q ((s.pipe q).drop n) r = s.pipe r := update_of_ne hrq _ _
    exact hrready.mono hrready.1 (fun hne hnil => hne (hpipe.symm.trans hnil)) id
  | reap hm hc => exact ⟨hchild, h.sound_of_main hm, h.closed⟩
  | @exec p fds hc =>
    have hpiped : Piped init p fds := h.sound_of_child hc
    refine h.of_child rfl rfl rfl (fun _ => id) (wired_childTable hpiped _) fun q _ => ?_
    rw [hc]
    exact Table.names_iff.2 ⟨_, hpiped.lookup_write q⟩
  | @write fds q r n hc hn hle hr hroom =>
    have hpipe : ∀ r', s.pipe r' ≠ [] →
        update s.pipe r (s.pipe r ++ (s.toWrite q).take n) r' ≠ [] := by
      intro r' hr'
      by_cases heq : r' = r
      · rw [heq, update_self]
        exact List.append_ne_nil_of_left_ne_nil (heq ▸ hr') _
      · rwa [update_of_ne heq]
    refine h.of_child rfl rfl rfl hpipe ?_ fun _ => id
    rw [hc]
    exact Wired.drop (h.sound_of_child hc) n
  | broken hc hr hopen => exact absurd (h.no_sigpipe hc hr) hopen
  | @elsewhere fds q n hc hn hle hr => exact absurd (h.lookup_stream hc hn hle) (hr q)
  | @close fds q hc hq hopen =>
    have hwired : Wired s.toWrite fds := h.sound_of_child hc
    refine h.of_child rfl rfl rfl (fun _ => id) (hwired.close hq) fun r hr => ?_
    rw [hc]
    exact Table.Names.of_close hr
  | @exit fds hc hq =>
    refine h.of_child rfl rfl rfl (fun _ => id) hq fun r hr => ?_
    exact hr.elim

/-- After `fork`. -/
def launched (init : StartTable) (succeeds : Bool) (toWrite : Pipe → List UInt8) : State :=
  let pipes := makePipes init.fds
  { initial init toWrite with
    main := .forked pipes.1
    fds := pipes.2
    child := if succeeds then .forked pipes.1 pipes.2 else .unborn }

/-- Nothing else is possible at the start. -/
theorem eq_launched (hm : Moves K succeeds (initial init toWrite) t) :
    t = launched init succeeds toWrite := by
  cases hm with
  | fork hm => rfl
  | plumb hm => cases hm
  | poll hm => cases hm
  | ended hm => cases hm
  | count hm => cases hm
  | reap hm => cases hm
  | exec hc => cases hc
  | write hc => cases hc
  | broken hc => cases hc
  | elsewhere hc => cases hc
  | close hc => cases hc
  | exit hc => cases hc

theorem launched_underway (init : StartTable) (succeeds : Bool) (stream : Pipe → List UInt8) :
    Underway init (launched init succeeds (written succeeds stream)) := by
  have hpiped := piped_makePipes init
  refine ⟨?_, hpiped, fun q hq => absurd (Table.names_iff.2 ⟨_, hpiped.lookup_read q⟩) hq⟩
  cases succeeds with
  | true => exact hpiped
  | false => exact fun q => rfl

/-- Every reachable state is the first one, or the program is underway. -/
theorem reachable_underway (hs : (machine init K succeeds stream).Reachable s) :
    s = initial init (written succeeds stream) ∨ Underway init s := by
  refine hs.invariant (I := fun s => s = initial init (written succeeds stream) ∨ Underway init s)
    (fun s h => .inl h) fun l s t h hl => .inr ?_
  have hmoves := step_moves (show step K succeeds l s = some t from hl)
  obtain rfl | hunderway := h
  · rw [eq_launched hmoves]
    exact launched_underway init succeeds stream
  · exact step_underway hunderway hmoves

end SemOS.Wc.Program
