import SemOS.Shell.Children
import SemOS.Shell.Wiring

/-!
# The stages of a pipeline

`Stage` says how far a pipeline has come. The shell has forked the first commands of the line and
holds the read end of the last pipe; all children but the last have exited, and the last one is
waited for. That one reads from where the writers are gone, and what it has written to its pipe is
still there, since the shell forks the reader of the pipe after it has exited: so it exits with its
whole output in the pipe.

`step_stage` is the step lemma, with the children's steps in `Stage.child` and the fork in
`Stage.fork`; `reachable_stage` is the run lemma.
-/

namespace SemOS.Shell

variable {init : StartTable} {cs : List Command} {K : ℕ} {output : ℕ → ℕ} {s t : System}

/-- The descriptors that a child will have at its `execvp`. -/
def Process.table (k : Process) : Table OpenFile :=
  match k.activity with
  | .starting notLast fildes inputFd => childBranch notLast fildes inputFd k.fds
  | _ => k.fds

/-- The shell as it will be when it waits for the child that it has forked. -/
def System.settled (s : System) : State :=
  match s.control with
  | .forked notLast fildes _ _ => parentBranch notLast fildes s.shell
  | _ => s.shell

/-- The expressions that the shell has before it. -/
def Control.next : Control → CommandLine
  | .walking next => next
  | .forked _ _ _ next => next
  | .waiting _ next => next

/-- The child that the shell waits for, or is about to. -/
def Control.awaits : Control → Option ℕ
  | .walking _ => none
  | .forked _ _ pid _ => some pid
  | .waiting pid _ => some pid

theorem names_of_settled {file : OpenFile} (h : s.settled.fds.Names file) :
    s.shell.fds.Names file := by
  rw [System.settled] at h
  split at h
  · exact names_of_parentBranch h
  · exact h

/-- The expressions of the commands `cs` that are left after `j` of them. -/
def Remaining (cs : List Command) (j : ℕ) (next : CommandLine) : Prop :=
  next = alternate (cs.drop j) ∨ (j < cs.length ∧ next = .pipe :: alternate (cs.drop j))

/-- What the shell holds after `j` of `n` commands: the read end of the last pipe. -/
structure Holding (init : StartTable) (n j : ℕ) (st : State) : Prop where
  first : j = 0 → Fresh init st
  later : 0 < j → j < n → Carries init (j - 1) st
  pipes : j < n → st.pipes = j

/-- A child that has not exited, the last of `i + 1`. -/
structure Live (init : StartTable) (n : ℕ) (output : ℕ → ℕ) (s : System) (i : ℕ) (k : Process) :
    Prop where
  awaited : s.control.awaits = some i
  stdin : k.table.lookup 0 = some (.inherited init.stdin) ∨
    ∃ p, p + 1 = i ∧ k.table.lookup 0 = some (.readEnd p) ∧ ¬ s.IsOpen (.writeEnd p)
  stdout : i + 1 = n ∧ k.table.lookup 1 = some (.inherited init.stdout) ∨
    i + 1 < n ∧ k.table.lookup 1 = some (.writeEnd i) ∧ s.contents i + k.unwritten = output i
  writing : k.activity = .writing → 0 < k.unwritten

/-- **The invariant of a pipeline.** -/
structure Stage (init : StartTable) (cs : List Command) (K : ℕ) (output : ℕ → ℕ) (s : System) :
    Prop where
  next : Remaining cs s.children.length s.control.next
  shell : Holding init cs.length s.children.length s.settled
  count : s.children.length ≤ cs.length
  awaited : ∀ i, s.control.awaits = some i → i + 1 = s.children.length
  empty : ∀ p, s.children.length ≤ p → s.contents p = 0
  bound : ∀ p, s.contents p ≤ K
  live : ∀ i k, s.children[i]? = some k → k.activity ≠ .exited →
    Live init cs.length output s i k
  exited : ∀ i k, s.children[i]? = some k → k.activity = .exited → i + 1 < cs.length →
    output i ≤ K

theorem Remaining.le {j : ℕ} {next : CommandLine} (h : Remaining cs j next) (hn : next ≠ []) :
    j < cs.length := by
  rcases h with rfl | ⟨h, -⟩
  · by_contra hj
    rw [List.drop_eq_nil_of_le (not_lt.1 hj)] at hn
    exact hn rfl
  · exact h

/-- While the shell walks, no child lives. -/
theorem Stage.all_exited (hs : Stage init cs K output s) (ha : s.control.awaits = none) :
    ∀ k ∈ s.children, k.activity = .exited := by
  intro k hk
  by_contra hne
  obtain ⟨i, hi, rfl⟩ := List.getElem_of_mem hk
  have := (hs.live i _ (List.getElem?_eq_getElem hi) hne).awaited
  rw [ha] at this
  cases this

/-! ## Steps of a child -/

/-- A child before a pipe writes to a pipe that the shell keeps open for the next one. -/
theorem Stage.reader_open (hs : Stage init cs K output s) {i : ℕ} (hi : i + 1 = s.children.length)
    (hn : i + 1 < cs.length) : s.IsOpen (.readEnd i) := by
  have hc := (hs.shell.later (by omega) (by omega)).1
  refine Or.inl (names_of_settled ?_)
  rw [hc, show s.children.length - 1 = i by omega]
  exact Table.names_put_self _ _

/-- The child `i` changes to `k'`, and the pipes and files with it. -/
theorem Stage.setChild (hs : Stage init cs K output s) {i : ℕ} {k k' : Process}
    {contents unread : ℕ → ℕ} (hk : s.children[i]? = some k) (hne : k.activity ≠ .exited)
    (hempty : ∀ p, s.children.length ≤ p → contents p = 0) (hbound : ∀ p, contents p ≤ K)
    (hnames : ∀ file, k'.fds.Names file → k.fds.Names file)
    (hlive : k'.activity ≠ .exited → k'.table = k.table ∧
      (i + 1 < cs.length → contents i + k'.unwritten = s.contents i + k.unwritten) ∧
      (k'.activity = .writing → 0 < k'.unwritten))
    (hexit : k'.activity = .exited → i + 1 < cs.length → output i ≤ K) :
    Stage init cs K output ⟨s.shell, s.control, s.children.set i k', contents, unread⟩ := by
  have hl := hs.live i k hk hne
  have hopen : ∀ file, (System.mk s.shell s.control (s.children.set i k') contents unread).IsOpen
      file → s.IsOpen file := by
    rintro file (h | ⟨m, hm, hme, hmf⟩)
    · exact Or.inl h
    · rcases List.mem_or_eq_of_mem_set hm with hm | rfl
      · exact Or.inr ⟨m, hm, hme, hmf⟩
      · exact Or.inr ⟨k, List.mem_of_getElem? hk, hne, hnames file hmf⟩
  have hother : ∀ j m, (s.children.set i k')[j]? = some m →
      j = i ∧ m = k' ∨ j ≠ i ∧ s.children[j]? = some m := by
    intro j m hm
    rw [List.getElem?_set] at hm
    split at hm
    · rename_i hij
      split at hm
      · exact Or.inl ⟨hij.symm, (Option.some.inj hm).symm⟩
      · cases hm
    · exact Or.inr ⟨Ne.symm ‹_›, hm⟩
  refine ⟨?_, ?_, ?_, ?_, ?_, hbound, ?_, ?_⟩
  · rw [List.length_set]
    exact hs.next
  · rw [List.length_set]
    exact hs.shell
  · rw [List.length_set]
    exact hs.count
  · rw [List.length_set]
    exact hs.awaited
  · rw [List.length_set]
    exact hempty
  · intro j m hm hme
    rcases hother j m hm with ⟨rfl, rfl⟩ | ⟨hji, hm⟩
    · obtain ⟨htable, hsum, hw⟩ := hlive hme
      refine ⟨hl.awaited, ?_, ?_, hw⟩
      · rw [htable]
        exact hl.stdin.imp_right fun ⟨p, hp, hin, hno⟩ => ⟨p, hp, hin, mt (hopen _) hno⟩
      · rw [htable]
        exact hl.stdout.imp_right fun ⟨hn, hout, h⟩ => ⟨hn, hout, (hsum hn).trans h⟩
    · have hj := (hs.live j m hm hme).awaited
      rw [hl.awaited] at hj
      exact absurd (Option.some.inj hj).symm hji
  · intro j m hm hme hn
    rcases hother j m hm with ⟨rfl, rfl⟩ | ⟨-, hm⟩
    · exact hexit hme hn
    · exact hs.exited j m hm hme hn

theorem table_eq_fds {k : Process} (h : ∀ n f fd, k.activity ≠ .starting n f fd) :
    k.table = k.fds := by
  rw [Process.table]
  split
  · exact absurd ‹_› (h _ _ _)
  · rfl

/-- A pipe that the last child reads from is the one before it, which nobody writes to. -/
theorem Live.pipe_of_stdin {n i p : ℕ} {k : Process} (hl : Live init n output s i k)
    (htable : k.table = k.fds) (hin : k.fds.lookup 0 = some (.readEnd p)) :
    p + 1 = i ∧ ¬ s.IsOpen (.writeEnd p) := by
  rw [← htable] at hin
  obtain hin' | ⟨q, hq, hin', hno⟩ := hl.stdin
  · rw [hin] at hin'
    cases hin'
  · rw [hin] at hin'
    cases hin'
    exact ⟨hq, hno⟩

/-- A file that the last child reads from is the shell's own standard input. -/
theorem Live.file_of_stdin {n i file : ℕ} {k : Process} (hl : Live init n output s i k)
    (htable : k.table = k.fds) (hin : k.fds.lookup 0 = some (.inherited file)) :
    file = init.stdin := by
  rw [← htable] at hin
  obtain hin' | ⟨q, -, hin', -⟩ := hl.stdin
  · rw [hin] at hin'
    cases hin'
    rfl
  · rw [hin] at hin'
    cases hin'

/-- A pipe that the last child writes to is the one behind it, and carries what it has written. -/
theorem Live.pipe_of_stdout {n i p : ℕ} {k : Process} (hl : Live init n output s i k)
    (htable : k.table = k.fds) (hout : k.fds.lookup 1 = some (.writeEnd p)) :
    p = i ∧ i + 1 < n ∧ s.contents i + k.unwritten = output i := by
  rw [← htable] at hout
  obtain ⟨-, hout'⟩ | ⟨hn, hout', hsum⟩ := hl.stdout
  · rw [hout] at hout'
    cases hout'
  · rw [hout] at hout'
    cases hout'
    exact ⟨rfl, hn, hsum⟩

/-- A file that the last child writes to is the standard output of the shell. -/
theorem Live.file_of_stdout {n i file : ℕ} {k : Process} (hl : Live init n output s i k)
    (htable : k.table = k.fds) (hout : k.fds.lookup 1 = some (.inherited file)) :
    file = init.stdout ∧ i + 1 = n := by
  rw [← htable] at hout
  obtain ⟨hn, hout'⟩ | ⟨-, hout', -⟩ := hl.stdout
  · rw [hout] at hout'
    cases hout'
    exact ⟨rfl, hn⟩
  · rw [hout] at hout'
    cases hout'

/-- The last child writes to a file or to a pipe. -/
theorem Live.writes {n i : ℕ} {k : Process} (hl : Live init n output s i k)
    (htable : k.table = k.fds) :
    (∃ file, k.fds.lookup 1 = some (.inherited file)) ∨
      ∃ p, k.fds.lookup 1 = some (.writeEnd p) := by
  rw [← htable]
  obtain ⟨-, hout⟩ | ⟨-, hout, -⟩ := hl.stdout
  · exact .inl ⟨_, hout⟩
  · exact .inr ⟨_, hout⟩

/-- The child goes on, and the pipes stay as they are. -/
theorem Stage.goOn (hs : Stage init cs K output s) {i : ℕ} {k k' : Process} {unread : ℕ → ℕ}
    (hk : s.children[i]? = some k) (hne : k.activity ≠ .exited) (htable : k'.table = k.table)
    (hnames : ∀ file, k'.fds.Names file → k.fds.Names file) (hu : k'.unwritten = k.unwritten)
    (hw : k'.activity = .writing → 0 < k.unwritten) (hne' : k'.activity ≠ .exited) :
    Stage init cs K output ⟨s.shell, s.control, s.children.set i k', s.contents, unread⟩ := by
  refine hs.setChild hk hne hs.empty hs.bound hnames (fun _ => ⟨htable, fun _ => ?_, ?_⟩)
    fun h => absurd h hne'
  · rw [hu]
  · rwa [hu]

/-- The child goes on, and the contents of a pipe change. -/
theorem Stage.usePipe (hs : Stage init cs K output s) {i p v : ℕ} {k k' : Process}
    {unread : ℕ → ℕ} (hk : s.children[i]? = some k) (hne : k.activity ≠ .exited)
    (hp : p < s.children.length) (hv : v ≤ K) (hfds : k'.fds = k.fds) (htable : k'.table = k.table)
    (hsum : i + 1 < cs.length →
      Function.update s.contents p v i + k'.unwritten = s.contents i + k.unwritten)
    (hw : k'.activity ≠ .writing) (hne' : k'.activity ≠ .exited) :
    Stage init cs K output
      ⟨s.shell, s.control, s.children.set i k', Function.update s.contents p v, unread⟩ := by
  refine hs.setChild hk hne (fun q hq => ?_) (fun q => ?_) (fun _ h => hfds ▸ h)
    (fun _ => ⟨htable, hsum, fun h => absurd h hw⟩) fun h => absurd h hne'
  · rw [Function.update_of_ne (by omega)]
    exact hs.empty q hq
  · rw [Function.update_apply]
    split
    · exact hv
    · exact hs.bound q

/-- The child exits, and the pipes stay as they are. -/
theorem Stage.exitChild (hs : Stage init cs K output s) {i : ℕ} {k k' : Process}
    {unread : ℕ → ℕ} (hk : s.children[i]? = some k) (hne : k.activity ≠ .exited)
    (hfds : k'.fds = k.fds) (he : k'.activity = .exited)
    (hfits : i + 1 < cs.length → output i ≤ K) :
    Stage init cs K output ⟨s.shell, s.control, s.children.set i k', s.contents, unread⟩ :=
  hs.setChild hk hne hs.empty hs.bound (fun _ h => hfds ▸ h) (fun h => absurd he h) fun _ => hfits

/-- **A step of the last child keeps the invariant.** -/
theorem Stage.child (hs : Stage init cs K output s) {i : ℕ} {k k' : Process}
    {contents unread : ℕ → ℕ} (hk : s.children[i]? = some k)
    (h : Moves K s k k' contents unread) :
    Stage init cs K output ⟨s.shell, s.control, s.children.set i k', contents, unread⟩ := by
  have hne : k.activity ≠ .exited := by
    intro he
    cases h <;> simp_all
  have hl := hs.live i k hk hne
  have hlen := hs.awaited i hl.awaited
  have hfds : (∀ n f fd, k.activity ≠ .starting n f fd) → k.table = k.fds := table_eq_fds
  cases h with
  | start h =>
    refine hs.goOn hk hne ?_ (fun _ => names_of_childBranch) rfl (fun h => by cases h) (by simp)
    rw [Process.table, Process.table, h]
  | exit h heof hu =>
    refine hs.exitChild hk hne rfl rfl fun hn => ?_
    obtain ⟨hn', -⟩ | ⟨-, -, hsum⟩ := hl.stdout
    · omega
    · have := hs.bound i
      omega
  | write h hu =>
    exact hs.goOn hk hne (hfds (by simp [h])).symm (fun _ => id) rfl (fun _ => hu) (by simp)
  | read h heof =>
    exact hs.goOn hk hne (hfds (by simp [h])).symm (fun _ => id) rfl (fun h => by cases h) (by simp)
  | getFile h hin hu =>
    exact hs.goOn hk hne (hfds (by simp [h])).symm (fun _ => id) rfl (fun h => by cases h) (by simp)
  | @getPipe p h hin hp =>
    have htable := hfds (by simp [h])
    obtain ⟨hpi, -⟩ := hl.pipe_of_stdin htable hin
    refine hs.usePipe (v := s.contents p - 1) hk hne (by omega) ?_ rfl htable.symm (fun _ => ?_)
      (fun h => by cases h) (fun h => by cases h)
    · have := hs.bound p
      omega
    · rw [Function.update_of_ne (by omega)]
  | endOfInput h =>
    exact hs.goOn hk hne (hfds (by simp [h])).symm (fun _ => id) rfl (fun h => by cases h) (by simp)
  | @putPipe p h hout hp =>
    have htable := hfds (by simp [h])
    have hu := hl.writing h
    obtain ⟨rfl, -, -⟩ := hl.pipe_of_stdout htable hout
    refine hs.usePipe hk hne (by omega) hp rfl htable.symm (fun _ => ?_) (fun h => by cases h)
      (fun h => by cases h)
    rw [Function.update_self]
    dsimp only
    omega
  | putFile h hout =>
    have htable := hfds (by simp [h])
    refine hs.setChild hk hne hs.empty hs.bound (fun _ => id) ?_ (fun h => by cases h)
    intro _
    refine ⟨htable.symm, fun hn => ?_, fun h => by cases h⟩
    obtain ⟨hn', -⟩ | ⟨-, hout', -⟩ := hl.stdout
    · omega
    · rw [htable] at hout'
      exact absurd hout' (hout i)
  | @killed p h hout hopen =>
    refine hs.exitChild hk hne rfl rfl fun hn => ?_
    obtain ⟨rfl, -, -⟩ := hl.pipe_of_stdout (hfds (by simp [h])) hout
    exact absurd (hs.reader_open hlen hn) hopen

/-! ## Steps of the shell -/

/-- The expressions after a command: none, or a pipe and the other commands. -/
theorem Remaining.after_command {j : ℕ} {c : Command} {next : CommandLine}
    (h : Remaining cs j (.command c :: next)) :
    j + 1 = cs.length ∧ next = [] ∨
      j + 1 < cs.length ∧ next = .pipe :: alternate (cs.drop (j + 1)) := by
  have hj := h.le (List.cons_ne_nil _ _)
  have h : .command c :: next = alternate (cs.drop j) := by
    rcases h with h | ⟨-, h⟩
    · exact h
    · cases h
  rw [List.drop_eq_getElem_cons hj] at h
  cases hd : cs.drop (j + 1) with
  | nil =>
    rw [hd, alternate] at h
    cases h
    exact Or.inl ⟨by have := List.drop_eq_nil_iff.1 hd; omega, rfl⟩
  | cons d ds =>
    rw [hd, alternate] at h
    cases h
    refine Or.inr ⟨?_, rfl⟩
    by_contra hn
    rw [List.drop_eq_nil_of_le (not_lt.1 hn)] at hd
    cases hd

/-- What a command is given, after `j` others, and what the shell holds after it. -/
theorem Holding.executeCmd {n j : ℕ} {st : State} {next : CommandLine}
    (h : Holding init n j st) (c : Command) (hnext : j + 1 = n ∧ next = [] ∨
      j + 1 < n ∧ ∃ next', next = .pipe :: next') :
    ((executeCmd c next st).1.stdin = some (.inherited init.stdin) ∨
      ∃ p, p + 1 = j ∧ (executeCmd c next st).1.stdin = some (.readEnd p)) ∧
    (j + 1 = n ∧ (executeCmd c next st).1.stdout = some (.inherited init.stdout) ∨
      j + 1 < n ∧ (executeCmd c next st).1.stdout = some (.writeEnd j)) ∧
    Holding init n (j + 1) (executeCmd c next st).2 := by
  rcases hnext with ⟨hn, rfl⟩ | ⟨hn, next', rfl⟩
  · have hlast : ∀ st', Holding init n (j + 1) st' := fun st' =>
      ⟨fun h => by omega, fun _ h => by omega, fun h => by omega⟩
    rcases Nat.eq_zero_or_pos j with h0 | h0
    · have hf := h.first h0
      rw [executeCmd_only hf.1 (Or.inl hf.2)]
      exact ⟨Or.inl init.lookup_zero, Or.inl ⟨hn, init.lookup_one⟩, hlast _⟩
    · obtain ⟨k, st', hk, -, hi, ho, -⟩ := (h.later h0 (by omega)).executeCmd_last (c := c)
      rw [hk]
      exact ⟨Or.inr ⟨j - 1, by omega, hi⟩, Or.inl ⟨hn, ho.trans init.lookup_one⟩, hlast _⟩
  · have hp := h.pipes (by omega)
    have hpipes := executeCmd_pipes c next' st
    rcases Nat.eq_zero_or_pos j with h0 | h0
    · obtain ⟨k, st', hk, -, hi, ho, hc⟩ := (h.first h0).executeCmd_next (c := c) next'
      rw [hk] at hpipes ⊢
      rw [hp] at ho hc
      exact ⟨Or.inl (hi.trans init.lookup_zero), Or.inr ⟨hn, ho⟩, fun h => by omega,
        fun _ _ => hc, fun _ => by rw [hpipes, hp]⟩
    · obtain ⟨k, st', hk, -, hi, ho, hc⟩ := (h.later h0 (by omega)).executeCmd_next (c := c) next'
      rw [hk] at hpipes ⊢
      rw [hp] at ho hc
      exact ⟨Or.inr ⟨j - 1, by omega, hi⟩, Or.inr ⟨hn, ho⟩, fun h => by omega,
        fun _ _ => hc, fun _ => by rw [hpipes, hp]⟩

/-- While the shell holds its place, no write end of an older pipe is open in it. -/
theorem Holding.no_writeEnd {n j p : ℕ} {st : State} (h : Holding init n j st) (hj : j < n) :
    ¬ st.fds.Names (.writeEnd p) := by
  have hinit : ¬ init.fds.Names (.writeEnd p) := by
    intro h
    obtain ⟨fd, hfd⟩ := Table.names_iff.1 h
    obtain ⟨_, h⟩ := init.inherited fd _ hfd
    cases h
  intro hn
  rcases Nat.eq_zero_or_pos j with h0 | h0
  · rw [(h.first h0).1] at hn
    exact hinit hn
  · rw [(h.later h0 hj).1] at hn
    rcases hn.of_put with hn | hn
    · cases hn
    · exact hinit hn

/-- The new pipe is the only one whose write end the shell and its next child hold. -/
theorem Holding.openPipe_no_writeEnd {n j p : ℕ} {st : State} {b : Bool}
    (h : Holding init n j st) (hj : j < n) (hp : p + 1 = j) :
    ¬ (openPipe b st).2.fds.Names (.writeEnd p) := by
  intro hn
  rcases names_of_openPipe hn with hn | hn | hn
  · cases hn
  · rw [h.pipes hj] at hn
    cases hn
    omega
  · exact h.no_writeEnd hj hn

theorem getElem?_concat {l : List Process} {k k' : Process} {i : ℕ}
    (h : (l ++ [k])[i]? = some k') : l[i]? = some k' ∨ i = l.length ∧ k' = k := by
  rw [List.getElem?_append] at h
  split at h
  · exact Or.inl h
  · obtain ⟨hi, rfl⟩ := List.getElem?_eq_some_iff.1 h
    rw [List.length_singleton] at hi
    exact Or.inr ⟨by omega, List.getElem_singleton _⟩

/-- **A fork keeps the invariant.** -/
theorem Stage.fork (hs : Stage init cs K output s) {c : Command} {next : CommandLine}
    (hc : s.control = .walking (.command c :: next)) (h : shellStep output s = some t) :
    Stage init cs K output t := by
  have hexited := hs.all_exited (by rw [hc]; rfl)
  have hrem : Remaining cs s.children.length (.command c :: next) := by
    simpa only [hc, Control.next] using hs.next
  have hhold : Holding init cs.length s.children.length s.shell := by
    simpa only [System.settled, hc] using hs.shell
  have hj := hrem.le (List.cons_ne_nil _ _)
  have hafter := hrem.after_command
  obtain ⟨hin, hout, hhold'⟩ := hhold.executeCmd c
    (hafter.imp_right fun ⟨hn, h⟩ => ⟨hn, _, h⟩)
  simp only [shellStep, hc, Option.some.injEq] at h
  subst h
  have hlen : ∀ k : Process, (s.children ++ [k]).length = s.children.length + 1 :=
    fun k => List.length_append
  refine ⟨?_, ?_, ?_, ?_, ?_, hs.bound, ?_, ?_⟩
  · rw [hlen]
    rcases hafter with ⟨hn, rfl⟩ | ⟨hn, rfl⟩
    · exact Or.inl (by rw [List.drop_eq_nil_of_le hn.ge]; rfl)
    · exact Or.inr ⟨hn, rfl⟩
  · rw [hlen]
    exact hhold'
  · rw [hlen]
    exact hj
  · rintro i hi
    cases hi
    rw [hlen]
  · intro p hp
    rw [hlen] at hp
    exact hs.empty p (by omega)
  · intro i k hk hne
    rcases getElem?_concat hk with hk | ⟨rfl, rfl⟩
    · exact absurd (hexited k (List.mem_of_getElem? hk)) hne
    · refine ⟨rfl, hin.imp_right ?_, hout.imp_right ?_, fun h => by cases h⟩
      · rintro ⟨p, hp, hin⟩
        refine ⟨p, hp, hin, ?_⟩
        rintro (hopen | ⟨m, hm, hme, hopen⟩)
        · exact hhold.openPipe_no_writeEnd hj hp hopen
        · rcases List.mem_append.1 hm with hm | hm
          · exact hme (hexited m hm)
          · rw [List.mem_singleton.1 hm] at hopen
            exact hhold.openPipe_no_writeEnd hj hp hopen
      · rintro ⟨hn, hout⟩
        refine ⟨hn, hout, ?_⟩
        show s.contents s.children.length + output s.children.length = _
        rw [hs.empty _ le_rfl, Nat.zero_add]
  · intro i k hk he hn
    rcases getElem?_concat hk with hk | ⟨rfl, rfl⟩
    · exact hs.exited i k hk he hn
    · cases he

/-- Control passes on, with the children and the shell's final table as they are. -/
theorem Stage.control (hs : Stage init cs K output s) {shell : State} {control : Control}
    (hnext : Remaining cs s.children.length control.next)
    (hshell : (System.mk shell control s.children s.contents s.unread).settled = s.settled)
    (hnames : ∀ file, shell.fds.Names file → s.shell.fds.Names file)
    (hawaits : control.awaits = s.control.awaits ∨
      control.awaits = none ∧ ∀ k ∈ s.children, k.activity = .exited) :
    Stage init cs K output ⟨shell, control, s.children, s.contents, s.unread⟩ := by
  refine ⟨hnext, hshell ▸ hs.shell, hs.count, ?_, hs.empty, hs.bound, ?_, hs.exited⟩
  · rintro i hi
    rcases hawaits with h | ⟨h, -⟩
    · exact hs.awaited i (h ▸ hi)
    · rw [h] at hi
      cases hi
  · intro i k hk hne
    have hl := hs.live i k hk hne
    have hopen : ∀ file, (System.mk shell control s.children s.contents s.unread).IsOpen file →
        s.IsOpen file := fun file h => h.imp_left (hnames file)
    rcases hawaits with h | ⟨-, h⟩
    · exact ⟨h.trans hl.awaited, hl.stdin.imp_right fun ⟨p, hp, hin, hno⟩ =>
        ⟨p, hp, hin, mt (hopen _) hno⟩, hl.stdout, hl.writing⟩
    · exact absurd (h k (List.mem_of_getElem? hk)) hne

/-- **A step of the shell keeps the invariant.** -/
theorem Stage.shellStep (hs : Stage init cs K output s) (h : shellStep output s = some t) :
    Stage init cs K output t := by
  have hcopy := h
  obtain ⟨shell, control, children, contents, unread⟩ := s
  cases control with
  | walking next =>
    match next with
    | [] => cases h
    | .pipe :: next =>
      cases h
      refine hs.control ?_ rfl (fun _ => id) (Or.inl rfl)
      rcases hs.next with h | ⟨-, h⟩
      · exact absurd h.symm (alternate_ne_pipe _ _)
      · exact Or.inl (List.cons.inj h).2
    | .command c :: next => exact hs.fork rfl hcopy
  | forked notLast fildes pid next =>
    cases h
    exact hs.control hs.next rfl (fun _ => names_of_parentBranch) (Or.inl rfl)
  | waiting pid next =>
    simp only [Shell.shellStep] at h
    split at h
    · rename_i he
      cases h
      refine hs.control hs.next rfl (fun _ => id) (Or.inr ⟨rfl, fun k hk => ?_⟩)
      by_contra hne
      obtain ⟨i, hi, rfl⟩ := List.getElem_of_mem hk
      have hi := List.getElem?_eq_getElem hi
      have hawaits : some pid = some i := (hs.live i _ hi hne).awaited
      rw [Option.some.inj hawaits, hi] at he
      exact hne (Option.some.inj he)
    · cases h

/-- **One step keeps the invariant.** -/
theorem step_stage {l : Mover} (hs : Stage init cs K output s) (h : step K output l s = some t) :
    Stage init cs K output t := by
  cases l with
  | shell => exact hs.shellStep h
  | child pid writes =>
    obtain ⟨k, hk, h⟩ := Option.bind_eq_some_iff.1 h
    obtain ⟨k', contents, unread, hm, rfl⟩ := childStep_moves h
    exact hs.child hk hm

theorem launch_stage (init : StartTable) (line : Pipeline) (K : ℕ) (output unread : ℕ → ℕ) :
    Stage init line.commands K output (launch init line unread) where
  next := Or.inl rfl
  shell := ⟨fun _ => ⟨rfl, rfl⟩, fun h => absurd h (lt_irrefl 0), fun _ => rfl⟩
  count := Nat.zero_le _
  awaited i h := by cases h
  empty _ _ := rfl
  bound _ := Nat.zero_le K
  live i k h := by cases h
  exited i k h := by cases h

/-- **Every reachable state is a stage of the pipeline.** -/
theorem reachable_stage {line : Pipeline} {unread : ℕ → ℕ}
    (h : (pipelineMachine init line K output unread).Reachable s) :
    Stage init line.commands K output s := by
  refine h.invariant ?_ fun l s s' hs h => step_stage hs h
  rintro _ rfl
  exact launch_stage init line K output unread

end SemOS.Shell
