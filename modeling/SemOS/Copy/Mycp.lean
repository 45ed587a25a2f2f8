import SemOS.Copy.Stream
import SemOS.Foundations.FileSystem
import SemOS.Foundations.Machine

/-!
# mycp on a file system

`pstream` opens the source and the destination, copies with `stream` and returns 0, whatever
`stream` has met (`sems/3week/mycp/mycp.c`). Here `read` and `write` may also fail; the files are
those of a file system with links, so the destination may be the source.

* `stream` is a machine whose labels are the results of the calls of `read` and `write`. It notes
  the offsets in the source of the bytes that the destination has accepted.
* `Turns` lists what a call does.
* `source_kept_iff`: the source keeps its contents, unless it is opened as the destination and
  truncated.
-/

namespace SemOS.Mycp

open Copy (Bufsiz sizeT)

variable {Path Place α : Type*}

/-- `combine_open_flags`. -/
def combineOpenFlags (force : Bool) : OpenFlags where
  create := true
  exclusive := !force
  truncate := force

/-- The result of a call of `read` or `write`: a count, or -1 with `EINTR` or another error. -/
inductive Answer
  | readCount (n : ℕ)
  | readInterrupted
  | readFailed
  | writeCount (n : ℕ)
  | writeInterrupted
  | writeFailed
  deriving DecidableEq

/-- Where `stream` is: at its call of `read`, in `safewrite` at a call of `write`, or behind. -/
inductive Loop (α : Type*)
  | reading
  | writing (buffer : List α) (writtenTotal : ℤ)
  | returned

/-- The conditions of the two loops, after `safewrite` has changed its total. When it returns, it
is with a count, or with -1 and `errno = EINTR`; so `stream` ends only if nothing was read. -/
def again (buffer : List α) (writtenTotal : ℤ) : Loop α :=
  if sizeT writtenTotal < buffer.length then .writing buffer writtenTotal
  else if buffer = [] then .returned
  else .reading

/-- `fd_IN` and `fd_OUT`. -/
structure Descriptors where
  source : Opened
  dest : ℕ

/-- The files, the offsets of the two descriptors, and the offsets in the source of the bytes that
have been written, in order. -/
structure Copying (Path Place α : Type*) where
  files : FileSystem Path Place α
  readAt : ℕ
  writeAt : ℕ
  loop : Loop α
  written : List ℕ

/-- One call of `read` or `write`. -/
def turn (bufsiz : Bufsiz) (d : Descriptors) (answer : Answer) (s : Copying Path Place α) :
    Option (Copying Path Place α) :=
  match answer, s.loop with
  | .readCount n, .reading =>
    match d.source with
    | .file id =>
      let unread := (s.files.contents id).drop s.readAt
      if n ≤ bufsiz.size ∧ n ≤ unread.length ∧ (n = 0 → unread = []) then
        some { s with readAt := s.readAt + n, loop := again (unread.take n) 0 }
      else none
    | .directory => none
  | .readInterrupted, .reading => some s
  | .readFailed, .reading => some { s with loop := .returned }
  | .writeCount n, .writing buffer total =>
    if 1 ≤ n ∧ n ≤ buffer.length - sizeT total then
      some
        { s with
          files := s.files.write d.dest s.writeAt ((buffer.drop (sizeT total)).take n)
          writeAt := s.writeAt + n
          loop := again buffer (total + n)
          written := s.written ++
            (List.range n).map (s.readAt - buffer.length + sizeT total + ·) }
    else none
  | .writeInterrupted, .writing buffer total => some { s with loop := again buffer (total + -1) }
  | .writeFailed, .writing _ _ => some { s with loop := .returned }
  | _, _ => none

/-- The start of `stream`, on newly opened descriptors. -/
def start (files : FileSystem Path Place α) : Copying Path Place α :=
  ⟨files, 0, 0, .reading, []⟩

/-- `stream`. -/
def stream (bufsiz : Bufsiz) (d : Descriptors) : Machine Answer (Copying Path Place α) where
  init s := ∃ files, s = start files
  act := turn bufsiz d

section Pstream

variable [DecidableEq Place]

/-- The two calls of `open`, each of which may be denied. -/
def opened (limit : ℕ) (fs : FileSystem Path Place α) (inPath outPath : Path) (flags : OpenFlags)
    (inDenied outDenied : Bool) : Option (Descriptors × FileSystem Path Place α) :=
  if inDenied then none
  else (fs.openRead limit inPath).bind fun source =>
    if outDenied then none
    else (fs.openWrite limit flags outPath).map fun (dest, files) => (⟨source, dest⟩, files)

/-- `pstream`: the value returned, the files, and the offsets that have been written. There is no
result if it does not return with these answers. -/
def pstream (bufsiz : Bufsiz) (limit : ℕ) (fs : FileSystem Path Place α) (inPath outPath : Path)
    (flags : OpenFlags) (inDenied outDenied : Bool) (answers : List Answer) :
    Option (ℤ × FileSystem Path Place α × List ℕ) :=
  match opened limit fs inPath outPath flags inDenied outDenied with
  | none => if answers = [] then some (-1, fs, []) else none
  | some (d, files) =>
    ((stream bufsiz d).run answers (start files)).bind fun s =>
      match s.loop with
      | .returned => some (0, s.files, s.written)
      | _ => none

end Pstream

/-! ## What a turn does -/

/-- `Turns bufsiz d s answer t`: the call with this answer takes `s` to `t`. -/
inductive Turns (bufsiz : Bufsiz) (d : Descriptors) (s : Copying Path Place α) :
    Answer → Copying Path Place α → Prop
  | read {id n} (hsource : d.source = .file id) (hloop : s.loop = .reading)
      (hn : n ≤ ((s.files.contents id).drop s.readAt).length)
      (hzero : n = 0 → (s.files.contents id).drop s.readAt = []) (hbuf : n ≤ bufsiz.size) :
      Turns bufsiz d s (.readCount n)
        { s with
          readAt := s.readAt + n
          loop := again (((s.files.contents id).drop s.readAt).take n) 0 }
  | readInterrupted (hloop : s.loop = .reading) : Turns bufsiz d s .readInterrupted s
  | readFailed (hloop : s.loop = .reading) :
      Turns bufsiz d s .readFailed { s with loop := .returned }
  | write {buffer total n} (hloop : s.loop = .writing buffer total) (hn : 1 ≤ n)
      (hn' : n ≤ buffer.length - sizeT total) :
      Turns bufsiz d s (.writeCount n)
        { s with
          files := s.files.write d.dest s.writeAt ((buffer.drop (sizeT total)).take n)
          writeAt := s.writeAt + n
          loop := again buffer (total + n)
          written := s.written ++
            (List.range n).map (s.readAt - buffer.length + sizeT total + ·) }
  | writeInterrupted {buffer total} (hloop : s.loop = .writing buffer total) :
      Turns bufsiz d s .writeInterrupted { s with loop := again buffer (total + -1) }
  | writeFailed {buffer total} (hloop : s.loop = .writing buffer total) :
      Turns bufsiz d s .writeFailed { s with loop := .returned }

variable {bufsiz : Bufsiz} {d : Descriptors} {s t : Copying Path Place α} {answer : Answer}
  {answers : List Answer} {id : ℕ}

theorem turn_cases (h : turn bufsiz d answer s = some t) : Turns bufsiz d s answer t := by
  unfold turn at h
  split at h
  · rename_i n hloop
    split at h
    · rename_i id hsource
      obtain ⟨hn, h⟩ := Option.ite_none_right_eq_some.1 h
      obtain rfl := Option.some.inj h
      exact .read hsource hloop hn.2.1 hn.2.2 hn.1
    · cases h
  · rename_i hloop
    obtain rfl := Option.some.inj h
    exact .readInterrupted hloop
  · rename_i hloop
    obtain rfl := Option.some.inj h
    exact .readFailed hloop
  · rename_i n buffer total hloop
    obtain ⟨hn, h⟩ := Option.ite_none_right_eq_some.1 h
    obtain rfl := Option.some.inj h
    exact .write hloop hn.1 hn.2
  · rename_i buffer total hloop
    obtain rfl := Option.some.inj h
    exact .writeInterrupted hloop
  · rename_i buffer total hloop
    obtain rfl := Option.some.inj h
    exact .writeFailed hloop
  · cases h

/-! ## Without errors -/

/-- The outcomes among which there is no error but an interruption. -/
def Answer.ofOutcome : Copy.Outcome → Answer
  | .readCount n => .readCount n
  | .readInterrupted => .readInterrupted
  | .writeCount n => .writeCount n
  | .writeInterrupted => .writeInterrupted

/-- `t` goes on from `s` with `accepted` at the end of the destination. -/
structure Appended (id dest : ℕ) (accepted : List α) (s t : Copying Path Place α) : Prop where
  source : t.files.contents id = s.files.contents id
  destination : t.files.contents dest = s.files.contents dest ++ accepted
  atEnd : (t.files.contents dest).length = t.writeAt

/-- A first call, and the ones after it. -/
theorem run_cons {o : Answer} {u : Copying Path Place α} (h : turn bufsiz d o s = some u) :
    (stream bufsiz d).run (o :: answers) s = (stream bufsiz d).run answers u := by
  change (turn bufsiz d o s).bind _ = _
  rw [h, Option.bind_some]

/-- `safewrite` has nothing more to write of the chunk. -/
theorem run_safewrite_done (bufsiz : Bufsiz) {buffer accepted : List α} {total result : ℤ}
    {outcomes rest : List Copy.Outcome} (hdone : ¬ sizeT total < buffer.length)
    (h : Copy.safewrite buffer total outcomes = some (accepted, result, rest))
    (hloop : s.loop = again buffer total)
    (hend : (s.files.contents d.dest).length = s.writeAt) :
    ∃ used t, outcomes = used ++ rest ∧
      (stream bufsiz d).run (used.map .ofOutcome) s = some t ∧
        t.loop = (if buffer = [] then .returned else .reading) ∧ t.readAt = s.readAt ∧
          Appended id d.dest accepted s t := by
  rw [Copy.safewrite_done hdone] at h
  cases h
  refine ⟨[], s, rfl, rfl, ?_, rfl, rfl, (List.append_nil _).symm, hend⟩
  rw [hloop, again, if_neg hdone]

/-- `safewrite` of a chunk, one call after the other. -/
theorem run_safewrite (bufsiz : Bufsiz) {buffer accepted : List α} {total result : ℤ}
    {outcomes rest : List Copy.Outcome} (hdest : d.dest ≠ id)
    (h : Copy.safewrite buffer total outcomes = some (accepted, result, rest))
    (hloop : s.loop = again buffer total)
    (hend : (s.files.contents d.dest).length = s.writeAt) :
    ∃ used t, outcomes = used ++ rest ∧
      (stream bufsiz d).run (used.map .ofOutcome) s = some t ∧
        t.loop = (if buffer = [] then .returned else .reading) ∧ t.readAt = s.readAt ∧
          Appended id d.dest accepted s t := by
  induction outcomes generalizing total s accepted with
  | nil =>
    by_cases hmore : sizeT total < buffer.length
    · -- `safewrite` waits for an outcome that is not there
      unfold Copy.safewrite at h
      rw [if_pos hmore] at h
      cases h
    · exact run_safewrite_done bufsiz hmore h hloop hend
  | cons o outcomes ih =>
    by_cases hmore : sizeT total < buffer.length
    · rw [again, if_pos hmore] at hloop
      obtain ⟨n, accepted', rfl, hn, hn', rfl, h'⟩ | ⟨rfl, h'⟩ := Copy.safewrite_next hmore h
      · have hlen : ((buffer.drop (sizeT total)).take n).length = n := by
          rw [List.length_take, List.length_drop]
          omega
        have happend := FileSystem.write_append hend ((buffer.drop (sizeT total)).take n)
        obtain ⟨u, hturn, hu⟩ : ∃ u, turn bufsiz d (.writeCount n) s = some u ∧ u =
            { s with
              files := s.files.write d.dest s.writeAt ((buffer.drop (sizeT total)).take n)
              writeAt := s.writeAt + n
              loop := again buffer (total + n)
              written := s.written ++
                (List.range n).map (s.readAt - buffer.length + sizeT total + ·) } := by
          simp [turn, hloop, hn, hn']
        obtain ⟨used, t, rfl, hrun, hloop', hread, ht⟩ := ih (s := u) h' (by rw [hu])
          (by rw [hu, happend, List.length_append, hend, hlen])
        subst hu
        refine ⟨.writeCount n :: used, t, rfl, (run_cons hturn).trans hrun, hloop', hread, ?_⟩
        refine ⟨ht.source.trans (FileSystem.write_of_ne hdest.symm ..), ?_, ht.atEnd⟩
        rw [ht.destination, happend, List.append_assoc]
      · have hturn : turn bufsiz d .writeInterrupted s =
            some { s with loop := again buffer (total + -1) } := by
          simp [turn, hloop]
        obtain ⟨used, t, rfl, hrun, hloop', hread, ht⟩ := ih
          (s := { s with loop := again buffer (total + -1) }) h' rfl hend
        exact ⟨.writeInterrupted :: used, t, rfl, (run_cons hturn).trans hrun, hloop', hread,
          ht.source, ht.destination, ht.atEnd⟩
    · exact run_safewrite_done bufsiz hmore h hloop hend

/-- **Where no call fails, the machine writes what `stream` writes** of what is left of the
source. -/
theorem run_stream {accepted input : List α} {outcomes : List Copy.Outcome}
    (hsource : d.source = .file id) (hdest : d.dest ≠ id)
    (h : Copy.stream bufsiz input outcomes = some accepted) (hloop : s.loop = .reading)
    (hinput : (s.files.contents id).drop s.readAt = input)
    (hend : (s.files.contents d.dest).length = s.writeAt) :
    ∃ t, (stream bufsiz d).run (outcomes.map .ofOutcome) s = some t ∧ t.loop = .returned ∧
      Appended id d.dest accepted s t := by
  induction hm : outcomes.length using Nat.strongRecOn generalizing outcomes input accepted s with
  | ind m ih =>
    subst hm
    cases outcomes with
    | nil =>
      unfold Copy.stream at h
      cases h
    | cons o outcomes =>
      obtain ⟨rfl, h'⟩ | ⟨n, accepted₁, result, rest, rfl, ⟨hbuf, hlen, hzero⟩, hs, hcase⟩ :=
        Copy.stream_next h
      · obtain ⟨t, hrun, ht⟩ := ih _ (Nat.lt_succ_self _) h' hloop hinput hend rfl
        have hturn : turn bufsiz d .readInterrupted s = some s := by simp [turn, hloop]
        exact ⟨t, (run_cons hturn).trans hrun, ht⟩
      · have hturn : turn bufsiz d (.readCount n) s =
            some { s with readAt := s.readAt + n, loop := again (input.take n) 0 } := by
          simp only [turn, hloop, hsource, hinput]
          rw [if_pos ⟨hbuf, hlen, hzero⟩]
        obtain ⟨used, u, rfl, hrun, hloop', hread, hu⟩ := run_safewrite bufsiz
          (s := { s with readAt := s.readAt + n, loop := again (input.take n) 0 }) hdest hs rfl hend
        have hsplit : (stream bufsiz d).run (((.readCount n :: (used ++ rest)) :
            List Copy.Outcome).map .ofOutcome) s =
              (stream bufsiz d).run (rest.map .ofOutcome) u := by
          rw [List.map_cons, List.map_append]
          exact (run_cons hturn).trans (Machine.run_append hrun)
        rw [hsplit]
        obtain ⟨rfl, rfl, rfl⟩ | ⟨hpos, accepted₂, h₂, rfl⟩ := hcase
        · exact ⟨u, rfl, by simpa using hloop', hu.source, hu.destination, hu.atEnd⟩
        · have hne : input.take n ≠ [] := by
            rw [ne_eq, List.take_eq_nil_iff]
            rintro (hn | hnil)
            · exact hpos hn
            · rw [hnil] at hlen
              exact hpos (Nat.le_zero.1 hlen)
          rw [if_neg hne] at hloop'
          have hrest : (u.files.contents id).drop u.readAt = input.drop n := by
            rw [hu.source, hread, ← hinput, List.drop_drop]
          have hlt : rest.length < (Copy.Outcome.readCount n :: (used ++ rest)).length := by
            rw [List.length_cons, List.length_append]
            omega
          obtain ⟨t, hrun₂, hdone, ht⟩ := ih _ hlt h₂ hloop' hrest hu.atEnd rfl
          refine ⟨t, hrun₂, hdone, ht.source.trans hu.source, ?_, ht.atEnd⟩
          rw [ht.destination, hu.destination, List.append_assoc]

/-! ## The source -/

/-- `stream` writes into the destination only. -/
theorem turn_contents (hdest : d.dest ≠ id) (h : turn bufsiz d answer s = some t) :
    t.files.contents id = s.files.contents id := by
  cases turn_cases h with
  | read hsource hloop hn hzero hbuf => rfl
  | readInterrupted hloop => rfl
  | readFailed hloop => rfl
  | write hloop hn hn' => exact FileSystem.write_of_ne hdest.symm ..
  | writeInterrupted hloop => rfl
  | writeFailed hloop => rfl

theorem run_contents (hdest : d.dest ≠ id) (h : (stream bufsiz d).run answers s = some t) :
    t.files.contents id = s.files.contents id :=
  Machine.Leads.invariant (I := fun u => u.files.contents id = s.files.contents id)
    (Machine.leads_of_run h) rfl fun _ _ _ hs hact => (turn_contents hdest hact).trans hs

/-- `stream` on an empty source, which never comes to write. -/
structure Idle (id : ℕ) (s : Copying Path Place α) : Prop where
  empty : s.files.contents id = []
  loop : ∀ buffer total, s.loop ≠ .writing buffer total
  written : s.written = []

theorem turn_idle (hsource : d.source = .file id) (hs : Idle id s)
    (h : turn bufsiz d answer s = some t) : Idle id t := by
  obtain ⟨hempty, hloop', hwritten⟩ := hs
  cases turn_cases h with
  | @read id' n hsource' hloop hn hzero hbuf =>
    rw [hsource] at hsource'
    cases hsource'
    refine ⟨hempty, fun buffer total => ?_, hwritten⟩
    simp [again, hempty]
  | readInterrupted hloop => exact ⟨hempty, hloop', hwritten⟩
  | readFailed hloop => exact ⟨hempty, fun _ _ => nofun, hwritten⟩
  | write hloop hn hn' => exact absurd hloop (hloop' _ _)
  | writeInterrupted hloop => exact absurd hloop (hloop' _ _)
  | writeFailed hloop => exact ⟨hempty, fun _ _ => nofun, hwritten⟩

theorem start_idle {files : FileSystem Path Place α} (h : files.contents id = []) :
    Idle id (start files) := ⟨h, fun _ _ => nofun, rfl⟩

theorem run_idle (hsource : d.source = .file id) {files : FileSystem Path Place α}
    (hempty : files.contents id = []) (h : (stream bufsiz d).run answers (start files) = some t) :
    Idle id t :=
  Machine.Leads.invariant (Machine.leads_of_run h) (start_idle hempty) fun _ _ _ hs hact =>
    turn_idle hsource hs hact

section Pstream

variable [DecidableEq Place] {limit : ℕ} {fs files : FileSystem Path Place α}
  {inPath outPath : Path} {force inDenied outDenied : Bool} {written : List ℕ} {r : ℤ}

/-- The two ways in which `pstream` returns. -/
theorem pstream_cases {flags : OpenFlags} (h : pstream bufsiz limit fs inPath outPath flags
    inDenied outDenied answers = some (r, files, written)) :
    opened limit fs inPath outPath flags inDenied outDenied = none ∧ r = -1 ∧ files = fs ∨
      ∃ d fs' s, opened limit fs inPath outPath flags inDenied outDenied = some (d, fs') ∧
        (stream bufsiz d).run answers (start fs') = some s ∧ s.loop = .returned ∧ r = 0 ∧
          files = s.files ∧ written = s.written := by
  unfold pstream at h
  split at h
  · rename_i ho
    obtain ⟨-, h⟩ := Option.ite_none_right_eq_some.1 h
    cases h
    exact .inl ⟨ho, rfl, rfl⟩
  · rename_i d fs' ho
    obtain ⟨s, hs, h⟩ := Option.bind_eq_some_iff.1 h
    split at h
    · rename_i hloop
      cases h
      exact .inr ⟨d, fs', s, ho, hs, hloop, rfl, rfl, rfl⟩
    · cases h

/-- With `force`, files that exist can be opened. -/
theorem opened_of_fileAt {dest : ℕ} (hin : fs.fileAt limit inPath = some id)
    (hout : fs.fileAt limit outPath = some dest) :
    opened limit fs inPath outPath (combineOpenFlags true) false false =
      some (⟨.file id, dest⟩, fs.put dest []) := by
  have hflags : ¬ ((combineOpenFlags true).create ∧ (combineOpenFlags true).exclusive) := by
    decide
  have hwrite := FileSystem.openWrite_of_fileAt hout hflags
  have htruncate : (combineOpenFlags true).truncate = true := rfl
  simp [opened, FileSystem.openRead_of_fileAt hin, hwrite, htruncate]

/-- `OUT_path` leads to the source, which is not empty and is truncated when it is opened. -/
def Truncates (limit : ℕ) (fs : FileSystem Path Place α) (outPath : Path)
    (force inDenied outDenied : Bool) (id : ℕ) : Prop :=
  force = true ∧ inDenied = false ∧ outDenied = false ∧ fs.fileAt limit outPath = some id ∧
    fs.contents id ≠ []

/-- What is opened when `IN_path` names a file. The destination is empty; it is the source, or
another file, and then the source is as it was. -/
theorem opened_cases {fs' : FileSystem Path Place α} (hin : fs.fileAt limit inPath = some id)
    (h : opened limit fs inPath outPath (combineOpenFlags force) inDenied outDenied =
      some (d, fs')) : d.source = .file id ∧ fs'.contents d.dest = [] ∧
      (d.dest = id ∧
          (¬ Truncates limit fs outPath force inDenied outDenied id ↔ fs.contents id = []) ∨
        d.dest ≠ id ∧ fs'.contents id = fs.contents id ∧
          ¬ Truncates limit fs outPath force inDenied outDenied id) := by
  obtain ⟨hinDenied, h⟩ := Option.ite_none_left_eq_some.1 h
  obtain ⟨source, hsource, h⟩ := Option.bind_eq_some_iff.1 h
  obtain ⟨houtDenied, h⟩ := Option.ite_none_left_eq_some.1 h
  obtain ⟨⟨dest, fs''⟩, hdest, heq⟩ := Option.map_eq_some_iff.1 h
  cases heq
  rw [FileSystem.openRead_of_fileAt hin] at hsource
  cases hsource
  refine ⟨rfl, ?_⟩
  obtain ⟨hfile, hflags, rfl⟩ | ⟨rfl, hnone, p, rfl⟩ := FileSystem.openWrite_cases hdest
  · cases force with
    | false => exact absurd ⟨rfl, rfl⟩ hflags
    | true =>
      refine ⟨FileSystem.put_self .., ?_⟩
      obtain rfl | hne := eq_or_ne dest id
      · refine .inl ⟨rfl, ?_⟩
        simp [Truncates, Bool.eq_false_iff.2 hinDenied, Bool.eq_false_iff.2 houtDenied, hfile]
      · refine .inr ⟨hne, FileSystem.put_of_ne hne.symm _, ?_⟩
        rintro ⟨-, -, -, hout, -⟩
        exact hne (Option.some.inj (hfile.symm.trans hout))
  · -- a new file
    have hlt := FileSystem.fileAt_lt hin
    refine ⟨FileSystem.create_next .., .inr ⟨(Nat.ne_of_lt hlt).symm,
      FileSystem.create_of_lt hlt, ?_⟩⟩
    rintro ⟨-, -, -, hout, -⟩
    rw [hnone] at hout
    cases hout

/-- **The source keeps its contents exactly if it is not truncated as the destination.** -/
theorem source_kept_iff (h : pstream bufsiz limit fs inPath outPath (combineOpenFlags force)
    inDenied outDenied answers = some (r, files, written))
    (hin : fs.fileAt limit inPath = some id) : files.contents id = fs.contents id ↔
      ¬ Truncates limit fs outPath force inDenied outDenied id := by
  obtain ⟨ho, -, rfl⟩ | ⟨d, fs', s, ho, hs, -, -, rfl, -⟩ := pstream_cases h
  · refine iff_of_true rfl ?_
    rintro ⟨hforce, hinDenied, houtDenied, hout, -⟩
    subst hforce hinDenied houtDenied
    rw [opened_of_fileAt hin hout] at ho
    cases ho
  · obtain ⟨hsource, hempty, ⟨rfl, hno⟩ | ⟨hdest, hkept, hno⟩⟩ := opened_cases hin ho
    · -- both descriptors refer to the source, which is empty now
      rw [(run_idle hsource hempty hs).empty, hno]
      exact eq_comm
    · rw [run_contents hdest hs]
      exact iff_of_true hkept hno

end Pstream

/-- One file with one byte, at the path `0`; nothing at `1`, and a link to `0` at `2`. -/
def oneFile : FileSystem (Fin 3) (Fin 3) UInt8 where
  place := some
  entry p := if p = 0 then some (.file 0) else if p = 1 then none else some (.link 0)
  contents id := if id = 0 then [97] else []
  next := 1
  unused p id h := by
    split_ifs at h <;> cases h
    exact Nat.one_pos

/-- The byte is read and written. -/
def copyByte : List Answer := [.readCount 1, .writeCount 1, .readCount 0]

theorem copyByte_returns : ∃ files, pstream Copy.smallest 40 oneFile 0 1
    (combineOpenFlags false) false false copyByte = some (0, files, [0]) := by
  have hrun : (pstream Copy.smallest 40 oneFile 0 1 (combineOpenFlags false) false false
      copyByte).map (fun x => (x.1, x.2.2)) = some (0, [0]) := by
    decide +kernel
  obtain ⟨⟨r, files, written⟩, hx, ho⟩ := Option.map_eq_some_iff.1 hrun
  obtain ⟨rfl, rfl⟩ := Prod.mk.inj ho
  exact ⟨files, hx⟩

/-- A copy to a new file. -/
theorem source_kept_oneFile : ∃ files,
    pstream Copy.smallest 40 oneFile 0 1 (combineOpenFlags false) false false copyByte =
      some (0, files, [0]) ∧
    (files.contents 0 = oneFile.contents 0 ↔ ¬ Truncates 40 oneFile 1 false false false 0) := by
  obtain ⟨files, hrun⟩ := copyByte_returns
  exact ⟨files, hrun, source_kept_iff hrun rfl⟩

/-- A file is copied onto a link to it, with `force`. -/
theorem source_destroyed : ¬ ∀ (fs : FileSystem (Fin 3) (Fin 3) UInt8) inPath outPath force
    inDenied outDenied answers r files written id,
    pstream Copy.smallest 40 fs inPath outPath (combineOpenFlags force) inDenied outDenied
      answers = some (r, files, written) →
    fs.fileAt 40 inPath = some id → files.contents id = fs.contents id := by
  intro h
  have hrun : (pstream Copy.smallest 40 oneFile 0 2 (combineOpenFlags true) false false
      [.readCount 0]).map (fun x => x.2.1.contents 0) = some [] := by
    decide +kernel
  obtain ⟨⟨r, files, written⟩, hx, ho⟩ := Option.map_eq_some_iff.1 hrun
  have hkept := h oneFile 0 2 true false false _ r files written 0 hx rfl
  rw [show files.contents 0 = [] from ho] at hkept
  exact absurd hkept (by decide)

end SemOS.Mycp
