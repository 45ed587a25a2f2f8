import SemOS.Copy.Mycp

/-!
# What mycp has written when it reports success

`stream` breaks off at an error and returns nothing, so `pstream` returns 0 in any case. The bytes
written are followed by their offsets in the source.

* `Harmless`: a call after which nothing is missing. `turn_covered` keeps everything written
  (`Covered`), and a call that is not harmless loses a byte for good (`turn_loses`, `turn_lost`).
* `run_bytes`: the destination contains the bytes at the offsets that have been noted.
* `success_iff_copied`: when 0 is returned, all bytes have been written exactly if the source was
  not truncated and every call was harmless. `success_bytes`: what the destination contains then, as
  a byte can have been written twice.
-/

namespace SemOS.Mycp

open Copy (Bufsiz sizeT)

variable {Path Place α : Type*} {bufsiz : Bufsiz} {d : Descriptors} {s t : Copying Path Place α}
  {answer : Answer} {answers : List Answer} {id : ℕ} {input : List α}

/-- A call that loses nothing: no failure of `write`, none of `read` before the end of the source,
and no interruption of `write` while the total of `safewrite` is 0. -/
def Harmless (d : Descriptors) (answer : Answer) (s : Copying Path Place α) : Prop :=
  (answer = .readFailed → ∀ id, d.source = .file id →
    (s.files.contents id).length ≤ s.readAt) ∧
  answer ≠ .writeFailed ∧ (answer = .writeInterrupted → ∀ buffer, s.loop ≠ .writing buffer 0)

/-- Of `n` bytes, those that have been read are written: all at a call of `read`; in a chunk those
before the total of `safewrite`, and the last one only at its end. -/
def Covers (n : ℕ) (written : List ℕ) (readAt : ℕ) : Loop α → Prop
  | .reading => ∀ p, p ∈ written ↔ p < readAt
  | .writing buffer total =>
    ∃ w : ℕ, total = w ∧ w < buffer.length ∧ buffer.length ≤ readAt ∧ buffer.length < 2 ^ 31 ∧
      (∀ p < readAt - buffer.length + w, p ∈ written) ∧ ∀ p ∈ written, p + 1 < readAt
  | .returned => ∀ p < n, p ∈ written

/-- The byte at `q` is behind the offset from which on bytes are written. -/
def Passed (q readAt : ℕ) : Loop α → Prop
  | .reading => q < readAt
  | .writing buffer _ => q < readAt - buffer.length
  | .returned => True

/-- So far everything has been written of the source, which contains `input`. -/
structure Covered (id : ℕ) (input : List α) (s : Copying Path Place α) : Prop where
  source : s.files.contents id = input
  within : s.readAt ≤ input.length
  covers : Covers input.length s.written s.readAt s.loop

/-- The byte at `q` has not been written and will not be. -/
structure Lost (q : ℕ) (s : Copying Path Place α) : Prop where
  missing : q ∉ s.written
  passed : Passed q s.readAt s.loop

variable {buffer : List α} {total : ℤ} {n w q readAt : ℕ} {written : List ℕ}

theorem again_of_lt (hw : w < buffer.length) (hlt : buffer.length < 2 ^ 31) :
    again buffer w = .writing buffer w := by
  rw [again, if_pos (by rwa [Copy.sizeT_natCast (by omega)])]

theorem again_done (h : ¬ sizeT total < buffer.length) (hne : buffer ≠ []) :
    again buffer total = .reading := by
  rw [again, if_neg h, if_neg hne]

/-! ## Bytes that are lost -/

theorem passed_again (h : q < readAt - buffer.length) : Passed q readAt (again buffer total) := by
  unfold again
  split_ifs
  · exact h
  · trivial
  · exact Nat.lt_of_lt_of_le h (Nat.sub_le ..)

/-- A byte that is lost stays lost. -/
theorem turn_lost (hs : Lost q s) (h : turn bufsiz d answer s = some t) : Lost q t := by
  obtain ⟨hq, hpassed⟩ := hs
  cases turn_cases h with
  | read hsource hloop hn hzero hbuf =>
    rw [hloop] at hpassed
    refine ⟨hq, passed_again ?_⟩
    rwa [List.length_take, Nat.min_eq_left hn, Nat.add_sub_cancel]
  | readInterrupted hloop => exact ⟨hq, hpassed⟩
  | readFailed hloop => exact ⟨hq, trivial⟩
  | @write buffer total n hloop hn hn' =>
    rw [hloop] at hpassed
    refine ⟨fun hmem => ?_, passed_again hpassed⟩
    obtain hmem | hmem := List.mem_append.1 hmem
    · exact hq hmem
    · obtain ⟨k, -, hk⟩ := List.mem_map.1 hmem
      have hlt : q < s.readAt - buffer.length := hpassed
      omega
  | writeInterrupted hloop =>
    rw [hloop] at hpassed
    exact ⟨hq, passed_again hpassed⟩
  | writeFailed hloop => exact ⟨hq, trivial⟩

/-! ## Bytes that are written -/

/-- The next chunk is read. -/
theorem Covers.read (h : Covers n written readAt (.reading : Loop α)) (buffer : List α)
    (hend : buffer = [] → n ≤ readAt) (hlt : buffer.length < 2 ^ 31) :
    Covers n written (readAt + buffer.length) (again buffer 0) := by
  obtain rfl | hne := eq_or_ne buffer []
  · exact fun p hp => (h p).2 (by have := hend rfl; omega)
  · have hpos := List.length_pos_iff.2 hne
    have hagain := again_of_lt hpos hlt
    rw [Int.natCast_zero] at hagain
    rw [hagain]
    refine ⟨0, rfl, hpos, by omega, hlt, fun p hp => (h p).2 (by omega), fun p hp => ?_⟩
    have := (h p).1 hp
    omega

/-- A part of the chunk is written. -/
theorem Covers.write {k : ℕ} (h : Covers n written readAt (.writing buffer w))
    (hle : k ≤ buffer.length - w) :
    Covers n (written ++ (List.range k).map (readAt - buffer.length + w + ·)) readAt
      (again buffer (w + k)) := by
  obtain ⟨w', hw', hw, hread, hlt, hbefore, hlast⟩ := h
  obtain rfl : w = w' := Int.ofNat.inj hw'
  have hmem : ∀ p, p ∈ written ++ (List.range k).map (readAt - buffer.length + w + ·) ↔
      p ∈ written ∨ readAt - buffer.length + w ≤ p ∧ p < readAt - buffer.length + w + k := by
    intro p
    rw [List.mem_append, List.mem_map]
    refine or_congr_right ⟨?_, fun hp => ⟨p - (readAt - buffer.length + w), ?_, by omega⟩⟩
    · rintro ⟨e, he, rfl⟩
      have := List.mem_range.1 he
      omega
    · exact List.mem_range.2 (by omega)
  rw [← Int.natCast_add]
  obtain hin | hdone := Nat.lt_or_ge (w + k) buffer.length
  · rw [again_of_lt hin hlt]
    refine ⟨w + k, rfl, hin, hread, hlt, fun p hp => (hmem p).2 ?_, fun p hp => ?_⟩
    · by_cases hold : p < readAt - buffer.length + w
      · exact .inl (hbefore p hold)
      · exact .inr ⟨by omega, by omega⟩
    · obtain hp | hp := (hmem p).1 hp
      · exact hlast p hp
      · omega
  · rw [again_done (by rw [Copy.sizeT_natCast (by omega)]; omega)
      (List.length_pos_iff.1 (by omega))]
    intro p
    rw [hmem p]
    constructor
    · rintro (hp | hp)
      · have := hlast p hp
        omega
      · omega
    · intro hp
      by_cases hold : p < readAt - buffer.length + w
      · exact .inl (hbefore p hold)
      · exact .inr ⟨by omega, by omega⟩

/-- A call of `write` is interrupted after a byte of the chunk has been counted. -/
theorem Covers.interrupted (h : Covers n written readAt (.writing buffer total))
    (hne : total ≠ 0) : Covers n written readAt (again buffer (total + -1)) := by
  obtain ⟨w, rfl, hw, hread, hlt, hbefore, hlast⟩ := h
  cases w with
  | zero => exact absurd rfl hne
  | succ w =>
    -- the byte before the total is written again
    rw [show ((w + 1 : ℕ) : ℤ) + -1 = (w : ℤ) by omega, again_of_lt (by omega) hlt]
    exact ⟨w, rfl, by omega, hread, hlt, fun p hp => hbefore p (by omega), hlast⟩

/-- The last byte of a chunk is missing as long as it is not at its end. -/
theorem Covers.last_missing (h : Covers n written readAt (.writing buffer total))
    (hle : readAt ≤ n) : readAt - 1 < n ∧ readAt - 1 ∉ written ∧ readAt - 1 < readAt := by
  obtain ⟨w, rfl, hw, hread, hlt, hbefore, hlast⟩ := h
  refine ⟨by omega, fun hmem => ?_, by omega⟩
  have := hlast _ hmem
  omega

/-- A harmless call keeps everything written. -/
theorem turn_covered (hsource : d.source = .file id) (hdest : d.dest ≠ id)
    (hs : Covered id input s) (hl : Harmless d answer s) (h : turn bufsiz d answer s = some t) :
    Covered id input t := by
  have hcontents := (turn_contents hdest h).trans hs.source
  have hcovers := hs.covers
  cases turn_cases h with
  | @read id' n hsource' hloop hn hzero hbuf =>
    rw [hsource] at hsource'
    cases hsource'
    rw [hloop] at hcovers
    rw [hs.source] at hn hzero
    have hchunk : ((input.drop s.readAt).take n).length = n := by
      rw [List.length_take, Nat.min_eq_left hn]
    rw [List.length_drop] at hn
    have hbufsiz := bufsiz.lt
    have hwithin := hs.within
    have hnext := hcovers.read ((input.drop s.readAt).take n)
      (fun hnil => List.drop_eq_nil_iff.1 (hzero (by rw [← hchunk, hnil]; rfl)))
      (by rw [hchunk]; omega)
    rw [hchunk] at hnext
    refine ⟨hcontents, ?_, ?_⟩
    · change s.readAt + n ≤ input.length
      omega
    · rw [hs.source]
      exact hnext
  | readInterrupted hloop => exact hs
  | readFailed hloop =>
    rw [hloop] at hcovers
    have hend := hl.1 rfl id hsource
    rw [hs.source] at hend
    exact ⟨hcontents, hs.within, fun p hp => (hcovers p).2 (Nat.lt_of_lt_of_le hp hend)⟩
  | @write buffer total n hloop hn hn' =>
    rw [hloop] at hcovers
    have hchunk := hcovers
    obtain ⟨w, rfl, hw, -, hlt, -⟩ := hchunk
    rw [Copy.sizeT_natCast (by omega)] at hn' hcontents ⊢
    exact ⟨hcontents, hs.within, hcovers.write hn'⟩
  | @writeInterrupted buffer total hloop =>
    rw [hloop] at hcovers
    refine ⟨hcontents, hs.within, hcovers.interrupted ?_⟩
    rintro rfl
    exact hl.2.2 rfl buffer hloop
  | writeFailed hloop => exact absurd rfl hl.2.1

/-- A call that is not harmless loses a byte. -/
theorem turn_loses (hsource : d.source = .file id) (hs : Covered id input s)
    (hl : ¬ Harmless d answer s) (h : turn bufsiz d answer s = some t) :
    ∃ q < input.length, Lost q t := by
  have hcovers := hs.covers
  cases turn_cases h with
  | read hsource' hloop hn hzero hbuf => exact absurd ⟨nofun, nofun, nofun⟩ hl
  | readInterrupted hloop => exact absurd ⟨nofun, nofun, nofun⟩ hl
  | readFailed hloop =>
    rw [hloop] at hcovers
    have hlt : s.readAt < input.length := by
      by_contra hend
      refine hl ⟨fun _ id' hid => ?_, nofun, nofun⟩
      rw [hsource] at hid
      cases hid
      rw [hs.source]
      exact not_lt.1 hend
    exact ⟨s.readAt, hlt, fun hmem => Nat.lt_irrefl _ ((hcovers _).1 hmem), trivial⟩
  | write hloop hn hn' => exact absurd ⟨nofun, nofun, nofun⟩ hl
  | @writeInterrupted buffer total hloop =>
    rw [hloop] at hcovers
    obtain ⟨hq, hmissing, hpassed⟩ := hcovers.last_missing hs.within
    obtain rfl : total = 0 := by
      by_contra hne
      refine hl ⟨nofun, nofun, fun _ buffer' hloop' => hne ?_⟩
      rw [hloop] at hloop'
      cases hloop'
      rfl
    obtain ⟨w, -, hw, -, hlt, -⟩ := hcovers
    -- the total is -1, which is more than any size
    have hagain : again buffer (0 + -1) = .reading :=
      again_done (by rw [Int.zero_add, Copy.sizeT_neg_one]; omega)
        (List.length_pos_iff.1 (by omega))
    exact ⟨_, hq, hmissing, by rw [hagain]; exact hpassed⟩
  | writeFailed hloop =>
    rw [hloop] at hcovers
    obtain ⟨hq, hmissing, -⟩ := hcovers.last_missing hs.within
    exact ⟨_, hq, hmissing, trivial⟩

/-- **When `stream` returns, all bytes of the source have been written exactly if every call was
harmless.** -/
theorem run_written_iff (hsource : d.source = .file id) (hdest : d.dest ≠ id)
    {files : FileSystem Path Place α} (h : (stream bufsiz d).run answers (start files) = some s)
    (hloop : s.loop = .returned) : (∀ p < (files.contents id).length, p ∈ s.written) ↔
      (stream bufsiz d).Along (Harmless d) answers (start files) := by
  have hstart : Covered id (files.contents id) (start files) :=
    ⟨rfl, Nat.zero_le _, fun p => iff_of_false List.not_mem_nil (Nat.not_lt_zero p)⟩
  obtain ⟨hall, hs⟩ | ⟨hall, q, hq, hs⟩ := Machine.along_or_of_run (P := Harmless d)
    (B := fun s => ∃ q < (files.contents id).length, Lost q s)
    (fun _ _ _ hs hl hact => turn_covered hsource hdest hs hl hact)
    (fun _ _ _ hs hl hact => turn_loses hsource hs hl hact)
    (fun _ _ _ ⟨q, hq, hs⟩ hact => ⟨q, hq, turn_lost hs hact⟩) h hstart
  · have hcovers := hs.covers
    rw [hloop] at hcovers
    exact iff_of_true hcovers hall
  · exact iff_of_false (fun hwritten => hs.missing (hwritten q hq)) hall

/-! ## What the destination contains -/

/-- The destination contains the bytes of the source at the offsets that have been noted, and a
chunk is what the source contains before the offset of its descriptor. -/
structure Noted (id dest : ℕ) (input : List α) (s : Copying Path Place α) : Prop where
  source : s.files.contents id = input
  atEnd : (s.files.contents dest).length = s.writeAt
  bytes : (s.files.contents dest).map some = s.written.map fun p => input[p]?
  chunk : ∀ buffer total, s.loop = .writing buffer total →
    buffer = (input.drop (s.readAt - buffer.length)).take buffer.length

/-- A chunk that is written in parts is the same chunk. -/
theorem again_writing {buffer' : List α} {total' : ℤ}
    (h : again buffer total = .writing buffer' total') : buffer' = buffer := by
  unfold again at h
  split_ifs at h
  cases h
  rfl

/-- The places of a part of a chunk. -/
theorem map_part {buffer input : List α} {a w n : ℕ}
    (hchunk : buffer = (input.drop a).take buffer.length) (hn : w + n ≤ buffer.length) :
    ((buffer.drop w).take n).map some =
      ((List.range n).map (a + w + ·)).map fun p => input[p]? := by
  have hlen : ((buffer.drop w).take n).length = n := by
    rw [List.length_take, List.length_drop]
    omega
  refine List.ext_getElem (by simp only [List.length_map, hlen, List.length_range])
    fun e he _ => ?_
  rw [List.length_map, hlen] at he
  have hbuffer : buffer[w + e]? = input[a + w + e]? := by
    rw [hchunk, List.getElem?_take_of_lt (by omega), List.getElem?_drop, Nat.add_assoc]
  simp only [List.getElem_map, List.getElem_take, List.getElem_drop, List.getElem_range]
  rw [← hbuffer, List.getElem?_eq_getElem (by omega)]

theorem turn_noted (hsource : d.source = .file id) (hdest : d.dest ≠ id)
    (hs : Noted id d.dest input s) (h : turn bufsiz d answer s = some t) :
    Noted id d.dest input t := by
  have hcontents := (turn_contents hdest h).trans hs.source
  cases turn_cases h with
  | @read id' n hsource' hloop hn hzero hbuf =>
    rw [hsource] at hsource'
    cases hsource'
    refine ⟨hcontents, hs.atEnd, hs.bytes, fun buffer total hbuffer => ?_⟩
    obtain rfl := again_writing hbuffer
    rw [List.length_take, Nat.min_eq_left hn, Nat.add_sub_cancel, hs.source]
  | readInterrupted hloop => exact hs
  | readFailed hloop => exact ⟨hcontents, hs.atEnd, hs.bytes, fun _ _ => nofun⟩
  | @write buffer total n hloop hn hn' =>
    have hchunk := hs.chunk buffer total hloop
    have hlen : ((buffer.drop (sizeT total)).take n).length = n := by
      rw [List.length_take, List.length_drop]
      omega
    have happend := FileSystem.write_append hs.atEnd ((buffer.drop (sizeT total)).take n)
    refine ⟨hcontents, ?_, ?_, fun buffer' total' hbuffer => ?_⟩
    · rw [happend, List.length_append, hs.atEnd, hlen]
    · rw [happend, List.map_append, List.map_append, hs.bytes]
      exact congrArg _ (map_part hchunk (by omega))
    · obtain rfl := again_writing hbuffer
      exact hchunk
  | @writeInterrupted buffer total hloop =>
    refine ⟨hcontents, hs.atEnd, hs.bytes, fun buffer' total' hbuffer => ?_⟩
    obtain rfl := again_writing hbuffer
    exact hs.chunk buffer' total hloop
  | writeFailed hloop => exact ⟨hcontents, hs.atEnd, hs.bytes, fun _ _ => nofun⟩

/-- **The destination contains the bytes of the source at the offsets noted**, in this order. -/
theorem run_bytes (hsource : d.source = .file id) (hdest : d.dest ≠ id)
    {files : FileSystem Path Place α} (hempty : files.contents d.dest = [])
    (h : (stream bufsiz d).run answers (start files) = some s) :
    (s.files.contents d.dest).map some = s.written.map fun p => (files.contents id)[p]? := by
  have hstart : Noted id d.dest (files.contents id) (start files) := by
    refine ⟨rfl, ?_, ?_, fun _ _ => nofun⟩ <;> simp [start, hempty]
  exact (Machine.Leads.invariant (Machine.leads_of_run h) hstart fun _ _ _ hi hact =>
    turn_noted hsource hdest hi hact).bytes

/-- There is nothing to lose of an empty source. -/
theorem Idle.harmless (hsource : d.source = .file id) (hs : Idle id s)
    (h : turn bufsiz d answer s = some t) : Harmless d answer s := by
  cases turn_cases h with
  | read hsource' hloop hn hzero hbuf => exact ⟨nofun, nofun, nofun⟩
  | readInterrupted hloop => exact ⟨nofun, nofun, nofun⟩
  | readFailed hloop =>
    refine ⟨fun _ id' hid => ?_, nofun, nofun⟩
    rw [hsource] at hid
    cases hid
    rw [hs.empty]
    exact Nat.zero_le _
  | write hloop hn hn' => exact absurd hloop (hs.loop _ _)
  | writeInterrupted hloop => exact absurd hloop (hs.loop _ _)
  | writeFailed hloop => exact absurd hloop (hs.loop _ _)

section Pstream

variable [DecidableEq Place] {limit : ℕ} {fs files : FileSystem Path Place α}
  {inPath outPath : Path} {force inDenied outDenied : Bool}

/-- Every call of `read` and `write` that `pstream` makes is harmless. -/
def HarmlessRun (bufsiz : Bufsiz) (limit : ℕ) (fs : FileSystem Path Place α)
    (inPath outPath : Path) (force inDenied outDenied : Bool) (answers : List Answer) : Prop :=
  ∀ d files, opened limit fs inPath outPath (combineOpenFlags force) inDenied outDenied =
    some (d, files) → (stream bufsiz d).Along (Harmless d) answers (start files)

/-- **When `pstream` returns 0, all bytes of the source have been written exactly if the source was
not truncated as the destination and every call was harmless.** -/
theorem success_iff_copied (h : pstream bufsiz limit fs inPath outPath (combineOpenFlags force)
    inDenied outDenied answers = some (0, files, written))
    (hin : fs.fileAt limit inPath = some id) :
    (∀ p < (fs.contents id).length, p ∈ written) ↔
      ¬ Truncates limit fs outPath force inDenied outDenied id ∧
        HarmlessRun bufsiz limit fs inPath outPath force inDenied outDenied answers := by
  obtain ⟨-, hr, -⟩ | ⟨d, fs', s, ho, hs, hloop, -, rfl, rfl⟩ := pstream_cases h
  · cases hr
  · have hrun : HarmlessRun bufsiz limit fs inPath outPath force inDenied outDenied answers ↔
        (stream bufsiz d).Along (Harmless d) answers (start fs') := by
      refine ⟨fun hall => hall d fs' ho, fun hall d' fs'' ho' => ?_⟩
      cases ho.symm.trans ho'
      exact hall
    obtain ⟨hsource, hempty, ⟨rfl, hno⟩ | ⟨hdest, hkept, hno⟩⟩ := opened_cases hin ho
    · -- nothing is written at all, and nothing was to be written if the source was empty before
      have hharmless : (stream bufsiz d).Along (Harmless d) answers (start fs') :=
        Machine.along_of_step (I := Idle d.dest)
          (fun _ _ _ hi hact => ⟨hi.harmless hsource hact, turn_idle hsource hi hact⟩) answers
          (start_idle hempty)
      rw [hrun, hno, and_iff_left hharmless, (run_idle hsource hempty hs).written]
      constructor
      · intro hall
        by_contra hne
        exact absurd (hall 0 (List.length_pos_iff.2 hne)) List.not_mem_nil
      · intro hnil p hp
        rw [hnil] at hp
        exact absurd hp (Nat.not_lt_zero p)
    · rw [hrun, ← hkept, run_written_iff hsource hdest hs hloop]
      exact (and_iff_right hno).symm

/-- **What the destination contains when `pstream` returns 0**: the bytes of the source at the
offsets that have been written, in this order. A byte that has been written twice is there twice. -/
theorem success_bytes (h : pstream bufsiz limit fs inPath outPath (combineOpenFlags force)
    inDenied outDenied answers = some (0, files, written))
    (hin : fs.fileAt limit inPath = some id) :
    ∃ d fs', opened limit fs inPath outPath (combineOpenFlags force) inDenied outDenied =
        some (d, fs') ∧
      (files.contents d.dest).map some = written.map fun p => (fs.contents id)[p]? := by
  obtain ⟨-, hr, -⟩ | ⟨d, fs', s, ho, hs, -, -, rfl, rfl⟩ := pstream_cases h
  · cases hr
  · refine ⟨d, fs', ho, ?_⟩
    obtain ⟨hsource, hempty, ⟨rfl, -⟩ | ⟨hdest, hkept, -⟩⟩ := opened_cases hin ho
    · have hidle := run_idle hsource hempty hs
      rw [hidle.empty, hidle.written]
      rfl
    · rw [← hkept]
      exact run_bytes hsource hdest hempty hs

end Pstream

/-- The byte is copied to the new file. -/
theorem success_oneFile : ∃ files,
    pstream Copy.smallest 40 oneFile 0 1 (combineOpenFlags false) false false copyByte =
      some (0, files, [0]) ∧
    ((∀ p < (oneFile.contents 0).length, p ∈ [0]) ↔
      ¬ Truncates 40 oneFile 1 false false false 0 ∧
        HarmlessRun Copy.smallest 40 oneFile 0 1 false false false copyByte) := by
  obtain ⟨files, hrun⟩ := copyByte_returns
  exact ⟨files, hrun, success_iff_copied hrun rfl⟩

/-- When `read` fails, nothing is written, and 0 is returned. -/
theorem failed_read_succeeds : ¬ ∀ (fs : FileSystem (Fin 3) (Fin 3) UInt8) inPath outPath force
    inDenied outDenied answers files written id,
    pstream Copy.smallest 40 fs inPath outPath (combineOpenFlags force) inDenied outDenied
      answers = some (0, files, written) →
    fs.fileAt 40 inPath = some id → ∀ p < (fs.contents id).length, p ∈ written := by
  intro h
  have hrun : (pstream Copy.smallest 40 oneFile 0 1 (combineOpenFlags false) false false
      [.readFailed]).map (fun x => (x.1, x.2.2)) = some (0, []) := by
    decide +kernel
  obtain ⟨⟨r, files, written⟩, hx, ho⟩ := Option.map_eq_some_iff.1 hrun
  obtain ⟨rfl, rfl⟩ := Prod.mk.inj ho
  have hmem := h oneFile 0 1 false false false _ files [] 0 hx rfl 0 (by decide)
  cases hmem

end SemOS.Mycp
