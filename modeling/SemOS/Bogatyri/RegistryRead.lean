import Mathlib.Data.Int.Order.Basic
import SemOS.Bogatyri.Registry
import SemOS.Foundations.Memory

/-!
# Reading the registry

`read_all_pids_from_file` of `sems/bogatyri/msgq_bogatyri.c`, on a file of any bytes. `fscanf` has
stored its number to `pids[count]` before `count < max_pids` is asked.

* `Conversion`: what `%d` stores for an integer, which is not defined for those that are no `int`.
* `readLoop_loops`: what the loop stores and returns, whatever is in the file.
* **`readsPids_iff`**: it stores only inside the array and returns the integers of the file exactly
  when there are no more of them than `max_pids`, and all are of the type `int`.
* `reading_reaches`: a process of `step` that reads the file by itself ends in the same way.
-/

namespace SemOS.Bogatyri.Registry

open Decimal Memory Msgq

/-- An integer of the type `int`. -/
def IsInt (x : ℤ) : Prop := -2 ^ 31 ≤ x ∧ x < 2 ^ 31

/-- What `fscanf` with `%d` stores for an integer. -/
structure Conversion where
  convert : ℤ → Int32
  toInt_convert : ∀ x, IsInt x → (convert x).toInt = x

/-- The low bits of the integer. -/
def lowBits : Conversion where
  convert := Int32.ofInt
  toInt_convert _ hx := Int32.toInt_ofInt_of_le hx.1 hx.2

/-- The variables of `read_all_pids_from_file`, with the indices of `pids` that it has stored to. -/
structure Reading where
  count : ℕ
  memory : ℤ → Int32
  stored : List ℕ

/-- The store of `fscanf` to `pids[count]`. -/
def Reading.scanned (r : Reading) (c : Conversion) (pids value : ℤ) : Reading :=
  { r with
    memory := store r.memory (pids + r.count) [c.convert value]
    stored := r.stored ++ [r.count] }

/-- The loop of `read_all_pids_from_file`, with these bytes in front of it. -/
def readLoop (c : Conversion) (pids : ℤ) (maxPids : ℕ) (bytes : List UInt8) (r : Reading) :
    Reading :=
  match _h : scanInt bytes with
  | none => r
  | some (value, used) =>
    let r := r.scanned c pids value
    if r.count < maxPids then
      readLoop c pids maxPids (bytes.drop used) { r with count := r.count + 1 }
    else r
termination_by bytes.length
decreasing_by exact length_drop_scanInt _h

/-- `read_all_pids_from_file`, with `none` for `exit(1)` when there is no file. -/
def readAllPidsFromFile (c : Conversion) (memory : ℤ → Int32) (pids : ℤ) (maxPids : ℕ)
    (file : Option (List UInt8)) : Option Reading :=
  file.map fun bytes => readLoop c pids maxPids bytes ⟨0, memory, []⟩

variable {c : Conversion} {pids x : ℤ} {maxPids used : ℕ} {bytes : List UInt8} {r r' : Reading}
  {l : List ℤ}

/-! ## The loop -/

@[simp] theorem Reading.scanned_count : (r.scanned c pids x).count = r.count := rfl

@[simp] theorem Reading.scanned_stored : (r.scanned c pids x).stored = r.stored ++ [r.count] := rfl

theorem Reading.scanned_memory (r : Reading) :
    (r.scanned c pids x).memory (pids + r.count) = c.convert x := by
  simp [Reading.scanned, store]

/-- The elements before `pids[count]` stay. -/
theorem Reading.load_scanned (r : Reading) :
    load (r.scanned c pids x).memory pids r.count = load r.memory pids r.count :=
  load_congr fun _ hd => store_of_lt (by omega)

theorem Reading.load_scanned_succ (r : Reading) :
    load (r.scanned c pids x).memory pids (r.count + 1) =
      load r.memory pids r.count ++ [c.convert x] :=
  load_store_append r.memory pids r.count [c.convert x]

/-- What the loop does with the integers `l` in front of it: of those that have no room left in
`pids` the first is stored behind it. -/
structure Loops (c : Conversion) (pids : ℤ) (maxPids : ℕ) (l : List ℤ) (r r' : Reading) : Prop where
  count : r'.count = min maxPids (r.count + l.length)
  load : load r'.memory pids r'.count =
    load r.memory pids r.count ++ (l.take (maxPids - r.count)).map c.convert
  behind : ∀ x, l[maxPids - r.count]? = some x → r'.memory (pids + maxPids) = c.convert x
  stored : r'.stored =
    r.stored ++ List.range' r.count (min l.length (maxPids - r.count + 1))

theorem Loops.nil (h : r.count ≤ maxPids) : Loops c pids maxPids [] r r := by
  refine ⟨?_, ?_, fun x hx => ?_, ?_⟩
  · rw [List.length_nil, Nat.add_zero, min_eq_right h]
  · rw [List.take_nil, List.map_nil, List.append_nil]
  · rw [List.getElem?_nil] at hx
    cases hx
  · rw [List.length_nil, Nat.zero_min, List.range'_zero, List.append_nil]

/-- The array is full: the integer is stored behind it. -/
theorem Loops.full (h : r.count = maxPids) :
    Loops c pids maxPids (x :: l) r (r.scanned c pids x) := by
  refine ⟨?_, ?_, fun y hy => ?_, ?_⟩
  · rw [Reading.scanned_count, h, min_eq_left (Nat.le_add_right _ _)]
  · rw [Reading.scanned_count, r.load_scanned, h, Nat.sub_self, List.take_zero, List.map_nil,
      List.append_nil]
  · rw [h, Nat.sub_self, List.getElem?_cons_zero] at hy
    rw [← h, r.scanned_memory, Option.some.inj hy]
  · rw [Reading.scanned_stored, h, Nat.sub_self, Nat.zero_add, List.length_cons,
      min_eq_right (Nat.succ_pos _), List.range'_one]

/-- There is room. -/
theorem Loops.next (h : r.count < maxPids)
    (hl : Loops c pids maxPids l { r.scanned c pids x with count := r.count + 1 } r') :
    Loops c pids maxPids (x :: l) r r' := by
  obtain ⟨d, hd⟩ : ∃ d, maxPids - r.count = d + 1 := ⟨maxPids - r.count - 1, by omega⟩
  have hd' : maxPids - (r.count + 1) = d := by omega
  obtain ⟨hcount, hload, hbehind, hstored⟩ := hl
  dsimp only at hcount hload hbehind hstored
  refine ⟨?_, ?_, fun y hy => ?_, ?_⟩
  · rw [hcount, List.length_cons, Nat.add_assoc, Nat.add_comm 1]
  · rw [hload, r.load_scanned_succ, hd, hd', List.take_succ_cons, List.map_cons,
      List.append_assoc, List.singleton_append]
  · rw [hd, List.getElem?_cons_succ] at hy
    exact hbehind y (by rw [hd']; exact hy)
  · rw [hstored, Reading.scanned_stored, hd, hd', List.length_cons, Nat.succ_min_succ,
      List.range'_succ, List.append_assoc, List.singleton_append]

theorem readLoop_of_none (h : scanInt bytes = none) : readLoop c pids maxPids bytes r = r := by
  rw [readLoop]
  split
  · rfl
  · rename_i hsome
    rw [h] at hsome
    cases hsome

theorem readLoop_of_some (h : scanInt bytes = some (x, used)) :
    readLoop c pids maxPids bytes r =
      if r.count < maxPids then
        readLoop c pids maxPids (bytes.drop used) { r.scanned c pids x with count := r.count + 1 }
      else r.scanned c pids x := by
  rw [readLoop]
  split
  · rename_i hnone
    rw [h] at hnone
    cases hnone
  · rename_i hsome
    rw [h] at hsome
    cases hsome
    rfl

/-- **The loop**, whatever is in the file. -/
theorem readLoop_loops (h : r.count ≤ maxPids) :
    Loops c pids maxPids (integers bytes) r (readLoop c pids maxPids bytes r) := by
  induction bytes using integers.induct generalizing r with
  | case1 bytes hnone =>
    rw [integers_of_none hnone, readLoop_of_none hnone]
    exact .nil h
  | case2 bytes value used hsome ih =>
    rw [integers_of_some hsome, readLoop_of_some hsome]
    split
    · rename_i hlt
      exact .next hlt (ih (Nat.succ_le_of_lt hlt))
    · rename_i hge
      exact .full (h.antisymm (Nat.le_of_not_lt hge))

/-! ## The bounds of the array -/

/-- What `read_all_pids_from_file` is for: it stores inside `pids`, and returns with as many of the
integers of the file as there is room for. -/
structure ReadsPids (pids : ℤ) (maxPids : ℕ) (bytes : List UInt8) (r : Reading) : Prop where
  inside : ∀ i ∈ r.stored, i < maxPids
  count : r.count = min maxPids (integers bytes).length
  pids : (load r.memory pids r.count).map Int32.toInt = (integers bytes).take r.count

/-- Whatever is in the file, the smaller of `max_pids` and the number of its integers is returned,
with what `%d` stores for so many of them. A number for which there is no room is stored behind the
array. -/
theorem readAllPidsFromFile_eq (c : Conversion) (memory : ℤ → Int32) (pids : ℤ) (maxPids : ℕ)
    (bytes : List UInt8) :
    ∃ r, readAllPidsFromFile c memory pids maxPids (some bytes) = some r ∧
      r.count = min maxPids (integers bytes).length ∧
      load r.memory pids r.count = ((integers bytes).take r.count).map c.convert ∧
      (∀ x, (integers bytes)[maxPids]? = some x → r.memory (pids + maxPids) = c.convert x) ∧
      r.stored = List.range (min (integers bytes).length (maxPids + 1)) := by
  have hloops : Loops c pids maxPids (integers bytes) ⟨0, memory, []⟩
      (readLoop c pids maxPids bytes ⟨0, memory, []⟩) := readLoop_loops (Nat.zero_le maxPids)
  obtain ⟨hcount, hload, hbehind, hstored⟩ := hloops
  refine ⟨_, rfl, ?_, ?_, hbehind, ?_⟩
  · rw [hcount, Nat.zero_add]
  · rw [hload, hcount, Nat.zero_add, Nat.sub_zero, load_zero, List.nil_append, ← List.take_take,
      List.take_length]
  · rw [hstored, List.nil_append, Nat.sub_zero, List.range_eq_range']

/-- All stores are inside the array exactly when there are no more integers than `max_pids`. -/
theorem forall_stored_lt_iff {n : ℕ} :
    (∀ i ∈ List.range (min n (maxPids + 1)), i < maxPids) ↔ n ≤ maxPids := by
  simp only [List.mem_range]
  constructor
  · intro h
    by_contra hlt
    exact lt_irrefl maxPids (h maxPids (by omega))
  · intro h i hi
    omega

/-- What is stored for some integers is these integers exactly when all are of the type `int`. -/
theorem map_toInt_convert_iff : (l.map c.convert).map Int32.toInt = l ↔ ∀ x ∈ l, IsInt x := by
  have hone : ∀ x, (c.convert x).toInt = x ↔ IsInt x := by
    refine fun x => ⟨fun h => ?_, c.toInt_convert x⟩
    rw [← h]
    exact ⟨Int32.le_toInt _, Int32.toInt_lt _⟩
  rw [List.map_map]
  calc l.map (Int32.toInt ∘ c.convert) = l
      ↔ l.map (Int32.toInt ∘ c.convert) = l.map id := by rw [List.map_id]
    _ ↔ ∀ x ∈ l, (c.convert x).toInt = x := List.map_inj_left
    _ ↔ ∀ x ∈ l, IsInt x := forall₂_congr fun x _ => hone x

/-- **`read_all_pids_from_file` stores inside its array and returns the integers of the file**
exactly when there are no more than `max_pids` of them, and all are of the type `int`. -/
theorem readsPids_iff (c : Conversion) (memory : ℤ → Int32) (pids : ℤ) (maxPids : ℕ)
    (bytes : List UInt8) :
    (∃ r, readAllPidsFromFile c memory pids maxPids (some bytes) = some r ∧
      ReadsPids pids maxPids bytes r) ↔
      (integers bytes).length ≤ maxPids ∧ ∀ x ∈ integers bytes, IsInt x := by
  obtain ⟨r, hr, hcount, hload, -, hstored⟩ := readAllPidsFromFile_eq c memory pids maxPids bytes
  have hreads : ReadsPids pids maxPids bytes r ↔
      (integers bytes).length ≤ maxPids ∧ ∀ x ∈ (integers bytes).take r.count, IsInt x := by
    rw [← forall_stored_lt_iff, ← hstored, ← map_toInt_convert_iff (c := c), ← hload]
    exact ⟨fun h => ⟨h.inside, h.pids⟩, fun h => ⟨h.1, hcount, h.2⟩⟩
  have htake : (integers bytes).length ≤ maxPids →
      (integers bytes).take r.count = integers bytes := by
    intro hle
    rw [hcount, min_eq_right hle, List.take_length]
  rw [hr]
  simp only [Option.some.injEq, exists_eq_left', hreads]
  exact and_congr_right fun hle => by rw [htake hle]

/-- With 129 process numbers in the registry, the last one is stored behind the array of
`get_my_rank`. -/
theorem stored_behind_array : ¬ ∀ (c : Conversion) (memory : ℤ → Int32) (pids : ℤ) (maxPids : ℕ),
    1 ≤ maxPids → ∀ bytes : List UInt8, (∀ x ∈ integers bytes, IsInt x) →
      ∃ r, readAllPidsFromFile c memory pids maxPids (some bytes) = some r ∧
        ReadsPids pids maxPids bytes r := by
  intro h
  have hfile : integers (lines (List.range' 1 129)) = (List.range' 1 129).map Nat.cast := by
    rw [← List.nil_append (lines _)]
    exact integers_lines (.inl rfl) _
  have hint : ∀ x ∈ integers (lines (List.range' 1 129)), IsInt x := by
    rw [hfile]
    intro x hx
    obtain ⟨n, hn, rfl⟩ := List.mem_map.1 hx
    rw [List.mem_range'_1] at hn
    exact ⟨by omega, by omega⟩
  obtain ⟨r, hr, hreads⟩ := h lowBits (fun _ => 0) 0 maxProcesses (by decide) _ hint
  obtain ⟨r', hr', -, -, -, hstored⟩ := readAllPidsFromFile_eq lowBits (fun _ => 0) 0 maxProcesses
    (lines (List.range' 1 129))
  obtain rfl := Option.some.inj (hr.symm.trans hr')
  have hlen : (integers (lines (List.range' 1 129))).length = 129 := by
    rw [hfile, List.length_map, List.length_range']
  have hlt := hreads.inside maxProcesses (by rw [hstored, hlen]; decide)
  exact lt_irrefl _ hlt

/-! ## The processes -/

/-- Where a process in `read_all_pids_from_file` comes to by itself: to the end of it when there is
room for the integers of the file, and behind its array when there is not. -/
theorem reading_reaches (file : List UInt8) (offset : ℕ) (pids : List ℤ)
    (h : pids.length ≤ maxProcesses) :
    Relation.ReflTransGen
      (fun a b => ∃ offset pids, a = .reading offset pids ∧ b = readPid file offset pids)
      (.reading offset pids)
      (if pids.length + (integers (file.drop offset)).length ≤ maxProcesses then
        .checking (pids ++ integers (file.drop offset)) else .overflowed) := by
  generalize hbytes : file.drop offset = bytes
  induction bytes using integers.induct generalizing offset pids with
  | case1 bytes hnone =>
    rw [integers_of_none hnone, List.length_nil, Nat.add_zero, if_pos h, List.append_nil]
    refine .single ⟨offset, pids, rfl, ?_⟩
    rw [readPid, hbytes, hnone]
  | case2 bytes value used hsome ih =>
    rw [integers_of_some hsome, List.length_cons]
    have hstep : readPid file offset pids =
        if pids.length < maxProcesses then .reading (offset + used) (pids ++ [value])
        else .overflowed := by
      rw [readPid, hbytes, hsome]
    by_cases hlt : pids.length < maxProcesses
    · rw [if_pos hlt] at hstep
      have hrest := ih (offset + used) (pids ++ [value])
        (by rw [List.length_append, List.length_singleton]; exact hlt)
        (by rw [← List.drop_drop, hbytes])
      rw [List.length_append, List.length_singleton, List.append_assoc, List.singleton_append,
        Nat.add_assoc, Nat.add_comm 1] at hrest
      exact .head ⟨offset, pids, rfl, hstep.symm⟩ hrest
    · rw [if_neg hlt] at hstep
      rw [if_neg (by omega)]
      exact .single ⟨offset, pids, rfl, hstep.symm⟩

end SemOS.Bogatyri.Registry
