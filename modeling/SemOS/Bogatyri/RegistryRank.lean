import Mathlib.Data.Fintype.Card
import Mathlib.Data.List.OfFn
import Mathlib.Data.List.Perm.Subperm
import Mathlib.Tactic.SplitIfs
import SemOS.Bogatyri.Registry
import SemOS.Foundations.Ranking

/-!
# The ranks from the registry

The registry grows by whole lines and each process adds one, so a process that has counted `N` lines
has seen all of them, and the file is final. Every process that goes on from there reads the same
numbers.

* `sortPids_perm` and `sortPids_sorted`: the sort of one process.
* `Recorded`: the order in which the processes have registered, with what each process knows of the
  file (`Knows`); `step_recorded` is its step.
* **`ranks_agree`**: all processes read the same numbers, and their ranks are a bijection that is in
  the order of the numbers.
-/

namespace SemOS.Bogatyri.Registry

open Function Decimal Msgq

variable {N : ℕ} {system : Pids N} {s t : State N} {r : Fin N} {order : List (Fin N)}
  {p q : ℤ} {later pids : List ℤ} {offset : ℕ}

/-! ## The sort -/

/-- The exchanges of one turn keep the elements. -/
theorem exchangeLater_perm (p : ℤ) (later : List ℤ) :
    ((exchangeLater p later).1 :: (exchangeLater p later).2).Perm (p :: later) := by
  induction later generalizing p with
  | nil => exact List.Perm.refl _
  | cons q later ih =>
    rw [exchangeLater]
    split
    · exact (List.Perm.swap ..).trans ((ih q).cons p)
    · exact (List.Perm.swap ..).trans (((ih p).cons q).trans (List.Perm.swap ..))

/-- They bring the least element to the front. -/
theorem exchangeLater_least (p : ℤ) (later : List ℤ) :
    (exchangeLater p later).1 ≤ p ∧
      ∀ q ∈ (exchangeLater p later).2, (exchangeLater p later).1 ≤ q := by
  induction later generalizing p with
  | nil => exact ⟨Int.le_refl p, by simp [exchangeLater]⟩
  | cons q later ih =>
    rw [exchangeLater]
    split
    · rename_i hpq
      obtain ⟨hle, hall⟩ := ih q
      refine ⟨by simp only; omega, fun x hx => ?_⟩
      obtain rfl | hx := List.mem_cons.1 hx
      · simp only
        omega
      · exact hall x hx
    · rename_i hpq
      obtain ⟨hle, hall⟩ := ih p
      refine ⟨hle, fun x hx => ?_⟩
      obtain rfl | hx := List.mem_cons.1 hx
      · simp only
        omega
      · exact hall x hx

theorem length_exchangeLater (p : ℤ) (later : List ℤ) :
    (exchangeLater p later).2.length = later.length := by
  have := (exchangeLater_perm p later).length_eq
  simpa using this

theorem sortFrom_perm (turns : ℕ) (pids : List ℤ) : (sortFrom turns pids).Perm pids := by
  induction turns generalizing pids with
  | zero => exact List.Perm.refl _
  | succ turns ih =>
    cases pids with
    | nil => exact List.Perm.refl _
    | cons p later => exact ((ih _).cons _).trans (exchangeLater_perm p later)

theorem sortFrom_sorted {turns : ℕ} (h : pids.length ≤ turns + 1) :
    (sortFrom turns pids).Pairwise (· ≤ ·) := by
  induction turns generalizing pids with
  | zero =>
    cases pids with
    | nil => exact List.Pairwise.nil
    | cons p later =>
      obtain rfl : later = [] := List.eq_nil_of_length_eq_zero (by simpa using h)
      exact List.pairwise_singleton _ p
  | succ turns ih =>
    cases pids with
    | nil => exact List.Pairwise.nil
    | cons p later =>
      have hlen : (exchangeLater p later).2.length ≤ turns + 1 := by
        rw [length_exchangeLater]
        simpa using h
      refine List.pairwise_cons.2 ⟨fun x hx => ?_, ih hlen⟩
      exact (exchangeLater_least p later).2 x ((sortFrom_perm _ _).mem_iff.1 hx)

theorem sortPids_perm (pids : List ℤ) : (sortPids pids).Perm pids := sortFrom_perm _ pids

/-- **The sort puts distinct numbers in their order.** -/
theorem sortPids_sorted (h : pids.Nodup) : (sortPids pids).Pairwise (· < ·) := by
  have hle : (sortPids pids).Pairwise (· ≤ ·) := sortFrom_sorted (by omega)
  have hne : (sortPids pids).Nodup := (sortPids_perm pids).nodup_iff.2 h
  exact hle.imp₂ (fun a b hab hne => lt_of_le_of_ne hab hne) hne

/-! ## What the processes know of the file -/

/-- The numbers of the processes of a list. -/
def Pids.numbers (system : Pids N) (order : List (Fin N)) : List ℤ :=
  order.map fun r => (system.pid r : ℤ)

/-- The file after the processes of a list have registered, in that order. -/
def Pids.text (system : Pids N) (order : List (Fin N)) : List UInt8 :=
  lines (order.map system.pid)

/-- The process has written its line. -/
def Control.Registered : Control → Prop
  | .start | .locked => False
  | _ => True

/-- What a process knows of the file once the processes of `order` have registered. -/
def Knows (system : Pids N) (order : List (Fin N)) (r : Fin N) : Control → Prop
  | .start | .locked | .written => True
  | .waiting n => n ≤ order.length
  | .counting offset count =>
    offset ≤ (system.text order).length ∧
      count = ((system.text order).take offset).count newline
  | .reading offset pids =>
    order.length = N ∧ ∃ read rest, order = read ++ rest ∧ pids = system.numbers read ∧
      (system.text order).drop offset = (if read = [] then [] else [newline]) ++ system.text rest
  | .checking pids => order.length = N ∧ pids = system.numbers order
  | .returned rank =>
    order.length = N ∧ rank = (sortPids (system.numbers order)).idxOf (system.pid r : ℤ)
  | .failed | .overflowed => False

/-- The processes of `order`, and no others, have registered, in that order. -/
structure Recorded (system : Pids N) (order : List (Fin N)) (s : State N) : Prop where
  nodup : order.Nodup
  file : s.file = system.text order
  mem : ∀ r, r ∈ order ↔ (s.control r).Registered
  knows : ∀ r, Knows system order r (s.control r)

theorem length_le (h : order.Nodup) : order.length ≤ N := by
  have := h.length_le_card
  rwa [Fintype.card_fin] at this

/-- All processes, in some order. -/
theorem perm_ofFn (h : order.Nodup) (hlen : order.length = N) :
    (system.numbers order).Perm (List.ofFn fun r => (system.pid r : ℤ)) := by
  have hsub : order.Subperm (List.finRange N) :=
    List.subperm_of_subset h fun r _ => List.mem_finRange r
  have hperm : order.Perm (List.finRange N) :=
    hsub.perm_of_length_le (by rw [List.length_finRange, hlen])
  rw [List.ofFn_eq_map]
  exact hperm.map _

/-- What a process knows stays true when another registers, as a process that has counted `N` lines
is not followed by another. -/
theorem Knows.append {c : Control} (h : Knows system order r c) {r' : Fin N}
    (hnodup : (order ++ [r']).Nodup) : Knows system (order ++ [r']) r c := by
  have hlt : order.length ≠ N := by
    have := length_le hnodup
    rw [List.length_append, List.length_singleton] at this
    omega
  cases c with
  | start => trivial
  | locked => trivial
  | written => trivial
  | waiting n =>
    have hn : n ≤ order.length := h
    exact Nat.le_trans hn (by rw [List.length_append]; exact Nat.le_add_right _ _)
  | counting offset count =>
    obtain ⟨hle, hcount⟩ := h
    have htext : system.text (order ++ [r']) = system.text order ++ system.text [r'] := by
      rw [Pids.text, List.map_append, lines_append]
      rfl
    refine ⟨?_, ?_⟩
    · rw [htext, List.length_append]
      exact Nat.le_add_right_of_le hle
    · rw [htext, List.take_append_of_le_length hle]
      exact hcount
  | reading offset pids => exact absurd h.1 hlt
  | checking pids => exact absurd h.1 hlt
  | returned rank => exact absurd h.1 hlt
  | failed => exact h
  | overflowed => exact h

/-! ## The steps of a reader -/

/-- A byte of the lines is counted. -/
theorem knows_countByte {count : ℕ} (h : Knows system order r (.counting offset count)) :
    Knows system order r (countByte (system.text order) offset count) := by
  obtain ⟨hle, rfl⟩ := h
  rw [countByte]
  cases hget : (system.text order)[offset]? with
  | none =>
    have hend : (system.text order).length ≤ offset := List.getElem?_eq_none_iff.1 hget
    have hcount : ((system.text order).take offset).count newline = order.length := by
      rw [List.take_of_length_le hend, Pids.text, count_lines, List.length_map]
    exact Nat.le_of_eq hcount
  | some c =>
    have hc : c ≠ 255 := mem_lines_ne (List.mem_of_getElem? hget)
    have hlt : offset < (system.text order).length := by
      by_contra hge
      rw [List.getElem?_eq_none_iff.2 (by omega)] at hget
      cases hget
    simp only [if_neg hc]
    refine ⟨hlt, ?_⟩
    rw [List.take_add_one, hget, Option.toList_some, List.count_append]
    by_cases hnew : c = newline
    · rw [if_pos hnew, hnew, List.count_singleton_self]
    · rw [if_neg hnew, List.count_eq_zero.2 fun h => hnew (List.mem_singleton.1 h).symm]
      rfl

/-- A number of the lines is read. -/
theorem knows_readPid (h : Knows system order r (.reading offset pids)) :
    Knows system order r (readPid (system.text order) offset pids) := by
  obtain ⟨hlen, read, rest, horder, rfl, hdrop⟩ := h
  have hblanks : (if read = [] then [] else [newline]) = [] ∨
      (if read = [] then [] else [newline]) = [newline] := by
    split
    · exact Or.inl rfl
    · exact Or.inr rfl
  rw [readPid, hdrop]
  cases rest with
  | nil =>
    rw [List.append_nil] at horder
    have hend : scanInt ((if read = [] then [] else [newline]) ++ system.text []) = none :=
      scanInt_end hblanks
    rw [hend, ← horder]
    exact ⟨hlen, rfl⟩
  | cons x rest =>
    obtain ⟨used, hscan, hrest⟩ := scanInt_lines hblanks (system.pid x) (rest.map system.pid)
    have hscan' : scanInt ((if read = [] then [] else [newline]) ++ system.text (x :: rest)) =
      some ((system.pid x : ℤ), used) := hscan
    have hroom : (system.numbers read).length < maxProcesses := by
      have hmax := system.le_max
      have := congrArg List.length horder
      rw [List.length_append, List.length_cons] at this
      rw [Pids.numbers, List.length_map]
      omega
    rw [hscan']
    simp only [if_pos hroom]
    refine ⟨hlen, read ++ [x], rest, by simp [horder], by simp [Pids.numbers], ?_⟩
    have hdone : (if read ++ [x] = [] then [] else [newline]) = [newline] := if_neg (by simp)
    rw [hdone, ← List.drop_drop, hdrop]
    exact hrest

/-- The number of the process is found. -/
theorem knows_rankOf (hmem : r ∈ order) (h : Knows system order r (.checking pids)) :
    Knows system order r (rankOf N pids (system.pid r)) := by
  obtain ⟨hlen, rfl⟩ := h
  have hin : (system.pid r : ℤ) ∈ sortPids (system.numbers order) :=
    (sortPids_perm _).mem_iff.2 (List.mem_map.2 ⟨r, hmem, rfl⟩)
  rw [rankOf, if_neg (by simp [Pids.numbers, hlen]), findMyRankInSortedPids,
    Ranking.idxOf?_of_mem hin]
  exact ⟨hlen, rfl⟩

/-! ## The steps of all -/

/-- A step of a process that has registered, or that does not. -/
theorem Recorded.goto (h : Recorded system order s) {c : Control} {lock : Option (Fin N)}
    (hmem : r ∈ order ↔ c.Registered) (hknows : Knows system order r c) :
    Recorded system order { s.goto r c with lock := lock } := by
  refine ⟨h.nodup, h.file, fun r' => ?_, fun r' => ?_⟩
  · by_cases hr : r' = r
    · subst hr
      simpa using hmem
    · simpa [hr] using h.mem r'
  · by_cases hr : r' = r
    · subst hr
      simpa using hknows
    · simpa [hr] using h.knows r'

/-- A process registers. -/
theorem Recorded.append (h : Recorded system order s) (hc : s.control r = .locked) :
    Recorded system (order ++ [r])
      { s.goto r .written with file := s.file ++ lines [system.pid r] } := by
  have hnot : r ∉ order := by
    rw [h.mem, hc]
    exact id
  have hnodup : (order ++ [r]).Nodup := List.nodup_append.2
    ⟨h.nodup, List.nodup_singleton r, fun a ha b hb hab =>
      hnot (List.mem_singleton.1 hb ▸ hab ▸ ha)⟩
  refine ⟨hnodup, ?_, fun r' => ?_, fun r' => ?_⟩
  · rw [Pids.text, List.map_append, lines_append, ← Pids.text, ← h.file]
    rfl
  · by_cases hr : r' = r
    · subst hr
      simp [Control.Registered]
    · simpa [hr] using h.mem r'
  · by_cases hr : r' = r
    · subst hr
      simp [Knows]
    · simpa [hr] using (h.knows r').append hnodup

theorem registered_countByte (file : List UInt8) (offset count : ℕ) :
    (countByte file offset count).Registered := by
  rw [countByte]
  split
  · trivial
  · split <;> trivial

theorem registered_readPid (file : List UInt8) (offset : ℕ) (pids : List ℤ) :
    (readPid file offset pids).Registered := by
  rw [readPid]
  split
  · split <;> trivial
  · trivial

theorem registered_rankOf (N : ℕ) (pids : List ℤ) (myPid : ℤ) :
    (rankOf N pids myPid).Registered := by
  rw [rankOf]
  split
  · trivial
  · split <;> trivial

theorem step_recorded (h : Recorded system order s) (hm : Moves system r s t) :
    ∃ order', Recorded system order' t := by
  have hr := h.mem r
  have hk := h.knows r
  cases hm with
  | lock hc hl =>
    rw [hc] at hr
    exact ⟨order, h.goto hr trivial⟩
  | append hc => exact ⟨order ++ [r], h.append hc⟩
  | unlock hc =>
    rw [hc] at hr
    exact ⟨order, h.goto hr (Nat.zero_le _)⟩
  | count hc hn =>
    rw [hc] at hr
    exact ⟨order, h.goto hr ⟨Nat.zero_le _, rfl⟩⟩
  | @pass n hc hn =>
    rw [hc] at hr hk
    have hcounted : n ≤ order.length := hk
    have hlen : order.length = N := by
      have := length_le h.nodup
      omega
    exact ⟨order, h.goto hr ⟨hlen, [], order, rfl, rfl, rfl⟩⟩
  | byte hc =>
    rw [hc] at hr hk
    rw [h.file]
    exact ⟨order, h.goto (hr.trans (iff_of_true trivial (registered_countByte ..)))
      (knows_countByte hk)⟩
  | number hc =>
    rw [hc] at hr hk
    rw [h.file]
    exact ⟨order, h.goto (hr.trans (iff_of_true trivial (registered_readPid ..)))
      (knows_readPid hk)⟩
  | finish hc =>
    rw [hc] at hr hk
    exact ⟨order, h.goto (hr.trans (iff_of_true trivial (registered_rankOf ..)))
      (knows_rankOf (hr.2 trivial) hk)⟩

theorem reachable_recorded (h : (machine system).Reachable s) :
    ∃ order, Recorded system order s := by
  refine h.invariant (I := fun s => ∃ order, Recorded system order s) (fun s hs => ?_)
    fun r s t hs ht => ?_
  · cases hs
    exact ⟨[], List.nodup_nil, rfl, fun r => by simp [initial, Control.Registered],
      fun r => trivial⟩
  · obtain ⟨order, hs⟩ := hs
    exact step_recorded hs (step_moves ht)

/-- **All processes read the same numbers, none fails, and the ranks are a bijection in the order of
the process numbers.** -/
theorem ranks_agree (system : Pids N) :
    ∃ rank : Fin N → Fin N, Bijective rank ∧
      (∀ q r, rank q < rank r ↔ system.pid q < system.pid r) ∧
      ∀ s, (machine system).Reachable s → ∀ r,
        s.control r ≠ .failed ∧ s.control r ≠ .overflowed ∧
          (∀ pids, s.control r = .checking pids →
            pids.Perm (List.ofFn fun r => (system.pid r : ℤ))) ∧
          ∀ n, s.control r = .returned n → n = rank r := by
  have hinj : Injective fun r => (system.pid r : ℤ) := fun q r h =>
    system.injective (Int.natCast_inj.1 h)
  have hasymm : ∀ a b : ℤ, a < b → ¬ b < a := fun a b h => not_lt_of_gt h
  have hsort : ∀ pids : List ℤ, pids.Perm (List.ofFn fun r => (system.pid r : ℤ)) →
      (sortPids pids).Perm (List.ofFn fun r => (system.pid r : ℤ)) ∧
        (sortPids pids).Pairwise (· < ·) := fun pids h =>
    ⟨(sortPids_perm pids).trans h, sortPids_sorted (Ranking.nodup_of_perm h hinj)⟩
  obtain ⟨hperm, hlt⟩ := hsort _ (List.Perm.refl _)
  obtain ⟨rank, hbij, hplace, horder⟩ := Ranking.exists_ranking hasymm hperm hinj hlt
  refine ⟨rank, hbij, fun q r => (horder q r).trans Int.ofNat_lt, fun s hs r => ?_⟩
  obtain ⟨order, h⟩ := reachable_recorded hs
  have hk := h.knows r
  refine ⟨fun hc => ?_, fun hc => ?_, fun pids hc => ?_, fun n hc => ?_⟩
  · rw [hc] at hk
    exact hk
  · rw [hc] at hk
    exact hk
  · rw [hc] at hk
    obtain ⟨hlen, rfl⟩ := hk
    exact perm_ofFn h.nodup hlen
  · rw [hc] at hk
    obtain ⟨hlen, rfl⟩ := hk
    obtain ⟨hperm', hlt'⟩ := hsort _ (perm_ofFn h.nodup hlen)
    rw [hplace, Ranking.eq_of_perm hasymm (hperm'.trans hperm.symm) hlt' hlt]

/-- Two processes, of the numbers 12 and 7. -/
def two : Pids 2 where
  pid r := if (r : ℕ) = 0 then 12 else 7
  pos := by decide
  lt := by decide
  injective := by decide
  le_max := by decide

/-- A run of the two: both register, and then one after the other counts, reads and returns. -/
def twoSchedule : List (Fin 2) :=
  [0, 0, 0, 1, 1, 1] ++ List.replicate 12 0 ++ List.replicate 12 1

/-- The process of the number 12 returns the rank 1, the other one the rank 0, as the bijection has
them. -/
theorem ranks_of_two : ∃ s, (machine two).run twoSchedule (initial 2) = some s ∧
    s.control 0 = .returned 1 ∧ s.control 1 = .returned 0 ∧
      ∃ rank : Fin 2 → Fin 2, Bijective rank ∧ rank 0 = 1 ∧ rank 1 = 0 := by
  obtain ⟨rank, hbij, -, hrun⟩ := ranks_agree two
  obtain ⟨s, hs⟩ : ∃ s, (machine two).run twoSchedule (initial 2) = some s :=
    Option.isSome_iff_exists.1 (by decide +kernel)
  have hend : ((machine two).run twoSchedule (initial 2)).map
      (fun s => (s.control 0, s.control 1)) = some (.returned 1, .returned 0) := by
    decide +kernel
  rw [hs] at hend
  obtain ⟨h₀, h₁⟩ := Prod.mk.inj (Option.some.inj hend)
  have hreach : (machine two).Reachable s := Machine.reachable_of_run rfl hs
  exact ⟨s, hs, h₀, h₁, rank, hbij, Fin.ext ((hrun s hreach 0).2.2.2 1 h₀).symm,
    Fin.ext ((hrun s hreach 1).2.2.2 0 h₁).symm⟩

end SemOS.Bogatyri.Registry
