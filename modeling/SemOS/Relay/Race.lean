import Mathlib.Data.Nat.Notation
import Mathlib.Logic.Basic
import Mathlib.Order.Interval.Finset.Nat

/-!
# The order of a relay race

The two programs of `sems/5week` print the same lines: a judge counts `N` runners as ready and
gives the start, and the runners, numbered from 1, start one after the other. `InOrder` says what
the order of a race is in terms of the lines printed, and `mem_of_count_le_one` is the count of the
judge: `N` different runners are all of them.
-/

namespace SemOS.Relay

/-- What the judge and the runners print. -/
inductive Line
  /-- `Runner n: ready`. -/
  | ready (number : ℕ)
  /-- `Judge: Runner n ready`. -/
  | judgeReady (number : ℕ)
  /-- `Judge: All runners are ready, start the relay race`. -/
  | allReady
  /-- `Runner n: start!`. -/
  | start (number : ℕ)
  /-- `Runner n: finish!`. -/
  | finish (number : ℕ)
  /-- `Judge: Last runner finished`. -/
  | lastFinished
  deriving DecidableEq

/-- The runners that the judge has counted as ready, in its order. -/
def judged (output : List Line) : List ℕ :=
  output.filterMap fun
    | .judgeReady n => some n
    | _ => none

theorem judged_append (output lines : List Line) :
    judged (output ++ lines) = judged output ++ judged lines :=
  List.filterMap_append

/-- The order of a race of `N` runners, where `readySent n` says that runner `n` has sent its ready
message, and `startSent` that the judge has sent the start message. -/
structure InOrder (N : ℕ) (output : List Line) (readySent : ℕ → Prop) (startSent : Prop) :
    Prop where
  /-- A runner starts only after all have sent their ready messages, -/
  ready : ∀ i, .start i ∈ output → ∀ j, 1 ≤ j → j ≤ N → readySent j
  /-- the judge has received the ready message of each, -/
  counted : ∀ i, .start i ∈ output → ∀ j, 1 ≤ j → j ≤ N → j ∈ judged output
  /-- it has sent the start message, -/
  signal : ∀ i, .start i ∈ output → startSent
  /-- and the runner before has started. -/
  before : ∀ i, 1 < i → .start i ∈ output → .start (i - 1) ∈ output
  once : ∀ i, output.count (.start i) ≤ 1
  last : .lastFinished ∈ output → .start N ∈ output

/-- Before anybody starts the order is kept. -/
theorem InOrder.of_silent {N : ℕ} {output : List Line} {readySent : ℕ → Prop} {startSent : Prop}
    (hstart : ∀ i, .start i ∉ output) (hlast : .lastFinished ∉ output) :
    InOrder N output readySent startSent := by
  refine ⟨fun i hi => absurd hi (hstart i), fun i hi => absurd hi (hstart i),
    fun i hi => absurd hi (hstart i), fun i _ hi => absurd hi (hstart i), fun i => ?_,
    fun h => absurd h hlast⟩
  rw [List.count_eq_zero_of_not_mem (hstart i)]
  exact Nat.zero_le _

/-- Once the race is on: the runners `1, …, p` have started. -/
theorem InOrder.of_started {N p : ℕ} {output : List Line} {readySent : ℕ → Prop}
    {startSent : Prop} (hready : ∀ j, 1 ≤ j → j ≤ N → readySent j)
    (hcounted : ∀ j, 1 ≤ j → j ≤ N → j ∈ judged output) (hsignal : startSent)
    (hstart : ∀ i, output.count (.start i) = if 1 ≤ i ∧ i ≤ p then 1 else 0)
    (hlast : .lastFinished ∈ output → 1 ≤ N ∧ N ≤ p) :
    InOrder N output readySent startSent := by
  have hmem : ∀ i, .start i ∈ output ↔ 1 ≤ i ∧ i ≤ p := by
    intro i
    rw [← List.count_pos_iff, hstart]
    split_ifs with hi <;> simp [hi]
  refine ⟨fun _ _ => hready, fun _ _ => hcounted, fun _ _ => hsignal, fun i hi hmem' => ?_,
    fun i => ?_, fun h => (hmem N).2 (hlast h)⟩
  · have := (hmem i).1 hmem'
    exact (hmem _).2 (by omega)
  · rw [hstart]
    split_ifs <;> omega

/-- Once the race is on: all runners are counted, and `p` have started. -/
structure Racing (N p : ℕ) (output : List Line) : Prop where
  counted : ∀ j, 1 ≤ j → j ≤ N → j ∈ judged output
  distinct : (judged output).Nodup
  start : ∀ n, output.count (.start n) = if 1 ≤ n ∧ n ≤ p then 1 else 0

/-- The next runner starts. -/
theorem Racing.start_next {N p : ℕ} {output : List Line} (h : Racing N p output) :
    Racing N (p + 1) (output ++ [.start (p + 1)]) := by
  have hjudged : judged (output ++ [.start (p + 1)]) = judged output :=
    (judged_append ..).trans (List.append_nil _)
  refine ⟨by rw [hjudged]; exact h.counted, by rw [hjudged]; exact h.distinct, fun n => ?_⟩
  rw [List.count_append, h.start, List.count_singleton]
  simp only [beq_iff_eq, Line.start.injEq]
  split_ifs <;> omega

/-- Another line is printed. -/
theorem Racing.append {N p : ℕ} {output : List Line} {line : Line} (h : Racing N p output)
    (hcount : judged [line] = []) (hline : ∀ n, line ≠ .start n) :
    Racing N p (output ++ [line]) := by
  have hjudged : judged (output ++ [line]) = judged output := by
    rw [judged_append, hcount, List.append_nil]
  refine ⟨by rw [hjudged]; exact h.counted, by rw [hjudged]; exact h.distinct, fun n => ?_⟩
  rw [List.count_append, h.start, List.count_singleton]
  simp [hline n]

/-- `N` different runners are all of them. -/
theorem mem_of_count_le_one {N : ℕ} {l : List ℕ} (hl : ∀ n ∈ l, 1 ≤ n ∧ n ≤ N)
    (hcount : ∀ n, l.count n ≤ 1) (hlen : N ≤ l.length) {j : ℕ} (h1 : 1 ≤ j) (hj : j ≤ N) :
    j ∈ l := by
  have hnodup : l.Nodup := List.nodup_iff_count_le_one.2 hcount
  have hsub : l.toFinset ⊆ Finset.Icc 1 N := by
    intro n hn
    exact Finset.mem_Icc.2 (hl n (List.mem_toFinset.1 hn))
  have hcard : (Finset.Icc 1 N).card ≤ l.toFinset.card := by
    rw [Nat.card_Icc, List.toFinset_card_of_nodup hnodup]
    omega
  have := Finset.eq_of_subset_of_card_le hsub hcard
  rw [← List.mem_toFinset, this]
  exact Finset.mem_Icc.2 ⟨h1, hj⟩

/-! ## Up to the start message -/

/-- The judge counts: of every ready message sent, one instance is pending or has been counted.
`sent n` says that runner `n` has sent its ready message, `pending n` how often it is pending, and
`k` how many messages the judge has counted. -/
structure Gathering (N k : ℕ) (sent : ℕ → Prop) (pending : ℕ → ℕ) (output : List Line) :
    Prop where
  range : ∀ n, sent n → 1 ≤ n ∧ n ≤ N
  unsent : ∀ n, ¬ sent n → pending n = 0 ∧ n ∉ judged output
  count : ∀ n, sent n → pending n + (judged output).count n = 1
  length : (judged output).length = k
  start : ∀ n, .start n ∉ output
  finish : ∀ n, .finish n ∉ output
  last : .lastFinished ∉ output

section Gathering

variable {N k : ℕ} {sent sent' : ℕ → Prop} {pending pending' : ℕ → ℕ} {output : List Line}

/-- Before anybody moves. -/
theorem Gathering.init (N : ℕ) : Gathering N 0 (fun _ => False) (fun _ => 0) [] := by
  refine ⟨?_, ?_, ?_, rfl, ?_, ?_, ?_⟩ <;> simp [judged]

/-- A runner that has been counted sent its ready message, and it is not pending. -/
theorem Gathering.of_mem_judged (h : Gathering N k sent pending output) {n : ℕ}
    (hn : n ∈ judged output) : sent n ∧ pending n = 0 := by
  have hsent : sent n := by
    by_contra hnot
    exact (h.unsent n hnot).2 hn
  have := h.count n hsent
  have := List.count_pos_iff.2 hn
  exact ⟨hsent, by omega⟩

/-- The judge counts no runner twice. -/
theorem Gathering.count_le (h : Gathering N k sent pending output) (n : ℕ) :
    (judged output).count n ≤ 1 := by
  by_cases hn : sent n
  · have := h.count n hn
    omega
  · rw [List.count_eq_zero_of_not_mem (h.unsent n hn).2]
    exact Nat.zero_le _

/-- With `N` messages counted, every runner has been. -/
theorem Gathering.mem_judged (h : Gathering N k sent pending output) (hk : N ≤ k) {j : ℕ}
    (h1 : 1 ≤ j) (hj : j ≤ N) : j ∈ judged output :=
  mem_of_count_le_one (fun n hn => h.range n (h.of_mem_judged hn).1) h.count_le
    (by rw [h.length]; exact hk) h1 hj

/-- With `N` messages counted, none is pending. -/
theorem Gathering.pending_eq_zero (h : Gathering N k sent pending output) (hk : N ≤ k) (n : ℕ) :
    pending n = 0 := by
  by_cases hn : sent n
  · obtain ⟨h1, hN⟩ := h.range n hn
    exact (h.of_mem_judged (h.mem_judged hk h1 hN)).2
  · exact (h.unsent n hn).1

/-- While messages are still to be counted and none is pending, one is still to be sent. -/
theorem Gathering.exists_unsent (h : Gathering N k sent pending output) (hk : k < N)
    (hpend : ∀ n, pending n = 0) : ∃ n, 1 ≤ n ∧ n ≤ N ∧ ¬ sent n := by
  by_contra hne
  have hall : Finset.Icc 1 N ⊆ (judged output).toFinset := by
    intro n hn
    obtain ⟨h1, hN⟩ := Finset.mem_Icc.1 hn
    have hsent : sent n := by
      by_contra hnot
      exact hne ⟨n, h1, hN, hnot⟩
    have := h.count n hsent
    rw [hpend n] at this
    exact List.mem_toFinset.2 (List.count_pos_iff.1 (by omega))
  have hcard := (Finset.card_le_card hall).trans (List.toFinset_card_le _)
  rw [Nat.card_Icc, h.length] at hcard
  omega

/-- Pending messages move. -/
theorem Gathering.move (h : Gathering N k sent pending output) (hsent : ∀ n, sent' n ↔ sent n)
    (hpend : ∀ n, pending' n = pending n) : Gathering N k sent' pending' output := by
  obtain rfl : pending' = pending := funext hpend
  obtain rfl : sent' = sent := funext fun n => propext (hsent n)
  exact h

/-- The judge counts a pending message. -/
theorem Gathering.judge {m : ℕ} (h : Gathering N k sent pending output)
    (hpend : ∀ n, pending n = pending' n + if n = m then 1 else 0) :
    Gathering N (k + 1) sent pending' (output ++ [.judgeReady m]) := by
  have hjudged : judged (output ++ [.judgeReady m]) = judged output ++ [m] := judged_append ..
  have hm : sent m := by
    by_contra hnot
    have := hpend m
    rw [(h.unsent m hnot).1, if_pos rfl] at this
    omega
  refine ⟨h.range, fun n hn => ?_, fun n hn => ?_, ?_, fun n hn => h.start n (by simpa using hn),
    fun n hn => h.finish n (by simpa using hn), fun hn => h.last (by simpa using hn)⟩
  · obtain ⟨hp, hnot⟩ := h.unsent n hn
    have hne : n ≠ m := by
      rintro rfl
      exact hn hm
    rw [hjudged, List.mem_append, List.mem_singleton, not_or]
    have := hpend n
    exact ⟨by omega, hnot, hne⟩
  · have := h.count n hn
    have := hpend n
    rw [hjudged, List.count_append, List.count_singleton]
    simp only [beq_iff_eq, eq_comm (a := m)]
    omega
  · rw [hjudged, List.length_append, h.length]
    rfl

/-- A runner sends its ready message. -/
theorem Gathering.send {m : ℕ} (h : Gathering N k sent pending output) (hm : 1 ≤ m ∧ m ≤ N)
    (hnot : ¬ sent m) (hsent : ∀ n, sent' n ↔ sent n ∨ n = m)
    (hpend : ∀ n, pending' n = pending n + if n = m then 1 else 0) :
    Gathering N k sent' pending' (output ++ [.ready m]) := by
  have hjudged : judged (output ++ [.ready m]) = judged output :=
    (judged_append ..).trans (List.append_nil _)
  obtain ⟨hm0, hmj⟩ := h.unsent m hnot
  refine ⟨fun n hn => ?_, fun n hn => ?_, fun n hn => ?_, by rw [hjudged, h.length],
    fun n hn => h.start n (by simpa using hn), fun n hn => h.finish n (by simpa using hn),
    fun hn => h.last (by simpa using hn)⟩
  · obtain hn | rfl := (hsent n).1 hn
    · exact h.range n hn
    · exact hm
  · rw [hsent, not_or] at hn
    rw [hjudged, hpend, if_neg hn.2]
    exact h.unsent n hn.1
  · rw [hjudged, hpend]
    by_cases hnm : n = m
    · rw [hnm, hm0, if_pos rfl, List.count_eq_zero_of_not_mem hmj]
    · rw [if_neg hnm]
      exact h.count n (((hsent n).1 hn).resolve_right hnm)

/-- The race can begin. -/
theorem Gathering.racing (h : Gathering N k sent pending output) (hk : N ≤ k) :
    Racing N 0 (output ++ [.allReady]) := by
  refine Racing.append ⟨fun j => h.mem_judged hk, List.nodup_iff_count_le_one.2 h.count_le,
    fun n => ?_⟩ rfl (by simp)
  rw [if_neg (by omega)]
  exact List.count_eq_zero.2 (h.start n)

end Gathering

end SemOS.Relay
