import SemOS.Bogatyri.ExchangeRank
import SemOS.Bogatyri.SocketsManaged

/-!
# The two phases of the socket program

A child that has its rank sings while others still exchange their numbers, and servers and forks may
fail. The program nevertheless follows `Sockets.machine`, with every child under its rank.

* `Sings` relates the program to the song; `song_simulates` is the simulation.
* **`sockets2_sings`**: the characters printed are a prefix of the string, each printed by the child
  of its rank; with all children forked and none failed, the whole string is printed when `main` has
  finished.
-/

namespace SemOS.Bogatyri.Sockets2

open Function

variable {n : ℕ} {qsort : (Int32 → Int32 → Int32) → List Int32 → List Int32}
  {system : Exchange.Pids n} {terminal : Bool} {str : Sockets.InputString} {s t : State n}
  {p : Fin (n + 1)}

/-! ## The ranks -/

/-- The rank of a process: how many process numbers are above its own. -/
def rank (system : Exchange.Pids n) (p : Fin (n + 1)) : Fin (n + 1) :=
  ⟨(Finset.univ.filter fun q => system.pid p < system.pid q).card, by
    have hlt := Finset.card_lt_univ_of_notMem (s := Finset.univ.filter fun q =>
      system.pid p < system.pid q) (x := p) (by simp)
    rwa [Fintype.card_fin] at hlt⟩

theorem idxOf_sortedPids (hq : Qsort.Sorts qsort) (p : Fin (n + 1)) :
    (Exchange.sortedPids qsort system).idxOf (system.pid p) = rank system p := by
  obtain ⟨hperm, hdec⟩ := Exchange.qsort_decreasing hq (List.Perm.refl (List.ofFn system.pid))
  exact Ranking.idxOf_eq_card (r := fun a b => b < a) Exchange.gt_asymm hperm system.injective
    hdec p

theorem rank_injective : Injective (rank system) := by
  have hlt : ∀ {p q : Fin (n + 1)}, system.pid p < system.pid q →
      rank system q < rank system p := by
    intro p q h
    refine Fin.mk_lt_mk.2 (Finset.card_lt_card
      ((Finset.ssubset_iff_of_subset fun r hr => ?_).2 ⟨q, ?_, ?_⟩))
    · simp only [Finset.mem_filter, Finset.mem_univ, true_and, Int32.lt_iff_toInt_lt] at hr h ⊢
      omega
    · simpa using h
    · simp
  intro p q h
  apply system.injective
  by_contra hne
  have hne' : (system.pid p).toInt ≠ (system.pid q).toInt := fun h => hne (Int32.toInt_inj.1 h)
  obtain hpq | hqp := lt_or_gt_of_ne hne'
  · have := hlt (Int32.lt_iff_toInt_lt.2 hpq)
    rw [h] at this
    exact lt_irrefl _ this
  · have := hlt (Int32.lt_iff_toInt_lt.2 hqp)
    rw [h] at this
    exact lt_irrefl _ this

/-- A child in its loop has its rank, all numbers, and is active at first if its rank is 0. -/
theorem vars_of_singing (hq : Qsort.Sorts qsort)
    (hs : (machine qsort system terminal str).Reachable s) (h : started s.exchange p = true) :
    (s.exchange.vars p).myRank.toNat = rank system p ∧ (s.exchange.vars p).pidsCount = n + 1 ∧
      (s.exchange.vars p).active = decide ((rank system p : ℕ) = 0) := by
  obtain ⟨e, he, rfl⟩ := exchange_simulates.reachable hs
  rw [vars_of_started hq he h]
  simp only [Exchange.Vars.start, Exchange.final, idxOf_sortedPids hq, Int.toNat_natCast,
    Int.natCast_eq_zero, true_and]

/-! ## The song -/

/-- Where a child is in the song. -/
def Child.song : Child → Sockets.Control
  | .singing c => c
  | _ => .start

/-- The state of the song. -/
structure Sings (system : Exchange.Pids n) (s : State n) (u : Sockets.State (n + 1)) : Prop where
  control : ∀ p, u.control (rank system p) = (s.child p).song
  connections : u.connections = s.connections
  printed : u.printed = s.printed.map Prod.snd

/-- A step that leaves every child where it is in the song. -/
theorem Sings.congr {u : Sockets.State (n + 1)} (h : Sings system s u)
    (hchild : ∀ p, (t.child p).song = (s.child p).song) (hconn : t.connections = s.connections)
    (hprinted : t.printed = s.printed) : Sings system t u :=
  ⟨fun p => by rw [hchild, h.control], by rw [hconn, h.connections], by rw [hprinted, h.printed]⟩

/-- A step of one child in the song. -/
theorem Sings.move {u : Sockets.State (n + 1)} (h : Sings system s u) {d : Sockets.Control}
    {q : List Sockets.Connection} {l : List UInt8}
    (hchild : t.child = update s.child p (.singing d)) (hconn : t.connections = q)
    (hprinted : t.printed = s.printed ++ l.map fun c => (p, c)) :
    Sings system t ⟨update u.control (rank system p) d, q, u.printed ++ l⟩ := by
  refine ⟨fun r => ?_, hconn.symm, ?_⟩
  · rw [hchild]
    by_cases hr : r = p
    · subst hr
      simp [Child.song]
    · have hrank : rank system r ≠ rank system p := fun heq => hr (rank_injective heq)
      simp only [update_of_ne hr, update_of_ne hrank]
      exact h.control r
  · rw [hprinted, h.printed, List.map_append, List.map_map]
    simp [Function.comp_def]

/-- A child enters its loop: the first step of the song. -/
theorem Sings.enter {u : Sockets.State (n + 1)} (hq : Qsort.Sorts qsort)
    (hs : (machine qsort system terminal str).Reachable s) (h : Sings system s u)
    (hc : s.child p = .exchanging) (he : started s.exchange p = true) (ok : Bool) :
    ∃ v, Sockets.step str.bytes (rank system p, ok) u = some v ∧
      Sings system (s.goto p (.singing (.loop (s.exchange.vars p).active 0))) v := by
  obtain ⟨-, -, hactive⟩ := vars_of_singing hq hs he
  refine ⟨_, ?_, h.move (l := []) rfl rfl (List.append_nil _).symm⟩
  rw [Sockets.step_local, h.control p, hc, hactive, h.connections]
  simp [Sockets.step, Sockets.alone, Child.song, Sockets.State.goto, State.goto]

/-- A piece of the loop of a child is a step of the song. -/
theorem Sings.sing {u : Sockets.State (n + 1)} (h : Sings system s u) {ok : Bool}
    {d : Sockets.Control} {v : Sockets.State (n + 1)} (hc : s.child p = .singing d)
    (hv : Sockets.step str.bytes (rank system p, ok) (Sockets.alone d s.connections) = some v) :
    ∃ w, Sockets.step str.bytes (rank system p, ok) u = some w ∧
      Sings system (s.sung p (rank system p) v) w := by
  obtain ⟨hchild, -, -, hconn, hprinted⟩ := sung_child s p (rank system p) v
  refine ⟨_, ?_, h.move hchild hconn hprinted⟩
  rw [Sockets.step_local, h.control p, hc, h.connections, Child.song, hv]
  rfl

/-- The song machine follows the program. -/
theorem song_simulates (hq : Qsort.Sorts qsort) :
    (Sockets.machine (n + 1) str.bytes).Simulates (machine qsort system terminal str)
      (Sings system) := by
  constructor
  · intro s hs
    rw [show s = initial n from hs]
    exact ⟨Sockets.initial (n + 1), rfl, fun _ => rfl, rfl, rfl⟩
  · intro l s t u hs hu hR hl
    have hmanaged := reachable_managed hs
    have stay : Sings system t u → ∃ u', (Sockets.machine (n + 1) str.bytes).Leads u u' ∧
        Sings system t u' := fun h => ⟨u, Relation.ReflTransGen.refl, h⟩
    have hsame : ∀ {p : Fin (n + 1)} {c : Child}, c.song = (s.child p).song →
        ∀ q, (update s.child p c q).song = (s.child q).song := by
      intro p c hc q
      by_cases hqp : q = p
      · subst hqp
        rwa [update_self]
      · rw [update_of_ne hqp]
    cases step_moves hl with
    | @fork p hm =>
      have hmain := hmanaged.main
      rw [hm] at hmain
      exact stay (hR.congr (hsame (by rw [hmain p le_rfl]; rfl)) rfl rfl)
    | serverFails hc he => exact stay (hR.congr (hsame (by rw [hc]; rfl)) rfl rfl)
    | enter hc he =>
      obtain ⟨v, hv, hRv⟩ := hR.enter hq hs hc he true
      exact ⟨v, Relation.ReflTransGen.single ⟨(_, true), hv⟩, hRv⟩
    | @sing p r ok c v hc hr hv =>
      obtain ⟨hrank, -⟩ := vars_of_singing hq hs (hmanaged.entered p c hc)
      obtain rfl : r = rank system p := Fin.ext (hr.symm.trans hrank)
      obtain ⟨w, hw, hRw⟩ := hR.sing hc hv
      exact ⟨w, Relation.ReflTransGen.single ⟨(_, ok), hw⟩, hRw⟩
    | _ => exact stay (hR.congr (fun _ => rfl) rfl rfl)

/-! ## The characters -/

/-- A piece of a process prints at most one character, and that is of its rank. -/
theorem printed_of_step {N : ℕ} {input : List UInt8} {r : Fin N} {ok : Bool} {d : Sockets.Control}
    {q : List Sockets.Connection} {v : Sockets.State N}
    (h : Sockets.step input (r, ok) (Sockets.alone d q) = some v) :
    v.printed = [] ∨ ∃ c, v.printed = [c] ∧ c.toNat % N = r := by
  simp only [Sockets.step, Sockets.alone] at h
  cases d with
  | loop active i =>
    cases active with
    | true =>
      obtain rfl := Option.some.inj h
      rw [Sockets.activeRound]
      by_cases hi : input.length ≤ i
      · rw [if_pos hi]
        exact Or.inl rfl
      · rw [if_neg hi]
        by_cases hr : Sockets.targetRank N input i = r
        · rw [if_pos hr]
          exact Or.inr ⟨_, rfl, hr⟩
        · rw [if_neg hr]
          exact Or.inl rfl
    | false =>
      obtain ⟨x, -, rfl⟩ := Option.map_eq_some_iff.1 h
      exact Or.inl rfl
  | eofConnecting j i =>
    dsimp only at h
    split_ifs at h <;> cases h <;> exact Or.inl rfl
  | exited => cases h
  | _ =>
    cases h
    exact Or.inl rfl

/-- Every character is of the rank of its printer. -/
theorem reachable_own (hq : Qsort.Sorts qsort)
    (hs : (machine qsort system terminal str).Reachable s) :
    ∀ x ∈ s.printed, x.2.toNat % (n + 1) = rank system x.1 := by
  have hinv : (machine qsort system terminal str).Reachable s ∧
      ∀ x ∈ s.printed, x.2.toNat % (n + 1) = rank system x.1 := by
    refine hs.invariant (I := fun s => (machine qsort system terminal str).Reachable s ∧
      ∀ x ∈ s.printed, x.2.toNat % (n + 1) = rank system x.1) (fun s h => ⟨.of_init h, ?_⟩)
      fun l s t h hl => ⟨h.1.act hl, ?_⟩
    · rw [show s = initial n from h]
      exact nofun
    · cases step_moves hl with
      | @sing p r ok c v hc hr hv =>
        obtain ⟨hrank, -⟩ := vars_of_singing hq h.1 ((reachable_managed h.1).entered p c hc)
        obtain rfl : r = rank system p := Fin.ext (hr.symm.trans hrank)
        rw [(sung_child s p (rank system p) v).2.2.2.2]
        intro x hx
        obtain hx | hx := List.mem_append.1 hx
        · exact h.2 x hx
        · obtain hnil | ⟨d, hd, hown⟩ := printed_of_step hv
          · rw [hnil] at hx
            exact absurd hx List.not_mem_nil
          · rw [hd] at hx
            rw [show x = (p, d) from List.mem_singleton.1 hx]
            exact hown
      | _ => exact h.2
  exact hinv.2

/-- **The program prints the string.** Whatever calls fail: the characters printed are a prefix of
the string, each by the child whose number has that many greater ones, modulo their count. When
`main` has finished, every child that was forked has exited, and where one of them has come to the
end of its loop the whole string is printed. -/
theorem sockets2_sings (hq : Qsort.Sorts qsort)
    (hs : (machine qsort system terminal str).Reachable s) :
    s.printed.map Prod.snd <+: str.bytes ∧
      (∀ x ∈ s.printed, (Finset.univ.filter fun q => system.pid x.1 < system.pid q).card =
        x.2.toNat % (n + 1)) ∧
      (s.main = .finished → ∀ p, s.child p = .unborn ∨ (s.child p).ended = true) ∧
      ∀ p, s.child p = .singing .exited → s.printed.map Prod.snd = str.bytes := by
  obtain ⟨u, hu, hR⟩ := (song_simulates hq).reachable hs
  have hturn := Sockets.reachable_turn hu
  refine ⟨?_, fun x hx => (reachable_own hq hs x hx).symm, fun hm p => ?_, fun p hp => ?_⟩
  · rw [← hR.printed, hturn.output]
    exact List.take_prefix _ _
  · exact (reachable_managed hs).ended_of_finished hm p
  · have hcontrol : u.control (rank system p) = .exited := by
      rw [hR.control, hp]
      rfl
    rw [← hR.printed, hturn.output, hturn.ending _ (.inr hcontrol), List.take_length]

/-- The string `AB`. -/
def twoString : Sockets.InputString := ⟨[65, 66], by decide, by decide⟩

/-- A run of the coordinator 7 and the worker 12, with the string `AB`, to its end. -/
def twoSing (c w : Fin 2) : List (Label 1) :=
  List.replicate 4 (.main true) ++ Exchange.twoSchedule.map .exchange ++
    List.replicate 4 (.song w true) ++ List.replicate 5 (.song c true) ++
    List.replicate 7 (.song w true) ++ [.song c true] ++ List.replicate 3 (.main true)

theorem two_sing : ∃ s, (machine Qsort.insertionSort Exchange.twoPids false twoString).run
    (twoSing 0 1) (initial 1) = some s ∧ s.main = .finished ∧ s.child 0 = .singing .exited ∧
      s.born = 2 := by
  obtain ⟨s, hs⟩ : ∃ s, (machine Qsort.insertionSort Exchange.twoPids false twoString).run
      (twoSing 0 1) (initial 1) = some s := Option.isSome_iff_exists.1 (by decide +kernel)
  have hend : ((machine Qsort.insertionSort Exchange.twoPids false twoString).run
      (twoSing 0 1) (initial 1)).map (fun s => (s.main, s.child 0, s.born)) =
        some (.finished, .singing .exited, 2) := by
    decide +kernel
  rw [hs] at hend
  obtain ⟨hmain, hc⟩ := Prod.mk.inj (Option.some.inj hend)
  exact ⟨s, hs, hmain, (Prod.mk.inj hc).1, (Prod.mk.inj hc).2⟩

/-- The coordinator of the two comes to the end of its loop: the string is printed. -/
theorem sockets2_sings_of_two : ∃ s, (machine Qsort.insertionSort Exchange.twoPids false
    twoString).run (twoSing 0 1) (initial 1) = some s ∧ s.printed.map Prod.snd = [65, 66] := by
  obtain ⟨s, hs, -, hc, -⟩ := two_sing
  exact ⟨s, hs, (sockets2_sings Qsort.sorts_insertionSort
    (Machine.reachable_of_run rfl hs)).2.2.2 _ hc⟩

end SemOS.Bogatyri.Sockets2
