import Rollerball.Engine.Bare
import Rollerball.Engine.Cut
import Rollerball.Engine.Root

/-!
# Interrupting a deeper iteration

A round stores a root move as soon as it beats the earlier ones of the same round. When the flag
falls during a round, `best_move` is therefore the best of the root moves this round has searched,
in the order of their one-ply scores, and no longer the choice of the round before.
-/

namespace Rollerball

open Proc (Falls Holds Yields)

variable {V : Type} [LinearOrder V] [Zero V]

/-- The undisturbed search of `b`: after `n` rounds it is in state `s` and is to make read `i`. -/
inductive Rounds (env : Platform V) (eval : Board × Nat → V) (b : Board) :
    Nat → Progress → Nat → Prop
  | start : Rounds env eval b 0 ⟨b, 1, env.unset⟩ 0
  | next {n : Nat} {s s' : Progress} {i j : Nat} {l : List U16} (h : Rounds env eval b n s i)
      (hrun : (searchRound env b.playerToPlay s).run eval (fun _ => true) i =
        ⟨l, some (.inl s'), j⟩) : Rounds env eval b (n + 1) s' j

/-- The root moves whose searches the root loop of the round from `s`, begun at read `i`, has
completed when the flag falls. Black's first search of move 0, before the loop, stores nothing and
is not counted. -/
def Completed (env : Platform V) (eval : Board × Nat → V) (flag : Nat → Bool)
    (color : PlayerColor) (s : Progress) (i : Nat) (m : U16) : Prop :=
  ∃ n searched, ((roundPart env color n s).run eval (fun _ => true) i).result = some searched ∧
    Holds flag i ((roundPart env color n s).run eval (fun _ => true) i).reads ∧
    m ∈ searched.map MoveEval.movement

section Interrupted

variable {env} {eval : Board × Nat → V} {b : Board} {s : Progress} {n i : Nat}

theorem legal_of_round {l : List U16} {s' : Progress} {j : Nat}
    (hs : s.board.forgetKill = b.forgetKill)
    (hrun : (searchRound env b.playerToPlay s).run eval (fun _ => true) i =
      ⟨l, some (.inl s'), j⟩) : b.getLegalMoves env.order ≠ [] := by
  intro hnone
  have hhead : ∃ c, (roundHead env b.playerToPlay s).Yields eval [] (.inl c) := by
    have hundoes : ∀ m ∈ b.getLegalMoves env.order, Undoes b m := by
      rw [hnone]
      exact fun m hm => absurd hm List.not_mem_nil
    obtain ⟨c, arr, _, hperm, _, _, horder⟩ :=
      orderChildren_yields env eval (b.playerToPlay = .black) hundoes hs
    obtain rfl := (ordering_facts hperm).1.mpr hnone
    rw [roundHead_eq]
    exact ⟨c, Yields.poll (horder.bind_nil (Proc.yields_done _))⟩
  obtain ⟨c, hhead⟩ := hhead
  obtain ⟨j', hj'⟩ := hhead i
  rw [searchRound_eq, Proc.run_bind_some hj'] at hrun
  cases hrun

theorem Rounds.facts (h : Bounded env eval) (hrounds : Rounds env eval b n s i)
    (hrestores : Board.Restores env.order (2 * n + 1) b) :
    s.board.forgetKill = b.forgetKill ∧ s.cutoff = 2 * n + 1 ∧
      (n ≠ 0 → b.getLegalMoves env.order ≠ [] ∧ Best env eval (2 * n - 1) b s.movement) ∧
      ∃ l, (n ≠ 0 → l.getLast? = some s.movement) ∧ ∀ flag, Holds flag 0 i → ∀ rounds,
        ((searchMove env (rounds + n) b).run eval flag 0).stored =
          l ++ ((Proc.loop (searchRound env b.playerToPlay) rounds s).run eval flag i).stored := by
  induction hrounds with
  | start => exact ⟨rfl, rfl, fun hn => absurd rfl hn, [], fun hn => absurd rfl hn,
      fun _ _ _ => rfl⟩
  | @next n s s' i j l hprefix hrun ih =>
    obtain ⟨hboard, hcutoff, _, l₀, _, hstored⟩ := ih (hrestores.mono (by omega))
    have hlegal := legal_of_round hboard hrun
    have hdepth : s.cutoff.toNat = 2 * n + 1 := by omega
    obtain ⟨l', m, hyields, hbest⟩ := searchRound_yields h (show 0 ≤ s.cutoff by omega)
      (by rwa [hdepth]) hlegal hboard s.movement
    obtain ⟨j', hj'⟩ := hyields i
    obtain ⟨rfl, rfl, rfl⟩ : l = l' ++ [m] ∧ s' = ⟨b.forgetKill, s.cutoff + 2, m⟩ ∧ j = j' := by
      simpa using hrun.symm.trans hj'
    rw [hdepth] at hbest
    have hnext : s.cutoff + 2 = 2 * ((n + 1 : Nat) : Int) + 1 := by omega
    refine ⟨rfl, hnext, fun _ => ⟨hlegal, hbest⟩, l₀ ++ (l' ++ [m]), fun _ => ?_, ?_⟩
    · rw [← List.append_assoc, List.getLast?_append]
      rfl
    · intro flag hflag rounds
      have hround : (searchRound env b.playerToPlay s).run eval flag i = _ :=
        (Proc.run_of_holds (by rw [hrun]; exact hflag.from (Nat.zero_le i))).trans hrun
      rw [show rounds + (n + 1) = rounds + 1 + n by omega,
        hstored flag (hflag.mono (Proc.le_of_run hrun)), Proc.loop, Proc.run_bind_some hround,
        List.append_assoc l₀]

theorem Rounds.exists_of_legal (h : Bounded env eval) (hlegal : b.getLegalMoves env.order ≠ [])
    (n : Nat) (hrestores : Board.Restores env.order (2 * n + 1) b) :
    ∃ s i, Rounds env eval b n s i := by
  induction n with
  | zero => exact ⟨_, _, .start⟩
  | succ n ih =>
    obtain ⟨s, i, hrounds⟩ := ih (hrestores.mono (by omega))
    obtain ⟨hboard, hcutoff, _⟩ := hrounds.facts h (hrestores.mono (by omega))
    have hdepth : s.cutoff.toNat = 2 * n + 1 := by omega
    obtain ⟨l, m, hround, _⟩ := searchRound_yields h (show 0 ≤ s.cutoff by omega)
      (by rwa [hdepth]) hlegal hboard s.movement
    obtain ⟨j, hj⟩ := hround i
    exact ⟨_, j, .next hrounds hj⟩

/-- Once the flag has fallen during a round the search stores nothing after it. -/
theorem loop_cut {flag : Nat → Bool} (hfalls : Falls flag) (color : PlayerColor)
    (hcutoff : 0 ≤ s.cutoff)
    (hduring : ¬Holds flag i ((searchRound env color s).run eval (fun _ => true) i).reads)
    (rounds : Nat) :
    ((Proc.loop (searchRound env color) (rounds + 1) s).run eval flag i).stored =
      ((searchRound env color s).run eval flag i).stored := by
  have htotal : ((searchRound env color s).run eval flag i).result ≠ none :=
    ((searchRound_ends env color hcutoff).run (fun _ => trivial) fun _ => trivial).2.2
  have hend := hfalls.end_false hduring
  obtain ⟨l, r, j, hrun⟩ := Proc.run_of_result htotal
  rw [hrun] at hend
  rw [Proc.loop, Proc.run_bind_some hrun, hrun]
  rcases r with s' | c
  · rw [(Proc.Quiet.loop (searchRound_quiet env color) rounds s').stored_nil hfalls hend,
      List.append_nil]
  · exact List.append_nil l

theorem roundPart_yields (h : Bounded env eval) (hcutoff : 0 ≤ s.cutoff)
    (hrestores : Board.Restores env.order (s.cutoff.toNat + 2) b)
    (hlegal : b.getLegalMoves env.order ≠ []) (hs : s.board.forgetKill = b.forgetKill) (n : Nat) :
    ∃ l, (roundPart env b.playerToPlay n s).Yields eval l ((rootOrder env eval b).take n) ∧
      (n = 0 → l = []) ∧
      (n ≠ 0 → ∃ y ∈ (rootOrder env eval b).take n, l.getLast?.getD s.movement = y.movement ∧
        ∀ x ∈ (rootOrder env eval b).take n, NoWorse b.playerToPlay
          (rootValue env eval s.cutoff.toNat b x.movement)
          (rootValue env eval s.cutoff.toNat b y.movement)) := by
  obtain ⟨bound, hhead, hopens⟩ := roundHead_yields h hcutoff hrestores hlegal hs s.movement
  obtain ⟨l, o, hloop, hzero, hbest⟩ := rootLoop_yields h hcutoff hrestores hlegal hopens
    s.movement n
  refine ⟨l, ?_, hzero, fun hn => ?_⟩
  · have hrest : (partRest env b.playerToPlay n s
        (.inr (b.forgetKill, rootOrder env eval b, bound))).Yields eval (l ++ [])
        ((rootOrder env eval b).take n) := hloop.bind (Proc.yields_done _)
    rw [List.append_nil] at hrest
    exact hhead.bind_nil hrest
  · obtain ⟨hlast, hall, y, hy, rfl⟩ := hbest hn
    exact ⟨y, hy, hlast, hall⟩

theorem roundPart_reads_lt (h : Bounded env eval) (hcutoff : 0 ≤ s.cutoff)
    (hrestores : Board.Restores env.order (s.cutoff.toNat + 2) b)
    (hlegal : b.getLegalMoves env.order ≠ []) (hs : s.board.forgetKill = b.forgetKill) (i : Nat) :
    let reads := fun n =>
      ((roundPart env b.playerToPlay n s).run eval (fun _ => true) i).reads
    ∀ n < (rootOrder env eval b).length, (∀ n' > n, reads n < reads n') ∧
      reads n < ((searchRound env b.playerToPlay s).run eval (fun _ => true) i).reads := by
  intro reads
  obtain ⟨bound, hhead, _⟩ := roundHead_yields h hcutoff hrestores hlegal hs s.movement
  obtain ⟨j, hj⟩ := hhead i
  let loopReads := fun n =>
    ((rootLoop env b.playerToPlay s.cutoff ((rootOrder env eval b).take n) b.forgetKill bound
      s.movement).run eval (fun _ => true) j).reads
  have hreads : ∀ n, reads n = loopReads n := fun n =>
    congrArg Proc.Outcome.reads (roundPart_run eval b.playerToPlay hcutoff n hj)
  have hgrow : ∀ n < (rootOrder env eval b).length, ∀ n' > n, loopReads n < loopReads n' :=
    fun n hn n' hlt => rootLoop_reads_lt eval b.playerToPlay hcutoff hlt hn _ _ _ j
  intro n hn
  simp only [hreads]
  refine ⟨hgrow n hn, ?_⟩
  rw [searchRound_eq, Proc.run_bind_some hj]
  refine (hgrow n hn _ hn).trans_le ?_
  show loopReads _ ≤ _
  simp only [loopReads, List.take_length]
  exact Proc.reads_le_bind

/-- A flag that falls right after the `n`th root move of a round leaves just these `n` completed. -/
theorem completed_fallsAt (h : Bounded env eval) (hcutoff : 0 ≤ s.cutoff)
    (hrestores : Board.Restores env.order (s.cutoff.toNat + 2) b)
    (hs : s.board.forgetKill = b.forgetKill) (i : Nat) (hn : n < (rootOrder env eval b).length) :
    ∃ t ≥ i, ¬Holds (Proc.fallsAt t) i
        ((searchRound env b.playerToPlay s).run eval (fun _ => true) i).reads ∧
      ∀ m, Completed env eval (Proc.fallsAt t) b.playerToPlay s i m ↔
        m ∈ ((rootOrder env eval b).take n).map MoveEval.movement := by
  have hlegal : b.getLegalMoves env.order ≠ [] := by
    intro hnone
    rw [(ordering_facts (rootOrder_facts env eval b).1).1.mpr hnone] at hn
    exact absurd hn (Nat.not_lt_zero n)
  obtain ⟨hgrow, hround⟩ := roundPart_reads_lt h hcutoff hrestores hlegal hs i n hn
  have hbegun : i ≤ ((roundPart env b.playerToPlay n s).run eval (fun _ => true) i).reads :=
    Proc.le_reads
  have hparts := roundPart_yields h hcutoff hrestores hlegal hs
  refine ⟨_, hbegun, fun hheld => ?_, fun m => ⟨?_, fun hm => ?_⟩⟩
  · exact absurd ((Proc.holds_fallsAt hbegun).mp hheld) (not_le.mpr hround)
  · rintro ⟨n', searched, hsearched, hheld, hm⟩
    obtain ⟨l, hpart, _⟩ := hparts n'
    obtain ⟨j, hj⟩ := hpart i
    have hle : n' ≤ n := by
      by_contra hlt
      exact absurd ((Proc.holds_fallsAt hbegun).mp hheld) (not_le.mpr (hgrow n' (not_le.mp hlt)))
    rw [hj] at hsearched
    rw [← Option.some.inj hsearched] at hm
    exact List.map_subset _ (List.take_subset_take_left _ hle) hm
  · obtain ⟨l, hpart, _⟩ := hparts n
    obtain ⟨j, hj⟩ := hpart i
    exact ⟨n, _, congrArg Proc.Outcome.result hj, (Proc.holds_fallsAt hbegun).mpr le_rfl, hm⟩

/-- A search stopped during the round after round `k + 1` leaves the best of the `n` root moves it
has searched in this round, or without any the choice of the round before. -/
theorem Rounds.stopped (h : Bounded env eval) {k : Nat} (hrounds : Rounds env eval b (k + 1) s i)
    (hrestores : Board.Restores env.order (2 * k + 5) b) {flag : Nat → Bool}
    (hfalls : Falls flag) (hbefore : Holds flag 0 i)
    (hduring : ¬Holds flag i
      ((searchRound env b.playerToPlay s).run eval (fun _ => true) i).reads) :
    ∃ n m rounds, (∀ rounds' ≥ rounds,
        ((searchMove env rounds' b).run eval flag 0).result ≠ none ∧
          ((searchMove env rounds' b).run eval flag 0).stored.getLast? = some m) ∧
      (n = 0 → m = s.movement) ∧
      (n ≠ 0 → Holds flag i
          ((roundPart env b.playerToPlay n s).run eval (fun _ => true) i).reads ∧
        m ∈ ((rootOrder env eval b).take n).map MoveEval.movement ∧
        ∀ x ∈ (rootOrder env eval b).take n, NoWorse b.playerToPlay
          (rootValue env eval (2 * k + 3) b x.movement) (rootValue env eval (2 * k + 3) b m)) ∧
      ∀ m', Completed env eval flag b.playerToPlay s i m' ↔
        n ≠ 0 ∧ m' ∈ ((rootOrder env eval b).take n).map MoveEval.movement := by
  obtain ⟨hboard, hcutoff, hfacts, l₀, hlast₀, hstored⟩ :=
    hrounds.facts h (hrestores.mono (by omega))
  have hlegal := (hfacts (Nat.succ_ne_zero k)).1
  have hpos : 0 ≤ s.cutoff := by omega
  have hdepth : s.cutoff.toNat = 2 * k + 3 := by omega
  have hparts := roundPart_yields h hpos (by rwa [hdepth]) hlegal hboard
  generalize rootOrder env eval b = arr at hparts ⊢
  obtain ⟨n, hcut, hheld, hlonger⟩ := round_cut eval hfalls b.playerToPlay hpos hduring
  obtain ⟨l, hpart, hzero, hchoice⟩ := hparts n
  obtain ⟨j, hj⟩ := hpart i
  rw [hj] at hcut
  obtain ⟨m, hm⟩ : ∃ m, l.getLast?.getD s.movement = m := ⟨_, rfl⟩
  have hfall : ∃ t, flag t = false := by
    by_contra hnever
    push Not at hnever
    exact hduring fun t _ _ => Bool.not_eq_false _ ▸ hnever t
  obtain ⟨t, ht⟩ := hfall
  obtain ⟨rounds, hreturns⟩ := searchMove_returns env b eval hfalls ht
  refine ⟨n, m, max rounds (k + 2), fun rounds' hle => ⟨?_, ?_⟩, fun hn => ?_, fun hn => ?_,
    fun m' => ⟨?_, ?_⟩⟩
  · exact (hreturns rounds' ((le_max_left _ _).trans hle)).1
  · obtain ⟨extra, rfl⟩ : ∃ extra, rounds' = extra + 1 + (k + 1) :=
      ⟨rounds' - (k + 2), by have := (le_max_right _ _).trans hle; omega⟩
    rw [hstored flag hbefore, loop_cut hfalls b.playerToPlay hpos hduring, hcut,
      List.getLast?_append, hlast₀ (Nat.succ_ne_zero k), ← hm]
    cases l.getLast? <;> rfl
  · rw [← hm, hzero hn]
    rfl
  · obtain ⟨y, hy, hlast, hall⟩ := hchoice hn
    rw [hdepth] at hall
    obtain rfl : m = y.movement := hm.symm.trans hlast
    exact ⟨hheld hn, List.mem_map_of_mem hy, hall⟩
  · rintro ⟨n', searched, hsearched, hheld', hm'⟩
    obtain ⟨l', hpart', _⟩ := hparts n'
    obtain ⟨j', hj'⟩ := hpart' i
    have hsame := hlonger n' hheld'
    rw [hj'] at hsearched hsame
    obtain rfl := Option.some.inj hsearched
    rw [hj] at hsame
    have hmem : m' ∈ (arr.take n).map MoveEval.movement := by
      rcases hsame with hle | hsame
      · exact List.map_subset _ (List.take_subset_take_left arr hle) hm'
      · rwa [Option.some.inj (congrArg Proc.Outcome.result hsame)] at hm'
    refine ⟨?_, hmem⟩
    rintro rfl
    simp at hmem
  · rintro ⟨hn, hm'⟩
    exact ⟨n, arr.take n, by rw [hj], hheld hn, hm'⟩

/-- A search stopped during the round after round `k + 1` leaves the choice of the completed rounds
if it has completed no root move of this round, and else one of the root moves it has completed
which for its cutoff is no worse than any of them. -/
theorem interrupted_search {codes : Slot → List U8} (hcodes : Admissible codes)
    (hwf : b.Wf codes) (h : Bounded env eval) {k : Nat}
    (hrounds : Rounds env eval b (k + 1) s i)
    (hfree : Board.PromotionFree env.order (2 * k + 5) b) {flag : Nat → Bool}
    (hfalls : Falls flag) (hbefore : Holds flag 0 i)
    (hduring : ¬Holds flag i
      ((searchRound env b.playerToPlay s).run eval (fun _ => true) i).reads) :
    s.cutoff = 2 * k + 3 ∧ Best env eval (2 * k + 1) b s.movement ∧
      ∃ m rounds, (∀ rounds' ≥ rounds,
        ((searchMove env rounds' b).run eval flag 0).result ≠ none ∧
          ((searchMove env rounds' b).run eval flag 0).stored.getLast? = some m) ∧
        (m = s.movement ∧ (∀ m', ¬Completed env eval flag b.playerToPlay s i m') ∨
          Completed env eval flag b.playerToPlay s i m ∧
            ∀ m', Completed env eval flag b.playerToPlay s i m' → NoWorse b.playerToPlay
              (rootValue env eval (2 * k + 3) b m') (rootValue env eval (2 * k + 3) b m)) := by
  have hrestores := hfree.restores hcodes hwf
  obtain ⟨_, hcutoff, hfacts, _⟩ := hrounds.facts h (hrestores.mono (by omega))
  obtain ⟨n, m, rounds, hleft, hnone, hsome, hcompleted⟩ :=
    hrounds.stopped h hrestores hfalls hbefore hduring
  refine ⟨by omega, (hfacts (Nat.succ_ne_zero k)).2, m, rounds, hleft, ?_⟩
  by_cases hn : n = 0
  · exact Or.inl ⟨hnone hn, fun m' hm' => ((hcompleted m').mp hm').1 hn⟩
  · obtain ⟨_, hm, hall⟩ := hsome hn
    refine Or.inr ⟨(hcompleted m).mpr ⟨hn, hm⟩, fun m' hm' => ?_⟩
    obtain ⟨x, hx, rfl⟩ := List.mem_map.mp ((hcompleted m').mp hm').2
    exact hall x hx

end Interrupted

/-- A search of the bare kings that is stopped when its second round has searched two root moves
leaves the better of them. -/
theorem interrupted_search_kings : ∃ s i t x y m rounds,
    Rounds (Platform.sorted (-1000) 1000) mobility Board.kings 1 s i ∧ i ≤ t ∧
      Best (Platform.sorted (-1000) 1000) mobility 1 Board.kings s.movement ∧
      (∀ m', Completed (Platform.sorted (-1000) 1000) mobility (Proc.fallsAt t) .white s i m' ↔
        m' = x ∨ m' = y) ∧
      (m = x ∨ m = y) ∧
      (∀ m' ∈ [x, y], rootValue (Platform.sorted (-1000) 1000) mobility 3 Board.kings m' ≤
        rootValue (Platform.sorted (-1000) 1000) mobility 3 Board.kings m) ∧
      ∀ rounds' ≥ rounds, ((searchMove (Platform.sorted (-1000) 1000) rounds' Board.kings).run
        mobility (Proc.fallsAt t) 0).stored.getLast? = some m := by
  have hfree := Board.promotionFree_of_pawnless VisitOrder.insertion Board.kings_wf (by decide)
  have hrestores := fun depth => (hfree depth).restores admissible_slotCodes Board.kings_wf
  obtain ⟨s, i, hrounds⟩ := Rounds.exists_of_legal mobility_bounded
    (List.ne_nil_of_mem kings_c1_legal) 1 (hrestores 3)
  obtain ⟨hboard, hcutoff, _⟩ := hrounds.facts mobility_bounded (hrestores 3)
  have hmany : 2 < (rootOrder (Platform.sorted (-1000) 1000) mobility Board.kings).length := by
    rw [← List.length_map MoveEval.movement, (rootOrder_facts _ _ _).1.length_eq]
    exact (List.subperm_of_subset (by decide) kings_three_legal).length_le
  obtain ⟨t, hbegun, hduring, hcompleted⟩ := completed_fallsAt mobility_bounded
    (show 0 ≤ s.cutoff by omega) (hrestores _) hboard i hmany
  obtain ⟨_, hbest, m, rounds, hleft, hchoice⟩ := interrupted_search (k := 0) admissible_slotCodes
    Board.kings_wf mobility_bounded hrounds (hfree 5) (Proc.fallsAt_falls t)
    ((Proc.holds_fallsAt (Nat.zero_le t)).mpr hbegun) hduring
  obtain ⟨x, y, hxy⟩ : ∃ x y, ((rootOrder (Platform.sorted (-1000) 1000) mobility
      Board.kings).take 2).map MoveEval.movement = [x, y] :=
    List.length_eq_two.mp (by rw [List.length_map, List.length_take]; omega)
  rw [hxy] at hcompleted
  have hx := (hcompleted x).mpr List.mem_cons_self
  obtain ⟨hm, hall⟩ : _ ∧ _ := hchoice.resolve_left fun hnone => hnone.2 x hx
  have hpair : ∀ m', m' ∈ [x, y] ↔ m' = x ∨ m' = y := fun m' => by
    rw [List.mem_cons, List.mem_singleton]
  exact ⟨s, i, t, x, y, m, rounds, hrounds, hbegun, hbest,
    fun m' => (hcompleted m').trans (hpair m'), (hpair m).mp ((hcompleted m).mp hm),
    fun m' hm' => hall m' ((hcompleted m').mpr hm'), fun rounds' hle => (hleft rounds' hle).2⟩

section Lure

theorem lure_bounded : Bounded (Platform.sorted (-1000) 1000) lure := by
  intro q
  obtain ⟨hlow, hhigh⟩ := lure_bounds q
  simp only [Platform.sorted]
  omega

theorem lure_first :
    ((rootOrder (Platform.sorted (-1000) 1000) lure Board.kings).take 1).map MoveEval.movement =
      [move 11 4] := by
  have hscored : ∀ x ∈ rootOrder (Platform.sorted (-1000) 1000) lure Board.kings,
      x.movement ≠ move 11 4 → x.eval ≤ 1 := by
    intro x hx hne
    obtain ⟨m, hm, rfl⟩ := (mem_ordered _ _).mp hx
    obtain ⟨hking, _, _, he1⟩ := kings_step hm
    have hking4 : getp1 m ≠ 4 := fun h => hne (he1 h)
    simp only [childScore, lure, hking, hking4, false_and, if_false]
    split_ifs <;> decide
  obtain ⟨y, hy, hmove⟩ := List.mem_map.mp
    ((rootOrder_facts (Platform.sorted (-1000) 1000) lure Board.kings).1.mem_iff.mpr kings_e1_legal)
  have hy2 : y.eval = 2 := by
    obtain ⟨m, hm, rfl⟩ := (mem_ordered _ _).mp hy
    obtain rfl : m = move 11 4 := hmove
    have hking := (kings_step hm).1
    have hturn := Board.doMove_playerToPlay Board.kings (move 11 4)
    simp only [childScore, lure, hking, hturn]
    decide
  have hsorted : (rootOrder (Platform.sorted (-1000) 1000) lure Board.kings).Pairwise
      (MoveEval.Before false) := (Platform.sorted (-1000) 1000).sort_sorted false _
  cases horder : rootOrder (Platform.sorted (-1000) 1000) lure Board.kings with
  | nil => exact absurd (horder ▸ hy) List.not_mem_nil
  | cons x xs =>
    rw [horder] at hy hscored hsorted
    have hx : x.movement = move 11 4 := by
      by_contra hne
      rcases List.mem_cons.mp hy with rfl | hy
      · exact hne hmove
      · have hbefore : y.eval ≤ x.eval := (List.pairwise_cons.mp hsorted).1 y hy
        have hx1 := hscored x List.mem_cons_self hne
        omega
    simp [hx]

theorem lure_c1_value :
    0 < rootValue (Platform.sorted (-1000) 1000) lure 1 Board.kings (move 11 2) ∧
      0 < rootValue (Platform.sorted (-1000) 1000) lure 3 Board.kings (move 11 2) := by
  have hbare := Board.kings_bare.doMove kings_c1_legal
  have hking := (kings_step kings_c1_legal).1
  have hturn := Board.doMove_playerToPlay Board.kings (move 11 2)
  exact ⟨lure_stays (by decide) hbare hturn (Or.inr hking),
    lure_goes_on (by decide) hbare hturn hking kings_c1_b1⟩

theorem lure_other_value {m : U16} (hm : m ∈ Board.kings.getLegalMoves VisitOrder.insertion)
    (hne : m ≠ move 11 2) :
    rootValue (Platform.sorted (-1000) 1000) lure 1 Board.kings m < 1 := by
  obtain ⟨hking, hb1, hc1, he1⟩ := kings_step hm
  refine lure_ends (Board.kings_bare.doMove hm) (Board.doMove_playerToPlay _ m) (hking ▸ hb1)
    (hking ▸ fun h => hne (hc1 h)) fun h => ?_
  obtain rfl := he1 (hking.symm.trans h)
  exact List.ne_nil_of_mem kings_e1_reply

theorem lure_e1_value :
    rootValue (Platform.sorted (-1000) 1000) lure 3 Board.kings (move 11 4) < 1 :=
  lure_falls (by decide) (Board.kings_bare.doMove kings_e1_legal)
    (Board.doMove_playerToPlay _ _) (kings_step kings_e1_legal).1 kings_e1_reply

/-- Stopped after its first root move, the second round of the bare kings has replaced the choice
of the first round by a worse move. -/
theorem interrupted_search_loses :
    ¬∀ (env : Platform ℤ) (eval : Board × Nat → ℤ) (b : Board) (k : Nat) (s : Progress) (i : Nat)
      (flag : Nat → Bool), b.Wf slotCodes → Board.PromotionFree env.order (2 * k + 5) b →
      Bounded env eval → Rounds env eval b (k + 1) s i → Falls flag → Holds flag 0 i →
      ¬Holds flag i ((searchRound env b.playerToPlay s).run eval (fun _ => true) i).reads →
      ∀ rounds m, ((searchMove env rounds b).run eval flag 0).result ≠ none →
        ((searchMove env rounds b).run eval flag 0).stored.getLast? = some m →
        NoWorse b.playerToPlay (rootValue env eval (2 * k + 3) b s.movement)
          (rootValue env eval (2 * k + 3) b m) := by
  intro hkeeps
  have hfree := Board.promotionFree_of_pawnless VisitOrder.insertion Board.kings_wf (by decide)
  have hrestores := fun depth => (hfree depth).restores admissible_slotCodes Board.kings_wf
  have hlegal := List.ne_nil_of_mem kings_c1_legal
  obtain ⟨s, i, hrounds⟩ := Rounds.exists_of_legal lure_bounded hlegal 1 (hrestores 3)
  obtain ⟨hboard, hcutoff, hfacts, _⟩ := hrounds.facts lure_bounded (hrestores 3)
  have hpos : 0 ≤ s.cutoff := by omega
  have hmany : 1 < (rootOrder (Platform.sorted (-1000) 1000) lure Board.kings).length := by
    by_contra hfew
    have hall := lure_first
    rw [List.take_of_length_le (not_lt.mp hfew)] at hall
    have hc1 := (rootOrder_facts (Platform.sorted (-1000) 1000) lure Board.kings).1.mem_iff.mpr
      kings_c1_legal
    rw [hall] at hc1
    exact absurd hc1 (by decide)
  obtain ⟨t, hbegun, hduring, honly⟩ :=
    completed_fallsAt lure_bounded hpos (hrestores _) hboard i hmany
  rw [lure_first] at honly
  have hbefore : Holds (Proc.fallsAt t) 0 i := (Proc.holds_fallsAt (Nat.zero_le t)).mpr hbegun
  obtain ⟨n, m, rounds, hleft, _, hsome, hcompleted⟩ := hrounds.stopped (k := 0) lure_bounded
    (hrestores 5) (Proc.fallsAt_falls _) hbefore hduring
  -- only `d2e1` has been searched
  have hn := ((hcompleted (move 11 4)).mp ((honly _).mpr (List.mem_singleton_self _))).1
  obtain rfl : m = move 11 4 :=
    List.mem_singleton.mp ((honly m).mp ((hcompleted m).mpr ⟨hn, (hsome hn).2.1⟩))
  have hworse := hkeeps _ _ _ 0 s i _ Board.kings_wf (hfree 5) lure_bounded hrounds
    (Proc.fallsAt_falls _) hbefore hduring rounds _ (hleft rounds le_rfl).1 (hleft rounds le_rfl).2
  -- the first round has chosen `d2c1`
  obtain ⟨hchosen, hbest⟩ := best_iff.mp ((hfacts one_ne_zero).2)
  have hc1 : s.movement = move 11 2 := by
    by_contra hne
    have hlt := lure_other_value hchosen hne
    have hle : rootValue (Platform.sorted (-1000) 1000) lure 1 Board.kings (move 11 2) ≤
      rootValue (Platform.sorted (-1000) 1000) lure 1 Board.kings s.movement :=
        hbest _ kings_c1_legal
    have hpos := lure_c1_value.1
    omega
  rw [hc1] at hworse
  have hle : rootValue (Platform.sorted (-1000) 1000) lure 3 Board.kings (move 11 2) ≤
    rootValue (Platform.sorted (-1000) 1000) lure 3 Board.kings (move 11 4) := hworse
  have hpos := lure_c1_value.2
  have hlt := lure_e1_value
  omega

end Lure

end Rollerball
