import Rollerball.Engine.AlphaBeta
import Rollerball.Engine.Round

/-!
# The move the search settles on

The root of White keeps the first best move of its loop; the root of Black searches its first
move twice, the second time inside the window the first has narrowed. Both end a round by storing
a root move of the best minimax value.
-/

namespace Rollerball

open Proc (Yields)
open Minimax

section Root

variable {V : Type} [LinearOrder V] [Zero V] {env : Platform V} {eval : Board × Nat → V} {b : Board}
  {cutoff : Int} {arr : List (MoveEval V)} {value : U16 → V}

theorem sideChild_searches (h : Bounded env eval) (hcutoff : 0 ≤ cutoff)
    (hrestores : Board.Restores env.order (cutoff.toNat + 2) b) (side : PlayerColor) :
    Searches env eval b (fun m => minimax env eval cutoff.toNat (side = .black) (b.doMove m))
      (sideChild env side cutoff) := by
  refine Returns.searches hrestores.undoes fun m hm alpha beta hwindow => ?_
  have hdepth : (cutoff - 0).toNat = cutoff.toNat := by rw [Int.sub_zero]
  have hbelow : Board.Restores env.order ((cutoff - 0).toNat + 1) (b.doMove m) := by
    rw [hdepth]
    exact (hrestores m hm).2
  have hreturns := val_returns h side.other (levels cutoff) hwindow hcutoff (by simp [levels])
    hbelow
  have hother : decide (side.other = .white) = decide (side = .black) := by cases side <;> rfl
  rwa [hdepth, hother] at hreturns

section Opening

variable {side : PlayerColor} {bound : V} {optimum : MoveEval V}

omit [Zero V] in
theorem opening_lt (hbound : NoWorse side bound optimum.eval)
    (hoptimum : side.Beats optimum.eval (side.other.worst env)) :
    (side.opening env bound).1 < (side.opening env bound).2 := by
  cases side with
  | white => exact lt_of_le_of_lt hbound hoptimum
  | black => exact lt_of_lt_of_le hoptimum hbound

omit [Zero V] in
theorem opening_approx {v d : V} (hbound : NoWorse side bound optimum.eval)
    (hv : env.lowest < v ∧ v < env.highest)
    (hd : Approx (side.opening env bound).1 (side.opening env bound).2 v d) :
    (side.Beats optimum.eval d → d = v) ∧
      (¬side.Beats optimum.eval d → NoWorse side v optimum.eval) := by
  cases side with
  | white => exact hd.above hbound hv.2
  | black => exact hd.below hbound hv.1

omit [Zero V] in
theorem narrow_opening (side : PlayerColor) (d : V) :
    side.narrow (side.opening env bound) d = side.opening env (side.pick bound d) := by
  cases side <;> rfl

theorem sideRoot_yields (hchild : Searches env eval b value (sideChild env side cutoff))
    (hvalue : ∀ m, env.lowest < value m ∧ value m < env.highest)
    (harr : ∀ x ∈ arr, x.movement ∈ b.getLegalMoves env.order)
    (hbound : NoWorse side bound optimum.eval)
    (hoptimum : side.Beats optimum.eval (side.other.worst env)) :
    ∃ l o, (sideRoot env side cutoff arr b.forgetKill (side.opening env bound) optimum).Yields eval
        l (b.forgetKill, o) ∧ l.getLast?.getD optimum.movement = o.movement ∧
      NoWorse side optimum.eval o.eval ∧ (∀ x ∈ arr, NoWorse side (value x.movement) o.eval) ∧
      (o = optimum ∨ ∃ x ∈ arr, o = ⟨x.movement, value x.movement⟩) := by
  induction arr generalizing bound optimum with
  | nil =>
    exact ⟨[], optimum, Proc.yields_done _, rfl, .refl _, fun x hx => absurd hx List.not_mem_nil,
      Or.inl rfl⟩
  | cons x xs ih =>
    have hxs : ∀ y ∈ xs, y.movement ∈ b.getLegalMoves env.order := fun y hy =>
      harr y (List.mem_cons_of_mem _ hy)
    obtain ⟨d, hrun, hd⟩ :=
      hchild x.movement (harr x List.mem_cons_self) _ _ (opening_lt hbound hoptimum)
    obtain ⟨hbetter, hworse⟩ := opening_approx hbound (hvalue _) hd
    by_cases hbeats : side.Beats optimum.eval d
    · obtain rfl := hbetter hbeats
      let better : MoveEval V := ⟨x.movement, value x.movement⟩
      have hle := NoWorse.of_beats hbeats
      have hnarrowed : NoWorse side (side.pick bound (value x.movement)) better.eval :=
        (hbound.trans hle).pick (.refl _)
      obtain ⟨l, o, hloop, hlast, hbest, hall, ho⟩ := ih hxs hnarrowed
        (side.other_beats_worst env (hvalue _))
      refine ⟨x.movement :: l, o, hrun.bind_nil (Yields.poll ?_), ?_, hle.trans hbest, ?_,
        Or.inr ?_⟩
      · show Yields eval (if side.Beats optimum.eval (value x.movement) then _ else _) _ _
        rw [if_pos hbeats, narrow_opening]
        exact hloop.publish
      · rw [List.getLast?_cons]
        exact hlast
      · intro y hy
        rcases List.mem_cons.mp hy with rfl | hy
        · exact hbest
        · exact hall y hy
      · rcases ho with rfl | ⟨y, hy, rfl⟩
        · exact ⟨x, List.mem_cons_self, rfl⟩
        · exact ⟨y, List.mem_cons_of_mem _ hy, rfl⟩
    · have hnarrowed : NoWorse side (side.pick bound d) optimum.eval :=
        hbound.pick (not_beats.mp hbeats)
      obtain ⟨l, o, hloop, hlast, hbest, hall, ho⟩ := ih hxs hnarrowed hoptimum
      refine ⟨l, o, hrun.bind_nil (Yields.poll ?_), hlast, hbest, ?_, ?_⟩
      · show Yields eval (if side.Beats optimum.eval d then _ else _) _ _
        rw [if_neg hbeats, narrow_opening]
        exact hloop
      · intro y hy
        rcases List.mem_cons.mp hy with rfl | hy
        · exact (hworse hbeats).trans hbest
        · exact hall y hy
      · exact ho.imp_right fun ⟨y, hy, heq⟩ => ⟨y, List.mem_cons_of_mem _ hy, heq⟩

end Opening

/-- Black's loop after the first move has been searched once: searching it again inside the
narrowed window fails high and gives its value once more. -/
theorem blackRoot_yields (hchild : Searches env eval b value (sideChild env .black cutoff))
    (hvalue : ∀ m, env.lowest < value m ∧ value m < env.highest) {x : MoveEval V}
    {xs : List (MoveEval V)} (harr : ∀ y ∈ x :: xs, y.movement ∈ b.getLegalMoves env.order)
    (m : U16) :
    ∃ l o, (sideRoot env .black cutoff (x :: xs) b.forgetKill (env.lowest, value x.movement)
        ⟨m, env.highest⟩).Yields eval l (b.forgetKill, o) ∧ l.getLast?.getD m = o.movement ∧
      (∀ y ∈ x :: xs, o.eval ≤ value y.movement) ∧
      ∃ y ∈ x :: xs, o = ⟨y.movement, value y.movement⟩ := by
  have hxs : ∀ y ∈ xs, y.movement ∈ b.getLegalMoves env.order := fun y hy =>
    harr y (List.mem_cons_of_mem _ hy)
  obtain ⟨d, hrun, hd⟩ := hchild x.movement (harr x List.mem_cons_self) env.lowest
    (value x.movement) (hvalue _).1
  obtain rfl : d = value x.movement := le_antisymm (hd.high le_rfl).2 (hd.high le_rfl).1
  let first : MoveEval V := ⟨x.movement, value x.movement⟩
  have hstart : NoWorse .black (min (value x.movement) (value x.movement)) first.eval :=
    le_min le_rfl le_rfl
  obtain ⟨l, o, hloop, hlast, hle, hall, ho⟩ :=
    sideRoot_yields hchild hvalue hxs hstart (hvalue _).1
  refine ⟨x.movement :: l, o, hrun.bind_nil (Yields.poll ?_), ?_, ?_, ?_⟩
  · show Yields eval (if env.highest > value x.movement then _ else _) _ _
    rw [if_pos (hvalue _).2]
    exact hloop.publish
  · rw [List.getLast?_cons]
    exact hlast
  · intro y hy
    rcases List.mem_cons.mp hy with rfl | hy
    · exact hle
    · exact hall y hy
  · rcases ho with rfl | ⟨y, hy, rfl⟩
    · exact ⟨x, List.mem_cons_self, rfl⟩
    · exact ⟨y, List.mem_cons_of_mem _ hy, rfl⟩

def rootValue (env : Platform V) (eval : Board × Nat → V) (depth : Nat) (b : Board) (m : U16) : V :=
  minimax env eval depth (b.playerToPlay = .black) (b.doMove m)

/-- A legal move of the greatest minimax value for White, or of the least for Black. -/
def Best (env : Platform V) (eval : Board × Nat → V) (depth : Nat) (b : Board) (m : U16) : Prop :=
  m ∈ b.getLegalMoves env.order ∧ ∀ m' ∈ b.getLegalMoves env.order,
    match b.playerToPlay with
    | .white => rootValue env eval depth b m' ≤ rootValue env eval depth b m
    | .black => rootValue env eval depth b m ≤ rootValue env eval depth b m'

omit [Zero V] in
theorem best_iff {depth : Nat} {m : U16} : Best env eval depth b m ↔
    m ∈ b.getLegalMoves env.order ∧ ∀ m' ∈ b.getLegalMoves env.order,
      NoWorse b.playerToPlay (rootValue env eval depth b m') (rootValue env eval depth b m) := by
  rw [Best]
  cases b.playerToPlay <;> exact Iff.rfl

def rootOrder (env : Platform V) (eval : Board × Nat → V) (b : Board) : List (MoveEval V) :=
  ordered env eval (b.playerToPlay = .black) b

/-- The bound the loop of a round starts with: Black has searched the first move before. -/
def Opens (env : Platform V) (eval : Board × Nat → V) (depth : Nat) (b : Board) (bound : V) :
    Prop :=
  match b.playerToPlay with
  | .white => bound = env.lowest
  | .black => ∃ x xs, rootOrder env eval b = x :: xs ∧
      bound = rootValue env eval depth b x.movement

omit [Zero V] in
theorem rootOrder_facts (env : Platform V) (eval : Board × Nat → V) (b : Board) :
    ((rootOrder env eval b).map MoveEval.movement).Perm (b.getLegalMoves env.order) ∧
      ∀ x ∈ rootOrder env eval b, x.movement ∈ b.getLegalMoves env.order := by
  have hperm := ordered_perm env eval (b.playerToPlay = .black) b
  exact ⟨hperm, (ordering_facts hperm).2.2⟩

omit [Zero V] in
theorem rootOrder_ne_nil (hlegal : b.getLegalMoves env.order ≠ []) : rootOrder env eval b ≠ [] :=
  mt (ordering_facts (rootOrder_facts env eval b).1).1.mp hlegal

theorem headBound_yields (h : Bounded env eval) (hcutoff : 0 ≤ cutoff)
    (hrestores : Board.Restores env.order (cutoff.toNat + 2) b) {x : MoveEval V}
    {xs : List (MoveEval V)} (harr : rootOrder env eval b = x :: xs) :
    ∃ bound, (headBound env b.playerToPlay cutoff b.forgetKill x xs).Yields eval []
        (.inr (b.forgetKill, x :: xs, bound)) ∧
      Opens env eval cutoff.toNat b bound := by
  cases hplayer : b.playerToPlay with
  | white =>
    refine ⟨env.lowest, Proc.yields_done _, ?_⟩
    rw [Opens, hplayer]
  | black =>
    have hbounded := fun m => minimax_bounded h cutoff.toNat true (b.doMove m)
    have hx : x.movement ∈ b.getLegalMoves env.order :=
      (rootOrder_facts env eval b).2 x (harr ▸ List.mem_cons_self)
    obtain ⟨d, hfirst, hd⟩ := sideChild_searches h hcutoff hrestores .black x.movement hx
      env.lowest env.highest ((h (b, 0)).1.trans (h (b, 0)).2)
    obtain rfl := hd.exact (hbounded _).1 (hbounded _).2
    refine ⟨_, hfirst.bind_nil (Yields.poll (Proc.yields_done _)), ?_⟩
    rw [Opens, hplayer]
    refine ⟨x, xs, harr, ?_⟩
    simp only [min_eq_right (hbounded _).2.le, rootValue, hplayer, decide_true]

theorem roundHead_yields (h : Bounded env eval) (hcutoff : 0 ≤ cutoff)
    (hrestores : Board.Restores env.order (cutoff.toNat + 2) b)
    (hlegal : b.getLegalMoves env.order ≠ []) {c : Board} (hc : c.forgetKill = b.forgetKill)
    (m₀ : U16) :
    ∃ bound, (roundHead env b.playerToPlay ⟨c, cutoff, m₀⟩).Yields eval []
        (.inr (b.forgetKill, rootOrder env eval b, bound)) ∧
      Opens env eval cutoff.toNat b bound := by
  obtain ⟨c', _, hcons, _, hrun⟩ :=
    orderChildren_ordered env eval (b.playerToPlay = .black) hrestores.undoes hc
  obtain rfl := hcons (rootOrder_ne_nil hlegal)
  have horder : ordered env eval (b.playerToPlay = .black) b = rootOrder env eval b := rfl
  rw [horder] at hrun
  have hne : rootOrder env eval b ≠ [] := rootOrder_ne_nil hlegal
  obtain ⟨x, xs, harr⟩ := List.exists_cons_of_ne_nil hne
  obtain ⟨bound, hbound, hopens⟩ := headBound_yields h hcutoff hrestores harr
  refine ⟨bound, ?_, hopens⟩
  rw [roundHead_eq]
  rw [harr] at hrun ⊢
  exact Yields.poll (hrun.bind_nil hbound)

theorem rootLoop_yields (h : Bounded env eval) (hcutoff : 0 ≤ cutoff)
    (hrestores : Board.Restores env.order (cutoff.toNat + 2) b)
    (hlegal : b.getLegalMoves env.order ≠ []) {bound : V}
    (hopens : Opens env eval cutoff.toNat b bound) (m₀ : U16) (n : Nat) :
    ∃ l o, (rootLoop env b.playerToPlay cutoff ((rootOrder env eval b).take n) b.forgetKill bound
        m₀).Yields eval l (b.forgetKill, o) ∧
      (n = 0 → l = []) ∧ (n ≠ 0 → l.getLast?.getD m₀ = o.movement ∧
        (∀ y ∈ (rootOrder env eval b).take n,
          NoWorse b.playerToPlay (rootValue env eval cutoff.toNat b y.movement) o.eval) ∧
        ∃ y ∈ (rootOrder env eval b).take n,
          o = ⟨y.movement, rootValue env eval cutoff.toNat b y.movement⟩) := by
  have hmem : ∀ x ∈ (rootOrder env eval b).take n, x.movement ∈ b.getLegalMoves env.order :=
    fun x hx => (rootOrder_facts env eval b).2 x (List.mem_of_mem_take hx)
  have hbounded := fun m =>
    minimax_bounded h cutoff.toNat (b.playerToPlay = .black) (b.doMove m)
  have hchild := sideChild_searches h hcutoff hrestores b.playerToPlay
  rw [rootLoop_eq]
  rcases n with _ | n
  · exact ⟨[], _, Proc.yields_done _, fun _ => rfl, fun hn => absurd rfl hn⟩
  have harr : rootOrder env eval b ≠ [] := rootOrder_ne_nil hlegal
  have hne : (rootOrder env eval b).take (n + 1) ≠ [] := by simpa using harr
  simp only [rootValue]
  cases hplayer : b.playerToPlay with
  | white =>
    rw [hplayer] at hchild hbounded
    rw [Opens, hplayer] at hopens
    subst hopens
    let start : MoveEval V := ⟨m₀, env.lowest⟩
    have hlow : NoWorse .white env.lowest start.eval := .refl _
    have hrange : PlayerColor.white.Beats start.eval env.highest := (h (b, 0)).1.trans (h (b, 0)).2
    obtain ⟨l, o, hloop, hlast, _, hall, ho⟩ :=
      sideRoot_yields hchild hbounded hmem hlow hrange
    refine ⟨l, o, hloop, fun hn => absurd hn (Nat.succ_ne_zero n), fun _ => ⟨hlast, hall, ?_⟩⟩
    refine ho.resolve_left fun hstart => ?_
    obtain ⟨x, hx⟩ := List.exists_mem_of_ne_nil _ hne
    rw [hstart] at hall
    exact absurd (hall x hx) (not_le.mpr (hbounded _).1)
  | black =>
    rw [hplayer] at hchild hbounded
    rw [Opens, hplayer] at hopens
    obtain ⟨x, xs, hcons, rfl⟩ := hopens
    rw [hcons] at hmem ⊢
    simp only [rootValue, hplayer]
    obtain ⟨l, o, hloop, hlast, hall, hbest⟩ := blackRoot_yields hchild hbounded hmem m₀
    exact ⟨l, o, hloop, fun hn => absurd hn (Nat.succ_ne_zero n), fun _ => ⟨hlast, hall, hbest⟩⟩

/-- A round of the search ends by storing a best move for its cutoff. -/
theorem searchRound_yields (h : Bounded env eval) (hcutoff : 0 ≤ cutoff)
    (hrestores : Board.Restores env.order (cutoff.toNat + 2) b)
    (hlegal : b.getLegalMoves env.order ≠ []) {c : Board} (hc : c.forgetKill = b.forgetKill)
    (m₀ : U16) :
    ∃ l m, (searchRound env b.playerToPlay ⟨c, cutoff, m₀⟩).Yields eval (l ++ [m])
        (.inl ⟨b.forgetKill, cutoff + 2, m⟩) ∧
      Best env eval cutoff.toNat b m := by
  obtain ⟨bound, hhead, hopens⟩ := roundHead_yields h hcutoff hrestores hlegal hc m₀
  obtain ⟨hperm, hmem⟩ := rootOrder_facts env eval b
  have harr : rootOrder env eval b ≠ [] := rootOrder_ne_nil hlegal
  obtain ⟨l, o, hloop, _, hbest⟩ := rootLoop_yields h hcutoff hrestores hlegal hopens m₀
    (rootOrder env eval b).length
  rw [List.take_length] at hloop hbest
  obtain ⟨_, hall, x, hx, rfl⟩ := hbest (List.length_pos_of_ne_nil harr).ne'
  refine ⟨l, x.movement, ?_, best_iff.mpr ⟨hmem x hx, fun m' hm' => ?_⟩⟩
  · rw [searchRound_eq]
    exact hhead.bind_nil (hloop.bind (Yields.poll (Yields.publish (Proc.yields_done _))))
  · obtain ⟨y, hy, rfl⟩ := List.mem_map.mp (hperm.mem_iff.mpr hm')
    exact hall y hy

theorem rounds_store (h : Bounded env eval) (n : Nat) (hcutoff : 0 ≤ cutoff)
    (hrestores : Board.Restores env.order (cutoff.toNat + 2 * n + 2) b)
    (hlegal : b.getLegalMoves env.order ≠ []) {c : Board} (hc : c.forgetKill = b.forgetKill)
    (m₀ : U16) (i : Nat) :
    ∃ m, Best env eval (cutoff.toNat + 2 * n) b m ∧
      ((Proc.loop (searchRound env b.playerToPlay) (n + 1) ⟨c, cutoff, m₀⟩).run eval
        (fun _ => true) i).stored.getLast? = some m := by
  induction n generalizing c cutoff m₀ i with
  | zero =>
    obtain ⟨l, m, hround, hbest⟩ := searchRound_yields h hcutoff hrestores hlegal hc m₀
    obtain ⟨j, hj⟩ := hround i
    refine ⟨m, hbest, ?_⟩
    rw [Proc.loop, Proc.run_bind_some hj]
    simp [Proc.loop]
  | succ n ih =>
    obtain ⟨l, m, hround, _⟩ :=
      searchRound_yields h hcutoff (hrestores.mono (by omega)) hlegal hc m₀
    obtain ⟨j, hj⟩ := hround i
    have hdepth : (cutoff + 2).toNat + 2 * n = cutoff.toNat + 2 * (n + 1) := by omega
    have hnext : 0 ≤ cutoff + 2 := by omega
    have hforget : b.forgetKill.forgetKill = b.forgetKill := rfl
    obtain ⟨m', hbest, hlast⟩ := ih hnext (by rwa [hdepth]) hforget m j
    rw [hdepth] at hbest
    refine ⟨m', hbest, ?_⟩
    rw [Proc.loop, Proc.run_bind_some hj, List.getLast?_append]
    simp only [hlast, Option.some_or]

/-- With the flag true throughout, `MAX_VAL` and `MIN_VAL` compute the minimax value through
every window, and the round of `search_move` with cutoff `2 * k + 1` ends with a root move of the
best minimax value in `best_move`. -/
theorem search_computes_minimax (h : Bounded env eval) :
    (∀ fuel i cutoff alpha beta, i ≤ cutoff → (cutoff - i).toNat < fuel → alpha < beta →
      Board.Restores env.order ((cutoff - i).toNat + 1) b →
        Returns eval b alpha beta (minimax env eval (cutoff - i).toNat true b)
            (maxVal env fuel b alpha beta i cutoff) ∧
          Returns eval b alpha beta (minimax env eval (cutoff - i).toNat false b)
            (minVal env fuel b alpha beta i cutoff)) ∧
      ∀ k, b.getLegalMoves env.order ≠ [] → Board.Restores env.order (2 * k + 3) b →
        ∃ m, Best env eval (2 * k + 1) b m ∧
          ((searchMove env (k + 1) b).run eval (fun _ => true) 0).stored.getLast? = some m := by
  refine ⟨fun fuel i cutoff alpha beta hi hfuel hwindow hrestores =>
    ⟨val_returns h .white fuel hwindow hi hfuel hrestores,
      val_returns h .black fuel hwindow hi hfuel hrestores⟩, fun k hlegal hrestores => ?_⟩
  have hdepth : (1 : Int).toNat + 2 * k = 2 * k + 1 := by rw [Int.toNat_one]; omega
  have hstore := rounds_store h k (show (0 : Int) ≤ 1 by decide) (by rwa [hdepth]) hlegal rfl
    env.unset 0
  rwa [hdepth] at hstore

end Root

def mobility (q : Board × Nat) : ℤ := min q.2 999

theorem mobility_bounded : Bounded (Platform.sorted (-1000) 1000) mobility := by
  intro q
  simp only [Platform.sorted, mobility]
  omega

/-- A leaf and the second round of the search of the bare kings. -/
theorem search_computes_minimax_kings :
    Returns mobility Board.kings (-5) 5
        (minimax (Platform.sorted (-1000) 1000) mobility 0 true Board.kings)
        (maxVal (Platform.sorted (-1000) 1000) 1 Board.kings (-5) 5 0 0) ∧
      ∃ m, Best (Platform.sorted (-1000) 1000) mobility 3 Board.kings m ∧
        ((searchMove (Platform.sorted (-1000) 1000) 2 Board.kings).run mobility
          (fun _ => true) 0).stored.getLast? = some m := by
  have hrestores := fun depth => Board.restores_of_pawnless VisitOrder.insertion Board.kings_wf
    (by decide) depth
  have hlegal : move 11 12 ∈ Board.kings.getLegalMoves VisitOrder.insertion :=
    Board.kings_wf.legal_of_plays (by decide +kernel)
  obtain ⟨hwindow, hsearch⟩ := search_computes_minimax mobility_bounded
  exact ⟨(hwindow 1 0 0 (-5) 5 le_rfl (by decide) (by decide) (hrestores 1)).1,
    hsearch 1 (List.ne_nil_of_mem hlegal) (hrestores 5)⟩

end Rollerball
