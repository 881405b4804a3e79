import Rollerball.Engine.Root
import Rollerball.Engine.Scores
import Rollerball.Rules.Value

/-!
# The game the engine plays

The features are counted slot by slot, yet a score depends on the position alone: not on which slot
a piece is in, how the board was reached or in what order moves are visited. So the search plays the
game of values of the rules, and plays it alike for both colours.
-/

namespace Rollerball

open Census Minimax

namespace Board

section Features

variable {b : Board} {c : PlayerColor} {k : PieceType}

private theorem slotCodes_kind {i : Slot} {piece : U8} (hpiece : piece ∈ slotCodes i) :
    ∃ l ∈ slotTypes i, kindOf piece = some l ∧ ∀ k : PieceType, piece &&& k.bits ≠ 0#8 ↔ l = k := by
  have hbits : ∀ c : PlayerColor, ∀ l k : PieceType,
      (c.bits ||| l.bits) &&& k.bits ≠ 0#8 ↔ l = k := by
    intro c l k
    cases c <;> cases l <;> cases k <;> decide
  obtain ⟨l, hl, rfl⟩ := List.mem_map.mp hpiece
  exact ⟨l, hl, kindOf_bits _ l, hbits _ l⟩

theorem Wf.sum_slots (h : b.Wf slotCodes) {slots : List Slot} {f : Square → Int} {g : Slot → Int}
    (hnodup : slots.Nodup) (hslots : ∀ i, i ∈ slots ↔ slotColor i = c ∧ k ∈ slotTypes i)
    (hg : ∀ i, g i = if b.pieces i ≠ DEAD ∧ b.board0 (b.pieces i) &&& k.bits ≠ 0#8 then
      f (b.pieces i) else 0) :
    (slots.map g).sum = census (weigh c k f) b.position.cell := by
  have hloose := h.loose admissible_slotCodes
  have hplaces : ∀ p a, b.position.cell p = some a → ∃ i, b.pieces i ≠ DEAD ∧ b.pieces i = p := by
    intro p a hp
    obtain ⟨i, rfl, hdead, _⟩ := hloose.slot_of_cell hp
    exact ⟨i, hdead, rfl⟩
  have hslot : ∀ i, (if b.pieces i ≠ DEAD then
      (b.position.cell (b.pieces i)).elim 0 (weigh c k f (b.pieces i)) else 0) =
        if i ∈ slots.toFinset then g i else 0 := by
    intro i
    rw [hg i]
    by_cases hi : b.pieces i ≠ DEAD
    · obtain ⟨l, hl, hkind, hbits⟩ := slotCodes_kind (h.code i hi)
      obtain ⟨l', hl', hcell⟩ := hloose.cell_slot hi
      obtain rfl : l = l' := Option.some.inj (hkind.symm.trans hl')
      rw [if_pos hi, hcell, Option.elim_some, weigh, ← ite_and]
      refine if_congr ?_ rfl rfl
      rw [List.mem_toFinset, hslots, hbits k, and_iff_right hi, Prod.mk.injEq]
      constructor
      · rintro ⟨rfl, rfl⟩
        exact ⟨⟨rfl, hl⟩, rfl⟩
      · exact fun hi' => ⟨hi'.1.1, hi'.2⟩
    · rw [if_neg hi, ← ite_and, if_neg fun hlive => hi hlive.2.1]
  rw [census_of_places (weigh c k f) hplaces fun i j hi _ => h.distinct i j hi,
    ← List.sum_toFinset g hnodup, Finset.sum_congr rfl fun i _ => hslot i]
  rw [Finset.sum_ite_mem, Finset.univ_inter]

theorem Wf.numAlive_eq (h : b.Wf slotCodes) {slots : List Slot} (hnodup : slots.Nodup)
    (hslots : ∀ i, i ∈ slots ↔ slotColor i = c ∧ k ∈ slotTypes i) :
    numAlive b slots k = b.position.count c k := by
  refine h.sum_slots hnodup hslots fun i => ?_
  rw [signAlive, ite_and]
  split_ifs <;> simp_all

theorem Wf.promotionDistance_eq (h : b.Wf slotCodes) (c : PlayerColor) :
    promotionDistance b c = b.position.advance c := by
  refine h.sum_slots (k := .pawn) (by cases c <;> decide) (by cases c <;> decide) fun i => ?_
  rw [manhattanToPromotion]
  by_cases hi : b.pieces i ≠ DEAD ∧ b.board0 (b.pieces i) &&& PieceType.pawn.bits ≠ 0#8
  · rw [if_pos hi, if_neg (not_or.mpr ⟨hi.1, not_not.mpr hi.2⟩)]
    cases c <;> rfl
  · rw [if_neg hi, if_pos (by rwa [not_and_or, not_not] at hi)]

theorem Wf.pieceCounts (h : b.Wf slotCodes) (c : PlayerColor) :
    numAlive b (pawnSlots c) .pawn = b.position.count c .pawn ∧
      numAlive b (rookSlots c) .rook = b.position.count c .rook ∧
      numAlive b (bishopSlots c) .bishop = b.position.count c .bishop := by
  refine ⟨h.numAlive_eq ?_ ?_, h.numAlive_eq ?_ ?_, h.numAlive_eq ?_ ?_⟩ <;> cases c <;> decide

theorem Wf.pieceValue_eq (h : b.Wf slotCodes) (c : PlayerColor) :
    pieceValue b c = b.position.material c := by
  obtain ⟨hpawns, hrooks, hbishops⟩ := h.pieceCounts c
  rw [pieceValue, hpawns, hrooks, hbishops, Position.material]

theorem Wf.checkFeature_eq (h : b.Wf looseCodes) (ord : VisitOrder) {n : Nat}
    (hn : n = 0 ↔ b.getLegalMoves ord = []) : checkFeature ord b n = b.position.peril := by
  have hlegal : n = 0 ↔ ¬∃ m, b.position.Legal m := by
    rw [hn, h.exists_legal_iff ord, List.length_pos_iff, not_not]
  have hturn : b.position.turn = b.playerToPlay := rfl
  have hcheck := h.inCheck_iff ord
  by_cases hchecked : b.position.InCheck b.playerToPlay
  · rw [checkFeature, if_pos (hcheck.mpr hchecked), Position.peril, hturn, if_pos hchecked]
    by_cases hmove : ∃ m, b.position.Legal m
    · rw [if_pos hmove, if_neg fun hzero => hlegal.mp hzero hmove]
    · rw [if_neg hmove, if_pos (hlegal.mpr hmove)]
  · rw [checkFeature, if_neg (mt hcheck.mp hchecked), Position.peril, hturn, if_neg hchecked]

/-- The engine scores the position of a board. -/
theorem Wf.eval_eq_score (h : b.Wf slotCodes) (ord : VisitOrder) {n : Nat}
    (hn : n = 0 ↔ b.getLegalMoves ord = []) : WSum.eval ord (b, n) = b.position.score := by
  obtain ⟨hwp, hwr, hwb⟩ := h.pieceCounts .white
  obtain ⟨hbp, hbr, hbb⟩ := h.pieceCounts .black
  rw [WSum.eval_eq, hwp, hwr, hwb, hbp, hbr, hbb, h.pieceValue_eq, h.pieceValue_eq,
    h.promotionDistance_eq, h.promotionDistance_eq,
    (h.loose admissible_slotCodes).checkFeature_eq ord hn, Position.score]

end Features

end Board

section Search

variable {env env' : Platform ℚ} {b b' : Board}

theorem minimax_stuck (h : b.Wf slotCodes) (hmoves : b.getLegalMoves env.order = [])
    (maximize : Bool) (depth : Nat) :
    minimax env (WSum.eval env.order) depth maximize b = b.position.value depth := by
  have hstuck : ¬∃ m, b.position.Legal m := by
    rw [(h.loose admissible_slotCodes).exists_legal_iff env.order, List.length_pos_iff, not_not]
    exact hmoves
  rw [minimax_leaf _ _ hmoves, Position.value_stuck depth hstuck]
  exact h.eval_eq_score env.order (iff_of_true rfl hmoves)

theorem minimax_eq_value (hlowest : env.lowest = -dblMax) (hhighest : env.highest = dblMax)
    (h : b.Wf slotCodes) {maximize : Bool} (hturn : maximize = true ↔ b.playerToPlay = .white)
    (depth : Nat) :
    minimax env (WSum.eval env.order) depth maximize b = b.position.value depth := by
  have hbounded := minimax_bounded (WSum.bounded hlowest hhighest)
  induction depth generalizing b maximize with
  | zero =>
    by_cases hmoves : b.getLegalMoves env.order = []
    · exact minimax_stuck h hmoves maximize 0
    rw [minimax_zero _ hmoves]
    refine h.forgetKill.eval_eq_score env.order ?_
    rw [b.getLegalMoves_forgetKill, List.length_eq_zero_iff]
  | succ depth ih =>
    by_cases hmoves : b.getLegalMoves env.order = []
    · exact minimax_stuck h hmoves maximize (depth + 1)
    have hmem : ∀ m, m ∈ b.getLegalMoves env.order ↔ m ∈ Position.rules.moves b.position :=
      fun m => ((h.loose admissible_slotCodes).mem_getLegalMoves env.order).trans
        Position.mem_rules_moves.symm
    obtain ⟨m₀, hm₀⟩ := List.exists_mem_of_ne_nil _ hmoves
    have hsome : (Position.rules.moves b.position).Nonempty := ⟨m₀, (hmem m₀).mp hm₀⟩
    have hchild : ∀ maximize' : Bool, (maximize' = true ↔ b.playerToPlay.other = .white) →
        ∀ m ∈ Position.rules.moves b.position,
          minimax env (WSum.eval env.order) depth maximize' (b.doMove m) =
            (Position.rules.next b.position m).value depth := by
      intro maximize' hturn' m hm
      have hlegal := (hmem m).mpr hm
      rw [← Board.doMove_playerToPlay b m] at hturn'
      rw [ih (h.doMove env.order admissible_slotCodes hlegal) hturn',
        h.position_doMove env.order admissible_slotCodes hlegal]
      rfl
    cases hplayer : b.playerToPlay with
    | white =>
      obtain rfl : maximize = true := hturn.mpr hplayer
      have hbelow := hchild false (by rw [hplayer]; decide)
      rw [minimax_max _ hmoves, Game.foldl_max_eq_sup' hmem hsome fun m _ => (hbounded _ _ _).1.le]
      exact (Finset.sup'_congr hsome rfl hbelow).trans (Game.value_max depth hsome hplayer).symm
    | black =>
      have hmin : ¬Position.rules.maximizes b.position := by
        change ¬b.playerToPlay = .white
        rw [hplayer]
        decide
      obtain rfl : maximize = false := by
        rw [← Bool.not_eq_true, hturn]
        exact hmin
      have hbelow := hchild true (by rw [hplayer]; decide)
      rw [minimax_min _ hmoves, Game.foldl_min_eq_inf' hmem hsome fun m _ => (hbounded _ _ _).2.le]
      exact (Finset.inf'_congr hsome rfl hbelow).trans (Game.value_min depth hsome hmin).symm

theorem Board.Wf.promotionFree_iff (h : b.Wf slotCodes) (ord : VisitOrder) (depth : Nat) :
    b.PromotionFree ord depth ↔ b.position.PromotionFree depth := by
  induction depth generalizing b with
  | zero => exact Iff.rfl
  | succ depth ih =>
    refine forall_congr' fun m => ?_
    rw [← (h.loose admissible_slotCodes).mem_getLegalMoves ord]
    refine forall_congr' fun hm => and_congr_right' ?_
    rw [ih (h.doMove ord admissible_slotCodes hm), h.position_doMove ord admissible_slotCodes hm]

/-- The move an undisturbed search has stored last after its round with cutoff `2 * k + 1`. -/
def settled (env : Platform ℚ) (k : Nat) (b : Board) : Option U16 :=
  ((searchMove env (k + 1) b).run (WSum.eval env.order) (fun _ => true) 0).stored.getLast?

theorem settled_best (hlowest : env.lowest = -dblMax) (hhighest : env.highest = dblMax)
    (h : b.Wf slotCodes) (hlegal : b.getLegalMoves env.order ≠ []) (k : Nat)
    (hfree : b.position.PromotionFree (2 * k + 3)) :
    ∃ m, settled env k b = some m ∧ b.position.Legal m ∧ ∀ m', b.position.Legal m' →
      match b.playerToPlay with
      | .white => (b.position.next m').value (2 * k + 1) ≤ (b.position.next m).value (2 * k + 1)
      | .black =>
        (b.position.next m).value (2 * k + 1) ≤ (b.position.next m').value (2 * k + 1) := by
  have hdepth : (1 : Int).toNat + 2 * k = 2 * k + 1 := by rw [Int.toNat_one]; omega
  have hrestores := ((h.promotionFree_iff env.order _).mpr hfree).restores admissible_slotCodes h
  obtain ⟨m, hbest, hlast⟩ := rounds_store (WSum.bounded hlowest hhighest) k
    (show (0 : Int) ≤ 1 by decide) (by rwa [hdepth]) hlegal rfl env.unset 0
  rw [hdepth] at hbest
  have hmem := fun m => (h.loose admissible_slotCodes).mem_getLegalMoves env.order (m := m)
  have hvalue : ∀ m ∈ b.getLegalMoves env.order,
      rootValue env (WSum.eval env.order) (2 * k + 1) b m =
        (b.position.next m).value (2 * k + 1) := by
    intro m hm
    rw [rootValue, minimax_eq_value hlowest hhighest (h.doMove env.order admissible_slotCodes hm),
      h.position_doMove env.order admissible_slotCodes hm]
    rw [Board.doMove_playerToPlay]
    cases b.playerToPlay <;> decide
  refine ⟨m, hlast, (hmem m).mp hbest.1, fun m' hm' => ?_⟩
  have hm' := (hmem m').mpr hm'
  have hle := hbest.2 m' hm'
  rw [hvalue m hbest.1, hvalue m' hm'] at hle
  exact hle

/-- When no line within its horizon promotes, an undisturbed search settles on an optimal move of
the game of values. -/
theorem search_plays_value (hlowest : env.lowest = -dblMax) (hhighest : env.highest = dblMax)
    (h : b.Wf slotCodes) (hlegal : b.getLegalMoves env.order ≠ []) (k : Nat)
    (hfree : b.position.PromotionFree (2 * k + 3)) :
    ∃ m, settled env k b = some m ∧ b.position.Legal m ∧
      (b.position.next m).value (2 * k + 1) = b.position.value (2 * k + 2) := by
  obtain ⟨m, hlast, hm, hbest⟩ := settled_best hlowest hhighest h hlegal k hfree
  exact ⟨m, hlast, hm, Position.value_eq_of_best _ hm hbest⟩

private theorem kings_facts :
    Board.kings.position.PromotionFree 5 ∧
      Board.kings.getLegalMoves VisitOrder.insertion ≠ [] ∧
      Board.kings.flipPlayer.position = Board.kings.position.swap := by
  refine ⟨?_, ?_, Position.ext (by decide) rfl⟩
  · exact (Board.kings_wf.promotionFree_iff VisitOrder.insertion 5).mp
      (Board.promotionFree_of_pawnless _ Board.kings_wf (by decide) 5)
  · have hmove : move 11 12 ∈ Board.kings.getLegalMoves VisitOrder.insertion :=
      Board.kings_wf.legal_of_plays (by decide +kernel)
    exact List.ne_nil_of_mem hmove

theorem search_plays_value_kings :
    ∃ m, settled WSum.platform 1 Board.kings = some m ∧ Board.kings.position.Legal m ∧
      (Board.kings.position.next m).value 3 = Board.kings.position.value 4 :=
  search_plays_value rfl rfl Board.kings_wf kings_facts.2.1 1 kings_facts.1

/-- Two searches of one position settle on moves of the same worth, however the boards were
reached, in whichever slots their pieces are and in whatever order moves are visited and sorted.
Searches of a position and of its mirror image settle on moves of opposite worth. -/
theorem searches_agree (hlowest : env.lowest = -dblMax) (hhighest : env.highest = dblMax)
    (hlowest' : env'.lowest = -dblMax) (hhighest' : env'.highest = dblMax)
    (h : b.Wf slotCodes) (h' : b'.Wf slotCodes) (hlegal : b.getLegalMoves env.order ≠ []) (k : Nat)
    (hfree : b.position.PromotionFree (2 * k + 3)) :
    ∃ m, settled env k b = some m ∧
      (b'.position = b.position → ∃ m', settled env' k b' = some m' ∧
        (b'.position.next m').value (2 * k + 1) = (b.position.next m).value (2 * k + 1)) ∧
      (b'.position = b.position.swap → ∃ m', settled env' k b' = some m' ∧
        (b'.position.next m').value (2 * k + 1) = -(b.position.next m).value (2 * k + 1)) := by
  have hring := (h.loose admissible_slotCodes).onRing
  obtain ⟨m, hlast, hm, hbest⟩ := settled_best hlowest hhighest h hlegal k hfree
  have hvalue := Position.value_eq_of_best _ hm hbest
  have hsearch' : ∀ m', b'.position.Legal m' → b'.position.PromotionFree (2 * k + 3) →
      ∃ m', settled env' k b' = some m' ∧
        (b'.position.next m').value (2 * k + 1) = b'.position.value (2 * k + 2) := by
    intro m' hm' hfree'
    have hlegal' := ((h'.loose admissible_slotCodes).mem_getLegalMoves env'.order).mpr hm'
    obtain ⟨m', hlast', hm', hbest'⟩ :=
      settled_best hlowest' hhighest' h' (List.ne_nil_of_mem hlegal') k hfree'
    exact ⟨m', hlast', Position.value_eq_of_best _ hm' hbest'⟩
  refine ⟨m, hlast, fun hsame => ?_, fun hswap => ?_⟩
  · obtain ⟨m', hlast', hvalue'⟩ := hsearch' m (by rwa [hsame]) (by rwa [hsame])
    exact ⟨m', hlast', by rw [hvalue', hvalue, hsame]⟩
  · obtain ⟨m', hlast', hvalue'⟩ := hsearch' (rot m) (by rw [hswap]; exact hm.swap hring)
      (by rw [hswap]; exact hfree.swap hring)
    exact ⟨m', hlast', by rw [hvalue', hvalue, hswap, Position.value_swap hring]⟩

theorem searches_agree_kings :
    ∃ m m', settled WSum.platform 1 Board.kings = some m ∧
      settled WSum.platform 1 Board.kings.flipPlayer = some m' ∧
      (Board.kings.flipPlayer.position.next m').value 3 =
        -(Board.kings.position.next m).value 3 := by
  obtain ⟨m, hlast, _, hswap⟩ := @searches_agree WSum.platform WSum.platform Board.kings
    Board.kings.flipPlayer rfl rfl rfl rfl Board.kings_wf Board.kings_wf.flipPlayer
    kings_facts.2.1 1 kings_facts.1
  obtain ⟨m', hlast', hvalue⟩ := hswap kings_facts.2.2
  exact ⟨m, m', hlast, hlast', hvalue⟩

end Search

end Rollerball
