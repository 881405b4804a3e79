import Rollerball.Board.Mirror
import Rollerball.Engine.Evaluation
import Mathlib.Tactic.Ring

/-!
# The scores of mirrored and of mated boards

The features are written out once for each colour. Exchanging the players negates the score, and
the term of checkmate outweighs all others together.
-/

namespace Rollerball

theorem pawnSlots_mirror (col : PlayerColor) :
    (pawnSlots col).map Slot.mirror = pawnSlots col.other := by
  cases col <;> rfl

theorem rookSlots_mirror (col : PlayerColor) :
    (rookSlots col).map Slot.mirror = rookSlots col.other := by
  cases col <;> rfl

theorem bishopSlots_mirror (col : PlayerColor) :
    (bishopSlots col).map Slot.mirror = bishopSlots col.other := by
  cases col <;> rfl

theorem swapColor_and_bits (piece : U8) (pType : PieceType) :
    swapColor piece &&& pType.bits = piece &&& pType.bits := by
  cases pType <;> revert piece <;> decide

private theorem getx_gety_cw180 : ∀ p, Playable p →
    getx (cw180 p) + getx p = 6 ∧ gety (cw180 p) + gety p = 6 := by
  decide

namespace Board

variable (b : Board)

theorem signAlive_swap (i : Slot) (pType : PieceType) :
    signAlive b.swap (b.swap.pieces i) pType = signAlive b (b.pieces i.mirror) pType := by
  simp only [signAlive, swap_pieces, swap_board0, cw180_cw180, cw180_dead, swapColor_and_bits]

theorem numAlive_swap (slots : List Slot) (pType : PieceType) :
    numAlive b.swap slots pType = numAlive b (slots.map Slot.mirror) pType := by
  rw [numAlive, numAlive, List.map_map]
  exact congrArg List.sum (List.map_congr_left fun i _ => b.signAlive_swap i pType)

theorem pieceValue_swap (col : PlayerColor) :
    pieceValue b.swap col = pieceValue b col.other := by
  simp only [pieceValue, numAlive_swap, pawnSlots_mirror, rookSlots_mirror, bishopSlots_mirror]

variable {b}

theorem Wf.manhattanToPromotion_swap (h : b.Wf looseCodes) (i : Slot) (col : PlayerColor) :
    manhattanToPromotion b.swap (b.swap.pieces i) col =
      manhattanToPromotion b (b.pieces i.mirror) col.other := by
  simp only [manhattanToPromotion, swap_pieces, swap_board0, cw180_cw180, cw180_dead,
    swapColor_and_bits]
  split_ifs with hnone
  · rfl
  · have hlive : b.pieces i.mirror ≠ DEAD := fun hdead => hnone (Or.inl hdead)
    obtain ⟨hx, hy⟩ := getx_gety_cw180 _ (h.playable _ hlive)
    have hxs : (getx (cw180 (b.pieces i.mirror)) : Int) = 6 - getx (b.pieces i.mirror) := by omega
    have hys : (gety (cw180 (b.pieces i.mirror)) : Int) = 6 - gety (b.pieces i.mirror) := by omega
    have hturn : ∀ n k l : Int, k + l = 6 → |6 - n - k| = |n - l| := by
      intro n k l hkl
      rw [abs_sub_comm]
      exact congrArg _ (by omega)
    rw [hxs, hys]
    -- the two target squares of a colour are turned into those of the other, in the other order
    cases col with
    | white =>
      simp only [PlayerColor.other, hturn _ 4 2 rfl, hturn _ 5 1 rfl, hturn _ 6 0 rfl]
      rw [min_comm]
    | black =>
      simp only [PlayerColor.other, hturn _ 2 4 rfl, hturn _ 0 6 rfl, hturn _ 1 5 rfl]
      rw [min_comm]

theorem Wf.promotionDistance_swap (h : b.Wf looseCodes) (col : PlayerColor) :
    promotionDistance b.swap col = promotionDistance b col.other := by
  rw [promotionDistance, promotionDistance, ← pawnSlots_mirror, List.map_map]
  exact congrArg List.sum (List.map_congr_left fun i _ => h.manhattanToPromotion_swap i col)

theorem Wf.checkFeature_swap (h : b.Wf looseCodes) (ord ord' : VisitOrder) (n : Nat) :
    checkFeature ord' b.swap n = -checkFeature ord b n := by
  rw [checkFeature, checkFeature, h.inCheck_swap ord ord', swap_playerToPlay]
  cases b.playerToPlay with
  | white =>
    simp only [PlayerColor.other, reduceCtorEq, if_true, if_false]
    split_ifs <;> norm_num
  | black =>
    simp only [PlayerColor.other, reduceCtorEq, if_true, if_false]
    split_ifs <;> norm_num

end Board

def Position.Mated (pos : Position) (c : PlayerColor) : Prop :=
  pos.turn = c ∧ pos.InCheck c ∧ ¬∃ m, pos.Legal m

namespace Board

variable {b : Board} {c : PlayerColor}

theorem Wf.mated_iff (h : b.Wf looseCodes) (ord : VisitOrder) :
    b.position.Mated c ↔
      b.playerToPlay = c ∧ b.inCheck ord = true ∧ (b.getLegalMoves ord).length = 0 := by
  rw [Position.Mated, h.exists_legal_iff ord, h.inCheck_iff ord, Nat.not_lt, Nat.le_zero]
  constructor
  · rintro ⟨rfl, hcheck, hnone⟩
    exact ⟨rfl, hcheck, hnone⟩
  · rintro ⟨rfl, hcheck, hnone⟩
    exact ⟨rfl, hcheck, hnone⟩

theorem Wf.checkFeature_mated (h : b.Wf looseCodes) (ord : VisitOrder)
    (hmated : b.position.Mated c) :
    checkFeature ord b 0 = if c = .white then -100000 else 100000 := by
  obtain ⟨rfl, hcheck, _⟩ := (h.mated_iff ord).mp hmated
  rw [checkFeature, if_pos hcheck, if_pos rfl]

theorem Wf.checkFeature_of_not_mated (h : b.Wf looseCodes) (ord : VisitOrder) :
    (¬b.position.Mated .white → -1 ≤ checkFeature ord b (b.getLegalMoves ord).length) ∧
      (¬b.position.Mated .black → checkFeature ord b (b.getLegalMoves ord).length ≤ 1) := by
  rw [h.mated_iff ord, h.mated_iff ord, checkFeature]
  cases b.inCheck ord with
  | false => norm_num
  | true =>
    by_cases hnone : (b.getLegalMoves ord).length = 0
    · cases b.playerToPlay <;> simp only [hnone, if_true, reduceCtorEq] <;> norm_num
    · cases b.playerToPlay <;> simp only [hnone, if_true, if_false, reduceCtorEq] <;> norm_num

end Board

namespace WSum

section

variable {codes : Slot → List U8} {b : Board} (ord ord' : VisitOrder)

/-- Exchanging the players negates the score. -/
theorem eval_swap (hcodes : Admissible codes) (h : b.Wf codes) (n : Nat) :
    evaluate weights (prepareFeatures ord' b.swap n) =
      -evaluate weights (prepareFeatures ord b n) := by
  have hloose := h.loose hcodes
  change eval ord' (b.swap, n) = -eval ord (b, n)
  rw [eval_eq, eval_eq, hloose.checkFeature_swap ord ord', hloose.promotionDistance_swap,
    hloose.promotionDistance_swap]
  simp only [Board.numAlive_swap, Board.pieceValue_swap, pawnSlots_mirror, rookSlots_mirror,
    bishopSlots_mirror, PlayerColor.other]
  ring

theorem eval_swap_opening :
    evaluate weights (prepareFeatures VisitOrder.insertion Board.opening.swap 5) =
      -evaluate weights (prepareFeatures VisitOrder.insertion Board.opening 5) :=
  eval_swap VisitOrder.insertion VisitOrder.insertion admissible_slotCodes
    (Board.opening_reachable.wf VisitOrder.insertion) 5

end

section

variable {ord : VisitOrder} {b₁ b₂ : Board}

/-- A board on which White is mated scores below every other board, and one on which Black is
mated above every other. -/
theorem mate_outweighs (h₁ : b₁.Reachable ord) (h₂ : b₂.Reachable ord) :
    (b₁.position.Mated .white → ¬b₂.position.Mated .white →
      evaluate weights (prepareFeatures ord b₁ 0) <
        evaluate weights (prepareFeatures ord b₂ (b₂.getLegalMoves ord).length)) ∧
      (b₁.position.Mated .black → ¬b₂.position.Mated .black →
        evaluate weights (prepareFeatures ord b₂ (b₂.getLegalMoves ord).length) <
          evaluate weights (prepareFeatures ord b₁ 0)) := by
  have hwf₁ := (h₁.wf ord).loose admissible_slotCodes
  have hwf₂ := (h₂.wf ord).loose admissible_slotCodes
  have hnear₁ := eval_near_check ord b₁ 0
  have hnear₂ := eval_near_check ord b₂ (b₂.getLegalMoves ord).length
  have hother := hwf₂.checkFeature_of_not_mated ord
  simp only [eval] at hnear₁ hnear₂
  constructor
  · intro hmated hnot
    have hmate := hwf₁.checkFeature_mated ord hmated
    rw [if_pos rfl] at hmate
    have hcheck := hother.1 hnot
    linarith
  · intro hmated hnot
    have hmate := hwf₁.checkFeature_mated ord hmated
    rw [if_neg (by decide)] at hmate
    have hcheck := hother.2 hnot
    linarith

/-- After `c2b3 c6b6 c1b2 b6c6 b3b4 e6f5 d1c6 d6c6 e1a6` Black is mated. -/
def mateGame : List U16 :=
  [move 10 17, move 42 41, move 2 9, move 41 42, move 17 25, move 44 37, move 3 42, move 43 42,
    move 4 40]

theorem mateGame_plays : Board.new.plays mateGame = true := by decide +kernel

def blackMated : { b : Board // b.Reachable VisitOrder.insertion ∧ b.position.Mated .black } :=
  have hreach : (mateGame.foldl Board.doMove Board.new).Reachable VisitOrder.insertion :=
    .plays .refl mateGame mateGame_plays
  ⟨mateGame.foldl Board.doMove Board.new, hreach,
    (((hreach.wf _).loose admissible_slotCodes).mated_iff VisitOrder.insertion).mpr
      (by decide +kernel)⟩

theorem mate_outweighs_start :
    evaluate weights (prepareFeatures VisitOrder.insertion Board.new
        (Board.new.getLegalMoves VisitOrder.insertion).length) <
      evaluate weights (prepareFeatures VisitOrder.insertion blackMated.val 0) :=
  (mate_outweighs blackMated.property.1 .refl).2 blackMated.property.2
    fun hmated => absurd hmated.1 (by decide)

end

end WSum

end Rollerball
