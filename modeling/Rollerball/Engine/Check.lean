import Rollerball.Engine.Root
import Rollerball.Engine.Scores

/-!
# The score of a check

The feature of check counts one point for the player who is in check, while the feature of mate
counts against the mated player. Both are weighted by the same positive weight.
-/

namespace Rollerball

structure SameCounts (b₁ b₂ : Board) : Prop where
  pawns : ∀ col, numAlive b₁ (pawnSlots col) .pawn = numAlive b₂ (pawnSlots col) .pawn
  rooks : ∀ col, numAlive b₁ (rookSlots col) .rook = numAlive b₂ (rookSlots col) .rook
  bishops : ∀ col, numAlive b₁ (bishopSlots col) .bishop = numAlive b₂ (bishopSlots col) .bishop
  distances : ∀ col, promotionDistance b₁ col = promotionDistance b₂ col

/-- Two boards with the same player to play and the same counts, the first with a check of that
player and the second without, and neither at the end of the game. -/
structure CheckPair (b₁ b₂ : Board) : Prop where
  turn : b₁.playerToPlay = b₂.playerToPlay
  counts : SameCounts b₁ b₂
  legal₁ : ∃ m, b₁.position.Legal m
  legal₂ : ∃ m, b₂.position.Legal m
  check : b₁.position.InCheck b₁.playerToPlay
  free : ¬b₂.position.InCheck b₂.playerToPlay

namespace Board

variable {b : Board} (ord : VisitOrder)

theorem Wf.checkFeature_check (h : b.Wf looseCodes) (hcheck : b.position.InCheck b.playerToPlay)
    (hlegal : ∃ m, b.position.Legal m) :
    checkFeature ord b (b.getLegalMoves ord).length =
      if b.playerToPlay = .white then 1 else -1 := by
  have hmoves := (h.exists_legal_iff ord).mp hlegal
  rw [checkFeature, if_pos ((h.inCheck_iff ord).mpr hcheck), if_neg hmoves.ne']

theorem Wf.checkFeature_free (h : b.Wf looseCodes) (hfree : ¬b.position.InCheck b.playerToPlay)
    (n : Nat) : checkFeature ord b n = 0 := by
  rw [checkFeature, if_neg fun hcheck => hfree ((h.inCheck_iff ord).mp hcheck)]

end Board

namespace WSum

variable {ord : VisitOrder} {b₁ b₂ : Board}

/-- Boards with the same counts differ in the term of check only. -/
theorem eval_sub (ord : VisitOrder) (hsame : SameCounts b₁ b₂) (n₁ n₂ : Nat) :
    eval ord (b₁, n₁) - eval ord (b₂, n₂) =
      4 / 5 * (checkFeature ord b₁ n₁ - checkFeature ord b₂ n₂) := by
  have hvalue : ∀ col, pieceValue b₁ col = pieceValue b₂ col := fun col => by
    rw [pieceValue, pieceValue, hsame.pawns, hsame.rooks, hsame.bishops]
  rw [eval_eq, eval_eq, hvalue, hvalue, hsame.pawns, hsame.pawns, hsame.rooks, hsame.rooks,
    hsame.bishops, hsame.bishops, hsame.distances, hsame.distances]
  ring

theorem check_gap (h₁ : b₁.Wf looseCodes) (h₂ : b₂.Wf looseCodes) (hpair : CheckPair b₁ b₂) :
    ¬NoWorse b₁.playerToPlay (eval ord (b₁, (b₁.getLegalMoves ord).length))
      (eval ord (b₂, (b₂.getLegalMoves ord).length)) := by
  have hgap := eval_sub ord hpair.counts (b₁.getLegalMoves ord).length
    (b₂.getLegalMoves ord).length
  rw [h₁.checkFeature_check ord hpair.check hpair.legal₁, h₂.checkFeature_free ord hpair.free]
    at hgap
  cases hplayer : b₁.playerToPlay with
  | white =>
    rw [hplayer, if_pos rfl] at hgap
    rw [NoWorse, not_le]
    linarith
  | black =>
    rw [hplayer, if_neg (by decide)] at hgap
    rw [NoWorse, not_le]
    linarith

/-- After `e2f2 e6f5 f2e2 f5f4` the king on `d2` is not in check. -/
def freeGame : List U16 := [move 12 13, move 44 37, move 13 12, move 37 29]

private theorem freeGame_plays : Board.new.plays (freeGame ++ [move 12 13]) = true := by
  decide +kernel

/-- The boards of two legal games that differ in a check. -/
def checkedAndFree : { q : Board × Board // q.1.Reachable VisitOrder.insertion ∧
    q.2.Reachable VisitOrder.insertion ∧ CheckPair q.1 q.2 } :=
  have hplays := (Board.plays_append _ _ _).mp Board.checkedGame_plays
  have hplays' := (Board.plays_append _ _ _).mp freeGame_plays
  have hchecked : (Board.checkedGame.foldl Board.doMove Board.new).Reachable
      VisitOrder.insertion := .plays .refl Board.checkedGame hplays.1
  have hfree : (freeGame.foldl Board.doMove Board.new).Reachable VisitOrder.insertion :=
    .plays .refl freeGame hplays'.1
  have hloose := (hchecked.wf _).loose admissible_slotCodes
  have hloose' := (hfree.wf _).loose admissible_slotCodes
  have hmove : move 13 21 ∈
      (Board.checkedGame.foldl Board.doMove Board.new).getLegalMoves VisitOrder.insertion :=
    (hchecked.wf _).legal_of_plays hplays.2
  have hmove' : move 12 13 ∈
      (freeGame.foldl Board.doMove Board.new).getLegalMoves VisitOrder.insertion :=
    (hfree.wf _).legal_of_plays hplays'.2
  ⟨(Board.checkedGame.foldl Board.doMove Board.new, freeGame.foldl Board.doMove Board.new),
    hchecked, hfree,
    { turn := by decide +kernel
      counts := by constructor <;> intro col <;> cases col <;> decide +kernel
      legal₁ := ⟨_, (hloose.mem_getLegalMoves _).mp hmove⟩
      legal₂ := ⟨_, (hloose'.mem_getLegalMoves _).mp hmove'⟩
      check := (hloose.inCheck_iff VisitOrder.insertion).mp (by decide +kernel)
      free := fun hcheck =>
        absurd ((hloose'.inCheck_iff VisitOrder.insertion).mpr hcheck) (by decide +kernel) }⟩

/-- The board with the check always scores better for the player in check. -/
theorem check_scores_better {codes : Slot → List U8} (hcodes : Admissible codes)
    (h₁ : b₁.Wf codes) (h₂ : b₂.Wf codes) (hpair : CheckPair b₁ b₂) :
    ¬NoWorse b₁.playerToPlay
      (evaluate weights (prepareFeatures ord b₁ (b₁.getLegalMoves ord).length))
      (evaluate weights (prepareFeatures ord b₂ (b₂.getLegalMoves ord).length)) :=
  check_gap (h₁.loose hcodes) (h₂.loose hcodes) hpair

theorem check_scores_better_checked :
    ¬NoWorse checkedAndFree.val.1.playerToPlay
      (evaluate weights (prepareFeatures VisitOrder.insertion checkedAndFree.val.1
        (checkedAndFree.val.1.getLegalMoves VisitOrder.insertion).length))
      (evaluate weights (prepareFeatures VisitOrder.insertion checkedAndFree.val.2
        (checkedAndFree.val.2.getLegalMoves VisitOrder.insertion).length)) :=
  have ⟨hchecked, hfree, hpair⟩ := checkedAndFree.property
  check_scores_better admissible_slotCodes (hchecked.wf _) (hfree.wf _) hpair

/-- Moving the white king into the check adds to White's score. -/
theorem check_raises_score :
    ¬∀ b₁ b₂ : Board, b₁.Wf slotCodes → b₂.Wf slotCodes → CheckPair b₁ b₂ →
      NoWorse b₁.playerToPlay
        (evaluate weights (prepareFeatures VisitOrder.insertion b₁
          (b₁.getLegalMoves VisitOrder.insertion).length))
        (evaluate weights (prepareFeatures VisitOrder.insertion b₂
          (b₂.getLegalMoves VisitOrder.insertion).length)) := by
  intro hclaim
  obtain ⟨hchecked, hfree, hpair⟩ := checkedAndFree.property
  have hwf := hchecked.wf VisitOrder.insertion
  have hwf' := hfree.wf VisitOrder.insertion
  exact check_gap (hwf.loose admissible_slotCodes) (hwf'.loose admissible_slotCodes) hpair
    (hclaim _ _ hwf hwf' hpair)

end WSum

end Rollerball
