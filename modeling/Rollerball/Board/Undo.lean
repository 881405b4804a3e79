import Rollerball.Board.Reach

/-!
# Taking back a move exactly

Undo restores the twelve slots, the four arrays and the player of every legal move without a
promotion flag. After a promotion it restores everything but the byte of the pawn, which keeps
the type bit of the piece it had become.
-/

namespace Rollerball

namespace Board

theorem SamePosition.forgetKill (b : Board) : b.forgetKill.SamePosition b :=
  ⟨rfl, rfl, rfl, rfl, rfl, rfl⟩

section Undo

variable {b : Board} {m : U16} (ord : VisitOrder)

private theorem remark_ne_pawn (c : PlayerColor) : ∀ promo ∈ [pawnRook, pawnBishop],
    remark (c.bits ||| PieceType.pawn.bits) promo ≠ c.bits ||| PieceType.pawn.bits := by
  cases c <;> decide

theorem slotCodes_pawn {i : Slot} {piece : U8} (hpiece : piece ∈ slotCodes i)
    (hkind : kindOf piece = some .pawn) :
    piece = (slotColor i).bits ||| PieceType.pawn.bits := by
  obtain ⟨k, _, rfl⟩ := List.mem_map.mp hpiece
  rw [kindOf_bits] at hkind
  rw [Option.some.inj hkind]

theorem Mover.undo_same_iff {c : PlayerColor} {i : Slot} {k : PieceType}
    (hmove : b.Mover c m i k) (h : b.Wf slotCodes) :
    ((b.rawDoMove m).rawUndoLastMove m).SamePosition b ↔ getpromo m = 0 := by
  constructor
  · intro hsame
    rcases hmove.promo_cases with hzero | ⟨rfl, hflag⟩
    · exact hzero
    · exfalso
      have hbyte := congrFun hsame.board0 (getp0 m)
      rw [hmove.rawUndo_rawDo h] at hbyte
      simp only [put, Function.update_self] at hbyte
      rw [slotCodes_pawn (hmove.code h) hmove.kind] at hbyte
      exact remark_ne_pawn _ _ hflag hbyte
  · intro hpromo
    rw [hmove.undo_exact h hpromo]
    exact SamePosition.forgetKill b

/-- On every board of a legal game and for every legal move, either undo gives back the twelve
slots, the four arrays and the player exactly when the move carries no promotion flag. -/
theorem undo_restores_iff (h : b.Reachable ord) (hm : m ∈ b.getLegalMoves ord) :
    (((b.rawDoMove m).rawUndoLastMove m).SamePosition b ↔ getpromo m = 0) ∧
      (((b.doMove m).undoLastMove m).SamePosition b ↔ getpromo m = 0) := by
  obtain ⟨i, k, hmove⟩ := (h.wf ord).legal_mover ord admissible_slotCodes hm
  rw [undoLastMove_doMove]
  exact ⟨hmove.undo_same_iff (h.wf ord), hmove.undo_same_iff (h.wf ord)⟩

theorem undo_restores_iff_opening :
    (((Board.new.rawDoMove (move 10 17)).rawUndoLastMove (move 10 17)).SamePosition Board.new ↔
        getpromo (move 10 17) = 0) ∧
      (((Board.new.doMove (move 10 17)).undoLastMove (move 10 17)).SamePosition Board.new ↔
        getpromo (move 10 17) = 0) :=
  undo_restores_iff VisitOrder.insertion .refl opening_legal

end Undo

/-- A legal game that brings a white pawn to `d6`: `c2b3 c6b6 b3b4 c7c6 b4b5 d6c7 b5c6 e6f7 c6d6
c7b7`. -/
def promotionGame : List U16 :=
  [move 10 17, move 42 41, move 17 25, move 50 42, move 25 33, move 43 50, move 33 42,
    move 44 53, move 42 43, move 50 49]

def promotionBoard : Board := promotionGame.foldl Board.doMove Board.new

/-- The capture and promotion `d6e7r`. -/
def promotionMove : U16 := movePromo 43 52 pawnRook.toNat

theorem promotionGame_plays : Board.new.plays promotionGame = true := by decide +kernel

theorem promotionBoard_reachable : promotionBoard.Reachable VisitOrder.insertion :=
  Reachable.plays .refl promotionGame promotionGame_plays

theorem promotionMove_legal : promotionMove ∈ promotionBoard.getLegalMoves VisitOrder.insertion :=
  (promotionBoard_reachable.wf _).legal_of_plays (by decide +kernel)

theorem promotionBoard_turn : promotionBoard.playerToPlay = .white := by
  simp only [promotionBoard, promotionGame, List.foldl, doMove_playerToPlay]
  decide

/-- Undo is not the inverse of every legal move: after `d6e7r` the pawn on `d6` has byte
`WHITE | PAWN | ROOK`. -/
theorem undo_not_inverse :
    ¬∀ (ord : VisitOrder) (b : Board), b.Reachable ord → ∀ m ∈ b.getLegalMoves ord,
      ((b.rawDoMove m).rawUndoLastMove m).SamePosition b ∧
        ((b.doMove m).undoLastMove m).SamePosition b := by
  intro hall
  have hsame := (hall _ _ promotionBoard_reachable _ promotionMove_legal).1
  obtain ⟨i, k, hmove⟩ := (promotionBoard_reachable.wf _).legal_mover _ admissible_slotCodes
    promotionMove_legal
  have hpromo := (hmove.undo_same_iff (promotionBoard_reachable.wf _)).mp hsame
  revert hpromo
  decide

end Board

end Rollerball
