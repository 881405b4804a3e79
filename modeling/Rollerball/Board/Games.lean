import Rollerball.Board.Mirror
import Rollerball.Board.Moves
import Rollerball.Rules.Rulebook

/-!
# Games by the rule book

The engine plays the game of the rule book: from the start, or from any well-formed board, the
games `get_legal_moves` and `do_move` allow are the games of the rules, and along each of them the
board holds the position of the rules, is in check when the position is and has its legal moves.
-/

namespace Rollerball

namespace Board

section Pawns

variable {b : Board} {p : Square} {m : U16} (ord : VisitOrder)

/-- The moves generated for a pawn are its forward steps onto squares its side does not hold, each
made once, or on the last squares of its arc once for either promotion. -/
theorem pawn_moves (h : b.Agree) (hp : Playable p) (hk : kindOf (b.board0 p) = some .pawn) :
    m ∈ b.getPseudolegalMovesForPiece ord p ↔ ∃ q, PawnReaches (b.ownedBy p) p q ∧
      ∃ pt ∈ (if promotes p (b.board0 p) then [pawnRook, pawnBishop] else [0]),
        m = movePromo p q pt.toNat := by
  rw [h.mem_movesForPiece ord hk]
  simp only [frameFlags, true_and]
  refine exists_congr fun q => and_congr_left' ?_
  exact reach_pawn hp

theorem pawn_moves_opening :
    move 17 24 ∈ opening.getPseudolegalMovesForPiece VisitOrder.insertion 17 := by
  have hsquares : kindOf (opening.board0 17) = some .pawn ∧ opening.ownedBy 17 24 = false ∧
      promotes 17 (opening.board0 17) = false := by decide +kernel
  obtain ⟨hpawn, hfree, hplain⟩ := hsquares
  apply (pawn_moves VisitOrder.insertion (opening_reachable.wf _).agree (by decide) hpawn).mpr
  rw [hplain]
  exact ⟨24, ⟨hfree, by decide, by decide⟩, 0, by decide, by decide⟩

end Pawns

section Games

variable {codes : Slot → List U8} {b : Board} (ord : VisitOrder)

theorem Wf.by_rulebook (h : b.Wf looseCodes) :
    (b.inCheck ord = true ↔ Rulebook.InCheck b.position b.position.turn) ∧
      (∀ m, m ∈ b.getLegalMoves ord ↔ Rulebook.Legal b.position m) ∧
      (b.inCheck ord = true ∧ b.getLegalMoves ord = [] ↔ Rulebook.Checkmate b.position) := by
  have hcheck : b.inCheck ord = true ↔ Rulebook.InCheck b.position b.position.turn := by
    rw [h.inCheck_iff ord, Rulebook.inCheck_iff h.onRing]
    rfl
  have hmoves : ∀ m, m ∈ b.getLegalMoves ord ↔ Rulebook.Legal b.position m := by
    intro m
    rw [h.mem_getLegalMoves ord, Rulebook.legal_iff h.onRing]
  refine ⟨hcheck, hmoves, ?_⟩
  rw [Rulebook.Checkmate, ← hcheck, List.eq_nil_iff_forall_not_mem]
  simp only [hmoves]

theorem new_position : Board.new.position = Rulebook.start := by
  have hcell : ∀ p, cellOf (Board.new.board0 p) = Rulebook.startPieces.lookup p := by
    decide
  exact Position.ext hcell rfl

/-- From a well-formed board the code allows exactly the games of the rule book. After each of
them the board holds the position of the rules, `in_check` tells its check and
`get_legal_moves` lists its legal moves, so the mate the engine sees is checkmate. -/
theorem games_by_rulebook (hcodes : Admissible codes) (hb : b.Wf codes) (ms : List U16) :
    (LegalGame ord b ms ↔ Rulebook.Game b.position ms) ∧
      (LegalGame ord b ms →
        (ms.foldl doMove b).position = ms.foldl Position.next b.position ∧
        ((ms.foldl doMove b).inCheck ord = true ↔
          Rulebook.InCheck (ms.foldl Position.next b.position)
            (ms.foldl Position.next b.position).turn) ∧
        (∀ m, m ∈ (ms.foldl doMove b).getLegalMoves ord ↔
          Rulebook.Legal (ms.foldl Position.next b.position) m) ∧
        ((ms.foldl doMove b).inCheck ord = true ∧ (ms.foldl doMove b).getLegalMoves ord = [] ↔
          Rulebook.Checkmate (ms.foldl Position.next b.position))) := by
  have h := hb.loose hcodes
  clear hb
  induction ms generalizing b with
  | nil => exact ⟨Iff.rfl, fun _ => ⟨rfl, h.by_rulebook ord⟩⟩
  | cons m ms ih =>
    obtain ⟨_, hmoves, _⟩ := h.by_rulebook ord
    have hnext : m ∈ b.getLegalMoves ord → (b.doMove m).position = b.position.next m :=
      h.position_doMove ord admissible_looseCodes
    constructor
    · rw [LegalGame, Rulebook.Game, ← hmoves]
      refine and_congr_right fun hm => ?_
      rw [(ih (h.doMove ord admissible_looseCodes hm)).1, hnext hm]
    · rintro ⟨hm, hrest⟩
      have hgame := (ih (h.doMove ord admissible_looseCodes hm)).2 hrest
      rw [hnext hm] at hgame
      exact hgame

theorem games_by_rulebook_start : Rulebook.Game Rulebook.start [move 10 17] := by
  have hgame := (games_by_rulebook VisitOrder.insertion admissible_slotCodes new_wf [move 10 17]).1
  rw [new_position] at hgame
  exact hgame.mp ⟨opening_legal, trivial⟩

end Games

end Board

end Rollerball
