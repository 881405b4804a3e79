import Rollerball.Board.Reach

/-!
# King safety

The legality filter asks for check before the player is flipped, the next ply generates moves
after the flip. What connects them is that the side that has just moved is not attacked.
-/

namespace Rollerball

namespace Board

/-- Both kings are alive and the side that is not to move is not in check. -/
structure KingsSafe (b : Board) : Prop where
  alive : ∀ c, b.pieces (kingSlot c) ≠ DEAD
  waiting : ¬b.position.InCheck b.playerToPlay.other

/-- Flipping the player asks for check on the side that waits. -/
theorem Wf.kingsSafe {b : Board} {ord : VisitOrder} (h : b.Wf slotCodes)
    (halive : ∀ c, b.pieces (kingSlot c) ≠ DEAD) (hcheck : b.flipPlayer.inCheck ord = false) :
    b.KingsSafe where
  alive := halive
  waiting := by
    have hiff := (h.loose admissible_slotCodes).flipPlayer.inCheck_iff ord
    rw [hcheck] at hiff
    exact fun hin => Bool.false_ne_true (hiff.mpr hin)

private theorem new_alive : ∀ c, Board.new.pieces (kingSlot c) ≠ DEAD := by
  intro c
  cases c <;> decide

theorem new_kingsSafe : Board.new.KingsSafe := by
  have hcheck : Board.new.flipPlayer.inCheck VisitOrder.insertion = false := by decide
  exact new_wf.kingsSafe new_alive hcheck

section Ply

variable {b : Board} {m : U16} (ord : VisitOrder)

/-- A pseudo-legal move onto the waiting king would be a check on it. -/
theorem KingsSafe.target_ne_king (hsafe : b.KingsSafe) (h : b.Wf looseCodes)
    (hm : b.position.Pseudo b.playerToPlay m) :
    getp1 m ≠ b.pieces (kingSlot b.playerToPlay.other) := by
  intro heq
  apply hsafe.waiting
  refine ⟨getp1 m, h.cell_king.mpr ⟨heq.symm, h.target_ne_dead hm⟩, ?_⟩
  rw [PlayerColor.other_other, Position.attacks_iff]
  exact ⟨m, hm, rfl⟩

theorem KingsSafe.waiting_stays (hsafe : b.KingsSafe) (h : b.Wf slotCodes)
    (hm : m ∈ b.getLegalMoves ord) :
    (b.doMove m).pieces (kingSlot b.playerToPlay.other) =
      b.pieces (kingSlot b.playerToPlay.other) := by
  have hloose := h.loose admissible_slotCodes
  obtain ⟨i, k, hmove⟩ := h.legal_mover ord admissible_slotCodes hm
  have hi : kingSlot b.playerToPlay.other ≠ i := by
    rintro rfl
    exact PlayerColor.ne_other _ (hmove.color.symm.trans (slotColor_kingSlot _))
  have htarget := hsafe.target_ne_king hloose ((hloose.mem_getLegalMoves ord).mp hm).pseudo
  change (b.rawDoMove m).pieces _ = _
  rw [hmove.pieces_rawDoMove h, if_neg hi, if_neg htarget.symm]

theorem KingsSafe.doMove (hsafe : b.KingsSafe) (h : b.Wf slotCodes)
    (hm : m ∈ b.getLegalMoves ord) : (b.doMove m).KingsSafe where
  alive := by
    intro c hdead
    have hloose := h.loose admissible_slotCodes
    have hlegal := (hloose.mem_getLegalMoves ord).mp hm
    have hkilled := h.killed_slot ord admissible_slotCodes hm (hsafe.alive c) hdead
    rw [slotColor_kingSlot] at hkilled
    exact hsafe.target_ne_king hloose hlegal.pseudo (by rw [← hkilled.1, hkilled.2])
  waiting := by
    have hlegal := ((h.loose admissible_slotCodes).mem_getLegalMoves ord).mp hm
    have hpos := h.position_doMove ord admissible_slotCodes hm
    have hturn : (b.doMove m).playerToPlay.other = b.playerToPlay := by simp
    rw [hturn, hpos]
    exact hlegal.safe

end Ply

section Games

variable {b : Board} (ord : VisitOrder)

theorem Reachable.kingsSafe (h : b.Reachable ord) : b.KingsSafe := by
  induction h with
  | refl => exact new_kingsSafe
  | tail hprefix hstep ih =>
    obtain ⟨m, hm, rfl⟩ := hstep
    exact ih.doMove ord (new_wf.run ord hprefix) hm

/-- In every legal game both kings stay on playable squares, and no move of the side to play,
legal or pseudo-legal, ends on the other king. -/
theorem kings_safe (h : b.Reachable ord) :
    Playable (b.pieces Slot.wKing) ∧ Playable (b.pieces Slot.bKing) ∧
      (∀ m ∈ b.getLegalMoves ord, getp1 m ≠ b.pieces (kingSlot b.playerToPlay.other)) ∧
      ∀ m ∈ b.getPseudolegalMoves ord, getp1 m ≠ b.pieces (kingSlot b.playerToPlay.other) := by
  have hwf := h.wf ord
  have hloose := hwf.loose admissible_slotCodes
  have hsafe := h.kingsSafe ord
  refine ⟨hwf.playable _ (hsafe.alive .white), hwf.playable _ (hsafe.alive .black), ?_, ?_⟩
  · intro m hm
    exact hsafe.target_ne_king hloose ((hloose.mem_getLegalMoves ord).mp hm).pseudo
  · intro m hm
    exact hsafe.target_ne_king hloose ((hloose.mem_pseudolegal ord).mp hm)

theorem kings_safe_opening : Playable (opening.pieces Slot.wKing) :=
  (kings_safe VisitOrder.insertion opening_reachable).1

end Games

end Board

end Rollerball
