import Rollerball.Board.Legal

/-!
# Taking back a move after a search

Between a move and its undo the search plays and takes back other moves, which may leave marks on
the bytes of pawns. The board it comes back to is still the board after the move, played from a
board alike the original, so the undo ends on a board alike the original.
-/

namespace Rollerball

/-- A byte that does not move as a pawn is determined by its slot and kind. -/
theorem looseCodes_of_kind {i : Slot} {piece : U8} {k : PieceType} (hpiece : piece ∈ looseCodes i)
    (hkind : kindOf piece = some k) (hk : k ≠ .pawn) : piece = (slotColor i).bits ||| k.bits := by
  rcases List.mem_append.mp hpiece with h | h
  · obtain ⟨k', _, rfl⟩ := List.mem_map.mp h
    rw [kindOf_bits] at hkind
    rw [Option.some.inj hkind]
  · exfalso
    simp only [List.mem_ite_nil_right, List.mem_cons, List.not_mem_nil, or_false] at h
    have hpawn : kindOf piece = some .pawn := by
      rcases h.2 with rfl | rfl <;> cases slotColor i <;> decide
    rw [hpawn] at hkind
    exact hk (Option.some.inj hkind).symm

namespace Board

/-- The byte that stood on the source square, as far as a board after the move tells. -/
def sourceByte (b d : Board) (m : U16) : U8 :=
  if getpromo m = 0 then d.board0 (getp1 m) else b.board0 (getp0 m)

/-- The board from which `m` leads to `d`, whose slots and captured byte are those of `b`. -/
def unplayed (b d : Board) (m : U16) : Board :=
  let board0 : Square → U8 := fun p =>
    if p = getp0 m then sourceByte b d m else if p = getp1 m then b.board0 p else d.board0 p
  { b with
    board0 := board0
    board90 := fun p => board0 (acw90 p)
    board180 := fun p => board0 (cw180 p)
    board270 := fun p => board0 (cw90 p) }

structure Searched (b : Board) (m : U16) (d : Board) : Prop where
  wf : d.Wf looseCodes
  alike : d.Alike (b.rawDoMove m)
  killedPiece : d.lastKilledPiece = (b.rawDoMove m).lastKilledPiece
  killedIdx : d.lastKilledPieceIdx = (b.rawDoMove m).lastKilledPieceIdx

section Takeback

variable {b d : Board} {c : PlayerColor} {m : U16} {i : Slot} {k : PieceType}

theorem unplayed_board0 (b d : Board) (m : U16) (p : Square) :
    (b.unplayed d m).board0 p =
      if p = getp0 m then sourceByte b d m
      else if p = getp1 m then b.board0 p else d.board0 p := rfl

private theorem Mover.pieces_searched (hmove : b.Mover c m i k) (h : b.Wf looseCodes)
    (hd : b.Searched m d) (j : Slot) :
    d.pieces j = if j = i then getp1 m else if b.pieces j = getp1 m then DEAD else b.pieces j := by
  rw [hd.alike.pieces, hmove.pieces_rawDoMove h]

private theorem Mover.cell_searched (hmove : b.Mover c m i k) (h : b.Wf looseCodes)
    (hd : b.Searched m d) (p : Square) :
    cellOf (d.board0 p) = (b.position.play m).cell p :=
  congrArg (fun pos => pos.cell p) (hd.alike.position.trans (hmove.position_rawDoMove h))

private theorem Mover.sourceByte_facts (hmove : b.Mover c m i k) (h : b.Wf looseCodes)
    (hd : b.Searched m d) :
    sourceByte b d m ∈ looseCodes i ∧ cellOf (sourceByte b d m) = cellOf (b.board0 (getp0 m)) ∧
      promote (sourceByte b d m) (getpromo m) = d.board0 (getp1 m) := by
  have hslot : d.pieces i = getp1 m := by
    rw [hmove.pieces_searched h hd, if_pos rfl]
  have hcode : d.board0 (getp1 m) ∈ looseCodes i := by
    have hcode := hd.wf.code i (by rw [hslot]; exact hmove.target.ne_dead)
    rwa [hslot] at hcode
  have hcell := hmove.cell_searched h hd (getp1 m)
  simp only [Position.play, Function.update_of_ne hmove.ne.symm, Function.update_self] at hcell
  unfold sourceByte
  by_cases hzero : getpromo m = 0
  · rw [if_pos hzero, hcell, hzero]
    exact ⟨hcode, Option.map_id' .., rfl⟩
  · rw [if_neg hzero]
    refine ⟨hmove.code h, rfl, ?_⟩
    obtain ⟨_, hpromo⟩ := hmove.promo_cases.resolve_left hzero
    obtain ⟨k', hk', hcell'⟩ := looseCodes_kind hcode
    rw [hcell', hmove.facts.source, Option.map_some, Option.some.injEq] at hcell
    have hkind := congrArg Prod.snd hcell
    unfold promote
    rw [looseCodes_colorBits (hmove.code h)]
    simp only [List.mem_cons, List.not_mem_nil, or_false] at hpromo
    rcases hpromo with hpromo | hpromo
    · rw [hpromo, if_pos rfl]
      simp only [promotedPiece, hpromo, if_true] at hkind
      exact (looseCodes_of_kind hcode (hkind ▸ hk') (by decide)).symm
    · have hne : pawnBishop ≠ pawnRook := by decide
      rw [hpromo, if_neg hne, if_pos rfl]
      simp only [promotedPiece, hpromo, hne, if_false, if_true] at hkind
      exact (looseCodes_of_kind hcode (hkind ▸ hk') (by decide)).symm

private theorem Mover.unplayed_wf (hmove : b.Mover c m i k) (h : b.Wf looseCodes)
    (hd : b.Searched m d) : (b.unplayed d m).Wf looseCodes where
  board90 := fun p => congrArg (b.unplayed d m).board0 (acw90_cw90 p)
  board180 := fun p => congrArg (b.unplayed d m).board0 (cw180_cw180 p)
  board270 := fun p => congrArg (b.unplayed d m).board0 (cw90_acw90 p)
  distinct := h.distinct
  playable := h.playable
  code := by
    intro j hj
    change b.pieces j ≠ DEAD at hj
    change (b.unplayed d m).board0 (b.pieces j) ∈ looseCodes j
    rw [unplayed_board0]
    by_cases hji : j = i
    · rw [hji, hmove.slot, if_pos rfl]
      exact (hmove.sourceByte_facts h hd).1
    · rw [if_neg fun h0 => hji (hmove.slot_unique h h0)]
      split_ifs with hj1
      · exact h.code j hj
      · have hpieces : d.pieces j = b.pieces j := by
          rw [hmove.pieces_searched h hd, if_neg hji, if_neg hj1]
        have hcode := hd.wf.code j (by rwa [hpieces])
        rwa [hpieces] at hcode
  empty := by
    intro p hp
    have hp' : ∀ j, b.pieces j ≠ DEAD → b.pieces j ≠ p := hp
    have hp0 : p ≠ getp0 m := by
      intro heq
      refine hp' i ?_ (by rw [heq, hmove.slot])
      rw [hmove.slot]
      exact hmove.source.ne_dead
    rw [unplayed_board0, if_neg hp0]
    split_ifs with hp1
    · exact h.empty p hp'
    · apply hd.wf.empty
      intro j hj hjp
      rw [hmove.pieces_searched h hd] at hj hjp
      split_ifs at hj hjp
      · exact hp1 hjp.symm
      · exact hj rfl
      · exact hp' j hj hjp

private theorem Mover.unplayed_alike (hmove : b.Mover c m i k) (h : b.Wf looseCodes)
    (hd : b.Searched m d) : (b.unplayed d m).Alike b := by
  refine ⟨rfl, Position.ext ?_ rfl⟩
  intro p
  have hcell := hmove.cell_searched h hd p
  simp only [Position.play, Function.update_apply] at hcell
  simp only [position, unplayed_board0]
  split_ifs at hcell ⊢ with h0
  · rw [h0, (hmove.sourceByte_facts h hd).2.1]
  · rfl
  · exact hcell

private theorem Mover.unplayed_mover (hmove : b.Mover c m i k) (h : b.Wf looseCodes)
    (hd : b.Searched m d) : (b.unplayed d m).Mover c m i k := by
  obtain ⟨hmem, hcell, _⟩ := hmove.sourceByte_facts h hd
  obtain ⟨k', hk', hcell'⟩ := looseCodes_kind hmem
  have hfacts := hmove.facts
  have hsource : cellOf (b.board0 (getp0 m)) = some (c, k) := hfacts.source
  rw [hcell', hsource, Option.some.injEq, Prod.mk.injEq] at hcell
  rw [← (hmove.unplayed_alike h hd).position] at hfacts
  refine ⟨hmove.color, hmove.slot, ?_, hfacts, hmove.source, hmove.target, hmove.ne⟩
  rw [unplayed_board0, if_pos rfl, hk', hcell.2]

private theorem Mover.killed_congr {b' : Board} (hmove : b.Mover c m i k) (h : b.Wf looseCodes)
    (hmove' : b'.Mover c m i k) (h' : b'.Wf looseCodes) (hpieces : b'.pieces = b.pieces)
    (hbyte : b'.board0 (getp1 m) = b.board0 (getp1 m)) :
    (b'.rawDoMove m).lastKilledPiece = (b.rawDoMove m).lastKilledPiece ∧
      (b'.rawDoMove m).lastKilledPieceIdx = (b.rawDoMove m).lastKilledPieceIdx := by
  have hkilled' := hmove'.killed h'
  rw [hpieces, hbyte] at hkilled'
  rcases hmove.killed h with ⟨hfree, hpiece, hidx⟩ | ⟨j, hj, hpiece, hidx⟩ <;>
    rcases hkilled' with ⟨hfree', hpiece', hidx'⟩ | ⟨l, hl, hpiece', hidx'⟩
  · rw [hpiece, hidx, hpiece', hidx']
    exact ⟨rfl, rfl⟩
  · exact absurd hl (hfree l)
  · exact absurd hj (hfree' j)
  · have hlj : l = j :=
      h.distinct l j (by rw [hl]; exact hmove.target.ne_dead) (by rw [hl, hj])
    rw [hpiece, hidx, hpiece', hidx', hlj]
    exact ⟨rfl, rfl⟩

private theorem Mover.rawDoMove_unplayed (hmove : b.Mover c m i k) (h : b.Wf looseCodes)
    (hd : b.Searched m d) : (b.unplayed d m).rawDoMove m = d := by
  have hwf := hmove.unplayed_wf h hd
  have hmove' := hmove.unplayed_mover h hd
  have hbyte : (b.unplayed d m).board0 (getp1 m) = b.board0 (getp1 m) := by
    rw [unplayed_board0, if_neg hmove.ne.symm, if_pos rfl]
  have hkilled := hmove.killed_congr h hmove' hwf rfl hbyte
  refine Wf.ext (hmove'.wf_rawDoMove admissible_looseCodes hwf) hd.wf ?_ ?_ ?_ ?_ ?_
  · intro j
    rw [hmove'.pieces_rawDoMove hwf, hmove.pieces_searched h hd]
    rfl
  · intro p
    have hfree : d.board0 (getp0 m) = 0#8 := by
      apply hd.wf.empty
      intro j hj hj0
      rw [hmove.pieces_searched h hd] at hj hj0
      split_ifs at hj hj0 with hji
      · exact hmove.ne hj0.symm
      · exact hj rfl
      · exact hji (hmove.slot_unique h hj0)
    simp only [rawDoMove_board0, Function.update_apply, unplayed_board0, if_true,
      (hmove.sourceByte_facts h hd).2.2]
    split_ifs with h0 h1
    · rw [h0, hfree]
      rfl
    · rw [h1]
    · rfl
  · rw [rawDoMove_playerToPlay, hd.alike.playerToPlay, rawDoMove_playerToPlay]
    rfl
  · rw [hkilled.1, hd.killedPiece]
  · rw [hkilled.2, hd.killedIdx]

theorem Mover.undo_searched (hmove : b.Mover c m i k) (h : b.Wf looseCodes)
    (hd : b.Searched m d) :
    (d.rawUndoLastMove m).Wf looseCodes ∧ (d.rawUndoLastMove m).Alike b := by
  have hundo := (hmove.unplayed_mover h hd).undo_alike (hmove.unplayed_wf h hd)
  rw [hmove.rawDoMove_unplayed h hd] at hundo
  exact ⟨hundo.1, hundo.2.trans (hmove.unplayed_alike h hd)⟩

/-- The engine's undo brings back a board alike the one before the move from any board alike the
one after it that has the last-killed fields of the move. -/
theorem Mover.undoLastMove_searched (hmove : b.Mover c m i k) (h : b.Wf looseCodes)
    (hd : d.Wf looseCodes) (halike : d.Alike (b.doMove m))
    (hpiece : d.lastKilledPiece = (b.doMove m).lastKilledPiece)
    (hidx : d.lastKilledPieceIdx = (b.doMove m).lastKilledPieceIdx) :
    (d.undoLastMove m).Wf looseCodes ∧ (d.undoLastMove m).Alike b := by
  have hflip : d.flipPlayer.Alike (b.rawDoMove m) := by
    refine ⟨halike.pieces, Position.ext (fun p => ?_) ?_⟩
    · exact congrArg (fun pos => pos.cell p) halike.position
    · have hplayer := halike.playerToPlay
      simp only [position_turn, flipPlayer, hplayer, doMove, PlayerColor.other_other]
  rw [undoLastMove, ← rawUndoLastMove_flipPlayer]
  exact hmove.undo_searched h ⟨{ hd with }, hflip, hpiece, hidx⟩

end Takeback

end Board

end Rollerball
