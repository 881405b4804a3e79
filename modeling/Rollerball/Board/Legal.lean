import Rollerball.Board.Play

/-!
# Check and legal moves

`get_legal_moves` tries all pseudo-legal moves on one shared copy. The copy stays alike the
original board after every undo, although a promotion leaves its pawn marked, so the filter
computes exactly the legal moves of the abstract game, in whatever order they are visited.
-/

namespace Rollerball

namespace Board

/-- Two boards with the same slots, the same pieces on them and the same side to play. -/
structure Alike (b b' : Board) : Prop where
  pieces : b.pieces = b'.pieces
  position : b.position = b'.position

theorem Alike.refl (b : Board) : b.Alike b := ⟨rfl, rfl⟩

theorem Alike.trans {b b' b'' : Board} (h : b.Alike b') (h' : b'.Alike b'') : b.Alike b'' :=
  ⟨h.pieces.trans h'.pieces, h.position.trans h'.position⟩

theorem Alike.playerToPlay {b b' : Board} (h : b.Alike b') : b.playerToPlay = b'.playerToPlay :=
  congrArg Position.turn h.position

theorem slotColor_kingSlot : ∀ c, slotColor (kingSlot c) = c := by
  intro c
  cases c <;> decide

private theorem startType_king : ∀ i, startType i = .king → i = kingSlot (slotColor i) := by
  decide

theorem startType_of_kindOf_king {i : Slot} {piece : U8} (hpiece : piece ∈ looseCodes i)
    (hkind : kindOf piece = some .king) : startType i = .king := by
  by_cases hpawn : startType i = .pawn
  · exfalso
    simp only [looseCodes, slotCodes, slotTypes, hpawn, if_true, List.map_cons, List.map_nil,
      List.cons_append, List.nil_append, List.mem_cons, List.not_mem_nil, or_false] at hpiece
    rcases hpiece with rfl | rfl | rfl | rfl | rfl <;> revert hkind <;>
      cases slotColor i <;> decide
  · simp only [looseCodes, slotCodes, slotTypes, hpawn, if_false, List.map_cons, List.map_nil,
      List.append_nil, List.mem_singleton] at hpiece
    rw [hpiece, kindOf_bits] at hkind
    exact Option.some.inj hkind

section Check

variable {b : Board} (ord : VisitOrder)

theorem Wf.cell_king (h : b.Wf looseCodes) {c : PlayerColor} {p : Square} :
    b.position.cell p = some (c, .king) ↔ b.pieces (kingSlot c) = p ∧ p ≠ DEAD := by
  constructor
  · intro hp
    obtain ⟨i, rfl, hdead, rfl, hkind⟩ := h.slot_of_cell hp
    have hking := startType_king i (startType_of_kindOf_king (h.code i hdead) hkind)
    exact ⟨by rw [← hking], hdead⟩
  · intro h
    rcases h with ⟨rfl, hdead⟩
    obtain ⟨k, hkind, hcell⟩ := h.cell_slot hdead
    rw [slotColor_kingSlot] at hcell
    have hcode := h.code _ hdead
    have hking : startType (kingSlot c) = .king := by cases c <;> decide
    simp only [looseCodes, slotCodes, slotTypes, hking, reduceCtorEq, if_false, List.map_cons,
      List.map_nil, List.append_nil, List.mem_singleton] at hcode
    rw [hcode, kindOf_bits] at hkind
    rwa [← Option.some.inj hkind] at hcell

theorem Wf.target_ne_dead (h : b.Wf looseCodes) {c : PlayerColor} {m : U16}
    (hm : b.position.Pseudo c m) : getp1 m ≠ DEAD := by
  obtain ⟨_, _, hmove⟩ := h.mover hm
  exact hmove.target.ne_dead

/-- `_under_threat` asks whether the opponent of the player to play attacks a square. -/
theorem Wf.underThreat_iff (h : b.Wf looseCodes) (p : Square) :
    b.underThreat ord p = true ↔ b.position.Attacks b.playerToPlay.other p := by
  simp only [underThreat, List.any_eq_true, ord.mem_visit, h.mem_pseudolegal ord, beq_iff_eq,
    Position.attacks_iff]

theorem Wf.inCheck_iff (h : b.Wf looseCodes) :
    b.inCheck ord = true ↔ b.position.InCheck b.playerToPlay := by
  rw [inCheck, h.underThreat_iff ord]
  constructor
  · intro hatt
    obtain ⟨m, hm, hm1⟩ := Position.attacks_iff.mp hatt
    exact ⟨_, h.cell_king.mpr ⟨rfl, hm1 ▸ h.target_ne_dead hm⟩, hatt⟩
  · intro h
    rcases h with ⟨q, hq, hatt⟩
    rwa [(h.cell_king.mp hq).1]

end Check

theorem remark_pawn (c : PlayerColor) : ∀ promo ∈ [pawnRook, pawnBishop], ∀ piece,
    colorBits piece = c.bits → remark piece promo ∈
      [c.bits ||| PieceType.pawn.bits ||| PieceType.rook.bits,
        c.bits ||| PieceType.pawn.bits ||| PieceType.bishop.bits] := by
  have hrook : (colorBits (c.bits ||| PieceType.rook.bits) ^^^ PieceType.rook.bits) |||
      PieceType.pawn.bits = c.bits ||| PieceType.pawn.bits ||| PieceType.rook.bits := by
    cases c <;> decide
  have hbishop : (colorBits (c.bits ||| PieceType.bishop.bits) ^^^ PieceType.bishop.bits) |||
      PieceType.pawn.bits = c.bits ||| PieceType.pawn.bits ||| PieceType.bishop.bits := by
    cases c <;> decide
  intro promo hpromo piece hpiece
  simp only [List.mem_cons, List.not_mem_nil, or_false] at hpromo ⊢
  rcases hpromo with rfl | rfl
  · left
    rw [remark, promote, if_pos rfl, demote, if_pos rfl, hpiece, hrook]
  · right
    have hne : pawnBishop ≠ pawnRook := by decide
    rw [remark, promote, if_neg hne, if_pos rfl, demote, if_neg hne, if_pos rfl, hpiece, hbishop]

section Undo

variable {codes : Slot → List U8} {b : Board} {c : PlayerColor} {m : U16} {i : Slot}
  {k : PieceType}

theorem Mover.promo_cases (hmove : b.Mover c m i k) :
    getpromo m = 0 ∨ (k = .pawn ∧ getpromo m ∈ [pawnRook, pawnBishop]) := by
  rcases moveFlags_cases hmove.facts.flag with ⟨hlast, hflag⟩ | ⟨_, hzero⟩
  · exact Or.inr ⟨hlast.1, hflag⟩
  · exact Or.inl hzero

private theorem Mover.remark_facts (hmove : b.Mover c m i k) (h : b.Wf looseCodes) :
    remark (b.board0 (getp0 m)) (getpromo m) ∈ looseCodes i ∧
      cellOf (remark (b.board0 (getp0 m)) (getpromo m)) = cellOf (b.board0 (getp0 m)) := by
  have hcode := hmove.code h
  rcases hmove.promo_cases with hzero | ⟨rfl, hpromo⟩
  · rw [hzero, remark_zero]
    exact ⟨hcode, rfl⟩
  · have hstart := startType_of_kindOf_pawn hcode hmove.kind
    have hmem := remark_pawn (slotColor i) _ hpromo _ (looseCodes_colorBits hcode)
    have hcell : cellOf (b.board0 (getp0 m)) = some (slotColor i, .pawn) := by
      obtain ⟨k', hk', hcell⟩ := looseCodes_kind hcode
      rw [hmove.kind] at hk'
      rwa [← Option.some.inj hk'] at hcell
    have hpawn : ∀ (d : PlayerColor), ∀ piece ∈
        [d.bits ||| PieceType.pawn.bits ||| PieceType.rook.bits,
          d.bits ||| PieceType.pawn.bits ||| PieceType.bishop.bits],
        cellOf piece = some (d, .pawn) := by
      intro d
      cases d <;> decide
    refine ⟨List.mem_append_right _ ?_, ?_⟩
    · rw [if_pos hstart]
      exact hmem
    · rw [hcell, hpawn _ _ hmem]

private theorem Wf.put_slot (h : b.Wf codes) (i : Slot) (hi : b.pieces i ≠ DEAD) {piece : U8}
    (hpiece : piece ∈ codes i) : (b.put (b.pieces i) piece).Wf codes where
  board90 := fun p => by
    simp only [put, Function.update_apply, cw90_injective.eq_iff, h.board90]
  board180 := fun p => by
    simp only [put, Function.update_apply, cw180_injective.eq_iff, h.board180]
  board270 := fun p => by
    simp only [put, Function.update_apply, acw90_injective.eq_iff, h.board270]
  distinct := h.distinct
  playable := h.playable
  code := by
    intro j hj
    by_cases hji : j = i
    · subst hji
      simpa [put] using hpiece
    · have hne : b.pieces j ≠ b.pieces i := fun heq => hji (h.distinct j i hj heq)
      simpa [put, hne] using h.code j hj
  empty := by
    intro p hp
    have hpi : p ≠ b.pieces i := fun heq => hp i hi heq.symm
    simpa [put, hpi] using h.empty p hp

theorem Wf.forgetKill (h : b.Wf codes) : b.forgetKill.Wf codes := { h with }

theorem Mover.undo_alike (hmove : b.Mover c m i k) (h : b.Wf looseCodes) :
    ((b.rawDoMove m).rawUndoLastMove m).Wf looseCodes ∧
      ((b.rawDoMove m).rawUndoLastMove m).Alike b := by
  obtain ⟨hmem, hcell⟩ := hmove.remark_facts h
  rw [hmove.rawUndo_rawDo h]
  constructor
  · have hput := h.forgetKill.put_slot i (by
      rw [show b.forgetKill.pieces i = getp0 m from hmove.slot]
      exact hmove.source.ne_dead) hmem
    rwa [show b.forgetKill.pieces i = getp0 m from hmove.slot] at hput
  · refine ⟨rfl, Position.ext ?_ rfl⟩
    intro p
    by_cases hp : p = getp0 m
    · subst hp
      simpa [put, position, Board.forgetKill] using hcell
    · simp [put, position, Board.forgetKill, hp]

theorem Mover.undo_exact (hmove : b.Mover c m i k) (h : b.Wf codes) (hpromo : getpromo m = 0) :
    (b.rawDoMove m).rawUndoLastMove m = b.forgetKill := by
  rw [hmove.rawUndo_rawDo h, hpromo, remark_zero]
  apply ext_fields <;> intros <;> try rfl
  · simp [put, Board.forgetKill]
  · simp [put, Board.forgetKill, ← h.board90]
  · simp [put, Board.forgetKill, ← h.board180]
  · simp [put, Board.forgetKill, ← h.board270]

end Undo

section Filter

variable {b c : Board} {m : U16} (ord : VisitOrder)

/-- Whether a move leaves the mover in check depends on the position only. -/
private theorem Alike.inCheck_rawDoMove (hc : c.Wf looseCodes)
    (h : c.Alike b) (hm : b.position.Pseudo b.playerToPlay m) :
    (c.rawDoMove m).inCheck ord = true ↔ (b.position.play m).InCheck b.playerToPlay := by
  have hmc : c.position.Pseudo b.playerToPlay m := h.position ▸ hm
  obtain ⟨i, k, hmove⟩ := hc.mover hmc
  have hwf := hmove.wf_rawDoMove admissible_looseCodes hc
  rw [hwf.inCheck_iff ord, hmove.position_rawDoMove hc, rawDoMove_playerToPlay, h.position,
    h.playerToPlay]

/-- The loop over a list of pseudo-legal moves, started on any copy alike the board. -/
private theorem mem_legalLoop (ms : List U16)
    (hms : ∀ m ∈ ms, b.position.Pseudo b.playerToPlay m) (c : Board) (hc : c.Wf looseCodes)
    (halike : c.Alike b) (legalMoves : MoveSet) :
    m ∈ (ms.foldl (fun (c, legalMoves) m =>
        let c := c.rawDoMove m
        let legalMoves := if !c.inCheck ord then legalMoves.insert m else legalMoves
        (c.rawUndoLastMove m, legalMoves)) (c, legalMoves)).2 ↔
      m ∈ legalMoves ∨ (m ∈ ms ∧ ¬(b.position.play m).InCheck b.playerToPlay) := by
  induction ms generalizing c legalMoves with
  | nil => simp
  | cons m' ms ih =>
    have hm' := hms m' List.mem_cons_self
    obtain ⟨i, k, hmove⟩ := hc.mover (halike.position ▸ hm')
    obtain ⟨hwf, hundo⟩ := hmove.undo_alike hc
    have hcheck := halike.inCheck_rawDoMove ord hc hm'
    rw [List.foldl_cons, ih (fun m hm => hms m (List.mem_cons_of_mem _ hm)) _ hwf
      (hundo.trans halike)]
    by_cases hin : (c.rawDoMove m').inCheck ord = true
    · simp only [hin, Bool.not_true, Bool.false_eq_true, if_false, List.mem_cons]
      have hcheck' := hcheck.mp hin
      constructor
      · intro h
        rcases h with h | ⟨h, hsafe⟩
        · exact Or.inl h
        · exact Or.inr ⟨Or.inr h, hsafe⟩
      · intro h
        rcases h with h | ⟨rfl | h, hsafe⟩
        · exact Or.inl h
        · exact absurd hcheck' hsafe
        · exact Or.inr ⟨h, hsafe⟩
    · have hsafe' := mt hcheck.mpr hin
      simp only [hin, Bool.not_false, if_true, List.mem_insert_iff, List.mem_cons]
      constructor
      · intro h
        rcases h with (rfl | h) | ⟨h, hsafe⟩
        · exact Or.inr ⟨Or.inl rfl, hsafe'⟩
        · exact Or.inl h
        · exact Or.inr ⟨Or.inr h, hsafe⟩
      · intro h
        rcases h with h | ⟨rfl | h, hsafe⟩
        · exact Or.inl (Or.inr h)
        · exact Or.inl (Or.inl rfl)
        · exact Or.inr ⟨h, hsafe⟩

/-- `get_legal_moves` computes the legal moves of the position. -/
theorem Wf.mem_getLegalMoves (hb : b.Wf looseCodes) :
    m ∈ b.getLegalMoves ord ↔ b.position.Legal m := by
  have hpseudo : ∀ m ∈ ord.visit (b.getPseudolegalMoves ord),
      b.position.Pseudo b.playerToPlay m := fun m hm =>
    (hb.mem_pseudolegal ord).mp (ord.mem_visit.mp hm)
  rw [getLegalMoves, mem_legalLoop ord _ hpseudo b hb (Alike.refl b)]
  simp only [List.not_mem_nil, false_or, ord.mem_visit, getPseudolegalMoves,
    hb.mem_pseudolegal ord]
  constructor
  · intro h
    rcases h with ⟨hm, hsafe⟩
    exact ⟨hm, hsafe⟩
  · intro h
    rcases h with ⟨hm, hsafe⟩
    exact ⟨hm, hsafe⟩

theorem Wf.exists_legal_iff (hb : b.Wf looseCodes) :
    (∃ m, b.position.Legal m) ↔ 0 < (b.getLegalMoves ord).length := by
  rw [List.length_pos_iff_exists_mem]
  exact exists_congr fun m => (hb.mem_getLegalMoves ord).symm

theorem Wf.mem_getLegalMoves_fresh (hb : b.Wf looseCodes) :
    m ∈ b.getLegalMoves ord ↔
      m ∈ b.getPseudolegalMoves ord ∧ (b.rawDoMove m).inCheck ord = false := by
  rw [hb.mem_getLegalMoves ord, getPseudolegalMoves, hb.mem_pseudolegal ord,
    ← Bool.not_eq_true]
  constructor
  · intro h
    rcases h with ⟨hm, hsafe⟩
    exact ⟨hm, mt ((Alike.refl b).inCheck_rawDoMove ord hb hm).mp hsafe⟩
  · intro h
    rcases h with ⟨hm, hsafe⟩
    exact ⟨hm, mt ((Alike.refl b).inCheck_rawDoMove ord hb hm).mpr hsafe⟩

end Filter

end Board

end Rollerball
