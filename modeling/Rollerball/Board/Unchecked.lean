import Rollerball.Board.Kings

/-!
# Unchecked moves

`_do_move` plays any move word it is given. Which words leave a board intact is told by the squares
and the promotion flag they name.
-/

namespace Rollerball

def promoType (promo : U8) : Option PieceType :=
  if promo = pawnRook then some .rook else if promo = pawnBishop then some .bishop else none

private theorem promo_cases (promo : U8) :
    promo = pawnRook ∨ promo = pawnBishop ∨
      (promoType promo = none ∧ ∀ piece, Board.promote piece promo = piece) := by
  by_cases hrook : promo = pawnRook
  · exact Or.inl hrook
  · by_cases hbishop : promo = pawnBishop
    · exact Or.inr (Or.inl hbishop)
    · refine Or.inr (Or.inr ⟨?_, fun piece => ?_⟩)
      · rw [promoType, if_neg hrook, if_neg hbishop]
      · rw [Board.promote, if_neg hrook, if_neg hbishop]

theorem promote_mem_iff {i : Slot} {piece : U8} (hpiece : piece ∈ slotCodes i) (promo : U8) :
    Board.promote piece promo ∈ slotCodes i ↔
      ∀ k, promoType promo = some k → k ∈ slotTypes i := by
  have hflags : ∀ i, ∀ piece ∈ slotCodes i,
      (Board.promote piece pawnRook ∈ slotCodes i ↔ .rook ∈ slotTypes i) ∧
        (Board.promote piece pawnBishop ∈ slotCodes i ↔ .bishop ∈ slotTypes i) := by
    decide
  have hrook : promoType pawnRook = some .rook := by decide
  have hbishop : promoType pawnBishop = some .bishop := by decide
  rcases promo_cases promo with rfl | rfl | ⟨hnone, hsame⟩
  · simp [hrook, (hflags i piece hpiece).1]
  · simp [hbishop, (hflags i piece hpiece).2]
  · simp [hnone, hsame, hpiece]

theorem promote_ne_zero {i : Slot} {piece : U8} (hpiece : piece ∈ slotCodes i) (promo : U8) :
    Board.promote piece promo ≠ 0 := by
  have hflags : ∀ i, ∀ piece ∈ slotCodes i, Board.promote piece pawnRook ≠ 0 ∧
      Board.promote piece pawnBishop ≠ 0 ∧ piece ≠ 0 := by
    decide
  rcases promo_cases promo with rfl | rfl | ⟨_, hsame⟩
  · exact (hflags i piece hpiece).1
  · exact (hflags i piece hpiece).2.1
  · rw [hsame]
    exact (hflags i piece hpiece).2.2

theorem promote_zero_not_mem (promo : U8) (i : Slot) : Board.promote 0 promo ∉ slotCodes i := by
  have hflags : ∀ i, Board.promote 0 pawnRook ∉ slotCodes i ∧
      Board.promote 0 pawnBishop ∉ slotCodes i ∧ (0 : U8) ∉ slotCodes i := by
    decide
  rcases promo_cases promo with rfl | rfl | ⟨_, hsame⟩
  · exact (hflags i).1
  · exact (hflags i).2.1
  · rw [hsame]
    exact (hflags i).2.2

theorem promote_zero_iff (promo : U8) : Board.promote 0 promo = 0 ↔ promoType promo = none := by
  rcases promo_cases promo with rfl | rfl | ⟨hnone, hsame⟩
  · decide
  · decide
  · exact iff_of_true (hsame 0) hnone

namespace Board

structure Intact (b : Board) : Prop where
  wf : b.Wf slotCodes
  alive : ∀ c, b.pieces (kingSlot c) ≠ DEAD

/-- What a move word must name to leave an intact board intact. -/
structure Permits (b : Board) (m : U16) : Prop where
  spares : ∀ c, b.pieces (kingSlot c) ≠ getp1 m
  -- the piece on `p0` is taken off, or goes to `p1`, or there is nothing to move
  lands : getp0 m = getp1 m ∨
    (∃ i, b.Carries m i ∧ ∀ k, promoType (getpromo m) = some k → k ∈ slotTypes i) ∨
    ((∀ i, b.pieces i ≠ getp0 m) ∧ promoType (getpromo m) = none ∧
      (getp0 m = DEAD → ∀ i, b.pieces i ≠ getp1 m))

theorem new_intact : Board.new.Intact := ⟨new_wf, new_kingsSafe.alive⟩

section Intact

variable {codes : Slot → List U8} {b b' : Board} {m : U16}

theorem Wf.clear (h : b.Wf codes) (hagree : b'.Agree) {p : Square}
    (hpieces : ∀ j, b'.pieces j = if b.pieces j = p then DEAD else b.pieces j)
    (hboard : b'.board0 = Function.update b.board0 p 0) : b'.Wf codes := by
  have hlive : ∀ j, b'.pieces j ≠ DEAD → b'.pieces j = b.pieces j ∧ b.pieces j ≠ p := by
    intro j hj
    rw [hpieces] at hj ⊢
    split_ifs at hj ⊢ with hjp
    · exact absurd rfl hj
    · exact ⟨rfl, hjp⟩
  refine ⟨hagree.board90, hagree.board180, hagree.board270, ?_, ?_, ?_, ?_⟩
  · intro j l hj hjl
    have hj' := (hlive j hj).1
    have hl' := (hlive l (by rwa [← hjl])).1
    exact h.distinct j l (by rwa [← hj']) (by rw [← hj', hjl, hl'])
  · intro j hj
    have hj' := (hlive j hj).1
    rw [hj'] at hj ⊢
    exact h.playable j hj
  · intro j hj
    obtain ⟨hsame, hjp⟩ := hlive j hj
    rw [hsame] at hj ⊢
    rw [hboard, Function.update_of_ne hjp]
    exact h.code j hj
  · intro q hq
    rw [hboard]
    by_cases hqp : q = p
    · rw [hqp, Function.update_self]
      rfl
    · rw [Function.update_of_ne hqp]
      apply h.empty
      intro j hj hjq
      have hjp : b.pieces j ≠ p := fun heq => hqp (by rw [← hjq, heq])
      have hj' := hq j
      rw [hpieces, if_neg hjp] at hj'
      exact hj' hj hjq

theorem Wf.board0_free (h : b.Wf codes) {p : Square} (hp : ∀ i, b.pieces i ≠ p) :
    b.board0 p = 0 :=
  h.empty p fun i _ => hp i

/-- A word that takes one square and names nothing to move, or the square itself, clears it. -/
private theorem rawDoMove_clears (h : b.Wf codes)
    (hm : getp0 m = getp1 m ∨ ((∀ i, b.pieces i ≠ getp0 m) ∧ promoType (getpromo m) = none ∧
      (getp0 m = DEAD → ∀ i, b.pieces i ≠ getp1 m))) :
    (∀ j, (b.rawDoMove m).pieces j =
        if b.pieces j = getp1 m then DEAD else b.pieces j) ∧
      (b.rawDoMove m).board0 = Function.update b.board0 (getp1 m) 0 := by
  rcases hm with hsame | ⟨hfree, hflag, hdead⟩
  · constructor
    · intro j
      rw [rawDoMove_pieces, scanned, hsame]
      by_cases hj : b.pieces j = getp1 m
      · by_cases hp : DEAD = getp1 m
        · simp [hj, hp]
        · simp [hj, hp]
      · simp [hj]
    · rw [rawDoMove_board0, hsame, Function.update_idem]
  · constructor
    · intro j
      rw [rawDoMove_pieces, scanned]
      by_cases hj : b.pieces j = getp1 m
      · have hp : DEAD ≠ getp0 m := fun hp => hdead hp.symm j hj
        simp [hj, hp]
      · simp [hj, hfree j]
    · rw [rawDoMove_board0, h.board0_free hfree, (promote_zero_iff _).mpr hflag]
      funext p
      by_cases hp : p = getp0 m
      · by_cases hp' : getp0 m = getp1 m
        · simp [hp, hp']
        · simp [hp, hp', h.board0_free hfree]
      · simp [hp]

theorem Intact.rawDoMove (h : b.Intact) (hm : b.Permits m) : (b.rawDoMove m).Intact := by
  have hclear : (getp0 m = getp1 m ∨ ((∀ i, b.pieces i ≠ getp0 m) ∧
      promoType (getpromo m) = none ∧ (getp0 m = DEAD → ∀ i, b.pieces i ≠ getp1 m))) →
      (b.rawDoMove m).Intact := by
    intro hm'
    obtain ⟨hpieces, hboard⟩ := rawDoMove_clears h.wf hm'
    refine ⟨h.wf.clear (h.wf.agree.rawDoMove m) hpieces hboard, ?_⟩
    intro c
    rw [hpieces, if_neg (hm.spares c)]
    exact h.alive c
  rcases hm.lands with hsame | ⟨i, hi, hpromo⟩ | hnothing
  · exact hclear (Or.inl hsame)
  · have hcode := h.wf.code i (by rw [hi.slot]; exact hi.source.ne_dead)
    rw [hi.slot] at hcode
    refine ⟨hi.wf_rawDoMove h.wf ((promote_mem_iff hcode _).mpr hpromo), ?_⟩
    intro c
    rw [hi.pieces_rawDoMove h.wf]
    split_ifs with hci hc1
    · exact hi.target.ne_dead
    · exact absurd hc1 (hm.spares c)
    · exact h.alive c
  · exact hclear (Or.inr hnothing)

private theorem Intact.lands (h : b.Intact) (h' : (b.rawDoMove m).Intact)
    (hne : getp0 m ≠ getp1 m) :
    (∃ i, b.Carries m i ∧ ∀ k, promoType (getpromo m) = some k → k ∈ slotTypes i) ∨
      ((∀ i, b.pieces i ≠ getp0 m) ∧ promoType (getpromo m) = none ∧
        (getp0 m = DEAD → ∀ i, b.pieces i ≠ getp1 m)) := by
  have hboard : (b.rawDoMove m).board0 (getp1 m) =
      promote (b.board0 (getp0 m)) (getpromo m) := by
    rw [rawDoMove_board0, Function.update_of_ne hne.symm, Function.update_self]
  by_cases hlive : ∃ i, b.pieces i = getp0 m ∧ getp0 m ≠ DEAD
  · obtain ⟨i, hi, hdead⟩ := hlive
    have hcode := h.wf.code i (by rwa [hi])
    rw [hi] at hcode
    have hi' : (b.rawDoMove m).pieces i = getp1 m := by
      rw [rawDoMove_pieces, scanned, hi, if_neg hne, if_pos rfl]
    have htarget : getp1 m ≠ DEAD := by
      intro htarget
      have hzero := h'.wf.empty (getp1 m) fun j hj hj1 => hj (hj1.trans htarget)
      exact promote_ne_zero hcode _ (hboard.symm.trans hzero)
    have hmem := h'.wf.code i (by rwa [hi'])
    rw [hi', hboard] at hmem
    refine Or.inl ⟨i, ⟨hi, ?_, ?_, hne⟩, (promote_mem_iff hcode _).mp hmem⟩
    · rw [← hi]
      exact h.wf.playable i (by rwa [hi])
    · rw [← hi']
      exact h'.wf.playable i (by rwa [hi'])
  · push Not at hlive
    have hzero : b.board0 (getp0 m) = 0 :=
      h.wf.empty _ fun i hi hi0 => hi (hi0.trans (hlive i hi0))
    rw [hzero] at hboard
    -- no slot may stand on `p1` now: the byte there is no slot's
    have hvacant : ∀ i, (b.rawDoMove m).pieces i ≠ DEAD →
        (b.rawDoMove m).pieces i ≠ getp1 m := by
      intro i hi hi1
      have hmem := h'.wf.code i hi
      rw [hi1, hboard] at hmem
      exact promote_zero_not_mem _ _ hmem
    have hback : getp0 m = DEAD → ∀ i, b.pieces i ≠ DEAD ∧ b.pieces i ≠ getp1 m := by
      intro hdead i
      have hi := hvacant i
      rw [rawDoMove_pieces, scanned, hdead] at hi
      rw [hdead] at hne
      constructor
      · intro hi0
        simp [hi0, hne, hne.symm] at hi
      · intro hi1
        simp [hi1, hne.symm] at hi
    refine Or.inr ⟨?_, ?_, fun hdead i => (hback hdead i).2⟩
    · intro i hi
      have hdead := hlive i hi
      exact (hback hdead i).1 (hi.trans hdead)
    · rw [← promote_zero_iff, ← hboard]
      exact h'.wf.empty _ hvacant

/-- The words that leave an intact board intact. -/
theorem Intact.rawDoMove_iff (h : b.Intact) : (b.rawDoMove m).Intact ↔ b.Permits m := by
  constructor
  · intro h'
    have hlands : getp0 m = getp1 m ∨ _ := (em _).imp_right (h.lands h')
    refine ⟨?_, hlands⟩
    intro c hc
    have halive := h'.alive c
    rw [rawDoMove_pieces, scanned, if_pos hc] at halive
    split_ifs at halive with hdead
    · -- a king put back on `p1` by the scan has no byte there
      have hne : getp0 m ≠ getp1 m := by
        rw [← hdead, ← hc]
        exact (h.alive c).symm
      rcases h.lands h' hne with ⟨i, hi, _⟩ | ⟨_, _, hfree⟩
      · exact hi.source.ne_dead hdead.symm
      · exact hfree hdead.symm _ hc
    · exact halive rfl
  · exact h.rawDoMove

theorem Intact.flipPlayer (h : b.Intact) : b.flipPlayer.Intact := ⟨h.wf.flipPlayer, h.alive⟩

theorem Intact.doMove_iff (h : b.Intact) : (b.doMove m).Intact ↔ b.Permits m := by
  rw [← h.rawDoMove_iff]
  constructor
  · intro h'
    have hflip := Intact.flipPlayer h'
    rwa [doMove, flipPlayer_flipPlayer] at hflip
  · exact Intact.flipPlayer

theorem Intact.permits_of_legal (h : b.Intact) {ord : VisitOrder}
    (hm : m ∈ b.getLegalMoves ord) : b.Permits m ↔ ∀ c, b.pieces (kingSlot c) ≠ getp1 m := by
  obtain ⟨i, k, hmove⟩ := h.wf.legal_mover ord admissible_slotCodes hm
  constructor
  · exact Permits.spares
  · intro hspares
    refine ⟨hspares, Or.inr (Or.inl ⟨i, hmove.carries, ?_⟩)⟩
    exact (promote_mem_iff (hmove.code h.wf) _).mp (hmove.promote_mem admissible_slotCodes h.wf)

end Intact

end Board

end Rollerball
