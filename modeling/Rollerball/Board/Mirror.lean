import Rollerball.Board.Reach
import Rollerball.Rules.Mirror

/-!
# Colour symmetry of the code

A board and its mirror image go through different arrays, tables and literals. They stand for
mirrored positions, so checks and legal moves correspond, and playing corresponding moves keeps
them mirror images.
-/

namespace Rollerball

/-- Black slot `i` and white slot `i + 6` exchanged. -/
def Slot.mirror (i : Slot) : Slot := i + 6

@[simp] theorem Slot.mirror_mirror : ∀ i : Slot, i.mirror.mirror = i := by decide

def swapColor (piece : U8) : U8 :=
  if piece = 0 then 0 else piece ^^^ (PlayerColor.white.bits ||| PlayerColor.black.bits)

private theorem slotColor_mirror : ∀ i : Slot, slotColor i.mirror = (slotColor i).other := by
  decide

private theorem swapColor_mem_all : ∀ i : Slot, ∀ piece ∈ looseCodes i,
    swapColor piece ∈ looseCodes i.mirror ∧
      kindOf (swapColor piece) = kindOf piece ∧
      Board.promote (swapColor piece) pawnRook = swapColor (Board.promote piece pawnRook) ∧
      Board.promote (swapColor piece) pawnBishop = swapColor (Board.promote piece pawnBishop) := by
  decide +kernel

theorem swapColor_mem {i : Slot} {piece : U8} (hpiece : piece ∈ looseCodes i) :
    swapColor piece ∈ looseCodes i.mirror :=
  (swapColor_mem_all i piece hpiece).1

theorem cellOf_swapColor {i : Slot} {piece : U8} (hpiece : piece ∈ looseCodes i) :
    cellOf (swapColor piece) = (cellOf piece).map fun piece => (piece.1.other, piece.2) := by
  obtain ⟨k, hkind, hcell⟩ := looseCodes_kind hpiece
  obtain ⟨k', hkind', hcell'⟩ := looseCodes_kind (swapColor_mem hpiece)
  rw [(swapColor_mem_all i piece hpiece).2.1, hkind] at hkind'
  rw [hcell, hcell', slotColor_mirror, ← Option.some.inj hkind']
  rfl

theorem promote_swapColor {i : Slot} {piece promo : U8} (hpiece : piece ∈ looseCodes i)
    (hpromo : promo ∈ promoFlags) :
    Board.promote (swapColor piece) promo = swapColor (Board.promote piece promo) := by
  simp only [promoFlags, List.mem_cons, List.not_mem_nil, or_false] at hpromo
  rcases hpromo with rfl | rfl | rfl
  · rfl
  · exact (swapColor_mem_all i piece hpiece).2.2.2
  · exact (swapColor_mem_all i piece hpiece).2.2.1

namespace Board

/-- The mirror image of a board: colours exchanged, every piece turned by a half turn and the
rotated arrays built again. -/
def swap (b : Board) : Board :=
  let zero : Square → U8 := fun _ => 0
  let board0 := fun p => swapColor (b.board0 (cw180 p))
  { pieces := fun i => cw180 (b.pieces i.mirror)
    board0 := board0
    board90 := rotateBoard board0 zero cw90
    board180 := rotateBoard board0 zero cw180
    board270 := rotateBoard board0 zero acw90
    playerToPlay := b.playerToPlay.other
    lastKilledPiece := swapColor b.lastKilledPiece
    lastKilledPieceIdx := b.lastKilledPieceIdx.map Slot.mirror }

@[simp] theorem swap_pieces (b : Board) (i : Slot) :
    b.swap.pieces i = cw180 (b.pieces i.mirror) := rfl

@[simp] theorem swap_board0 (b : Board) (p : Square) :
    b.swap.board0 p = swapColor (b.board0 (cw180 p)) := rfl

@[simp] theorem swap_playerToPlay (b : Board) :
    b.swap.playerToPlay = b.playerToPlay.other := rfl

private theorem swap_rotated (b : Board) (p : Square) :
    b.swap.board90 (cw90 p) = b.swap.board0 p ∧ b.swap.board180 (cw180 p) = b.swap.board0 p ∧
      b.swap.board270 (acw90 p) = b.swap.board0 p :=
  ⟨rotateBoard_apply cw90_injective b.swap.board0 _ p,
    rotateBoard_apply cw180_injective b.swap.board0 _ p,
    rotateBoard_apply acw90_injective b.swap.board0 _ p⟩

theorem cw180_dead {p : Square} : cw180 p = DEAD ↔ p = DEAD := by
  have hdead : cw180 DEAD = DEAD := by decide
  constructor
  · intro h
    rw [← cw180_cw180 p, h, hdead]
  · rintro rfl
    exact hdead

section Mirror

variable {b : Board} {c : PlayerColor} {m : U16} {i : Slot} {k : PieceType}

theorem Wf.swap (h : b.Wf looseCodes) : b.swap.Wf looseCodes where
  board90 := fun p => (swap_rotated b p).1
  board180 := fun p => (swap_rotated b p).2.1
  board270 := fun p => (swap_rotated b p).2.2
  distinct := by
    intro i j hi hij
    have hlive : b.pieces i.mirror ≠ DEAD := fun hd => hi (cw180_dead.mpr hd)
    have hmirror := h.distinct _ _ hlive (cw180_injective hij)
    rw [← i.mirror_mirror, hmirror, Slot.mirror_mirror]
  playable := by
    intro i hi
    have hlive : b.pieces i.mirror ≠ DEAD := fun hd => hi (cw180_dead.mpr hd)
    exact (playable_cw180 _).mpr (h.playable _ hlive)
  code := by
    intro i hi
    have hlive : b.pieces i.mirror ≠ DEAD := fun hd => hi (cw180_dead.mpr hd)
    have hmem := swapColor_mem (h.code _ hlive)
    rw [Slot.mirror_mirror] at hmem
    rwa [swap_pieces, swap_board0, cw180_cw180]
  empty := by
    intro p hp
    have hempty : b.board0 (cw180 p) = 0#8 := by
      apply h.empty
      intro i hi hip
      have hmirror := hp i.mirror
      rw [swap_pieces, Slot.mirror_mirror, hip, cw180_cw180] at hmirror
      refine hmirror (fun hd => hi ?_) rfl
      rw [hip, hd]
      exact cw180_dead.mpr rfl
    rw [swap_board0, hempty]
    rfl

theorem Wf.position_swap (h : b.Wf looseCodes) : b.swap.position = b.position.swap := by
  apply Position.ext
  · intro p
    simp only [position, swap_board0, Position.swap]
    rcases h.byte_cases (cw180 p) with h0 | ⟨i, _, _, hcode⟩
    · rw [h0]
      rfl
    · exact cellOf_swapColor hcode
  · rfl

theorem Wf.onRing (h : b.Wf looseCodes) : b.position.OnRing := by
  intro p piece hp
  obtain ⟨i, rfl, hdead, _⟩ := h.slot_of_cell hp
  exact h.playable i hdead

theorem Mover.swap (hmove : b.Mover c m i k) (h : b.Wf looseCodes) :
    b.swap.Mover c.other (rot m) i.mirror k := by
  have hpromo := moveFlags_subset _ _ _ hmove.facts.flag
  have h0 : getp0 (rot m) = cw180 (getp0 m) := getp0_movePromo _ _ hpromo
  have h1 : getp1 (rot m) = cw180 (getp1 m) := getp1_movePromo _ _ hpromo
  have hkind : kindOf (b.swap.board0 (getp0 (rot m))) = some k := by
    rw [h0, swap_board0, cw180_cw180, (swapColor_mem_all i _ (hmove.code h)).2.1, hmove.kind]
  have hfacts : b.swap.position.MoveFacts c.other (rot m) k := by
    obtain ⟨k', hfacts⟩ := (hmove.facts.pseudo.swap h.onRing).facts
    have hcell := hfacts.source
    rw [h0, Position.swap_cell, hmove.facts.source, Option.some.injEq, Prod.mk.injEq] at hcell
    rw [h.position_swap, hcell.2]
    exact hfacts
  refine ⟨?_, ?_, hkind, hfacts, ?_, ?_, ?_⟩
  · rw [slotColor_mirror, hmove.color]
  · rw [h0, ← hmove.slot]
    rw [swap_pieces, Slot.mirror_mirror]
  · rw [h0]
    exact (playable_cw180 _).mpr hmove.source
  · rw [h1]
    exact (playable_cw180 _).mpr hmove.target
  · rw [h0, h1]
    exact cw180_injective.ne hmove.ne

private theorem Mover.swap_killed (hmove : b.Mover c m i k) (h : b.Wf looseCodes) :
    (b.swap.rawDoMove (rot m)).lastKilledPiece = swapColor (b.rawDoMove m).lastKilledPiece ∧
      (b.swap.rawDoMove (rot m)).lastKilledPieceIdx =
        (b.rawDoMove m).lastKilledPieceIdx.map Slot.mirror := by
  have h1 : getp1 (rot m) = cw180 (getp1 m) :=
    getp1_movePromo _ _ (moveFlags_subset _ _ _ hmove.facts.flag)
  have hslot : ∀ j, b.swap.pieces j = getp1 (rot m) ↔ b.pieces j.mirror = getp1 m := by
    intro j
    rw [h1, swap_pieces, cw180_injective.eq_iff]
  rcases hmove.killed h with ⟨hfree, hpiece, hidx⟩ | ⟨j, hj, hpiece, hidx⟩ <;>
    rcases (hmove.swap h).killed h.swap with ⟨hfree', hpiece', hidx'⟩ | ⟨l, hl, hpiece', hidx'⟩
  · rw [hpiece, hidx, hpiece', hidx']
    exact ⟨rfl, rfl⟩
  · exact absurd ((hslot l).mp hl) (hfree _)
  · exact absurd ((hslot j.mirror).mpr (by rwa [Slot.mirror_mirror])) (hfree' _)
  · have hlj : l.mirror = j := by
      have hl' := (hslot l).mp hl
      exact h.distinct _ _ (by rw [hl']; exact hmove.target.ne_dead) (by rw [hl', hj])
    rw [hpiece, hidx, hpiece', hidx', ← hlj, h1]
    simp

/-- Playing the rotated move on the mirror image gives the mirror image. -/
theorem Mover.swap_doMove (hmove : b.Mover c m i k) (h : b.Wf looseCodes) :
    b.swap.doMove (rot m) = (b.doMove m).swap := by
  have hpromo := moveFlags_subset _ _ _ hmove.facts.flag
  have h0 : getp0 (rot m) = cw180 (getp0 m) := getp0_movePromo _ _ hpromo
  have h1 : getp1 (rot m) = cw180 (getp1 m) := getp1_movePromo _ _ hpromo
  have hpt : getpromo (rot m) = getpromo m := getpromo_movePromo _ _ hpromo
  have hswap := hmove.swap h
  have hkilled := hmove.swap_killed h
  apply Wf.ext (hswap.wf_rawDoMove admissible_looseCodes h.swap).flipPlayer
    (hmove.wf_rawDoMove admissible_looseCodes h).flipPlayer.swap
  · intro j
    have hmirror : j = i.mirror ↔ j.mirror = i := by
      constructor
      · rintro rfl
        exact Slot.mirror_mirror i
      · rintro rfl
        exact (Slot.mirror_mirror j).symm
    have hleft := hswap.pieces_rawDoMove h.swap j
    have hright := hmove.pieces_rawDoMove h j.mirror
    simp only [swap_pieces, h1, cw180_injective.eq_iff, hmirror] at hleft
    rw [swap_pieces]
    simp only [Board.flipPlayer, hleft, hright]
    split_ifs
    · rfl
    · exact (cw180_dead.mpr rfl).symm
    · rfl
  · intro p
    have hturn : ∀ q, p = cw180 q ↔ cw180 p = q := by
      intro q
      rw [← cw180_injective.eq_iff, cw180_cw180]
    have hpromote := promote_swapColor (hmove.code h) hpromo
    simp only [swap_board0, Board.flipPlayer, rawDoMove_board0,
      Function.update_apply, h0, h1, hpt, cw180_cw180, hpromote, hturn]
    split_ifs <;> rfl
  · simp [Board.flipPlayer]
  · exact hkilled.1
  · exact hkilled.2

end Mirror

def LegalGame (ord : VisitOrder) : Board → List U16 → Prop
  | _, [] => True
  | b, m :: ms => m ∈ b.getLegalMoves ord ∧ LegalGame ord (b.doMove m) ms

theorem Wf.legalGame_of_plays {b : Board} (h : b.Wf slotCodes) {ms : List U16}
    (hplays : b.plays ms = true) : LegalGame VisitOrder.insertion b ms := by
  induction ms generalizing b with
  | nil => trivial
  | cons m ms ih =>
    obtain ⟨hm, hrest⟩ := h.plays_cons hplays
    exact ⟨hm, ih (h.doMove VisitOrder.insertion admissible_slotCodes hm) hrest⟩

theorem LegalGame.concat {ord : VisitOrder} {b : Board} {ms : List U16} {m : U16}
    (h : LegalGame ord b ms) (hm : m ∈ (ms.foldl doMove b).getLegalMoves ord) :
    LegalGame ord b (ms ++ [m]) := by
  induction ms generalizing b with
  | nil => exact ⟨hm, trivial⟩
  | cons m' ms ih => exact ⟨h.1, ih h.2 hm⟩

theorem LegalGame.take {ord : VisitOrder} {b : Board} {ms : List U16} (h : LegalGame ord b ms)
    (n : Nat) : LegalGame ord b (ms.take n) := by
  induction ms generalizing b n with
  | nil => rwa [List.take_nil]
  | cons m ms ih =>
    cases n with
    | zero => trivial
    | succ n => exact ⟨h.1, ih h.2 n⟩

section Games

variable {codes : Slot → List U8} {b : Board} (ord ord' : VisitOrder)

theorem Wf.inCheck_swap (h : b.Wf looseCodes) : b.swap.inCheck ord' = b.inCheck ord := by
  rw [Bool.eq_iff_iff, h.swap.inCheck_iff ord', h.inCheck_iff ord, h.position_swap]
  exact Position.inCheck_swap h.onRing

theorem Wf.swap_game (h : b.Wf looseCodes) (ms : List U16) (hgame : LegalGame ord b ms) :
    LegalGame ord' b.swap (ms.map rot) ∧
      (ms.map rot).foldl Board.doMove b.swap = (ms.foldl Board.doMove b).swap := by
  induction ms generalizing b with
  | nil => exact ⟨trivial, rfl⟩
  | cons m ms ih =>
    obtain ⟨hm, hrest⟩ := hgame
    obtain ⟨i, k, hmove⟩ := h.legal_mover ord admissible_looseCodes hm
    have hlegal : rot m ∈ b.swap.getLegalMoves ord' := by
      rw [h.swap.mem_getLegalMoves, h.position_swap]
      exact ((h.mem_getLegalMoves ord).mp hm).swap h.onRing
    have hih := ih (h.doMove ord admissible_looseCodes hm) hrest
    rw [← hmove.swap_doMove h] at hih
    exact ⟨⟨hlegal, hih.1⟩, hih.2⟩

/-- The mirror image of a well-formed board has the rotated legal moves, is in check when the
board is, and stays the mirror image through every legal move and every legal game. -/
theorem color_symmetry (hcodes : Admissible codes) (h : b.Wf codes) :
    (∀ m, m ∈ b.swap.getLegalMoves ord' ↔ ∃ m' ∈ b.getLegalMoves ord, rot m' = m) ∧
      b.swap.inCheck ord' = b.inCheck ord ∧
      (∀ m ∈ b.getLegalMoves ord, b.swap.doMove (rot m) = (b.doMove m).swap) ∧
      ∀ ms, LegalGame ord b ms → LegalGame ord' b.swap (ms.map rot) ∧
        ∀ n, ((ms.map rot).take n).foldl Board.doMove b.swap =
          ((ms.take n).foldl Board.doMove b).swap := by
  have hloose := h.loose hcodes
  refine ⟨?_, hloose.inCheck_swap ord ord', ?_, ?_⟩
  · intro m
    simp only [hloose.swap.mem_getLegalMoves ord', hloose.mem_getLegalMoves ord,
      hloose.position_swap, Position.legal_swap_iff hloose.onRing]
  · intro m hm
    obtain ⟨i, k, hmove⟩ := hloose.legal_mover ord admissible_looseCodes hm
    exact hmove.swap_doMove hloose
  · intro ms hgame
    refine ⟨(hloose.swap_game ord ord' ms hgame).1, ?_⟩
    intro n
    rw [← List.map_take]
    exact (hloose.swap_game ord ord' _ (hgame.take n)).2

theorem color_symmetry_opening :
    opening.swap.inCheck VisitOrder.insertion = opening.inCheck VisitOrder.insertion :=
  (color_symmetry VisitOrder.insertion VisitOrder.insertion admissible_slotCodes
    (opening_reachable.wf VisitOrder.insertion)).2.1

end Games

end Board

end Rollerball
