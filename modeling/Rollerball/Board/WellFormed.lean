import Rollerball.Rules.Position
import Mathlib.Data.Fintype.Pi

/-!
# Well-formed boards

A board is well formed when its five copies of the position agree: the four arrays are rotations
of each other, the live slots stand on distinct playable squares, and every byte belongs to the
slot on its square. Such a board refines a position of the abstract game, and its move
generators produce exactly the pseudo-legal moves of that position.
-/

namespace Rollerball

/-- The branch `_get_pseudolegal_moves_for_piece` takes on a piece byte. -/
def kindOf (piece : U8) : Option PieceType :=
  if piece &&& PieceType.pawn.bits ≠ 0#8 then some .pawn
  else if piece &&& PieceType.rook.bits ≠ 0#8 then some .rook
  else if piece &&& PieceType.bishop.bits ≠ 0#8 then some .bishop
  else if piece &&& PieceType.king.bits ≠ 0#8 then some .king
  else none

def colorOf (piece : U8) : PlayerColor :=
  if piece &&& PlayerColor.white.bits ≠ 0#8 then .white else .black

/-- The piece a byte stands for. -/
def cellOf (piece : U8) : Option Piece := (kindOf piece).map fun k => (colorOf piece, k)

/-- The kinds a slot may hold: a pawn slot may have been promoted. -/
def slotTypes (i : Slot) : List PieceType :=
  if startType i = .pawn then [.pawn, .rook, .bishop] else [startType i]

/-- The bytes a slot may hold: its colour and exactly one type bit. -/
def slotCodes (i : Slot) : List U8 := (slotTypes i).map fun k => (slotColor i).bits ||| k.bits

/-- The bytes a slot may hold on a board on which moves have been taken back: undoing a
promotion leaves the promoted type bit beside the pawn bit. -/
def looseCodes (i : Slot) : List U8 :=
  slotCodes i ++
    (if startType i = .pawn then
      [(slotColor i).bits ||| PieceType.pawn.bits ||| PieceType.rook.bits,
        (slotColor i).bits ||| PieceType.pawn.bits ||| PieceType.bishop.bits]
    else [])

/-- A choice of admissible bytes for each slot that is closed under promotion. -/
structure Admissible (codes : Slot → List U8) : Prop where
  loose : ∀ i, codes i ⊆ looseCodes i
  promoted : ∀ i, ∀ piece ∈ codes i, kindOf piece = some .pawn →
    ∀ promo, Board.promote piece promo ∈ codes i

private def looseTypeBits : List U8 := [0x02, 0x04, 0x08, 0x10, 0x06, 0x12]

private theorem looseCodes_form {i : Slot} {piece : U8} (hpiece : piece ∈ looseCodes i) :
    ∃ t ∈ looseTypeBits, piece = (slotColor i).bits ||| t := by
  rcases List.mem_append.mp hpiece with h | h
  · obtain ⟨k, _, rfl⟩ := List.mem_map.mp h
    exact ⟨k.bits, by cases k <;> decide, rfl⟩
  · simp only [List.mem_ite_nil_right, List.mem_cons, List.not_mem_nil, or_false] at h
    rcases h.2 with rfl | rfl
    · exact ⟨0x06, by decide, BitVec.or_assoc _ _ _⟩
    · exact ⟨0x12, by decide, BitVec.or_assoc _ _ _⟩

private theorem byte_facts (c : PlayerColor) : ∀ t ∈ looseTypeBits,
    c.bits ||| t ≠ 0#8 ∧ (cellOf (c.bits ||| t)).map Prod.fst = some c ∧
      colorBits (c.bits ||| t) = c.bits ∧
      ((c.bits ||| t) &&& PlayerColor.white.bits ≠ 0#8 ↔ c = .white) ∧
      ((c.bits ||| t) &&& PlayerColor.black.bits ≠ 0#8 ↔ c = .black) := by
  cases c <;> decide +kernel

theorem looseCodes_ne_zero {i : Slot} {piece : U8} (hpiece : piece ∈ looseCodes i) :
    piece ≠ 0#8 := by
  obtain ⟨t, ht, rfl⟩ := looseCodes_form hpiece
  exact (byte_facts (slotColor i) t ht).1

theorem looseCodes_colorBits {i : Slot} {piece : U8} (hpiece : piece ∈ looseCodes i) :
    colorBits piece = (slotColor i).bits := by
  obtain ⟨t, ht, rfl⟩ := looseCodes_form hpiece
  exact (byte_facts (slotColor i) t ht).2.2.1

theorem looseCodes_and_bits {i : Slot} {piece : U8} (hpiece : piece ∈ looseCodes i)
    (c : PlayerColor) : piece &&& c.bits ≠ 0#8 ↔ slotColor i = c := by
  obtain ⟨t, ht, rfl⟩ := looseCodes_form hpiece
  cases c with
  | white => exact (byte_facts (slotColor i) t ht).2.2.2.1
  | black => exact (byte_facts (slotColor i) t ht).2.2.2.2

theorem looseCodes_kind {i : Slot} {piece : U8} (hpiece : piece ∈ looseCodes i) :
    ∃ k, kindOf piece = some k ∧ cellOf piece = some (slotColor i, k) := by
  obtain ⟨t, ht, rfl⟩ := looseCodes_form hpiece
  have hcell := (byte_facts (slotColor i) t ht).2.1
  cases hk : kindOf ((slotColor i).bits ||| t) with
  | none => simp [cellOf, hk] at hcell
  | some k =>
    refine ⟨k, rfl, ?_⟩
    simp only [cellOf, hk, Option.map_some, Option.some.injEq] at hcell ⊢
    rw [hcell]

@[simp] theorem kindOf_bits (c : PlayerColor) (k : PieceType) :
    kindOf (c.bits ||| k.bits) = some k := by
  cases c <;> cases k <;> decide

theorem startType_of_kindOf_pawn {i : Slot} {piece : U8} (hpiece : piece ∈ looseCodes i)
    (hkind : kindOf piece = some .pawn) : startType i = .pawn := by
  by_contra hstart
  simp only [looseCodes, slotCodes, slotTypes, hstart, if_false, List.map_cons, List.map_nil,
    List.append_nil, List.mem_singleton] at hpiece
  rw [hpiece, kindOf_bits] at hkind
  exact hstart (Option.some.inj hkind)

theorem promote_cases {i : Slot} {piece promo : U8} (hpiece : piece ∈ looseCodes i)
    (hkind : kindOf piece = some .pawn) :
    Board.promote piece promo = piece ∨ Board.promote piece promo ∈ slotCodes i := by
  have hstart := startType_of_kindOf_pawn hpiece hkind
  unfold Board.promote
  rw [looseCodes_colorBits hpiece]
  split_ifs
  · exact Or.inr (by simp [slotCodes, slotTypes, hstart])
  · exact Or.inr (by simp [slotCodes, slotTypes, hstart])
  · exact Or.inl rfl

theorem admissible_slotCodes : Admissible slotCodes where
  loose := fun _ => List.subset_append_left _ _
  promoted := by
    intro i piece hpiece hkind promo
    rcases promote_cases (List.mem_append_left _ hpiece) hkind with h | h
    · rwa [h]
    · exact h

theorem admissible_looseCodes : Admissible looseCodes where
  loose := fun _ => List.Subset.refl _
  promoted := by
    intro i piece hpiece hkind promo
    rcases promote_cases hpiece hkind with h | h
    · rwa [h]
    · exact List.mem_append_left _ h

@[simp] theorem cellOf_zero : cellOf 0#8 = none := by decide

namespace Board

/-- The four arrays hold the same position. -/
structure Agree (b : Board) : Prop where
  board90 : ∀ p, b.board90 (cw90 p) = b.board0 p
  board180 : ∀ p, b.board180 (cw180 p) = b.board0 p
  board270 : ∀ p, b.board270 (acw90 p) = b.board0 p

theorem Agree.sideBoard {b : Board} (h : b.Agree) (s : Side) (q : Square) :
    b.sideBoard s q = b.board0 (s.invCoordMap q) := by
  have hq := Side.coordMap_invCoordMap s q
  cases s with
  | bottom => rfl
  | left => exact (congrArg b.board270 hq).symm.trans (h.board270 _)
  | top => exact (congrArg b.board180 hq).symm.trans (h.board180 _)
  | right => exact (congrArg b.board90 hq).symm.trans (h.board90 _)

def frameFlags (k : PieceType) (p : Square) (piece : U8) : List U8 :=
  if k = .pawn ∧ promotes p piece = true then [pawnRook, pawnBishop] else [0]

theorem frameFlags_subset (k : PieceType) (p : Square) (piece : U8) :
    frameFlags k p piece ⊆ promoFlags := by
  unfold frameFlags
  split <;> decide

theorem frameFlags_ne_nil (k : PieceType) (p : Square) (piece : U8) :
    ∃ pt, pt ∈ frameFlags k p piece := by
  unfold frameFlags
  split <;> exact ⟨_, List.mem_cons_self⟩

private theorem promotes_frame (p : Square) (piece : U8) (h : promotes p piece = true) :
    (side p).coordMap p ≠ 10 := by
  have hall : ∀ p ∈ [51, 43, 11, 3], (side p).coordMap p ≠ 10 := by decide
  apply hall
  simp only [promotes, decide_eq_true_eq] at h
  rcases h with ⟨rfl | rfl, _⟩ | ⟨rfl | rfl, _⟩ <;> decide

/-- The branches of `_get_pseudolegal_moves_for_piece` before the moves are rotated back. -/
private theorem mem_frameMoves {p : Square} {piece : U8} {p0 : Square} {board : Square → U8}
    (hp0 : promotes p piece = true → p0 ≠ 10) {k : PieceType} (hk : kindOf piece = some k)
    {m : U16} :
    m ∈ (if piece &&& PieceType.pawn.bits ≠ 0#8 then
          if promotes p piece then constructBottomPawnMovesWithBoard p0 board true
          else constructBottomPawnMovesWithBoard p0 board
        else if piece &&& PieceType.rook.bits ≠ 0#8 then
          constructBottomRookMovesWithBoard p0 board
        else if piece &&& PieceType.bishop.bits ≠ 0#8 then
          constructBottomBishopMovesWithBoard p0 board
        else if piece &&& PieceType.king.bits ≠ 0#8 then
          constructBottomKingMovesWithBoard p0 board
        else ([] : MoveSet)) ↔
      ∃ q ∈ reachOn board p0 (bottomPattern k p0), ∃ pt ∈ frameFlags k p piece,
        m = movePromo p0 q pt.toNat := by
  have hflag : ∀ k', k' ≠ .pawn → frameFlags k' p piece = [0] := fun k' hk' => by
    simp [frameFlags, hk']
  unfold kindOf at hk
  split_ifs at hk ⊢ <;> obtain rfl := Option.some.inj hk
  · rename_i hpromotes
    rw [mem_constructBottomPawnMoves fun _ => hp0 hpromotes]
    simp [bottomPattern, frameFlags, hpromotes]
  · rename_i hpromotes
    rw [@mem_constructBottomPawnMoves p0 board false (by simp)]
    simp [bottomPattern, frameFlags, hpromotes]
  · rw [mem_constructBottomRookMoves, hflag _ (by decide)]
    simp only [bottomPattern, List.mem_singleton, exists_eq_left, move_eq_movePromo]
  · rw [mem_constructBottomBishopMoves, hflag _ (by decide)]
    simp only [bottomPattern, List.mem_singleton, exists_eq_left, move_eq_movePromo]
  · rw [mem_constructBottomKingMoves, hflag _ (by decide)]
    simp only [bottomPattern, List.mem_singleton, exists_eq_left, move_eq_movePromo]

/-- The rotated arrays and inverse tables give the moves of a piece on the real board. -/
theorem Agree.mem_movesForPiece {b : Board} (h : b.Agree) (ord : VisitOrder) {p : Square}
    {k : PieceType} (hk : kindOf (b.board0 p) = some k) {m : U16} :
    m ∈ b.getPseudolegalMovesForPiece ord p ↔
      ∃ q ∈ (pattern k p).reach (occupied b.board0) (owned b.board0 (colorBits (b.board0 p))),
        ∃ pt ∈ frameFlags k p (b.board0 p), m = movePromo p q pt.toNat := by
  have hframe : b.sideBoard (side p) = b.board0 ∘ (side p).invCoordMap :=
    funext fun q => h.sideBoard (side p) q
  have hreach :
      (pattern k p).reach (occupied b.board0) (owned b.board0 (colorBits (b.board0 p))) =
      (reachOn (b.sideBoard (side p)) ((side p).coordMap p)
        (bottomPattern k ((side p).coordMap p))).map (side p).invCoordMap := by
    unfold pattern reachOn
    rw [Walk.Pattern.reach_map, h.sideBoard, Side.invCoordMap_coordMap, hframe]
    rfl
  simp only [getPseudolegalMovesForPiece, mem_transformMoves,
    mem_frameMoves (promotes_frame p _) hk, hreach, List.mem_map]
  constructor
  · intro h
    rcases h with ⟨m', ⟨q, hq, pt, hpt, rfl⟩, rfl⟩
    have hpt' := frameFlags_subset _ _ _ hpt
    refine ⟨_, ⟨q, hq, rfl⟩, pt, hpt, ?_⟩
    rw [getp0_movePromo _ _ hpt', getp1_movePromo _ _ hpt', getpromo_movePromo _ _ hpt',
      Side.invCoordMap_coordMap]
  · intro h
    rcases h with ⟨_, ⟨q, hq, rfl⟩, pt, hpt, rfl⟩
    have hpt' := frameFlags_subset _ _ _ hpt
    refine ⟨_, ⟨q, hq, pt, hpt, rfl⟩, ?_⟩
    rw [getp0_movePromo _ _ hpt', getp1_movePromo _ _ hpt', getpromo_movePromo _ _ hpt',
      Side.invCoordMap_coordMap]

theorem word_of_mem_movesForPiece {b : Board} {ord : VisitOrder} {p : Square} {m : U16}
    (hm : m ∈ b.getPseudolegalMovesForPiece ord p) :
    ∃ p q : Square, ∃ pt ∈ promoFlags, m = movePromo p q pt.toNat := by
  simp only [getPseudolegalMovesForPiece, mem_transformMoves] at hm
  obtain ⟨m', hm', rfl⟩ := hm
  cases hk : kindOf (b.board0 p) with
  | none =>
    unfold kindOf at hk
    split_ifs at hk hm'
    exact absurd hm' List.not_mem_nil
  | some k =>
    obtain ⟨q, _, pt, hpt, rfl⟩ := (mem_frameMoves (promotes_frame p _) hk).mp hm'
    have hpt' := frameFlags_subset _ _ _ hpt
    rw [getpromo_movePromo _ _ hpt']
    exact ⟨_, _, pt, hpt', rfl⟩

/-- The five copies of the position agree, with bytes from `codes`. -/
structure Wf (codes : Slot → List U8) (b : Board) : Prop where
  board90 : ∀ p, b.board90 (cw90 p) = b.board0 p
  board180 : ∀ p, b.board180 (cw180 p) = b.board0 p
  board270 : ∀ p, b.board270 (acw90 p) = b.board0 p
  distinct : ∀ i j, b.pieces i ≠ DEAD → b.pieces i = b.pieces j → i = j
  playable : ∀ i, b.pieces i ≠ DEAD → Playable (b.pieces i)
  code : ∀ i, b.pieces i ≠ DEAD → b.board0 (b.pieces i) ∈ codes i
  empty : ∀ p, (∀ i, b.pieces i ≠ DEAD → b.pieces i ≠ p) → b.board0 p = 0#8

def position (b : Board) : Position where
  cell := fun p => cellOf (b.board0 p)
  turn := b.playerToPlay

@[simp] theorem position_turn (b : Board) : b.position.turn = b.playerToPlay := rfl

theorem Wf.mono {codes codes' : Slot → List U8} {b : Board} (h : b.Wf codes)
    (hsub : ∀ i, codes i ⊆ codes' i) : b.Wf codes' :=
  { h with code := fun i hi => hsub i (h.code i hi) }

section Refinement

variable {codes : Slot → List U8} {b : Board}

theorem Wf.loose (hcodes : Admissible codes) (h : b.Wf codes) : b.Wf looseCodes :=
  h.mono hcodes.loose

theorem Wf.agree (h : b.Wf codes) : b.Agree := ⟨h.board90, h.board180, h.board270⟩

theorem Wf.byte_cases (h : b.Wf codes) (p : Square) :
    b.board0 p = 0#8 ∨ ∃ i, b.pieces i = p ∧ p ≠ DEAD ∧ b.board0 p ∈ codes i := by
  by_cases hp : ∀ i, b.pieces i ≠ DEAD → b.pieces i ≠ p
  · exact Or.inl (h.empty p hp)
  · push Not at hp
    obtain ⟨i, hi, rfl⟩ := hp
    exact Or.inr ⟨i, rfl, hi, h.code i hi⟩

theorem Wf.occupied_eq (h : b.Wf looseCodes) : occupied b.board0 = b.position.holds := by
  funext q
  rcases h.byte_cases q with h0 | ⟨i, _, _, hcode⟩
  · simp [occupied, Position.holds, position, h0]
  · obtain ⟨k, _, hcell⟩ := looseCodes_kind hcode
    simp [occupied, Position.holds, position, hcell, looseCodes_ne_zero hcode]

theorem Wf.owned_eq (h : b.Wf looseCodes) (c : PlayerColor) :
    owned b.board0 c.bits = b.position.holdsOwn c := by
  funext q
  rcases h.byte_cases q with h0 | ⟨i, _, _, hcode⟩
  · simp [owned, Position.holdsOwn, position, h0]
  · obtain ⟨k, _, hcell⟩ := looseCodes_kind hcode
    simp only [owned, Position.holdsOwn, position, hcell, Option.any_some]
    rw [Bool.eq_iff_iff, bne_iff_ne, looseCodes_and_bits hcode, decide_eq_true_eq]

theorem Wf.cell_slot (h : b.Wf looseCodes) {i : Slot} (hi : b.pieces i ≠ DEAD) :
    ∃ k, kindOf (b.board0 (b.pieces i)) = some k ∧
      b.position.cell (b.pieces i) = some (slotColor i, k) :=
  looseCodes_kind (h.code i hi)

theorem Wf.slot_of_cell (h : b.Wf looseCodes) {p : Square} {c : PlayerColor} {k : PieceType}
    (hp : b.position.cell p = some (c, k)) :
    ∃ i, b.pieces i = p ∧ p ≠ DEAD ∧ slotColor i = c ∧ kindOf (b.board0 p) = some k := by
  rcases h.byte_cases p with h0 | ⟨i, hi, hdead, hcode⟩
  · simp [position, h0] at hp
  · obtain ⟨k', hk, hcell⟩ := looseCodes_kind hcode
    simp only [position, hcell, Option.some.injEq, Prod.mk.injEq] at hp
    exact ⟨i, hi, hdead, hp.1, by rw [hk, hp.2]⟩

theorem mem_sideSlots : ∀ (c : PlayerColor) (i : Slot), i ∈ sideSlots c ↔ slotColor i = c := by
  intro c
  cases c <;> decide

private theorem promotes_eq {i : Slot} {piece : U8} (hpiece : piece ∈ looseCodes i) (p : Square) :
    promotes p piece = true ↔ p ∈ lastArcSquares (slotColor i) := by
  have hwhite := looseCodes_and_bits hpiece .white
  have hblack := looseCodes_and_bits hpiece .black
  simp only [promotes, decide_eq_true_eq, hwhite, hblack]
  cases slotColor i <;> simp [lastArcSquares]

/-- On the bytes of a slot the generators promote where the rules do. -/
private theorem frameFlags_eq {i : Slot} {piece : U8} (hpiece : piece ∈ looseCodes i)
    (k : PieceType) (p : Square) : frameFlags k p piece = moveFlags (slotColor i) k p := by
  simp only [frameFlags, moveFlags, promotes_eq hpiece]

theorem Wf.mem_movesForPiece (h : b.Wf looseCodes) (ord : VisitOrder) {i : Slot}
    (hi : b.pieces i ≠ DEAD) {m : U16} :
    m ∈ b.getPseudolegalMovesForPiece ord (b.pieces i) ↔
      ∃ k, b.position.cell (b.pieces i) = some (slotColor i, k) ∧
        ∃ q ∈ b.position.reach (slotColor i) k (b.pieces i),
          ∃ pt ∈ moveFlags (slotColor i) k (b.pieces i),
            m = movePromo (b.pieces i) q pt.toNat := by
  have hcode := h.code i hi
  obtain ⟨k, hk, hcell⟩ := h.cell_slot hi
  rw [h.agree.mem_movesForPiece ord hk, frameFlags_eq hcode, looseCodes_colorBits hcode,
    h.occupied_eq, h.owned_eq, hcell]
  simp only [Option.some.injEq, Prod.mk.injEq, true_and, exists_eq_left', Position.reach]

end Refinement

private theorem mem_sideFold (ord : VisitOrder) (b : Board) (slots : List Slot) (s : MoveSet)
    (m : U16) :
    m ∈ slots.foldl (fun moves i =>
        if b.pieces i = DEAD then moves
        else (ord.visit (b.getPseudolegalMovesForPiece ord (b.pieces i))).foldl
          (fun moves m => moves.insert m) moves) s ↔
      m ∈ s ∨ ∃ i ∈ slots, b.pieces i ≠ DEAD ∧
        m ∈ b.getPseudolegalMovesForPiece ord (b.pieces i) := by
  induction slots generalizing s with
  | nil => simp
  | cons i slots ih =>
    rw [List.foldl_cons, ih]
    by_cases hi : b.pieces i = DEAD
    · simp [hi]
    · have hinsert := mem_foldl_insert id
        (ord.visit (b.getPseudolegalMovesForPiece ord (b.pieces i))) s m
      simp only [id_eq, exists_eq_right', ord.mem_visit] at hinsert
      simp [hi, hinsert, or_assoc]

theorem mem_getPseudolegalMovesForSide {ord : VisitOrder} {b : Board} {c : PlayerColor}
    {m : U16} : m ∈ b.getPseudolegalMovesForSide ord c ↔
      ∃ i, slotColor i = c ∧ b.pieces i ≠ DEAD ∧
        m ∈ b.getPseudolegalMovesForPiece ord (b.pieces i) := by
  simp only [getPseudolegalMovesForSide, mem_sideFold, List.not_mem_nil, false_or, mem_sideSlots]

section Refinement

variable {b : Board} (ord : VisitOrder)

/-- The generators of a well-formed board give the pseudo-legal moves of its position. -/
theorem Wf.mem_pseudolegal (h : b.Wf looseCodes) {c : PlayerColor} {m : U16} :
    m ∈ b.getPseudolegalMovesForSide ord c ↔ b.position.Pseudo c m := by
  rw [mem_getPseudolegalMovesForSide]
  constructor
  · intro h
    rcases h with ⟨i, rfl, hi, hm⟩
    obtain ⟨k, hcell, q, hq, pt, hpt, rfl⟩ := (h.mem_movesForPiece ord hi).mp hm
    exact .intro hcell hq hpt
  · intro hm
    cases hm with
    | @intro p k q pt hcell hreach hflag =>
      obtain ⟨i, rfl, hdead, rfl, _⟩ := h.slot_of_cell hcell
      exact ⟨i, rfl, hdead,
        (h.mem_movesForPiece ord hdead).mpr ⟨k, hcell, q, hreach, pt, hflag, rfl⟩⟩

end Refinement

end Board

end Rollerball
