import Rollerball.Engine.Evaluation
import Rollerball.Lib.Traced

/-!
# What the features read

The helpers of `prepare_features` again, with every index they use into `board_0`. The measure of
connected pawns writes one of its two positions twice and never the other, so that it reads at an
index left over in its storage.
-/

namespace Rollerball

/-- Bytes the program has not written: the local `pos2` of the two calls of `is_pawns_connected`,
and what lies behind `board_0`. -/
structure Storage where
  pos2 : PlayerColor → U8
  beyond : Nat → U8

/-- `board_0[p]` -/
def fetch (b : Board) (s : Storage) (p : Nat) : Traced Nat U8 :=
  .read (fun p => if h : p < 64 then b.board0 ⟨p, h⟩ else s.beyond p) p

namespace Reads

variable (b : Board) (s : Storage)

def signAlive (piece : Square) (pType : PieceType) : Traced Nat Int :=
  if piece = DEAD then return 0
  else do
    let code ← fetch b s piece
    return if code &&& pType.bits ≠ 0#8 then 1 else 0

/-- `piece == DEAD || !(board_0[piece] & PAWN)` -/
def isNoPawn (piece : Nat) : Traced Nat Bool :=
  if piece = DEAD then return true
  else do
    let code ← fetch b s piece
    return !(code &&& PieceType.pawn.bits ≠ 0#8)

def manhattanToPromotion (piece : Square) (col : PlayerColor) : Traced Nat Int := do
  if ← isNoPawn b s piece then return 0
  let x : Int := getx piece
  let y : Int := gety piece
  match col with
  | .black => return 7 - min (|x - 2| + |y - 0|) (|x - 2| + |y - 1|)
  | .white => return 7 - min (|x - 4| + |y - 5|) (|x - 4| + |y - 6|)

def firstPawn : PlayerColor → Slot
  | .white => Slot.wPawnWs
  | .black => Slot.bPawnWs

def isPawnsConnected (col : PlayerColor) : Traced Nat Int := do
  -- both assignments write `pos1`, and `pos2` keeps what the storage holds
  let pos1 : Nat := b.pieces (firstPawn col)
  let pos2 : Nat := (s.pos2 col).toNat
  if ← isNoPawn b s pos1 then return 0
  if ← isNoPawn b s pos2 then return 0
  let x1 : Int := (pos1 &&& 0x7 : Nat)
  let x2 : Int := (pos2 &&& 0x7 : Nat)
  let y1 : Int := (pos1 >>> 3 : Nat)
  let y2 : Int := (pos2 >>> 3 : Nat)
  return 10 - (|x1 - x2| + |y1 + y2|)

def numAlive (slots : List Slot) (pType : PieceType) : Traced Nat Int :=
  .total (fun i => signAlive b s (b.pieces i) pType) slots

def promotionDistance (col : PlayerColor) : Traced Nat Int :=
  .total (fun i => manhattanToPromotion b s (b.pieces i) col) (pawnSlots col)

def prepareFeatures (ord : VisitOrder) (legalMovesSize : Nat) : Traced Nat (List ℚ) := do
  let numBPawns ← numAlive b s (pawnSlots .black) .pawn
  let numWPawns ← numAlive b s (pawnSlots .white) .pawn
  let numBRooks ← numAlive b s (rookSlots .black) .rook
  let numWRooks ← numAlive b s (rookSlots .white) .rook
  let numBBishops ← numAlive b s (bishopSlots .black) .bishop
  let numWBishops ← numAlive b s (bishopSlots .white) .bishop
  let whitePieces : ℚ := 1 + numWPawns + 5 * numWRooks + 3 * numWBishops
  let blackPieces : ℚ := 1 + numBPawns + 5 * numBRooks + 3 * numBBishops
  let whiteDistance ← promotionDistance b s .white
  let blackDistance ← promotionDistance b s .black
  let _ ← isPawnsConnected b s .white
  let _ ← isPawnsConnected b s .black
  return [(numWPawns : ℚ) - numBPawns, (numWRooks : ℚ) - numBRooks,
    (numWBishops : ℚ) - numBBishops, whitePieces / blackPieces, blackPieces / whitePieces,
    (whiteDistance : ℚ) - blackDistance, checkFeature ord b legalMovesSize]

end Reads

def LivePawn (b : Board) (i : Slot) : Prop :=
  b.pieces i ≠ DEAD ∧ b.board0 (b.pieces i) &&& PieceType.pawn.bits ≠ 0#8

instance decidableLivePawn (b : Board) : DecidablePred (LivePawn b) := fun i => by
  unfold LivePawn
  infer_instance

/-- Ten minus the Manhattan distance of two live pawns. -/
def connection (b : Board) (col : PlayerColor) : Int :=
  if ∀ i ∈ pawnSlots col, LivePawn b i then
    match (pawnSlots col).map b.pieces with
    | [p, q] => 10 - (|(getx p : Int) - getx q| + |(gety p : Int) - gety q|)
    | _ => 0
  else 0

def IsPosition (b : Board) (p : Nat) : Prop := p < 64 ∧ ∃ i, p = b.pieces i

namespace Reads

variable (b : Board) (s : Storage)

theorem fetch_value (p : Square) : (fetch b s p).value = b.board0 p := dif_pos p.isLt

theorem fetch_within (P : Nat → Prop) (p : Nat) : (fetch b s p).Within P ↔ P p :=
  Traced.within_read _ _

theorem signAlive_value (p : Square) (pType : PieceType) :
    (signAlive b s p pType).value = Rollerball.signAlive b p pType := by
  unfold signAlive Rollerball.signAlive
  split_ifs with hdead
  · rfl
  all_goals simp [fetch_value, *]

theorem isNoPawn_value (p : Square) :
    (isNoPawn b s p).value = decide (p = DEAD ∨ ¬b.board0 p &&& PieceType.pawn.bits ≠ 0#8) := by
  unfold isNoPawn
  split_ifs with hdead
  · simp [Fin.ext hdead]
  · have hne : p ≠ DEAD := fun h => hdead (congrArg Fin.val h)
    simp [fetch_value, hne]

theorem isNoPawn_piece (i : Slot) : (isNoPawn b s (b.pieces i)).value = !decide (LivePawn b i) := by
  rw [isNoPawn_value, ← decide_not, decide_eq_decide, LivePawn, not_and_or, not_not, ne_eq, not_not]

theorem manhattanToPromotion_value (p : Square) (col : PlayerColor) :
    (manhattanToPromotion b s p col).value = Rollerball.manhattanToPromotion b p col := by
  unfold manhattanToPromotion Rollerball.manhattanToPromotion
  rw [Traced.value_bind, isNoPawn_value, Traced.value_ite]
  simp only [decide_eq_true_eq]
  split_ifs with hnone
  · rfl
  · cases col <;> rfl

theorem prepareFeatures_value (ord : VisitOrder) (n : Nat) :
    (prepareFeatures b s ord n).value = Rollerball.prepareFeatures ord b n := by
  have hnum : ∀ slots pType,
      (numAlive b s slots pType).value = Rollerball.numAlive b slots pType := fun slots pType => by
    rw [numAlive, Traced.value_total]
    exact congrArg List.sum (List.map_congr_left fun i _ => signAlive_value b s _ _)
  have hdistance : ∀ col,
      (promotionDistance b s col).value = Rollerball.promotionDistance b col := fun col => by
    rw [promotionDistance, Traced.value_total]
    exact congrArg List.sum (List.map_congr_left fun i _ => manhattanToPromotion_value b s _ _)
  simp only [prepareFeatures, Traced.value_bind, Traced.value_pure, hnum, hdistance]
  rfl

theorem isNoPawn_within (P : Nat → Prop) {p : Nat} (h : p ≠ DEAD → P p) :
    (isNoPawn b s p).Within P := by
  unfold isNoPawn
  split_ifs with hdead
  · exact Traced.within_pure _
  · rw [Traced.within_bind, fetch_within]
    exact ⟨h hdead, Traced.within_pure _⟩

theorem position (i : Slot) : IsPosition b (b.pieces i) := ⟨(b.pieces i).isLt, i, rfl⟩

theorem signAlive_within (i : Slot) (pType : PieceType) :
    (signAlive b s (b.pieces i) pType).Within (IsPosition b) := by
  unfold signAlive
  split_ifs
  · exact Traced.within_pure _
  · rw [Traced.within_bind, fetch_within]
    exact ⟨position b i, Traced.within_pure _⟩

theorem manhattanToPromotion_within (i : Slot) (col : PlayerColor) :
    (manhattanToPromotion b s (b.pieces i) col).Within (IsPosition b) := by
  unfold manhattanToPromotion
  rw [Traced.within_bind]
  refine ⟨isNoPawn_within b s _ fun _ => position b i, ?_⟩
  split_ifs
  · exact Traced.within_pure _
  · cases col <;> exact Traced.within_pure _

theorem prepareFeatures_within (ord : VisitOrder) (n : Nat) :
    (prepareFeatures b s ord n).Within (IsPosition b) ↔
      ∀ col, (isPawnsConnected b s col).Within (IsPosition b) := by
  have hnum : ∀ slots pType, (numAlive b s slots pType).Within (IsPosition b) :=
    fun slots pType => Traced.within_total _ fun i _ => signAlive_within b s i pType
  have hdistance : ∀ col, (promotionDistance b s col).Within (IsPosition b) :=
    fun col => Traced.within_total _ fun i _ => manhattanToPromotion_within b s i col
  simp only [prepareFeatures, Traced.within_bind, Traced.within_pure, hnum, hdistance, true_and,
    and_true]
  constructor
  · intro h col
    cases col with
    | white => exact h.1
    | black => exact h.2
  · exact fun h => ⟨h .white, h .black⟩

variable {b}

/-- Without a live pawn in the slot read first the other position is not looked at. -/
theorem isPawnsConnected_of_not_live {col : PlayerColor} (h : ¬LivePawn b (firstPawn col)) :
    (isPawnsConnected b s col).value = 0 ∧ (isPawnsConnected b s col).Within (IsPosition b) := by
  have hnone : (isNoPawn b s (b.pieces (firstPawn col))).value = true := by
    rw [isNoPawn_piece, decide_eq_false h]
    rfl
  rw [isPawnsConnected, Traced.value_bind, Traced.within_bind, hnone]
  exact ⟨rfl, isNoPawn_within b s _ fun _ => position b _, Traced.within_pure _⟩

/-- With one, an index behind the array is used as soon as the storage holds it. -/
theorem isPawnsConnected_of_live {col : PlayerColor} (h : LivePawn b (firstPawn col))
    (hpos2 : s.pos2 col = 255) : 255 ∈ (isPawnsConnected b s col).indices := by
  have hpawn : (isNoPawn b s (b.pieces (firstPawn col))).value = false := by
    rw [isNoPawn_piece, decide_eq_true h]
    rfl
  rw [isPawnsConnected, Traced.indices_bind, hpawn, hpos2, if_neg (by decide), Traced.indices_bind]
  refine List.mem_append_right _ (List.mem_append_left _ ?_)
  exact List.mem_append_left _ List.mem_cons_self

end Reads

theorem connection_of_not_live {b : Board} {col : PlayerColor}
    (h : ¬LivePawn b (Reads.firstPawn col)) : connection b col = 0 := by
  have hmem : Reads.firstPawn col ∈ pawnSlots col := by cases col <;> decide
  exact if_neg fun hall => h (hall _ hmem)

/-- The features read at positions of slots only, and the measure of connected pawns is the one
of the two pawns, whatever the storage holds, exactly if neither slot read first is a live pawn. -/
theorem features_defined_iff (ord : VisitOrder) (b : Board) (n : Nat) :
    (∀ s : Storage, (∀ p ∈ (Reads.prepareFeatures b s ord n).indices, IsPosition b p) ∧
        ∀ col, (Reads.isPawnsConnected b s col).value = connection b col) ↔
      ¬LivePawn b Slot.wPawnWs ∧ ¬LivePawn b Slot.bPawnWs := by
  constructor
  · intro h
    have hdead : ∀ col, ¬LivePawn b (Reads.firstPawn col) := by
      intro col hlive
      have hwithin := (Reads.prepareFeatures_within b ⟨fun _ => 255, fun _ => 0⟩ ord n).mp (h _).1
      have hread := Reads.isPawnsConnected_of_live ⟨fun _ => 255, fun _ => 0⟩ hlive rfl
      exact absurd (hwithin col _ hread).1 (by decide)
    exact ⟨hdead .white, hdead .black⟩
  · rintro ⟨hwhite, hblack⟩ s
    have hdead : ∀ col, ¬LivePawn b (Reads.firstPawn col) := by
      intro col
      cases col with
      | white => exact hwhite
      | black => exact hblack
    constructor
    · exact (Reads.prepareFeatures_within b s ord n).mpr fun col =>
        (Reads.isPawnsConnected_of_not_live s (hdead col)).2
    · intro col
      rw [(Reads.isPawnsConnected_of_not_live s (hdead col)).1, connection_of_not_live (hdead col)]

/-- On the start board a stray byte of the storage is used as an index. -/
theorem start_features_stray :
    ¬∀ b : Board, b.Reachable VisitOrder.insertion → ∀ (n : Nat) (s : Storage),
      (∀ p ∈ (Reads.prepareFeatures b s VisitOrder.insertion n).indices, IsPosition b p) ∧
        ∀ col, (Reads.isPawnsConnected b s col).value = connection b col := by
  intro hclaim
  let s : Storage := ⟨fun _ => 255, fun _ => 0⟩
  have hwithin := (Reads.prepareFeatures_within _ s _ 0).mp (hclaim Board.new .refl 0 s).1
  have hread : 255 ∈ (Reads.isPawnsConnected Board.new s .white).indices :=
    Reads.isPawnsConnected_of_live s (by decide) rfl
  exact absurd (hwithin .white _ hread).1 (by decide)

end Rollerball
