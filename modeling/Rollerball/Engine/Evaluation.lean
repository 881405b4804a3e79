import Rollerball.Engine.Minimax
import Mathlib.Algebra.Order.Field.Rat
import Mathlib.Tactic.Linarith
import Mathlib.Tactic.NormNum
import Mathlib.Tactic.Positivity
import Mathlib.Tactic.Ring

/-!
# The evaluator

The engine scores a board by a weighted sum of seven features: three material differences, the two
ratios of material, the distances of the pawns to promotion, and check. Its numbers are read as
exact rationals. The sum stays far inside the range of a double.
-/

namespace Rollerball

def signAlive (b : Board) (piece : Square) (pType : PieceType) : Int :=
  if piece = DEAD then 0
  else if b.board0 piece &&& pType.bits ≠ 0#8 then 1
  else 0

def manhattanToPromotion (b : Board) (piece : Square) (col : PlayerColor) : Int :=
  if piece = DEAD ∨ ¬b.board0 piece &&& PieceType.pawn.bits ≠ 0#8 then 0
  else
    let x : Int := getx piece
    let y : Int := gety piece
    match col with
    | .black => 7 - min (|x - 2| + |y - 0|) (|x - 2| + |y - 1|)
    | .white => 7 - min (|x - 4| + |y - 5|) (|x - 4| + |y - 6|)

def pawnSlots : PlayerColor → List Slot
  | .white => [Slot.wPawnBs, Slot.wPawnWs]
  | .black => [Slot.bPawnBs, Slot.bPawnWs]

def rookSlots : PlayerColor → List Slot
  | .white => [Slot.wRookBs, Slot.wRookWs, Slot.wPawnWs, Slot.wPawnBs]
  | .black => [Slot.bRookBs, Slot.bRookWs, Slot.bPawnWs, Slot.bPawnBs]

def bishopSlots : PlayerColor → List Slot
  | .white => [Slot.wBishop, Slot.wPawnBs, Slot.wPawnWs]
  | .black => [Slot.bBishop, Slot.bPawnBs, Slot.bPawnWs]

theorem pawnSlots_length (col : PlayerColor) : (pawnSlots col).length = 2 := by cases col <;> rfl

theorem rookSlots_length (col : PlayerColor) : (rookSlots col).length = 4 := by cases col <;> rfl

theorem bishopSlots_length (col : PlayerColor) : (bishopSlots col).length = 3 := by
  cases col <;> rfl

def numAlive (b : Board) (slots : List Slot) (pType : PieceType) : Int :=
  (slots.map fun i => signAlive b (b.pieces i) pType).sum

/-- `white_pieces` and `black_pieces`. -/
def pieceValue (b : Board) (col : PlayerColor) : ℚ :=
  1 + numAlive b (pawnSlots col) .pawn + 5 * numAlive b (rookSlots col) .rook +
    3 * numAlive b (bishopSlots col) .bishop

def promotionDistance (b : Board) (col : PlayerColor) : Int :=
  ((pawnSlots col).map fun i => manhattanToPromotion b (b.pieces i) col).sum

/-- The feature of check, where being mated overrides being in check. -/
def checkFeature (ord : VisitOrder) (b : Board) (legalMovesSize : Nat) : ℚ :=
  if b.inCheck ord then
    if legalMovesSize = 0 then
      if b.playerToPlay = .white then -100000 else 100000
    else if b.playerToPlay = .white then 1
    else -1
  else 0

/-- `EvaluationFunc::prepare_features`; what it computes about connected pawns it does not use. -/
def prepareFeatures (ord : VisitOrder) (b : Board) (legalMovesSize : Nat) : List ℚ :=
  let difference (slots : PlayerColor → List Slot) (pType : PieceType) : ℚ :=
    numAlive b (slots .white) pType - numAlive b (slots .black) pType
  [difference pawnSlots .pawn, difference rookSlots .rook, difference bishopSlots .bishop,
    pieceValue b .white / pieceValue b .black, pieceValue b .black / pieceValue b .white,
    promotionDistance b .white - promotionDistance b .black, checkFeature ord b legalMovesSize]

namespace WSum

/-- The weights of the constructor without `randomize`. -/
def weights : List ℚ := [1, 10, 3, 1 / 2, -1 / 2, 1 / 50, 4 / 5]

def evaluate (weights features : List ℚ) : ℚ :=
  if features.length ≠ weights.length then 0
  else (List.zip weights features).foldl (fun weightedSum x => weightedSum + x.1 * x.2) 0

end WSum

section Bounds

variable (b : Board)

theorem signAlive_bounds (piece : Square) (pType : PieceType) :
    0 ≤ signAlive b piece pType ∧ signAlive b piece pType ≤ 1 := by
  unfold signAlive
  split_ifs <;> decide

theorem numAlive_bounds (slots : List Slot) (pType : PieceType) :
    0 ≤ numAlive b slots pType ∧ numAlive b slots pType ≤ slots.length := by
  induction slots with
  | nil => exact ⟨le_rfl, le_rfl⟩
  | cons i slots ih =>
    have hsign := signAlive_bounds b (b.pieces i) pType
    rw [numAlive, List.map_cons, List.sum_cons, List.length_cons]
    rw [numAlive] at ih
    push_cast
    omega

theorem manhattanToPromotion_bounds (piece : Square) (col : PlayerColor) :
    -7 ≤ manhattanToPromotion b piece col ∧ manhattanToPromotion b piece col ≤ 7 := by
  have hx : getx piece ≤ 7 := Nat.and_le_right
  have hy : gety piece ≤ 7 := by
    rw [gety, Nat.shiftRight_eq_div_pow]
    omega
  have hdist : ∀ (n : Nat) (k : Int), n ≤ 7 → 0 ≤ k → k ≤ 7 →
      0 ≤ |(n : Int) - k| ∧ |(n : Int) - k| ≤ 7 := fun n k hn hk hk' =>
    ⟨abs_nonneg _, abs_le.mpr ⟨by omega, by omega⟩⟩
  unfold manhattanToPromotion
  split_ifs
  · decide
  · cases col with
    | white =>
      have h4 := hdist _ 4 hx (by decide) (by decide)
      have h5 := hdist _ 5 hy (by decide) (by decide)
      have h6 := hdist _ 6 hy (by decide) (by decide)
      dsimp only
      omega
    | black =>
      have h2 := hdist _ 2 hx (by decide) (by decide)
      have h0 := hdist _ 0 hy (by decide) (by decide)
      have h1 := hdist _ 1 hy (by decide) (by decide)
      dsimp only
      omega

theorem promotionDistance_bounds (col : PlayerColor) :
    -14 ≤ promotionDistance b col ∧ promotionDistance b col ≤ 14 := by
  have hbounds := manhattanToPromotion_bounds b
  cases col with
  | white =>
    have h1 := hbounds (b.pieces Slot.wPawnBs) .white
    have h2 := hbounds (b.pieces Slot.wPawnWs) .white
    simp only [promotionDistance, pawnSlots, List.map_cons, List.map_nil, List.sum_cons,
      List.sum_nil]
    omega
  | black =>
    have h1 := hbounds (b.pieces Slot.bPawnBs) .black
    have h2 := hbounds (b.pieces Slot.bPawnWs) .black
    simp only [promotionDistance, pawnSlots, List.map_cons, List.map_nil, List.sum_cons,
      List.sum_nil]
    omega

theorem pieceValue_bounds (col : PlayerColor) :
    1 ≤ pieceValue b col ∧ pieceValue b col ≤ 32 := by
  have hpawns := numAlive_bounds b (pawnSlots col) .pawn
  have hrooks := numAlive_bounds b (rookSlots col) .rook
  have hbishops := numAlive_bounds b (bishopSlots col) .bishop
  rw [pawnSlots_length] at hpawns
  rw [rookSlots_length] at hrooks
  rw [bishopSlots_length] at hbishops
  have hvalue : pieceValue b col = ((1 + numAlive b (pawnSlots col) .pawn +
      5 * numAlive b (rookSlots col) .rook +
        3 * numAlive b (bishopSlots col) .bishop : Int) : ℚ) := by
    rw [pieceValue]
    push_cast
    rfl
  rw [hvalue]
  constructor
  · exact_mod_cast (by omega : (1 : Int) ≤ _)
  · exact_mod_cast (by omega : _ ≤ (32 : Int))

theorem ratio_bounds (col col' : PlayerColor) :
    0 ≤ pieceValue b col / pieceValue b col' ∧ pieceValue b col / pieceValue b col' ≤ 32 := by
  have h := pieceValue_bounds b col
  have h' := pieceValue_bounds b col'
  have hpos : 0 < pieceValue b col' := by linarith
  constructor
  · exact div_nonneg (by linarith) hpos.le
  · rw [div_le_iff₀ hpos]
    linarith

theorem checkFeature_bounds (ord : VisitOrder) (n : Nat) :
    -100000 ≤ checkFeature ord b n ∧ checkFeature ord b n ≤ 100000 := by
  unfold checkFeature
  split_ifs <;> norm_num

end Bounds

/-- `DBL_MAX` -/
def dblMax : ℚ := (2 ^ 53 - 1) * 2 ^ 971

/-- An evaluator whose scores stay strictly between the bounds of the search. -/
structure Evaluator {V : Type} [LinearOrder V] (env : Platform V) where
  eval : Board × Nat → V
  bounded : Bounded env eval

namespace WSum

def eval (ord : VisitOrder) (q : Board × Nat) : ℚ :=
  evaluate weights (prepareFeatures ord q.1 q.2)

theorem difference_bounds (b : Board) {slots : PlayerColor → List Slot} {n : Nat}
    (hlength : ∀ col, (slots col).length = n) (pType : PieceType) :
    -(n : ℚ) ≤ numAlive b (slots .white) pType - numAlive b (slots .black) pType ∧
      (numAlive b (slots .white) pType - numAlive b (slots .black) pType : ℚ) ≤ n := by
  have hwhite := numAlive_bounds b (slots .white) pType
  have hblack := numAlive_bounds b (slots .black) pType
  rw [hlength] at hwhite hblack
  constructor
  · exact_mod_cast (by omega : -(n : Int) ≤ _ - _)
  · exact_mod_cast (by omega : _ - _ ≤ (n : Int))

theorem eval_eq (ord : VisitOrder) (b : Board) (n : Nat) :
    eval ord (b, n) =
      (numAlive b (pawnSlots .white) .pawn - numAlive b (pawnSlots .black) .pawn) +
      10 * (numAlive b (rookSlots .white) .rook - numAlive b (rookSlots .black) .rook) +
      3 * (numAlive b (bishopSlots .white) .bishop - numAlive b (bishopSlots .black) .bishop) +
      1 / 2 * (pieceValue b .white / pieceValue b .black) -
      1 / 2 * (pieceValue b .black / pieceValue b .white) +
      1 / 50 * (promotionDistance b .white - promotionDistance b .black) +
      4 / 5 * checkFeature ord b n := by
  simp only [eval, evaluate, weights, prepareFeatures, List.length_cons, List.length_nil, ne_eq,
    not_true_eq_false, if_false, List.zip_cons_cons, List.zip_nil_left, List.foldl_cons,
    List.foldl_nil]
  ring

theorem eval_near_check (ord : VisitOrder) (b : Board) (n : Nat) :
    4 / 5 * checkFeature ord b n - 68 ≤ eval ord (b, n) ∧
      eval ord (b, n) ≤ 4 / 5 * checkFeature ord b n + 68 := by
  have hpawns := difference_bounds b pawnSlots_length .pawn
  have hrooks := difference_bounds b rookSlots_length .rook
  have hbishops := difference_bounds b bishopSlots_length .bishop
  have hratio := ratio_bounds b .white .black
  have hratio' := ratio_bounds b .black .white
  have hpromotion : (-28 : ℚ) ≤ promotionDistance b .white - promotionDistance b .black ∧
      (promotionDistance b .white - promotionDistance b .black : ℚ) ≤ 28 := by
    have hwhite := promotionDistance_bounds b .white
    have hblack := promotionDistance_bounds b .black
    constructor
    · exact_mod_cast (by omega : (-28 : Int) ≤ _ - _)
    · exact_mod_cast (by omega : _ - _ ≤ (28 : Int))
  rw [eval_eq]
  norm_num at hpawns hrooks hbishops
  constructor <;> linarith

theorem eval_bounds (ord : VisitOrder) (q : Board × Nat) :
    -100000 < eval ord q ∧ eval ord q < 100000 := by
  obtain ⟨b, n⟩ := q
  have hnear := eval_near_check ord b n
  have hcheck := checkFeature_bounds b ord n
  constructor <;> linarith

theorem bounded {env : Platform ℚ} (hlowest : env.lowest = -dblMax)
    (hhighest : env.highest = dblMax) : Bounded env (eval env.order) := by
  have hmax : (100000 : ℚ) < dblMax := by
    have hexp : (1 : ℚ) ≤ 2 ^ 971 := one_le_pow₀ (by norm_num)
    rw [dblMax]
    generalize (2 : ℚ) ^ 971 = scale at hexp ⊢
    linarith
  intro q
  have hq := eval_bounds env.order q
  rw [hlowest, hhighest]
  constructor <;> linarith

def platform : Platform ℚ := Platform.sorted (-dblMax) dblMax

def evaluator : Evaluator platform := ⟨eval platform.order, bounded rfl rfl⟩

end WSum

end Rollerball
