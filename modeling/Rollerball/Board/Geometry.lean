import Mathlib.Data.BitVec
import Mathlib.Data.Fin.Basic
import Mathlib.Data.Fintype.Basic
import Mathlib.Data.Vector.Basic
import Mathlib.Tactic.FinCases

/-!
# Squares, piece codes, moves and rotations

The board is an 8×8 array of bytes of which forty squares are played on. Pieces are bytes with
one colour bit and type bits; a move is a sixteen-bit word holding two squares and a promotion
flag. The same position is kept in four rotated arrays, related by three tables.
-/

namespace Rollerball

abbrev U8 := BitVec 8
abbrev U16 := BitVec 16

/-- An index into one of the 64-byte board arrays. -/
abbrev Square := Fin 64

instance neZeroSquares : NeZero 64 := ⟨by decide⟩

instance lawfulSquares : LawfulBEq Square := inferInstance

/-- A property of the members of a list is decided along the list, not over the whole type. -/
instance (priority := 2000) decidableOnList {α : Type} (l : List α) (P : α → Prop)
    [DecidablePred P] : Decidable (∀ x, x ∈ l → P x) := List.decidableBAll P l

instance (priority := 2000) decidableInList {α : Type} (l : List α) (P : α → Prop)
    [DecidablePred P] : Decidable (∃ x, x ∈ l ∧ P x) := List.decidableBEx P l

/-- The macro `pos(x,y)`. -/
def pos (x y : Nat) : Nat := (y <<< 3) ||| x

def square (x y : Nat) : Square := Fin.ofNat 64 (pos x y)

def gety (p : Square) : Nat := p.val >>> 3

def getx (p : Square) : Nat := p.val &&& 0x7

/-- The value a piece slot takes when its piece is captured, `pos(7,7)`. -/
def DEAD : Square := 63

inductive PlayerColor
  | white
  | black
  deriving DecidableEq, Repr

namespace PlayerColor

def bits : PlayerColor → U8
  | white => 0x40
  | black => 0x20

/-- The effect of `^ (WHITE | BLACK)`. -/
def other : PlayerColor → PlayerColor
  | white => black
  | black => white

@[simp] theorem other_other (c : PlayerColor) : c.other.other = c := by cases c <;> rfl

@[simp] theorem ne_other (c : PlayerColor) : c ≠ c.other := by cases c <;> decide

theorem eq_or_eq_other (c d : PlayerColor) : d = c ∨ d = c.other := by
  cases c <;> cases d <;> simp [other]

end PlayerColor

inductive PieceType
  | pawn
  | rook
  | king
  | bishop
  deriving DecidableEq, Repr

def PieceType.bits : PieceType → U8
  | pawn => 0x02
  | rook => 0x04
  | king => 0x08
  | bishop => 0x10

/-- Promotion flags of a move word. -/
def pawnBishop : U8 := 0x40
def pawnRook : U8 := 0x80

/-- The macro `color(p)`: the colour bits of a piece byte. -/
def colorBits (piece : U8) : U8 := piece &&& (PlayerColor.white.bits ||| PlayerColor.black.bits)

/-- The macro `move_promo(p0, p1, pt)`, truncated to the sixteen bits of a `U16`. -/
def movePromo (p0 p1 pt : Nat) : U16 := BitVec.ofNat 16 ((p0 <<< 8) ||| p1 ||| pt)

/-- The macro `move(p0, p1)`. -/
def move (p0 p1 : Nat) : U16 := BitVec.ofNat 16 ((p0 <<< 8) ||| p1)

def getp0 (m : U16) : Square :=
  ⟨(m.toNat >>> 8) &&& 0x3f, Nat.lt_of_le_of_lt Nat.and_le_right (by decide)⟩

def getp1 (m : U16) : Square :=
  ⟨m.toNat &&& 0x3f, Nat.lt_of_le_of_lt Nat.and_le_right (by decide)⟩

def getpromo (m : U16) : U8 := BitVec.ofNat 8 m.toNat &&& (pawnBishop ||| pawnRook)

/-- The promotion flags a generated move can carry; `0` is no promotion. -/
def promoFlags : List U8 := [0, pawnBishop, pawnRook]

theorem move_eq_movePromo (p0 p1 : Nat) : move p0 p1 = movePromo p0 p1 (0 : U8).toNat := by
  simp [move, movePromo]

private theorem movePromo_toNat (p0 p1 : Square) {pt : U8} (hpt : pt ∈ promoFlags) :
    (movePromo p0 p1 pt.toNat).toNat = p0.val * 256 + (pt.toNat + p1.val) := by
  have hlow : p1.val ||| pt.toNat = pt.toNat + p1.val := by
    have hp1 : p1.val < 2 ^ 6 := p1.isLt
    rw [Nat.or_comm]
    simp only [promoFlags, List.mem_cons, List.not_mem_nil, or_false] at hpt
    rcases hpt with rfl | rfl | rfl
    · simp
    · exact (Nat.two_pow_add_eq_or_of_lt hp1 1).symm
    · exact (Nat.two_pow_add_eq_or_of_lt hp1 2).symm
  have hpt' : pt.toNat ≤ 128 := by
    simp only [promoFlags, List.mem_cons, List.not_mem_nil, or_false] at hpt
    rcases hpt with rfl | rfl | rfl <;> decide
  have hp0 := p0.isLt
  have hp1 := p1.isLt
  have hword : (p0.val <<< 8) ||| p1.val ||| pt.toNat = p0.val * 256 + (pt.toNat + p1.val) := by
    rw [Nat.or_assoc, hlow, Nat.shiftLeft_eq, Nat.mul_comm p0.val]
    exact (Nat.two_pow_add_eq_or_of_lt (by omega : pt.toNat + p1.val < 2 ^ 8) p0.val).symm
  rw [movePromo, BitVec.toNat_ofNat, hword]
  omega

@[simp] theorem getp0_movePromo (p0 p1 : Square) {pt : U8} (hpt : pt ∈ promoFlags) :
    getp0 (movePromo p0 p1 pt.toNat) = p0 := by
  have hw := movePromo_toNat p0 p1 hpt
  have hpt' : pt.toNat ≤ 128 := by
    simp only [promoFlags, List.mem_cons, List.not_mem_nil, or_false] at hpt
    rcases hpt with rfl | rfl | rfl <;> decide
  apply Fin.ext
  have hmask : ∀ n, n &&& 0x3f = n % 64 := fun n => Nat.and_two_pow_sub_one_eq_mod n 6
  simp only [getp0, hw, hmask, Nat.shiftRight_eq_div_pow]
  omega

@[simp] theorem getp1_movePromo (p0 p1 : Square) {pt : U8} (hpt : pt ∈ promoFlags) :
    getp1 (movePromo p0 p1 pt.toNat) = p1 := by
  have hw := movePromo_toNat p0 p1 hpt
  apply Fin.ext
  have hmask : ∀ n, n &&& 0x3f = n % 64 := fun n => Nat.and_two_pow_sub_one_eq_mod n 6
  simp only [getp1, hw, hmask]
  simp only [promoFlags, List.mem_cons, List.not_mem_nil, or_false] at hpt
  rcases hpt with rfl | rfl | rfl <;> simp [pawnBishop, pawnRook] <;> omega

private theorem promo_mask : ∀ pt ∈ promoFlags, ∀ p1 : Square,
    BitVec.ofNat 8 (pt.toNat + p1.val) &&& (pawnBishop ||| pawnRook) = pt := by decide

@[simp] theorem getpromo_movePromo (p0 p1 : Square) {pt : U8} (hpt : pt ∈ promoFlags) :
    getpromo (movePromo p0 p1 pt.toNat) = pt := by
  have hw := movePromo_toNat p0 p1 hpt
  have hbyte : BitVec.ofNat 8 (p0.val * 256 + (pt.toNat + p1.val)) =
      BitVec.ofNat 8 (pt.toNat + p1.val) := by
    apply BitVec.eq_of_toNat_eq
    simp only [BitVec.toNat_ofNat]
    omega
  rw [getpromo, hw, hbyte, promo_mask pt hpt p1]

def cw90Table : Vector Square 64 := #v[
  48, 40, 32, 24, 16, 8,  0,  7,
  49, 41, 33, 25, 17, 9,  1,  15,
  50, 42, 18, 19, 20, 10, 2,  23,
  51, 43, 26, 27, 28, 11, 3,  31,
  52, 44, 34, 35, 36, 12, 4,  39,
  53, 45, 37, 29, 21, 13, 5,  47,
  54, 46, 38, 30, 22, 14, 6,  55,
  56, 57, 58, 59, 60, 61, 62, 63]

def acw90Table : Vector Square 64 := #v[
   6, 14, 22, 30, 38, 46, 54, 7,
   5, 13, 21, 29, 37, 45, 53, 15,
   4, 12, 18, 19, 20, 44, 52, 23,
   3, 11, 26, 27, 28, 43, 51, 31,
   2, 10, 34, 35, 36, 42, 50, 39,
   1,  9, 17, 25, 33, 41, 49, 47,
   0,  8, 16, 24, 32, 40, 48, 55,
  56, 57, 58, 59, 60, 61, 62, 63]

def cw180Table : Vector Square 64 := #v[
  54, 53, 52, 51, 50, 49, 48, 7,
  46, 45, 44, 43, 42, 41, 40, 15,
  38, 37, 18, 19, 20, 33, 32, 23,
  30, 29, 26, 27, 28, 25, 24, 31,
  22, 21, 34, 35, 36, 17, 16, 39,
  14, 13, 12, 11, 10,  9,  8, 47,
   6,  5,  4,  3,  2,  1,  0, 55,
  56, 57, 58, 59, 60, 61, 62, 63]

def cw90 (p : Square) : Square := cw90Table[p]

def acw90 (p : Square) : Square := acw90Table[p]

def cw180 (p : Square) : Square := cw180Table[p]

@[simp] theorem cw90_acw90 : ∀ p, cw90 (acw90 p) = p := by decide

@[simp] theorem acw90_cw90 : ∀ p, acw90 (cw90 p) = p := by decide

@[simp] theorem cw180_cw180 : ∀ p, cw180 (cw180 p) = p := by decide

theorem cw90_injective : Function.Injective cw90 := Function.LeftInverse.injective acw90_cw90

theorem acw90_injective : Function.Injective acw90 := Function.LeftInverse.injective cw90_acw90

theorem cw180_injective : Function.Injective cw180 := Function.LeftInverse.injective cw180_cw180

/-- The forty squares of the ring: the 7×7 board without its 3×3 centre. -/
def Playable (p : Square) : Prop :=
  getx p ≤ 6 ∧ gety p ≤ 6 ∧ ¬(2 ≤ getx p ∧ getx p ≤ 4 ∧ 2 ≤ gety p ∧ gety p ≤ 4)

instance : DecidablePred Playable := fun p => by unfold Playable; infer_instance

theorem not_playable_dead : ¬Playable DEAD := by decide

theorem Playable.ne_dead {p : Square} (hp : Playable p) : p ≠ DEAD := by
  rintro rfl
  exact not_playable_dead hp

theorem playable_cw180 : ∀ p, Playable (cw180 p) ↔ Playable p := by decide

/-- The side of the ring a square belongs to, each side running up to but not into the corner
that starts the next one. -/
inductive Side
  | bottom
  | left
  | top
  | right
  deriving DecidableEq, Repr

def leftSquares : List Square := [0, 8, 16, 24, 32, 40, 9, 17, 25, 33]

def topSquares : List Square := [48, 49, 50, 51, 52, 53, 41, 42, 43, 44]

def rightSquares : List Square := [54, 46, 38, 30, 22, 14, 45, 37, 29, 21]

/-- The side whose rotated array `_get_pseudolegal_moves_for_piece` reads. The source's set
`bottom` is never consulted: every other square uses the unrotated array. -/
def side (p : Square) : Side :=
  if p ∈ leftSquares then .left
  else if p ∈ topSquares then .top
  else if p ∈ rightSquares then .right
  else .bottom

/-- `coord_map`: board coordinates to the frame in which the side is the bottom one. -/
def Side.coordMap : Side → Square → Square
  | bottom => id
  | left => acw90
  | top => cw180
  | right => cw90

/-- `inv_coord_map`: frame coordinates back to board coordinates. -/
def Side.invCoordMap : Side → Square → Square
  | bottom => id
  | left => cw90
  | top => cw180
  | right => acw90

@[simp] theorem Side.invCoordMap_coordMap (s : Side) (p : Square) :
    s.invCoordMap (s.coordMap p) = p := by
  cases s <;> simp [invCoordMap, coordMap]

@[simp] theorem Side.coordMap_invCoordMap (s : Side) (p : Square) :
    s.coordMap (s.invCoordMap p) = p := by
  cases s <;> simp [invCoordMap, coordMap]

/-- The squares of the bottom side, which every side becomes in its own frame. -/
def bottomSquares : List Square := [1, 2, 3, 4, 5, 6, 10, 11, 12, 13]

theorem coordMap_mem_bottomSquares :
    ∀ p, Playable p → (side p).coordMap p ∈ bottomSquares := by decide

theorem playable_invCoordMap (s : Side) : ∀ p, Playable p → Playable (s.invCoordMap p) := by
  cases s <;> decide

end Rollerball
