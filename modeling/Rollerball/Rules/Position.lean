import Rollerball.Board.State

/-!
# The rules of the game

The abstract game has one array of coloured pieces and a side to move. A piece leaves a square
along the pattern of its kind, rotated to the side of the ring the square belongs to; a move is
legal when it does not leave the mover's king attacked. Nothing here mentions piece slots,
rotated arrays or undo.
-/

namespace Rollerball

open Walk (Pattern)

/-- The pattern of a kind of piece from a square of the real board. -/
def pattern (k : PieceType) (p : Square) : Pattern Square :=
  (bottomPattern k ((side p).coordMap p)).map (side p).invCoordMap

/-- The last two squares of a colour's pawn arc, from which a pawn moves only by promoting. -/
def lastArcSquares : PlayerColor → List Square
  | .white => [51, 43]
  | .black => [11, 3]

def moveFlags (c : PlayerColor) (k : PieceType) (p : Square) : List U8 :=
  if k = .pawn ∧ p ∈ lastArcSquares c then [pawnRook, pawnBishop] else [0]

theorem moveFlags_subset (c : PlayerColor) (k : PieceType) (p : Square) :
    moveFlags c k p ⊆ promoFlags := by
  unfold moveFlags
  split <;> decide

theorem moveFlags_ne_nil (c : PlayerColor) (k : PieceType) (p : Square) :
    ∃ pt, pt ∈ moveFlags c k p := by
  unfold moveFlags
  split <;> exact ⟨_, List.mem_cons_self⟩

theorem moveFlags_cases {c : PlayerColor} {k : PieceType} {p : Square} {pt : U8}
    (h : pt ∈ moveFlags c k p) :
    ((k = .pawn ∧ p ∈ lastArcSquares c) ∧ pt ∈ [pawnRook, pawnBishop]) ∨
      (¬(k = .pawn ∧ p ∈ lastArcSquares c) ∧ pt = 0) := by
  unfold moveFlags at h
  split_ifs at h with hlast
  · exact Or.inl ⟨hlast, h⟩
  · exact Or.inr ⟨hlast, List.mem_singleton.mp h⟩

abbrev Piece := PlayerColor × PieceType

def promotedPiece (piece : Piece) (promo : U8) : Piece :=
  if promo = pawnRook then (piece.1, .rook)
  else if promo = pawnBishop then (piece.1, .bishop)
  else piece

theorem promotedPiece_color (piece : Piece) (promo : U8) :
    (promotedPiece piece promo).1 = piece.1 := by
  unfold promotedPiece
  split_ifs <;> rfl

@[simp] theorem promotedPiece_zero (piece : Piece) : promotedPiece piece 0 = piece := rfl

structure Position where
  cell : Square → Option Piece
  turn : PlayerColor

namespace Position

def holds (pos : Position) (q : Square) : Bool := (pos.cell q).isSome

def holdsOwn (pos : Position) (c : PlayerColor) (q : Square) : Bool :=
  (pos.cell q).any fun piece => piece.1 = c

theorem holds_of_holdsOwn {pos : Position} {c : PlayerColor} (q : Square)
    (h : pos.holdsOwn c q = true) : pos.holds q = true := by
  cases hq : pos.cell q with
  | none => simp [holdsOwn, hq] at h
  | some piece => simp [holds, hq]

def reach (pos : Position) (c : PlayerColor) (k : PieceType) (p : Square) : List Square :=
  (pattern k p).reach pos.holds (pos.holdsOwn c)

/-- The moves of one side, whether or not they leave its king attacked. -/
inductive Pseudo (pos : Position) (c : PlayerColor) : U16 → Prop
  | intro {p : Square} {k : PieceType} {q : Square} {pt : U8}
      (hcell : pos.cell p = some (c, k)) (hreach : q ∈ pos.reach c k p)
      (hflag : pt ∈ moveFlags c k p) : Pseudo pos c (movePromo p q pt.toNat)

def Attacks (pos : Position) (c : PlayerColor) (q : Square) : Prop :=
  ∃ p k, pos.cell p = some (c, k) ∧ q ∈ pos.reach c k p

def InCheck (pos : Position) (c : PlayerColor) : Prop :=
  ∃ q, pos.cell q = some (c, .king) ∧ pos.Attacks c.other q

/-- The mover's piece goes to its destination, promoted if the move says so. -/
def play (pos : Position) (m : U16) : Position :=
  { pos with
    cell := Function.update
      (Function.update pos.cell (getp1 m)
        ((pos.cell (getp0 m)).map fun piece => promotedPiece piece (getpromo m)))
      (getp0 m) none }

def next (pos : Position) (m : U16) : Position := { pos.play m with turn := pos.turn.other }

structure Legal (pos : Position) (m : U16) : Prop where
  pseudo : pos.Pseudo pos.turn m
  safe : ¬(pos.play m).InCheck pos.turn

@[ext] theorem ext {pos pos' : Position} (hcell : ∀ p, pos.cell p = pos'.cell p)
    (hturn : pos.turn = pos'.turn) : pos = pos' := by
  cases pos
  cases pos'
  simp only [mk.injEq]
  exact ⟨funext hcell, hturn⟩

theorem attacks_iff {pos : Position} {c : PlayerColor} {q : Square} :
    pos.Attacks c q ↔ ∃ m, pos.Pseudo c m ∧ getp1 m = q := by
  constructor
  · intro h
    rcases h with ⟨p, k, hcell, hreach⟩
    obtain ⟨pt, hflag⟩ := moveFlags_ne_nil c k p
    exact ⟨_, .intro hcell hreach hflag, getp1_movePromo p q (moveFlags_subset c k p hflag)⟩
  · intro h
    rcases h with ⟨m, hm, rfl⟩
    cases hm with
    | @intro p k q pt hcell hreach hflag =>
      rw [getp1_movePromo p q (moveFlags_subset c k p hflag)]
      exact ⟨p, k, hcell, hreach⟩

end Position

private theorem bottomPattern_squares (k : PieceType) : ∀ p ∈ bottomSquares,
    p ∉ (bottomPattern k p).squares ∧ ∀ q ∈ (bottomPattern k p).squares, Playable q := by
  cases k <;> decide

theorem pattern_squares_playable {p : Square} (hp : Playable p) (k : PieceType) {q : Square}
    (hq : q ∈ (pattern k p).squares) : Playable q := by
  rw [pattern, Pattern.squares_map] at hq
  obtain ⟨r, hr, rfl⟩ := List.mem_map.mp hq
  have hbottom := bottomPattern_squares k _ (coordMap_mem_bottomSquares p hp)
  exact playable_invCoordMap _ r (hbottom.2 r hr)

theorem self_not_mem_pattern {p : Square} (hp : Playable p) (k : PieceType) :
    p ∉ (pattern k p).squares := by
  intro hmem
  rw [pattern, Pattern.squares_map] at hmem
  obtain ⟨r, hr, hrp⟩ := List.mem_map.mp hmem
  have hbottom := bottomPattern_squares k _ (coordMap_mem_bottomSquares p hp)
  have hframe : (side p).coordMap p = r := by
    rw [← Side.coordMap_invCoordMap (side p) r, hrp]
  rw [hframe] at hr hbottom
  exact hbottom.1 hr

/-- What one pseudo-legal move does, whatever piece makes it. -/
structure Position.MoveFacts (pos : Position) (c : PlayerColor) (m : U16) (k : PieceType) :
    Prop where
  source : pos.cell (getp0 m) = some (c, k)
  target : getp1 m ∈ pos.reach c k (getp0 m)
  flag : getpromo m ∈ moveFlags c k (getp0 m)
  word : m = movePromo (getp0 m) (getp1 m) (getpromo m).toNat
  not_own : ∀ k', pos.cell (getp1 m) ≠ some (c, k')

theorem Position.Pseudo.facts {pos : Position} {c : PlayerColor} {m : U16}
    (h : pos.Pseudo c m) : ∃ k, pos.MoveFacts c m k := by
  cases h with
  | @intro p k q pt hcell hreach hflag =>
    have hpt := moveFlags_subset c k p hflag
    refine ⟨k, ?_, ?_, ?_, ?_, ?_⟩
    · rwa [getp0_movePromo p q hpt]
    · rwa [getp0_movePromo p q hpt, getp1_movePromo p q hpt]
    · rwa [getp0_movePromo p q hpt, getpromo_movePromo p q hpt]
    · rw [getp0_movePromo p q hpt, getp1_movePromo p q hpt, getpromo_movePromo p q hpt]
    · rw [getp1_movePromo p q hpt]
      intro k' hk'
      have hown := Walk.Pattern.reach_not_own pos.holds_of_holdsOwn hreach
      simp [holdsOwn, hk'] at hown

theorem Position.MoveFacts.pseudo {pos : Position} {c : PlayerColor} {m : U16} {k : PieceType}
    (h : pos.MoveFacts c m k) : pos.Pseudo c m := by
  rw [h.word]
  exact .intro h.source h.target h.flag

end Rollerball
