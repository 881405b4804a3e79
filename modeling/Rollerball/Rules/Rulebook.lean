import Rollerball.Rules.Mirror
import Rollerball.Rules.Walks

/-!
# The rule book

The rules of the game by the geometry of the ring alone: how far each kind of piece walks from its
side, when a side is in check and what a legal move is. No generator and no rotated array is
mentioned; the rules of `Rollerball.Rules.Position` are shown to be these.
-/

namespace Rollerball

open Grid (Point)

/-- A pawn steps forward, straight or along either diagonal. -/
def PawnReaches (own : Square → Bool) (p q : Square) : Prop :=
  let f := (side p).forward
  let i := (side p).inward
  own q = false ∧ Playable q ∧
    (point q = point p + f ∨ point q = point p + (f + i) ∨ point q = point p + (f - i))

private theorem pawn_table : ∀ p, Playable p →
    (pattern .pawn p).rays = [] ∧
      (∀ q ∈ (pattern .pawn p).steps, Playable q ∧
        (point q = point p + (side p).forward ∨
          point q = point p + ((side p).forward + (side p).inward) ∨
          point q = point p + ((side p).forward - (side p).inward))) ∧
      ∀ d ∈ [(side p).forward, (side p).forward + (side p).inward,
          (side p).forward - (side p).inward],
        Free (point p + d) → squareAt (point p + d) ∈ (pattern .pawn p).steps := by
  decide

private theorem pawn_stepped {p : Square} (hp : Playable p) {q : Square} :
    q ∈ (pattern .pawn p).steps ↔ Playable q ∧
      (point q = point p + (side p).forward ∨
        point q = point p + ((side p).forward + (side p).inward) ∨
        point q = point p + ((side p).forward - (side p).inward)) := by
  constructor
  · intro hq
    exact (pawn_table p hp).2.1 q hq
  · intro h
    rcases h with ⟨hq, hpoint⟩
    have hmem : ∀ d ∈ [(side p).forward, (side p).forward + (side p).inward,
        (side p).forward - (side p).inward], point q = point p + d →
          q ∈ (pattern .pawn p).steps := by
      intro d hd heq
      have hq' := (pawn_table p hp).2.2 d hd
      rw [← heq, squareAt_point] at hq'
      exact hq' ((free_point q).mpr hq)
    rcases hpoint with hpoint | hpoint | hpoint
    · exact hmem _ (by simp) hpoint
    · exact hmem _ (by simp) hpoint
    · exact hmem _ (by simp) hpoint

theorem reach_pawn {occ own : Square → Bool} {p q : Square} (hp : Playable p) :
    q ∈ (pattern .pawn p).reach occ own ↔ PawnReaches own p q := by
  rw [Walk.Pattern.mem_reach, (pawn_table p hp).1, pawn_stepped hp, PawnReaches]
  simp only [List.not_mem_nil, false_and, exists_false, or_false]
  exact and_comm

/-- The squares a piece may move to, given the occupied squares and those its side holds. -/
def Reaches (occ own : Square → Bool) : PieceType → Square → Square → Prop
  | .pawn => PawnReaches own
  | .rook => RookReaches occ own
  | .king => KingReaches own
  | .bishop => BishopReaches occ own

theorem reach_iff {occ own : Square → Bool} (hown : ∀ q, own q = true → occ q = true)
    (k : PieceType) {p q : Square} (hp : Playable p) :
    q ∈ (pattern k p).reach occ own ↔ Reaches occ own k p q := by
  cases k with
  | pawn => exact reach_pawn hp
  | rook => exact reach_rook hown hp
  | king => exact reach_king hp
  | bishop => exact reach_bishop hown hp

namespace Rulebook

def Attacks (pos : Position) (c : PlayerColor) (p q : Square) : Prop :=
  ∃ k, pos.cell p = some (c, k) ∧ Reaches pos.holds (pos.holdsOwn c) k p q

def InCheck (pos : Position) (c : PlayerColor) : Prop :=
  ∃ q, pos.cell q = some (c, .king) ∧ ∃ p, Attacks pos c.other p q

/-- A pawn on the last two squares of its arc moves by promoting to a rook or a bishop; every other
move carries no promotion. -/
def Promotes (pos : Position) (p : Square) (pt : U8) : Prop :=
  if pos.cell p = some (pos.turn, .pawn) ∧ p ∈ lastArcSquares pos.turn then
    pt = pawnRook ∨ pt = pawnBishop
  else pt = 0

/-- The side to move plays a piece to a square it attacks, and its king is safe afterwards. -/
def Legal (pos : Position) (m : U16) : Prop :=
  ∃ p q pt, Attacks pos pos.turn p q ∧ Promotes pos p pt ∧ m = movePromo p q pt.toNat ∧
    ¬InCheck (pos.play m) pos.turn

def Game : Position → List U16 → Prop
  | _, [] => True
  | pos, m :: ms => Legal pos m ∧ Game (pos.next m) ms

def Checkmate (pos : Position) : Prop := InCheck pos pos.turn ∧ ∀ m, ¬Legal pos m

def startPieces : List (Square × Piece) :=
  [(square 2 5, .black, .rook), (square 2 6, .black, .rook), (square 3 5, .black, .king),
    (square 3 6, .black, .bishop), (square 4 5, .black, .pawn), (square 4 6, .black, .pawn),
    (square 4 1, .white, .rook), (square 4 0, .white, .rook), (square 3 1, .white, .king),
    (square 3 0, .white, .bishop), (square 2 1, .white, .pawn), (square 2 0, .white, .pawn)]

def start : Position where
  cell := fun p => startPieces.lookup p
  turn := .white

section Rules

variable {pos : Position} {c : PlayerColor} {p q : Square} {m : U16}

theorem attacks_iff (hring : pos.OnRing) :
    Attacks pos c p q ↔ ∃ k, pos.cell p = some (c, k) ∧ q ∈ pos.reach c k p := by
  refine exists_congr fun k => and_congr_right fun hcell => ?_
  exact (reach_iff pos.holds_of_holdsOwn k (hring p _ hcell)).symm

theorem inCheck_iff (hring : pos.OnRing) : InCheck pos c ↔ pos.InCheck c := by
  refine exists_congr fun q => and_congr_right fun _ => ?_
  simp only [attacks_iff hring, Position.Attacks]

theorem promotes_iff {k : PieceType} (hcell : pos.cell p = some (pos.turn, k)) {pt : U8} :
    Promotes pos p pt ↔ pt ∈ moveFlags pos.turn k p := by
  have hpawn : pos.cell p = some (pos.turn, .pawn) ↔ k = .pawn := by
    rw [hcell, Option.some.injEq, Prod.mk.injEq, and_iff_right rfl]
  simp only [Promotes, moveFlags, hpawn]
  split_ifs
  · simp
  · simp

theorem legal_iff (hring : pos.OnRing) : Legal pos m ↔ pos.Legal m := by
  constructor
  · rintro ⟨p, q, pt, hattacks, hpt, rfl, hsafe⟩
    obtain ⟨k, hcell, hreach⟩ := (attacks_iff hring).mp hattacks
    have hpseudo : pos.Pseudo pos.turn (movePromo p q pt.toNat) :=
      .intro hcell hreach ((promotes_iff hcell).mp hpt)
    exact ⟨hpseudo, fun hcheck => hsafe ((inCheck_iff (hring.play hpseudo)).mpr hcheck)⟩
  · intro h
    obtain ⟨k, hfacts⟩ := h.pseudo.facts
    refine ⟨getp0 m, getp1 m, getpromo m, (attacks_iff hring).mpr ⟨k, hfacts.source,
      hfacts.target⟩, (promotes_iff hfacts.source).mpr hfacts.flag, hfacts.word, fun hcheck => ?_⟩
    exact h.safe ((inCheck_iff (hring.play h.pseudo)).mp hcheck)

end Rules

end Rulebook

end Rollerball
