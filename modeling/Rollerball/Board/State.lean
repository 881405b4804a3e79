import Rollerball.Board.Generators
import Mathlib.Data.Fin.VecNotation

/-!
# The board of the engine

A board keeps the squares of twelve piece slots and the same position in four rotated arrays.
Playing a move updates each copy by hand; taking it back rebuilds the old state from the move
word and the two fields that remember the last capture.
-/

namespace Rollerball

/-- An index into the raw bytes of `BoardData`: six black slots, then six white ones. -/
abbrev Slot := Fin 12

instance neZeroSlots : NeZero 12 := ⟨by decide⟩

namespace Slot

def bRookWs : Slot := 0
def bRookBs : Slot := 1
def bKing : Slot := 2
def bBishop : Slot := 3
def bPawnWs : Slot := 4
def bPawnBs : Slot := 5
def wRookWs : Slot := 6
def wRookBs : Slot := 7
def wKing : Slot := 8
def wBishop : Slot := 9
def wPawnWs : Slot := 10
def wPawnBs : Slot := 11

end Slot

structure Board where
  pieces : Slot → Square
  board0 : Square → U8
  board90 : Square → U8
  board180 : Square → U8
  board270 : Square → U8
  playerToPlay : PlayerColor
  lastKilledPiece : U8
  /-- `none` stands for the value `-1`. -/
  lastKilledPieceIdx : Option Slot

def slotColor (i : Slot) : PlayerColor := if i < 6 then .black else .white

def startSquare : Slot → Square := ![
  square 2 5, square 2 6, square 3 5, square 3 6, square 4 5, square 4 6,
  square 4 1, square 4 0, square 3 1, square 3 0, square 2 1, square 2 0]

def startType : Slot → PieceType := ![
  .rook, .rook, .king, .bishop, .pawn, .pawn,
  .rook, .rook, .king, .bishop, .pawn, .pawn]

/-- `for (i = 0; i < 64; i++) tgt[transform[i]] = src[i];` -/
def rotateBoard (src tgt : Square → U8) (transform : Square → Square) : Square → U8 :=
  (List.finRange 64).foldl (fun tgt i => Function.update tgt (transform i) (src i)) tgt

namespace Board

/-- The constructor `Board::Board`. -/
def new : Board :=
  let zero : Square → U8 := fun _ => 0
  let board0 := (List.finRange 12).foldl
    (fun board i =>
      Function.update board (startSquare i) ((slotColor i).bits ||| (startType i).bits)) zero
  { pieces := startSquare
    board0 := board0
    board90 := rotateBoard board0 zero cw90
    board180 := rotateBoard board0 zero cw180
    board270 := rotateBoard board0 zero acw90
    playerToPlay := .white
    lastKilledPiece := 0
    lastKilledPieceIdx := none }

def sideBoard (b : Board) : Side → Square → U8
  | .bottom => b.board0
  | .left => b.board270
  | .top => b.board180
  | .right => b.board90

def promotes (piecePos : Square) (pieceId : U8) : Bool :=
  ((piecePos = 51 ∨ piecePos = 43) ∧ pieceId &&& PlayerColor.white.bits ≠ 0#8) ∨
  ((piecePos = 11 ∨ piecePos = 3) ∧ pieceId &&& PlayerColor.black.bits ≠ 0#8)

def getPseudolegalMovesForPiece (ord : VisitOrder) (b : Board) (piecePos : Square) : MoveSet :=
  let pieceId := b.board0 piecePos
  let s := side piecePos
  let board := b.sideBoard s
  let p0 := s.coordMap piecePos
  let moves : MoveSet :=
    if pieceId &&& PieceType.pawn.bits ≠ 0#8 then
      if promotes piecePos pieceId then constructBottomPawnMovesWithBoard p0 board true
      else constructBottomPawnMovesWithBoard p0 board
    else if pieceId &&& PieceType.rook.bits ≠ 0#8 then constructBottomRookMovesWithBoard p0 board
    else if pieceId &&& PieceType.bishop.bits ≠ 0#8 then
      constructBottomBishopMovesWithBoard p0 board
    else if pieceId &&& PieceType.king.bits ≠ 0#8 then constructBottomKingMovesWithBoard p0 board
    else []
  transformMoves ord moves s.invCoordMap

/-- The six consecutive slots `_get_pseudolegal_moves_for_side` walks through. -/
def sideSlots : PlayerColor → List Slot
  | .black => [0, 1, 2, 3, 4, 5]
  | .white => [6, 7, 8, 9, 10, 11]

def getPseudolegalMovesForSide (ord : VisitOrder) (b : Board) (color : PlayerColor) : MoveSet :=
  (sideSlots color).foldl
    (fun moves i =>
      if b.pieces i = DEAD then moves
      else (ord.visit (b.getPseudolegalMovesForPiece ord (b.pieces i))).foldl
        (fun moves m => moves.insert m) moves) []

def getPseudolegalMoves (ord : VisitOrder) (b : Board) : MoveSet :=
  b.getPseudolegalMovesForSide ord b.playerToPlay

def underThreat (ord : VisitOrder) (b : Board) (piecePos : Square) : Bool :=
  (ord.visit (b.getPseudolegalMovesForSide ord b.playerToPlay.other)).any
    fun m => getp1 m == piecePos

def kingSlot : PlayerColor → Slot
  | .white => Slot.wKing
  | .black => Slot.bKing

def inCheck (ord : VisitOrder) (b : Board) : Bool :=
  b.underThreat ord (b.pieces (kingSlot b.playerToPlay))

def put (b : Board) (p : Square) (piece : U8) : Board :=
  { b with
    board0 := Function.update b.board0 p piece
    board90 := Function.update b.board90 (cw90 p) piece
    board180 := Function.update b.board180 (cw180 p) piece
    board270 := Function.update b.board270 (acw90 p) piece }

/-- One turn of the scan in `_do_move`: a slot on `p1` dies, a slot on `p0` moves to `p1`. -/
def scanSlot (p0 p1 : Square) (b : Board) (i : Slot) : Board :=
  let b := if b.pieces i = p1 then
      { b with
        pieces := Function.update b.pieces i DEAD
        lastKilledPiece := b.board0 p1
        lastKilledPieceIdx := some i }
    else b
  if b.pieces i = p0 then { b with pieces := Function.update b.pieces i p1 } else b

@[irreducible] def scan (b : Board) (p0 p1 : Square) : Board :=
  (List.finRange 12).foldl (scanSlot p0 p1) b

/-- The piece byte after a promotion flag. -/
def promote (piece promo : U8) : U8 :=
  if promo = pawnRook then colorBits piece ||| PieceType.rook.bits
  else if promo = pawnBishop then colorBits piece ||| PieceType.bishop.bits
  else piece

/-- The piece byte `_undo_last_move` puts back for a promotion flag. -/
def demote (piece promo : U8) : U8 :=
  if promo = pawnRook then (colorBits piece ^^^ PieceType.rook.bits) ||| PieceType.pawn.bits
  else if promo = pawnBishop then
    (colorBits piece ^^^ PieceType.bishop.bits) ||| PieceType.pawn.bits
  else piece

def forgetKill (b : Board) : Board :=
  { b with lastKilledPiece := 0, lastKilledPieceIdx := none }

/-- `Board::_do_move`, which leaves the player to play as it is. -/
def rawDoMove (b : Board) (m : U16) : Board :=
  let p0 := getp0 m
  let p1 := getp1 m
  let promo := getpromo m
  let piecetype := b.board0 p0
  let b := b.forgetKill.scan p0 p1
  (b.put p1 (promote piecetype promo)).put p0 0

/-- `Board::_undo_last_move`. -/
def rawUndoLastMove (b : Board) (m : U16) : Board :=
  let p0 := getp0 m
  let p1 := getp1 m
  let promo := getpromo m
  let piecetype := b.board0 p1
  let deadpiece := b.lastKilledPiece
  let b := { b with lastKilledPiece := 0 }
  let b := match (List.finRange 12).find? fun i => b.pieces i = p1 with
    | some i => { b with pieces := Function.update b.pieces i p0 }
    | none => b
  let b := match b.lastKilledPieceIdx with
    | some k => { b with pieces := Function.update b.pieces k p1, lastKilledPieceIdx := none }
    | none => b
  (b.put p0 (demote piecetype promo)).put p1 deadpiece

def flipPlayer (b : Board) : Board := { b with playerToPlay := b.playerToPlay.other }

def doMove (b : Board) (m : U16) : Board := (b.rawDoMove m).flipPlayer

/-- The engine's own `undo_last_move`, which repeats `_undo_last_move` and flips the player. -/
def undoLastMove (b : Board) (m : U16) : Board := (b.rawUndoLastMove m).flipPlayer

/-- `Board::get_legal_moves`: every pseudo-legal move is tried and taken back on one copy. -/
def getLegalMoves (ord : VisitOrder) (b : Board) : MoveSet :=
  ((ord.visit (b.getPseudolegalMoves ord)).foldl
    (fun (c, legalMoves) m =>
      let c := c.rawDoMove m
      let legalMoves := if !c.inCheck ord then legalMoves.insert m else legalMoves
      (c.rawUndoLastMove m, legalMoves)) (b, ([] : MoveSet))).2

/-- Two boards hold the same position: they may differ in the last-killed fields only. -/
structure SamePosition (b b' : Board) : Prop where
  pieces : b.pieces = b'.pieces
  board0 : b.board0 = b'.board0
  board90 : b.board90 = b'.board90
  board180 : b.board180 = b'.board180
  board270 : b.board270 = b'.board270
  playerToPlay : b.playerToPlay = b'.playerToPlay

def LegalStep (ord : VisitOrder) (b b' : Board) : Prop :=
  ∃ m ∈ b.getLegalMoves ord, b' = b.doMove m

/-- Boards reached from the start position by legal play. -/
def Reachable (ord : VisitOrder) (b : Board) : Prop :=
  Relation.ReflTransGen (LegalStep ord) Board.new b

end Board

end Rollerball
