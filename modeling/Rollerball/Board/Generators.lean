import Rollerball.Board.Geometry
import Rollerball.Lib.Walk

/-!
# Move generators of the bottom side

The four generators of `board.cpp` write moves for a piece on the bottom side of the board they
are given; the other sides go through rotated arrays. Each is translated as written and then
shown to insert exactly what a pattern of steps and rays reaches.
-/

namespace Rollerball

/-- An `unordered_set<U16>`, as the sequence of its distinct insertions. -/
abbrev MoveSet := List U16

/-- The order in which a loop visits an `unordered_set`, which the library leaves open. -/
structure VisitOrder where
  visit : MoveSet → List U16
  visit_perm : ∀ s, (visit s).Perm s

/-- Visiting in order of insertion. -/
def VisitOrder.insertion : VisitOrder := ⟨id, fun s => List.Perm.refl s⟩

theorem VisitOrder.mem_visit (ord : VisitOrder) {s : MoveSet} {m : U16} :
    m ∈ ord.visit s ↔ m ∈ s := (ord.visit_perm s).mem_iff

/-- `if (!(board[p1] & color)) moves.insert(m)`, the form of every single step. -/
def insertUnlessOwn (board : Square → U8) (color : U8) (p1 : Square) (m : U16)
    (moves : MoveSet) : MoveSet :=
  if board p1 &&& color = 0#8 then moves.insert m else moves

/-- The body of every sliding loop. The flag tells that a piece stopped the slide. -/
def slideMoves (board : Square → U8) (color : U8) (p0 : Square) :
    List Square → MoveSet → MoveSet × Bool
  | [], moves => (moves, false)
  | p1 :: rest, moves =>
      if board p1 ≠ 0#8 then
        if board p1 &&& color ≠ 0#8 then (moves, true)
        else (moves.insert (move p0 p1), true)
      else slideMoves board color p0 rest (moves.insert (move p0 p1))

def leftRookReflect : List Square := [0, 8, 16, 24, 32, 40, 48]

/-- The squares of `for (x = getx(p0)-1; x >= 0; x--)` on the row of `p0`. -/
def leftOf (p0 : Square) : List Square :=
  (List.range (getx p0)).reverse.map fun x => square x (gety p0)

/-- The squares of `for (y = 1; y <= 6; y++)` on column 1. -/
def innerLane : List Square := (List.range' 1 6).map fun y => square 1 y

def constructBottomRookMovesWithBoard (p0 : Square) (board : Square → U8) : MoveSet :=
  let color := colorBits (board p0)
  let rookMoves : MoveSet := []
  let rookMoves :=
    if p0 < 8 ∨ p0 = 13 then
      let top := p0 + square 0 1
      let rookMoves := insertUnlessOwn board color top (move p0 top) rookMoves
      if p0 = 1 then (slideMoves board color p0 innerLane rookMoves).1 else rookMoves
    else rookMoves
  let rookMoves :=
    if p0 ≥ 8 then
      let bottom := p0 - square 0 1
      insertUnlessOwn board color bottom (move p0 bottom) rookMoves
    else rookMoves
  let rookMoves :=
    if p0 ≠ 6 then
      let right := p0 + square 1 0
      insertUnlessOwn board color right (move p0 right) rookMoves
    else rookMoves
  let (rookMoves, reflBlocked) := slideMoves board color p0 (leftOf p0) rookMoves
  if reflBlocked then rookMoves
  else if p0 < 8 then (slideMoves board color p0 leftRookReflect rookMoves).1
  else rookMoves

/-- The vector `p1s` of forward squares. -/
def bishopP1s (p0 : Square) : List Square :=
  if p0 = 1 then [square 0 1, square 1 2]
  else if p0 = 2 then [square 1 1, square 0 2, square 1 3]
  else if p0 = 3 then
    [square 2 1, square 1 2, square 0 3, square 1 4, square 2 5, square 3 6]
  else if p0 = 4 ∨ p0 = 5 then [p0 + square 0 1 - square 1 0, p0 - square 2 0]
  else if p0 = 6 then [square 5 1]
  else if p0 = 10 then [square 1 2, square 0 3, square 1 4, square 2 5, square 3 6]
  else if p0 = 11 then [square 2 0, square 1 1, square 0 2]
  else if p0 = 12 then [square 3 0, square 2 1, square 1 2, square 0 3]
  else if p0 = 13 then [square 4 0, square 3 1]
  else []

/-- The vector `p1s_2`, used on square 10 only. -/
def bishopP1s2 (p0 : Square) : List Square :=
  if p0 = 10 then [square 1 0, square 0 1] else []

def constructBottomBishopMovesWithBoard (p0 : Square) (board : Square → U8) : MoveSet :=
  let color := colorBits (board p0)
  let bishopMoves : MoveSet := []
  let bishopMoves :=
    if p0 < 6 ∨ p0 ≥ 12 then
      let topRight := p0 + square 0 1 + square 1 0
      insertUnlessOwn board color topRight (move p0 topRight) bishopMoves
    else bishopMoves
  let bishopMoves :=
    if p0 > 6 then
      let bottomRight := p0 - square 0 1 + square 1 0
      insertUnlessOwn board color bottomRight (move p0 bottomRight) bishopMoves
    else bishopMoves
  let bishopMoves := (slideMoves board color p0 (bishopP1s p0) bishopMoves).1
  (slideMoves board color p0 (bishopP1s2 p0) bishopMoves).1

def constructBottomPawnMovesWithBoard (p0 : Square) (board : Square → U8)
    (promote : Bool := false) : MoveSet :=
  let color := colorBits (board p0)
  let advance (p1 : Square) (pawnMoves : MoveSet) : MoveSet :=
    if promote then
      insertUnlessOwn board color p1 (movePromo p0 p1 pawnBishop.toNat)
        (insertUnlessOwn board color p1 (movePromo p0 p1 pawnRook.toNat) pawnMoves)
    else insertUnlessOwn board color p1 (move p0 p1) pawnMoves
  let pawnMoves := advance (square (getx p0 - 1) 0) []
  let pawnMoves := advance (square (getx p0 - 1) 1) pawnMoves
  if p0 = 10 then insertUnlessOwn board color 17 (move p0 17) pawnMoves else pawnMoves

def constructBottomKingMovesWithBoard (p0 : Square) (board : Square → U8) : MoveSet :=
  let color := colorBits (board p0)
  let step (p1 : Square) (kingMoves : MoveSet) : MoveSet :=
    insertUnlessOwn board color p1 (move p0 p1) kingMoves
  let x := getx p0
  let kingMoves := step (square (x - 1) 0) []
  let kingMoves := step (square (x - 1) 1) kingMoves
  let kingMoves := if p0 = 10 then step (square (x - 1) 2) kingMoves else kingMoves
  let kingMoves := if p0 ≠ 6 then step (square (x + 1) 0) kingMoves else kingMoves
  let kingMoves := if p0 ≠ 6 then step (square (x + 1) 1) kingMoves else kingMoves
  let kingMoves := if p0 ≥ 12 then step (square (x + 1) 2) kingMoves else kingMoves
  let kingMoves := if p0 = 13 then step (square x 2) kingMoves else kingMoves
  step (square x (gety p0 ^^^ 1)) kingMoves

/-- Insert into a new set the image of every move under a coordinate map. -/
def transformMoves (ord : VisitOrder) (moves : MoveSet) (transform : Square → Square) : MoveSet :=
  (ord.visit moves).foldl
    (fun rotMoves m => rotMoves.insert
      (movePromo (transform (getp0 m)) (transform (getp1 m)) (getpromo m).toNat)) []

theorem mem_foldl_insert {β : Type*} (f : β → U16) (xs : List β) (s : MoveSet) (m : U16) :
    m ∈ xs.foldl (fun acc x => acc.insert (f x)) s ↔ m ∈ s ∨ ∃ x ∈ xs, m = f x := by
  induction xs generalizing s with
  | nil => simp
  | cons x xs ih =>
    simp only [List.foldl_cons, ih, List.mem_insert_iff, List.mem_cons, exists_eq_or_imp]
    tauto

theorem mem_transformMoves {ord : VisitOrder} {moves : MoveSet} {transform : Square → Square}
    {m : U16} : m ∈ transformMoves ord moves transform ↔
      ∃ m' ∈ moves, m =
        movePromo (transform (getp0 m')) (transform (getp1 m')) (getpromo m').toNat := by
  simp only [transformMoves, mem_foldl_insert, List.not_mem_nil, false_or, ord.mem_visit]

theorem mem_insertUnlessOwn {board : Square → U8} {color : U8} {p1 : Square} {m' : U16}
    {moves : MoveSet} {m : U16} :
    m ∈ insertUnlessOwn board color p1 m' moves ↔
      m ∈ moves ∨ (board p1 &&& color = 0#8 ∧ m = m') := by
  unfold insertUnlessOwn
  split <;> simp_all [or_comm]

def occupied (board : Square → U8) (p : Square) : Bool := board p != 0#8

def owned (board : Square → U8) (color : U8) (p : Square) : Bool := board p &&& color != 0#8

theorem mem_slideMoves {board : Square → U8} {color : U8} {p0 : Square} {ray : List Square}
    {moves : MoveSet} {m : U16} :
    m ∈ (slideMoves board color p0 ray moves).1 ↔
      m ∈ moves ∨ ∃ q ∈ Walk.slide (occupied board) (owned board color) ray, m = move p0 q := by
  induction ray generalizing moves with
  | nil => simp [slideMoves]
  | cons p1 ray ih =>
    by_cases hocc : board p1 = 0#8
    · have hocc' : occupied board p1 = false := by simp [occupied, hocc]
      simp only [slideMoves, hocc, ne_eq, not_true_eq_false, if_false, ih, List.mem_insert_iff,
        Walk.slide, hocc', Bool.false_eq_true, List.mem_cons, exists_eq_or_imp]
      tauto
    · have hocc' : occupied board p1 = true := by simp [occupied, hocc]
      by_cases hown : board p1 &&& color = 0#8
      · simp [slideMoves, Walk.slide, hocc, hocc', hown, owned, or_comm]
      · simp [slideMoves, Walk.slide, hocc, hocc', hown, owned]

theorem slideMoves_blocked (board : Square → U8) (color : U8) (p0 : Square) (ray : List Square)
    (moves : MoveSet) :
    (slideMoves board color p0 ray moves).2 = !Walk.clear (occupied board) ray := by
  induction ray generalizing moves with
  | nil => rfl
  | cons p1 ray ih =>
    by_cases hocc : board p1 = 0#8
    · simp [slideMoves, hocc, ih, Walk.clear_cons, occupied]
    · by_cases hown : board p1 &&& color = 0#8 <;>
        simp [slideMoves, hocc, hown, Walk.clear_cons, occupied]

open Walk (Pattern)

def rookPattern (p0 : Square) : Pattern Square where
  steps :=
    (if p0 < 8 ∨ p0 = 13 then [p0 + square 0 1] else []) ++
    (if p0 ≥ 8 then [p0 - square 0 1] else []) ++
    (if p0 ≠ 6 then [p0 + square 1 0] else [])
  rays :=
    (if p0 = 1 then [innerLane] else []) ++
    [leftOf p0 ++ (if p0 < 8 then leftRookReflect else [])]

def bishopPattern (p0 : Square) : Pattern Square where
  steps :=
    (if p0 < 6 ∨ p0 ≥ 12 then [p0 + square 0 1 + square 1 0] else []) ++
    (if p0 > 6 then [p0 - square 0 1 + square 1 0] else [])
  rays := [bishopP1s p0, bishopP1s2 p0]

def pawnPattern (p0 : Square) : Pattern Square where
  steps := [square (getx p0 - 1) 0, square (getx p0 - 1) 1] ++ (if p0 = 10 then [17] else [])
  rays := []

def kingPattern (p0 : Square) : Pattern Square where
  steps :=
    [square (getx p0 - 1) 0, square (getx p0 - 1) 1] ++
    (if p0 = 10 then [square (getx p0 - 1) 2] else []) ++
    (if p0 ≠ 6 then [square (getx p0 + 1) 0, square (getx p0 + 1) 1] else []) ++
    (if p0 ≥ 12 then [square (getx p0 + 1) 2] else []) ++
    (if p0 = 13 then [square (getx p0) 2] else []) ++
    [square (getx p0) (gety p0 ^^^ 1)]
  rays := []

def bottomPattern : PieceType → Square → Pattern Square
  | .pawn => pawnPattern
  | .rook => rookPattern
  | .king => kingPattern
  | .bishop => bishopPattern

def reachOn (board : Square → U8) (p0 : Square) (pat : Pattern Square) : List Square :=
  pat.reach (occupied board) (owned board (colorBits (board p0)))

private theorem owned_false {board : Square → U8} {color : U8} {p : Square} :
    owned board color p = false ↔ board p &&& color = 0#8 := by simp [owned]

private theorem mem_guarded_step {guard : Prop} [Decidable guard] {board : Square → U8}
    {color : U8} {p1 : Square} {m' : U16} {moves : MoveSet} {m : U16} :
    m ∈ (if guard then insertUnlessOwn board color p1 m' moves else moves) ↔
      m ∈ moves ∨ (guard ∧ board p1 &&& color = 0#8 ∧ m = m') := by
  split <;> simp_all [mem_insertUnlessOwn]

private theorem exists_mem_reachOn {board : Square → U8} {p0 : Square} {pat : Pattern Square}
    {P : Square → Prop} :
    (∃ q ∈ reachOn board p0 pat, P q) ↔
      (∃ q ∈ pat.steps, board q &&& colorBits (board p0) = 0#8 ∧ P q) ∨
      ∃ ray ∈ pat.rays,
        ∃ q ∈ Walk.slide (occupied board) (owned board (colorBits (board p0))) ray, P q := by
  simp only [reachOn, Walk.Pattern.mem_reach, owned_false, or_and_right, exists_or, and_assoc]
  constructor
  · intro h
    rcases h with h | ⟨q, ⟨ray, hray, hq⟩, hP⟩
    · exact Or.inl h
    · exact Or.inr ⟨ray, hray, q, hq, hP⟩
  · intro h
    rcases h with h | ⟨ray, hray, q, hq, hP⟩
    · exact Or.inl h
    · exact Or.inr ⟨q, ⟨ray, hray, hq⟩, hP⟩

private theorem exists_mem_append {β : Type*} {xs ys : List β} {P : β → Prop} :
    (∃ q ∈ xs ++ ys, P q) ↔ (∃ q ∈ xs, P q) ∨ ∃ q ∈ ys, P q := by
  simp only [List.mem_append, or_and_right, exists_or]

private theorem exists_mem_guarded {β : Type*} {guard : Prop} [Decidable guard] {xs : List β}
    {P : β → Prop} : (∃ q ∈ (if guard then xs else []), P q) ↔ guard ∧ ∃ q ∈ xs, P q := by
  simp only [List.mem_ite_nil_right, and_assoc, exists_and_left]

private theorem exists_mem_two {β : Type*} {a b : β} {P : β → Prop} :
    (∃ q ∈ [a, b], P q) ↔ P a ∨ P b := by
  simp

private theorem exists_mem_one {β : Type*} {a : β} {P : β → Prop} : (∃ q ∈ [a], P q) ↔ P a := by
  simp

private theorem exists_mem_none {β : Type*} {P : β → Prop} :
    (∃ q ∈ ([] : List β), P q) ↔ False := by
  simp

theorem mem_constructBottomKingMoves {p0 : Square} {board : Square → U8} {m : U16} :
    m ∈ constructBottomKingMovesWithBoard p0 board ↔
      ∃ q ∈ reachOn board p0 (kingPattern p0), m = move p0 q := by
  simp only [constructBottomKingMovesWithBoard, mem_guarded_step, mem_insertUnlessOwn,
    List.not_mem_nil, false_or]
  simp only [exists_mem_reachOn, kingPattern, exists_mem_append, exists_mem_guarded,
    exists_mem_two, exists_mem_one, exists_mem_none, and_or_left, or_assoc, or_false]

theorem mem_constructBottomPawnMoves {p0 : Square} {board : Square → U8} {promote : Bool}
    (hp0 : promote = true → p0 ≠ 10) {m : U16} :
    m ∈ constructBottomPawnMovesWithBoard p0 board promote ↔
      ∃ q ∈ reachOn board p0 (pawnPattern p0),
        ∃ pt ∈ (if promote then [pawnRook, pawnBishop] else [0]), m = movePromo p0 q pt.toNat := by
  simp only [exists_mem_reachOn, pawnPattern, exists_mem_append, exists_mem_guarded,
    exists_mem_two, exists_mem_one, exists_mem_none, or_false]
  cases promote with
  | false =>
    simp only [constructBottomPawnMovesWithBoard, Bool.false_eq_true, if_false, mem_guarded_step,
      mem_insertUnlessOwn, List.not_mem_nil, false_or, exists_mem_one, move_eq_movePromo]
    rfl
  | true =>
    simp only [constructBottomPawnMovesWithBoard, if_true, hp0 rfl, if_false, false_and, or_false,
      mem_insertUnlessOwn, List.not_mem_nil, false_or, exists_mem_two, and_or_left, or_assoc]

theorem mem_constructBottomBishopMoves {p0 : Square} {board : Square → U8} {m : U16} :
    m ∈ constructBottomBishopMovesWithBoard p0 board ↔
      ∃ q ∈ reachOn board p0 (bishopPattern p0), m = move p0 q := by
  simp only [constructBottomBishopMovesWithBoard, mem_slideMoves, mem_guarded_step,
    List.not_mem_nil, false_or]
  simp only [exists_mem_reachOn, bishopPattern, exists_mem_append, exists_mem_guarded,
    exists_mem_two, exists_mem_one, or_assoc]

/-- A slide whose blocked flag gates a second slide is one slide along both legs. -/
private theorem mem_slideMoves_gated {board : Square → U8} {color : U8} {p0 : Square}
    {first second : List Square} {moves : MoveSet} {m : U16} :
    m ∈ (if (slideMoves board color p0 first moves).2 = true
          then (slideMoves board color p0 first moves).1
          else (slideMoves board color p0 second (slideMoves board color p0 first moves).1).1) ↔
      m ∈ moves ∨ ∃ q ∈ Walk.slide (occupied board) (owned board color) (first ++ second),
        m = move p0 q := by
  rw [slideMoves_blocked, Walk.slide_append]
  cases hclear : Walk.clear (occupied board) first with
  | false => simp [mem_slideMoves]
  | true => simp [mem_slideMoves, or_and_right, exists_or, or_assoc]

private theorem reflect_eq (p0 : Square) (board : Square → U8) (color : U8) (ms : MoveSet) :
    (if p0 < 8 then (slideMoves board color p0 leftRookReflect ms).1 else ms) =
      (slideMoves board color p0 (if p0 < 8 then leftRookReflect else []) ms).1 := by
  split <;> rfl

/-- From square 1 the step to the top is continued along the inner lane. -/
private theorem mem_top_steps {p0 top : Square} {board : Square → U8} {color : U8}
    {moves : MoveSet} {m m' : U16} :
    m ∈ (if p0 < 8 ∨ p0 = 13 then
          if p0 = 1 then
            (slideMoves board color p0 innerLane
              (insertUnlessOwn board color top m' moves)).1
          else insertUnlessOwn board color top m' moves
        else moves) ↔
      m ∈ moves ∨ ((p0 < 8 ∨ p0 = 13) ∧ board top &&& color = 0#8 ∧ m = m') ∨
        (p0 = 1 ∧ ∃ q ∈ Walk.slide (occupied board) (owned board color) innerLane,
          m = move p0 q) := by
  by_cases h1 : p0 = 1
  · subst h1
    simp [mem_slideMoves, mem_insertUnlessOwn, or_assoc, show (1 : Square) < 8 by decide]
  · simp only [h1, if_false, mem_guarded_step, false_and, or_false]

theorem mem_constructBottomRookMoves {p0 : Square} {board : Square → U8} {m : U16} :
    m ∈ constructBottomRookMovesWithBoard p0 board ↔
      ∃ q ∈ reachOn board p0 (rookPattern p0), m = move p0 q := by
  simp only [constructBottomRookMovesWithBoard, reflect_eq, mem_slideMoves_gated, mem_guarded_step,
    mem_top_steps, List.not_mem_nil, false_or]
  simp only [exists_mem_reachOn, rookPattern, exists_mem_append, exists_mem_guarded,
    exists_mem_one, or_assoc]
  -- the source inserts the inner lane between the steps; the pattern lists it with the rays
  refine or_congr_right ?_
  rw [or_left_comm]
  exact or_congr_right or_left_comm

end Rollerball
