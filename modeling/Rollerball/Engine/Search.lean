import Rollerball.Board.State
import Rollerball.Lib.Proc
import Mathlib.Data.List.Sort

/-!
# The search

The engine searches on one board that every call changes and gives back, so each function here
returns the board beside its value. The flag `search` and the store into `best_move` are actions
of the thread; the evaluator is its oracle, asked about a board and a number of legal moves.
-/

namespace Rollerball

structure MoveEval (V : Type) where
  movement : U16
  eval : V

/-- The order a sorted list is in: descending scores, or ascending ones when reversed. -/
def MoveEval.Before {V : Type} [LinearOrder V] (reverse : Bool) (x y : MoveEval V) : Prop :=
  if reverse then x.eval ≤ y.eval else y.eval ≤ x.eval

/-- What the code takes from its platform: scores `V` with the bounds `-DBL_MAX` and `DBL_MAX`,
the order in which move sets are visited, `std::sort` in descending order or reversed, and the
indeterminate first value of `optimum.movement`. -/
structure Platform (V : Type) [LinearOrder V] where
  lowest : V
  highest : V
  order : VisitOrder
  sort : Bool → List (MoveEval V) → List (MoveEval V)
  sort_perm : ∀ reverse arr, (sort reverse arr).Perm arr
  sort_sorted : ∀ reverse arr, (sort reverse arr).Pairwise (MoveEval.Before reverse)
  unset : U16

section Sorted

variable {V : Type} [LinearOrder V]

instance (reverse : Bool) : DecidableRel (MoveEval.Before reverse : MoveEval V → _ → Prop) :=
  fun x y => inferInstanceAs (Decidable (if reverse then x.eval ≤ y.eval else y.eval ≤ x.eval))

instance (reverse : Bool) : Std.Total (MoveEval.Before reverse : MoveEval V → _ → Prop) where
  total x y := by
    cases reverse
    · exact le_total y.eval x.eval
    · exact le_total x.eval y.eval

instance (reverse : Bool) : IsTrans (MoveEval V) (MoveEval.Before reverse) where
  trans x y z hxy hyz := by
    cases reverse
    · exact le_trans hyz hxy
    · exact le_trans hxy hyz

/-- A platform that visits sets in the order of insertion and sorts by insertion. -/
def Platform.sorted (lowest highest : V) : Platform V where
  lowest := lowest
  highest := highest
  order := VisitOrder.insertion
  sort := fun reverse arr => arr.insertionSort (MoveEval.Before reverse)
  sort_perm := fun _ arr => List.perm_insertionSort _ arr
  sort_sorted := fun _ arr => List.pairwise_insertionSort _ arr
  unset := 0

end Sorted

abbrev Search (V R : Type) := Proc (Board × Nat) V U16 R

section Actions

variable {V : Type}

def readFlag : Search V Bool := .poll .done

/-- `evaluator->evaluate(evaluator->prepare_features(b, legal_moves_size))` -/
def evaluate (b : Board) (legalMovesSize : Nat) : Search V V := .ask (b, legalMovesSize) .done

/-- `best_move = m;` -/
def store (m : U16) : Search V PUnit := .publish m (.done ⟨⟩)

@[simp] theorem readFlag_bind {R : Type} (f : Bool → Search V R) : readFlag.bind f = .poll f := rfl

end Actions

section Functions

variable {V : Type} [LinearOrder V] [Zero V] (env : Platform V)

/-- The loop of `Node::Order_Children`. -/
def orderLoop (reverse : Bool) : List U16 → Board → List (MoveEval V) →
    Search V (Board × List (MoveEval V))
  | [], b, arr => return (b, env.sort reverse arr)
  | m :: ms, b, arr => do
    let search ← readFlag
    if !search then return (b, [])
    else
      let b := b.doMove m
      let eval ← evaluate b (b.getLegalMoves env.order).length
      orderLoop reverse ms (b.undoLastMove m) (arr ++ [⟨m, eval⟩])

/-- `Node::Order_Children` -/
def orderChildren (b : Board) (reverse : Bool) : Search V (Board × List (MoveEval V)) :=
  orderLoop env reverse (env.order.visit (b.getLegalMoves env.order)) b []

/-- Put the last-killed fields of `b` back into `b'`. -/
def restoreKilled (b b' : Board) : Board :=
  { b' with
    lastKilledPiece := b.lastKilledPiece
    lastKilledPieceIdx := b.lastKilledPieceIdx }

/-- `move_and_eval`, with the search of the subtree as an argument. -/
def moveAndEval (val : Board → Search V (Board × V)) (b : Board) (m : U16) :
    Search V (Board × V) := do
  let search ← readFlag
  if !search then return (b, 0)
  else
    let b := b.doMove m
    let (b', d) ← val b
    return ((restoreKilled b b').undoLastMove m, d)

/-- The loop of `MAX_VAL` over the ordered moves. -/
def maxLoop (child : Board → U16 → V → V → Search V (Board × V)) (beta : V) :
    List (MoveEval V) → Board → V → V → Search V (Board × V)
  | [], b, _, maxmove => return (b, maxmove)
  | x :: xs, b, alpha, maxmove => do
    let (b, d) ← child b x.movement alpha beta
    let search ← readFlag
    if !search then return (b, 0)
    else
      let alpha := max alpha d
      if alpha ≥ beta then return (b, d)
      else maxLoop child beta xs b alpha (if maxmove < d then d else maxmove)

/-- The loop of `MIN_VAL` over the ordered moves. -/
def minLoop (child : Board → U16 → V → V → Search V (Board × V)) (alpha : V) :
    List (MoveEval V) → Board → V → V → Search V (Board × V)
  | [], b, _, minmove => return (b, minmove)
  | x :: xs, b, beta, minmove => do
    let (b, d) ← child b x.movement alpha beta
    let search ← readFlag
    if !search then return (b, 0)
    else
      let beta := min beta d
      if alpha ≥ beta then return (b, d)
      else minLoop child alpha xs b beta (if minmove > d then d else minmove)

mutual

/-- `MAX_VAL`, for at most `fuel` levels of recursion. -/
def maxVal : Nat → Board → V → V → Int → Int → Search V (Board × V)
  | 0, _, _, _, _, _ => .timeout
  | fuel + 1, b, alpha, beta, i, cutoff => do
    let search ← readFlag
    if !search then return (b, 0)
    else
      let (b, legalMoves) ← orderChildren env b false
      if legalMoves.isEmpty then
        let d ← evaluate b 0
        return (b, d)
      else if i = cutoff then
        let d ← evaluate b legalMoves.length
        return (b, d)
      else
        let (b, _) ← orderChildren env b false
        let search ← readFlag
        if !search then return (b, 0)
        else
          maxLoop (fun b m alpha beta =>
              moveAndEval (fun b => minVal fuel b alpha beta (i + 1) cutoff) b m)
            beta legalMoves b alpha env.lowest

/-- `MIN_VAL`, for at most `fuel` levels of recursion. -/
def minVal : Nat → Board → V → V → Int → Int → Search V (Board × V)
  | 0, _, _, _, _, _ => .timeout
  | fuel + 1, b, alpha, beta, i, cutoff => do
    let search ← readFlag
    if !search then return (b, 0)
    else
      let (b, legalMoves) ← orderChildren env b true
      if legalMoves.isEmpty then
        let d ← evaluate b 0
        return (b, d)
      else if i = cutoff then
        let d ← evaluate b legalMoves.length
        return (b, d)
      else
        let (b, _) ← orderChildren env b true
        let search ← readFlag
        if !search then return (b, 0)
        else
          minLoop (fun b m alpha beta =>
              moveAndEval (fun b => maxVal fuel b alpha beta (i + 1) cutoff) b m)
            alpha legalMoves b beta env.highest

end

/-- A level of recursion for every `i` from `0` to `cutoff`. -/
def levels (cutoff : Int) : Nat := cutoff.toNat + 1

/-- `move_and_eval` as the root of White calls it. -/
def whiteChild (cutoff : Int) (b : Board) (m : U16) (alpha beta : V) : Search V (Board × V) :=
  moveAndEval (fun b => minVal env (levels cutoff) b alpha beta 0 cutoff) b m

/-- `move_and_eval` as the root of Black calls it. -/
def blackChild (cutoff : Int) (b : Board) (m : U16) (alpha beta : V) : Search V (Board × V) :=
  moveAndEval (fun b => maxVal env (levels cutoff) b alpha beta 0 cutoff) b m

/-- The loop over the root moves when White is to play; it is left when the flag has fallen. -/
def whiteLoop (cutoff : Int) (beta : V) : List (MoveEval V) → Board → V → MoveEval V →
    Search V (Board × MoveEval V)
  | [], b, _, optimum => return (b, optimum)
  | x :: xs, b, alpha, optimum => do
    let (b, d) ← whiteChild env cutoff b x.movement alpha beta
    let search ← readFlag
    if !search then return (b, optimum)
    else
      let alpha := max alpha d
      if optimum.eval < d then
        store x.movement
        whiteLoop cutoff beta xs b alpha ⟨x.movement, d⟩
      else whiteLoop cutoff beta xs b alpha optimum

/-- The loop over the root moves when Black is to play. -/
def blackLoop (cutoff : Int) (alpha : V) : List (MoveEval V) → Board → V → MoveEval V →
    Search V (Board × MoveEval V)
  | [], b, _, optimum => return (b, optimum)
  | x :: xs, b, beta, optimum => do
    let (b, d) ← blackChild env cutoff b x.movement alpha beta
    let search ← readFlag
    if !search then return (b, optimum)
    else
      let beta := min beta d
      if optimum.eval > d then
        store x.movement
        blackLoop cutoff alpha xs b beta ⟨x.movement, d⟩
      else blackLoop cutoff alpha xs b beta optimum

/-- What the loops `while (search)` carry from one round to the next. -/
structure Progress where
  board : Board
  cutoff : Int
  movement : U16

/-- One round of White's loop: the next round's state, or the board when the search is over. -/
def whiteRound (s : Progress) : Search V (Progress ⊕ Board) := do
  let search ← readFlag
  if !search then return .inr s.board
  else
    let (b, legalMoves) ← orderChildren env s.board false
    if legalMoves.isEmpty then return .inr b
    else
      let (b, optimum) ← whiteLoop env s.cutoff env.highest legalMoves b env.lowest
        ⟨s.movement, env.lowest⟩
      let search ← readFlag
      if !search then return .inr b
      else
        store optimum.movement
        return .inl ⟨b, s.cutoff + 2, optimum.movement⟩

/-- One round of Black's loop, which searches the first move once before the others. -/
def blackRound (s : Progress) : Search V (Progress ⊕ Board) := do
  let search ← readFlag
  if !search then return .inr s.board
  else
    let (b, legalMoves) ← orderChildren env s.board true
    match legalMoves with
    | [] => return .inr b
    | x :: xs =>
      let (b, d) ← blackChild env s.cutoff b x.movement env.lowest env.highest
      let search ← readFlag
      if !search then return .inr b
      else
        let beta := min env.highest d
        let (b, optimum) ← blackLoop env s.cutoff env.lowest (x :: xs) b beta
          ⟨s.movement, env.highest⟩
        let search ← readFlag
        if !search then return .inr b
        else
          store optimum.movement
          return .inl ⟨b, s.cutoff + 2, optimum.movement⟩

/-- The body of the loop `search_move` chooses. -/
def searchRound : PlayerColor → Progress → Search V (Progress ⊕ Board)
  | .white => whiteRound env
  | .black => blackRound env

/-- `search_move`, for at most `rounds` iterations of its loop; it gives the board back. -/
def searchMove (rounds : Nat) (b : Board) : Search V Board :=
  Proc.loop (searchRound env b.playerToPlay) rounds ⟨b, 1, env.unset⟩

end Functions

end Rollerball
