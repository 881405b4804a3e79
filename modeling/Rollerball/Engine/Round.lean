import Rollerball.Engine.Sides

/-!
# The parts of a round

A round of either loop of `search_move` orders the root moves, searches them one after another and
ends with a store. The two rounds differ in their heads and in the bound their loops narrow.
-/

namespace Rollerball

variable {V : Type} [LinearOrder V] [Zero V] (env : Platform V)

/-- White's round up to its loop: the ordered moves and the bound the loop starts with. -/
def whiteHead (s : Progress) : Search V (Board ⊕ Board × List (MoveEval V) × V) := do
  let search ← readFlag
  if !search then return .inl s.board
  else
    let (b, legalMoves) ← orderChildren env s.board false
    if legalMoves.isEmpty then return .inl b
    else return .inr (b, legalMoves, env.lowest)

/-- Black's round up to its loop, with the first search of the first move. -/
def blackHead (s : Progress) : Search V (Board ⊕ Board × List (MoveEval V) × V) := do
  let search ← readFlag
  if !search then return .inl s.board
  else
    let (b, legalMoves) ← orderChildren env s.board true
    match legalMoves with
    | [] => return .inl b
    | x :: xs =>
      let (b, d) ← blackChild env s.cutoff b x.movement env.lowest env.highest
      let search ← readFlag
      if !search then return .inl b
      else return .inr (b, x :: xs, min env.highest d)

def roundHead : PlayerColor → Progress → Search V (Board ⊕ Board × List (MoveEval V) × V)
  | .white => whiteHead env
  | .black => blackHead env

def rootLoop (color : PlayerColor) (cutoff : Int) (arr : List (MoveEval V)) (b : Board) (bound : V)
    (movement : U16) : Search V (Board × MoveEval V) :=
  match color with
  | .white => whiteLoop env cutoff env.highest arr b bound ⟨movement, env.lowest⟩
  | .black => blackLoop env cutoff env.lowest arr b bound ⟨movement, env.highest⟩

/-- What the head of a round does once it has found moves: Black searches the first of them. -/
def headBound (color : PlayerColor) (cutoff : Int) (b : Board) (x : MoveEval V)
    (xs : List (MoveEval V)) : Search V (Board ⊕ Board × List (MoveEval V) × V) :=
  match color with
  | .white => return .inr (b, x :: xs, env.lowest)
  | .black => do
    let (b, d) ← sideChild env .black cutoff b x.movement env.lowest env.highest
    let search ← readFlag
    if !search then return .inl b
    else return .inr (b, x :: xs, min env.highest d)

theorem roundHead_eq (color : PlayerColor) (s : Progress) : roundHead env color s = (do
    let search ← readFlag
    if !search then return .inl s.board
    else
      let (b, legalMoves) ← orderChildren env s.board (color = .black)
      match legalMoves with
      | [] => return .inl b
      | x :: xs => headBound env color s.cutoff b x xs) := by
  cases color with
  | white =>
    refine congrArg Proc.poll (funext fun search => ?_)
    cases search with
    | false => rfl
    | true =>
      refine congrArg (orderChildren env s.board false).bind (funext fun r => ?_)
      rcases r with ⟨b, _ | ⟨x, xs⟩⟩ <;> rfl
  | black => rfl

def PlayerColor.opening : PlayerColor → V → V × V
  | .white, bound => (bound, env.highest)
  | .black, bound => (env.lowest, bound)

theorem rootLoop_eq (color : PlayerColor) (cutoff : Int) (arr : List (MoveEval V)) (b : Board)
    (bound : V) (movement : U16) : rootLoop env color cutoff arr b bound movement =
      sideRoot env color cutoff arr b (color.opening env bound) ⟨movement, color.worst env⟩ := by
  cases color with
  | white => exact whiteLoop_eq env cutoff arr b bound env.highest _
  | black => exact blackLoop_eq env cutoff arr b env.lowest bound _

def roundTail (cutoff : Int) (r : Board × MoveEval V) : Search V (Progress ⊕ Board) := do
  let search ← readFlag
  if !search then return .inr r.1
  else
    store r.2.movement
    return .inl ⟨r.1, cutoff + 2, r.2.movement⟩

def roundRest (color : PlayerColor) (s : Progress) :
    Board ⊕ Board × List (MoveEval V) × V → Search V (Progress ⊕ Board)
  | .inl b => return .inr b
  | .inr (b, legalMoves, bound) => do
    let r ← rootLoop env color s.cutoff legalMoves b bound s.movement
    roundTail s.cutoff r

theorem searchRound_eq (color : PlayerColor) (s : Progress) :
    searchRound env color s = (roundHead env color s).bind (roundRest env color s) := by
  cases color with
  | white =>
    refine congrArg Proc.poll (funext fun search => ?_)
    cases search with
    | false => rfl
    | true =>
      show (orderChildren env s.board false).bind _ =
        ((orderChildren env s.board false).bind _).bind _
      rw [Proc.bind_assoc]
      refine congrArg _ (funext fun r => ?_)
      rcases r with ⟨b, _ | ⟨x, xs⟩⟩ <;> rfl
  | black =>
    refine congrArg Proc.poll (funext fun search => ?_)
    cases search with
    | false => rfl
    | true =>
      show (orderChildren env s.board true).bind _ =
        ((orderChildren env s.board true).bind _).bind _
      rw [Proc.bind_assoc]
      refine congrArg _ (funext fun r => ?_)
      rcases r with ⟨b, _ | ⟨x, xs⟩⟩
      · rfl
      · show (blackChild env s.cutoff b x.movement env.lowest env.highest).bind _ =
          ((blackChild env s.cutoff b x.movement env.lowest env.highest).bind _).bind _
        rw [Proc.bind_assoc]
        refine congrArg _ (funext fun r => congrArg Proc.poll (funext fun search => ?_))
        cases search <;> rfl

end Rollerball
