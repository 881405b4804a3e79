import Rollerball.Engine.Search

/-!
# One search for both players

`MAX_VAL` and `MIN_VAL`, and the loops over the root moves of White and of Black, differ in the end
of the window that a score moves and in which scores are better. Here each pair is one function of
the player whose moves are searched.
-/

namespace Rollerball

variable {V : Type} [LinearOrder V]

/-- The score `w` is no worse than `v` for a player. -/
def NoWorse (color : PlayerColor) (v w : V) : Prop :=
  match color with
  | .white => v ≤ w
  | .black => w ≤ v

namespace PlayerColor

def Beats : PlayerColor → V → V → Prop
  | .white, v, d => v < d
  | .black, v, d => v > d

instance (side : PlayerColor) (v d : V) : Decidable (side.Beats v d) :=
  match side with
  | .white => inferInstanceAs (Decidable (v < d))
  | .black => inferInstanceAs (Decidable (v > d))

def worst (env : Platform V) : PlayerColor → V
  | .white => env.lowest
  | .black => env.highest

theorem beats_worst (side : PlayerColor) (env : Platform V) {d : V}
    (hd : env.lowest < d ∧ d < env.highest) : side.Beats (side.worst env) d := by
  cases side with
  | white => exact hd.1
  | black => exact hd.2

theorem other_beats_worst (side : PlayerColor) (env : Platform V) {d : V}
    (hd : env.lowest < d ∧ d < env.highest) : side.Beats d (side.other.worst env) := by
  cases side with
  | white => exact hd.2
  | black => exact hd.1

/-- A window after the search of a move has returned `d`. -/
def narrow : PlayerColor → V × V → V → V × V
  | .white, window, d => (max window.1 d, window.2)
  | .black, window, d => (window.1, min window.2 d)

def pick : PlayerColor → V → V → V
  | .white => max
  | .black => min

end PlayerColor

section Scores

variable {side : PlayerColor} {u v w : V}

theorem NoWorse.refl (v : V) : NoWorse side v v := by cases side <;> exact le_rfl

theorem NoWorse.trans (h : NoWorse side u v) (h' : NoWorse side v w) : NoWorse side u w := by
  cases side with
  | white => exact le_trans h h'
  | black => exact le_trans h' h

theorem NoWorse.of_beats (h : side.Beats v w) : NoWorse side v w := by
  cases side <;> exact le_of_lt h

theorem not_beats : ¬side.Beats v w ↔ NoWorse side w v := by
  cases side <;> exact not_lt

theorem NoWorse.pick (h : NoWorse side u w) (h' : NoWorse side v w) :
    NoWorse side (side.pick u v) w := by
  cases side with
  | white => exact max_le h h'
  | black => exact le_min h h'

end Scores

variable [Zero V]

def sideLoop (side : PlayerColor) (child : Board → U16 → V → V → Search V (Board × V)) :
    List (MoveEval V) → Board → V × V → V → Search V (Board × V)
  | [], b, _, best => return (b, best)
  | x :: xs, b, window, best => do
    let (b, d) ← child b x.movement window.1 window.2
    let search ← readFlag
    if !search then return (b, 0)
    else
      let window := side.narrow window d
      if window.1 ≥ window.2 then return (b, d)
      else sideLoop side child xs b window (if side.Beats best d then d else best)

section Loops

variable (child : Board → U16 → V → V → Search V (Board × V)) (arr : List (MoveEval V)) (b : Board)

theorem maxLoop_eq (alpha beta maxmove : V) :
    maxLoop child beta arr b alpha maxmove = sideLoop .white child arr b (alpha, beta) maxmove := by
  induction arr generalizing b alpha maxmove with
  | nil => rfl
  | cons x xs ih =>
    simp only [maxLoop, sideLoop, ih]
    rfl

theorem minLoop_eq (alpha beta minmove : V) :
    minLoop child alpha arr b beta minmove = sideLoop .black child arr b (alpha, beta) minmove := by
  induction arr generalizing b beta minmove with
  | nil => rfl
  | cons x xs ih =>
    simp only [minLoop, sideLoop, ih]
    rfl

end Loops

variable (env : Platform V)

/-- `MAX_VAL` for White, `MIN_VAL` for Black. -/
def sideVal : PlayerColor → Nat → Board → V → V → Int → Int → Search V (Board × V)
  | .white => maxVal env
  | .black => minVal env

/-- A level of either with its loop as an argument. -/
def level (side : PlayerColor) (loop : Board → List (MoveEval V) → Search V (Board × V)) (b : Board)
    (i cutoff : Int) : Search V (Board × V) := do
  let search ← readFlag
  if !search then return (b, 0)
  else
    let (b, legalMoves) ← orderChildren env b (side = .black)
    if legalMoves.isEmpty then
      let d ← evaluate b 0
      return (b, d)
    else if i = cutoff then
      let d ← evaluate b legalMoves.length
      return (b, d)
    else
      let (b, _) ← orderChildren env b (side = .black)
      let search ← readFlag
      if !search then return (b, 0)
      else loop b legalMoves

section Levels

variable (side : PlayerColor) (fuel : Nat) (b : Board) (alpha beta : V) (i cutoff : Int)

theorem sideVal_zero : sideVal env side 0 b alpha beta i cutoff = .timeout := by
  cases side
  · rw [sideVal, maxVal]
  · rw [sideVal, minVal]

theorem sideVal_succ : sideVal env side (fuel + 1) b alpha beta i cutoff =
    level env side (fun b legalMoves => sideLoop side (fun b m alpha beta =>
        moveAndEval (fun b => sideVal env side.other fuel b alpha beta (i + 1) cutoff) b m)
      legalMoves b (alpha, beta) (side.worst env)) b i cutoff := by
  cases side with
  | white =>
    rw [sideVal, maxVal]
    simp only [maxLoop_eq]
    rfl
  | black =>
    rw [sideVal, minVal]
    simp only [minLoop_eq]
    rfl

end Levels

/-- `move_and_eval` as the root of a player calls it. -/
def sideChild (side : PlayerColor) (cutoff : Int) (b : Board) (m : U16) (alpha beta : V) :
    Search V (Board × V) :=
  moveAndEval (fun b => sideVal env side.other (levels cutoff) b alpha beta 0 cutoff) b m

def sideRoot (side : PlayerColor) (cutoff : Int) : List (MoveEval V) → Board → V × V →
    MoveEval V → Search V (Board × MoveEval V)
  | [], b, _, optimum => return (b, optimum)
  | x :: xs, b, window, optimum => do
    let (b, d) ← sideChild env side cutoff b x.movement window.1 window.2
    let search ← readFlag
    if !search then return (b, optimum)
    else
      let window := side.narrow window d
      if side.Beats optimum.eval d then
        store x.movement
        sideRoot side cutoff xs b window ⟨x.movement, d⟩
      else sideRoot side cutoff xs b window optimum

section Root

variable (cutoff : Int) (arr : List (MoveEval V)) (b : Board) (alpha beta : V)
  (optimum : MoveEval V)

theorem whiteLoop_eq : whiteLoop env cutoff beta arr b alpha optimum =
    sideRoot env .white cutoff arr b (alpha, beta) optimum := by
  induction arr generalizing b alpha optimum with
  | nil => rfl
  | cons x xs ih =>
    simp only [whiteLoop, sideRoot, ih]
    rfl

theorem blackLoop_eq : blackLoop env cutoff alpha arr b beta optimum =
    sideRoot env .black cutoff arr b (alpha, beta) optimum := by
  induction arr generalizing b beta optimum with
  | nil => rfl
  | cons x xs ih =>
    simp only [blackLoop, sideRoot, ih]
    rfl

end Root

end Rollerball
