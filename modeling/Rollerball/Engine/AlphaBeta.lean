import Rollerball.Engine.Minimax
import Rollerball.Engine.Sides

/-!
# Alpha-beta through a window

An undisturbed `MAX_VAL` or `MIN_VAL` gives the board back with the last capture forgotten, and
returns the plain minimax value seen through its window.
-/

namespace Rollerball

open Proc (Yields)
open Minimax

section Order

variable {V : Type} [LinearOrder V] (env : Platform V) (eval : Board × Nat → V) {b c : Board}

def childScore (b : Board) (m : U16) : MoveEval V :=
  ⟨m, eval (b.doMove m, ((b.doMove m).getLegalMoves env.order).length)⟩

theorem orderLoop_yields (reverse : Bool) (ms : List U16) (hms : ∀ m ∈ ms, Undoes b m)
    (hc : c.forgetKill = b.forgetKill) (arr : List (MoveEval V)) :
    ∃ c', c'.forgetKill = b.forgetKill ∧ (ms ≠ [] → c' = b.forgetKill) ∧ (ms = [] → c' = c) ∧
      (orderLoop env reverse ms c arr).Yields eval []
        (c', env.sort reverse (arr ++ ms.map (childScore env eval b))) := by
  induction ms generalizing c arr with
  | nil =>
    refine ⟨c, hc, fun h => absurd rfl h, fun _ => rfl, ?_⟩
    rw [List.map_nil, List.append_nil]
    exact Proc.yields_done _
  | cons m ms ih =>
    have hundo : (c.doMove m).undoLastMove m = b.forgetKill := by
      rw [Board.doMove_congr hc]
      exact hms m List.mem_cons_self
    have hforget : b.forgetKill.forgetKill = b.forgetKill := rfl
    obtain ⟨c', hc', hcons, hnil, hrun⟩ := ih (fun m' hm' => hms m' (List.mem_cons_of_mem _ hm'))
      hforget (arr ++ [childScore env eval b m])
    refine ⟨c', hc', fun _ => ?_, fun h => absurd h (List.cons_ne_nil m ms), ?_⟩
    · by_cases hms' : ms = []
      · exact hnil hms'
      · exact hcons hms'
    · apply Yields.poll
      apply Yields.ask
      rw [hundo, Board.doMove_congr hc]
      rwa [List.append_assoc] at hrun

def ordered (reverse : Bool) (b : Board) : List (MoveEval V) :=
  env.sort reverse ((env.order.visit (b.getLegalMoves env.order)).map (childScore env eval b))

theorem ordered_perm (reverse : Bool) (b : Board) :
    ((ordered env eval reverse b).map MoveEval.movement).Perm (b.getLegalMoves env.order) := by
  refine ((env.sort_perm reverse _).map _).trans ?_
  rw [List.map_map]
  refine List.Perm.trans ?_ (env.order.visit_perm _)
  exact List.Perm.of_eq (List.map_id _)

theorem mem_ordered {reverse : Bool} {x : MoveEval V} : x ∈ ordered env eval reverse b ↔
    ∃ m ∈ b.getLegalMoves env.order, childScore env eval b m = x := by
  rw [ordered, (env.sort_perm reverse _).mem_iff, List.mem_map]
  exact exists_congr fun m => and_congr_left' env.order.mem_visit

theorem ordering_facts {env : Platform V} {arr : List (MoveEval V)}
    (hperm : (arr.map MoveEval.movement).Perm (b.getLegalMoves env.order)) :
    (arr = [] ↔ b.getLegalMoves env.order = []) ∧
      arr.length = (b.getLegalMoves env.order).length ∧
      ∀ x ∈ arr, x.movement ∈ b.getLegalMoves env.order := by
  have hlength := hperm.length_eq
  rw [List.length_map] at hlength
  refine ⟨?_, hlength, fun x hx => hperm.mem_iff.mp (List.mem_map_of_mem hx)⟩
  rw [← List.length_eq_zero_iff, hlength, List.length_eq_zero_iff]

/-- An undisturbed `Order_Children` sorts the legal moves and forgets the last capture, unless
there is no move to try. -/
theorem orderChildren_ordered (reverse : Bool)
    (hms : ∀ m ∈ b.getLegalMoves env.order, Undoes b m) (hc : c.forgetKill = b.forgetKill) :
    ∃ c', c'.forgetKill = b.forgetKill ∧
      (ordered env eval reverse b ≠ [] → c' = b.forgetKill) ∧
      (ordered env eval reverse b = [] → c' = c) ∧
      (orderChildren env c reverse).Yields eval [] (c', ordered env eval reverse b) := by
  obtain ⟨c', hc', hcons, hnil, hrun⟩ := orderLoop_yields env eval reverse
    (env.order.visit (b.getLegalMoves env.order))
    (fun m hm => hms m (env.order.mem_visit.mp hm)) hc []
  have hempty : ordered env eval reverse b = [] ↔
      env.order.visit (b.getLegalMoves env.order) = [] := by
    rw [(ordering_facts (ordered_perm env eval reverse b)).1, ← List.length_eq_zero_iff,
      ← (env.order.visit_perm _).length_eq, List.length_eq_zero_iff]
  refine ⟨c', hc', fun h => hcons (mt hempty.mpr h), fun h => hnil (hempty.mp h), ?_⟩
  rw [orderChildren, Board.getLegalMoves_congr env.order hc]
  exact hrun

theorem orderChildren_yields (reverse : Bool)
    (hms : ∀ m ∈ b.getLegalMoves env.order, Undoes b m) (hc : c.forgetKill = b.forgetKill) :
    ∃ c' arr, c'.forgetKill = b.forgetKill ∧
      (arr.map MoveEval.movement).Perm (b.getLegalMoves env.order) ∧
      (arr ≠ [] → c' = b.forgetKill) ∧ (arr = [] → c' = c) ∧
      (orderChildren env c reverse).Yields eval [] (c', arr) := by
  obtain ⟨c', hc', hcons, hnil, hrun⟩ := orderChildren_ordered env eval reverse hms hc
  exact ⟨c', _, hc', ordered_perm env eval reverse b, hcons, hnil, hrun⟩

end Order

/-- `move_and_eval` gives back the board and the value of the subtree, whose own capture fields
it saves. -/
theorem moveAndEval_yields {V : Type} [Zero V] {eval : Board × Nat → V} {b c d : Board} {m : U16}
    {v : V} {val : Board → Search V (Board × V)} (hc : c.forgetKill = b.forgetKill)
    (hundo : Undoes b m) (hd : d.forgetKill = (b.doMove m).forgetKill)
    (hval : (val (b.doMove m)).Yields eval [] (d, v)) :
    (moveAndEval val c m).Yields eval [] (b.forgetKill, v) := by
  rw [← Board.doMove_congr hc] at hval hd
  apply Yields.poll
  apply hval.bind_nil
  have hback : (restoreKilled (c.doMove m) d).undoLastMove m = b.forgetKill := by
    rw [Board.restoreKilled_eq hd, Board.doMove_congr hc, hundo]
  rw [← hback]
  exact Proc.yields_done _

section Window

variable {V : Type} [LinearOrder V] [Zero V] {env : Platform V} {eval : Board × Nat → V} {b : Board}

/-- In every window, the search of a legal move gives the board back and a value of the move. -/
def Searches (env : Platform V) (eval : Board × Nat → V) (b : Board) (value : U16 → V)
    (child : Board → U16 → V → V → Search V (Board × V)) : Prop :=
  ∀ m ∈ b.getLegalMoves env.order, ∀ alpha beta, alpha < beta →
    ∃ d, (child b.forgetKill m alpha beta).Yields eval [] (b.forgetKill, d) ∧
      Approx alpha beta (value m) d

section Scan

variable {side : PlayerColor} {alpha beta w v d best : V} {window : V × V}

/-- The state of the loop of a player that began with the window `alpha`, `beta`: its window has
narrowed to `window`, and `w` is the true value so far. -/
def Scan (env : Platform V) (side : PlayerColor) (alpha beta w : V) (window : V × V) (best : V) :
    Prop :=
  match side with
  | .white => MaxScan env.lowest alpha beta w window.1 best ∧ window.2 = beta
  | .black => MinScan env.highest alpha beta w window.2 best ∧ window.1 = alpha

def Room (env : Platform V) (side : PlayerColor) (alpha beta : V) : Prop :=
  match side with
  | .white => env.lowest < beta
  | .black => alpha < env.highest

omit [Zero V]

theorem Scan.init (side : PlayerColor) (hwindow : alpha < beta) :
    Scan env side alpha beta (side.worst env) (alpha, beta) (side.worst env) := by
  cases side with
  | white => exact ⟨MaxScan.init hwindow, rfl⟩
  | black => exact ⟨MinScan.init hwindow, rfl⟩

theorem Scan.window_lt (h : Scan env side alpha beta w window best) : window.1 < window.2 := by
  cases side with
  | white =>
    obtain ⟨hscan, rfl⟩ := h
    exact hscan.window
  | black =>
    obtain ⟨hscan, rfl⟩ := h
    have hwindow : window.1 < window.2 := hscan.window
    exact hwindow

theorem Scan.step (h : Scan env side alpha beta w window best) (hd : Approx window.1 window.2 v d)
    (hv : env.lowest < v ∧ v < env.highest)
    (hcut : ¬(side.narrow window d).1 ≥ (side.narrow window d).2) :
    Scan env side alpha beta (side.pick w v) (side.narrow window d)
        (if side.Beats best d then d else best) ∧ Room env side alpha beta := by
  cases side with
  | white =>
    obtain ⟨hscan, rfl⟩ := h
    have hlt := hd.lt_of_lt ((le_max_right _ _).trans_lt (not_le.mp hcut))
    exact ⟨⟨hscan.step hd hv.1 hcut, rfl⟩, hv.1.trans hlt⟩
  | black =>
    obtain ⟨hscan, rfl⟩ := h
    refine ⟨⟨hscan.step hd hv.2 hcut, rfl⟩, lt_of_lt_of_le ?_ hv.2.le⟩
    by_contra hle
    exact hcut ((min_le_right _ _).trans (hd.low (not_lt.mp hle)).2)

theorem Scan.cut (h : Scan env side alpha beta w window best) (hd : Approx window.1 window.2 v d)
    (hcut : (side.narrow window d).1 ≥ (side.narrow window d).2) {v' : V}
    (hv' : NoWorse side v v') : Approx alpha beta v' d := by
  cases side with
  | white =>
    obtain ⟨hscan, rfl⟩ := h
    exact hscan.cut hd hcut hv'
  | black =>
    obtain ⟨hscan, rfl⟩ := h
    exact hscan.cut hd hcut hv'

theorem Scan.finish (h : Scan env side alpha beta w window best)
    (hroom : Room env side alpha beta) : Approx alpha beta w best := by
  cases side with
  | white => exact h.1.finish hroom
  | black => exact h.1.finish hroom

instance (side : PlayerColor) : RightCommutative (side.pick : V → V → V) := by
  cases side <;> unfold PlayerColor.pick <;> infer_instance

theorem noWorse_foldl {l : List V} (hv : v ∈ l) (w : V) : NoWorse side v (l.foldl side.pick w) := by
  cases side with
  | white => exact le_foldl_max_of_mem hv w
  | black => exact foldl_min_le_of_mem hv w

end Scan

theorem sideLoop_yields {side : PlayerColor} {value : U16 → V}
    {child : Board → U16 → V → V → Search V (Board × V)} {arr : List (MoveEval V)} {alpha beta : V}
    (hchild : Searches env eval b value child)
    (hvalue : ∀ m, env.lowest < value m ∧ value m < env.highest)
    (harr : ∀ x ∈ arr, x.movement ∈ b.getLegalMoves env.order) {w best : V} {window : V × V}
    (hscan : Scan env side alpha beta w window best)
    (hlast : arr = [] → Room env side alpha beta) :
    ∃ d, (sideLoop side child arr b.forgetKill window best).Yields eval [] (b.forgetKill, d) ∧
      Approx alpha beta ((arr.map fun x => value x.movement).foldl side.pick w) d := by
  induction arr generalizing w window best with
  | nil => exact ⟨best, Proc.yields_done _, hscan.finish (hlast rfl)⟩
  | cons x xs ih =>
    obtain ⟨d, hrun, hd⟩ :=
      hchild x.movement (harr x List.mem_cons_self) window.1 window.2 hscan.window_lt
    by_cases hcut : (side.narrow window d).1 ≥ (side.narrow window d).2
    · refine ⟨d, hrun.bind_nil (Yields.poll ?_),
        hscan.cut hd hcut (noWorse_foldl List.mem_cons_self w)⟩
      show Yields eval (if (side.narrow window d).1 ≥ (side.narrow window d).2 then _ else _) [] _
      rw [if_pos hcut]
      exact Proc.yields_done _
    · obtain ⟨hstep, hroom⟩ := hscan.step hd (hvalue _) hcut
      obtain ⟨d', hrun', hd'⟩ := ih (fun y hy => harr y (List.mem_cons_of_mem _ hy)) hstep
        fun _ => hroom
      refine ⟨d', hrun.bind_nil (Yields.poll ?_), hd'⟩
      show Yields eval (if (side.narrow window d).1 ≥ (side.narrow window d).2 then _ else _) [] _
      rw [if_neg hcut]
      exact hrun'

/-- What a search of a board is to return for a tree of value `v`. -/
def Returns (eval : Board × Nat → V) (b : Board) (alpha beta v : V)
    (p : Search V (Board × V)) : Prop :=
  ∃ c d, c.forgetKill = b.forgetKill ∧ p.Yields eval [] (c, d) ∧ Approx alpha beta v d

theorem Returns.searches {value : U16 → V} {val : Board → V → V → Search V (Board × V)}
    (hundo : ∀ m ∈ b.getLegalMoves env.order, Undoes b m)
    (hval : ∀ m ∈ b.getLegalMoves env.order, ∀ alpha beta, alpha < beta →
      Returns eval (b.doMove m) alpha beta (value m) (val (b.doMove m) alpha beta)) :
    Searches env eval b value fun c m alpha beta =>
      moveAndEval (fun c => val c alpha beta) c m := by
  intro m hm alpha beta hwindow
  obtain ⟨c, d, hc, hrun, hd⟩ := hval m hm alpha beta hwindow
  exact ⟨d, moveAndEval_yields rfl (hundo m hm) hc hrun, hd⟩

omit [Zero V] in
theorem minimax_side {depth : Nat} (side : PlayerColor) (h : b.getLegalMoves env.order ≠ []) :
    minimax env eval (depth + 1) (side = .white) b = ((b.getLegalMoves env.order).map fun m =>
      minimax env eval depth (side.other = .white) (b.doMove m)).foldl side.pick
        (side.worst env) := by
  cases side with
  | white => exact minimax_max depth h
  | black => exact minimax_min depth h

theorem level_returns (side : PlayerColor)
    {loop : Board → List (MoveEval V) → Search V (Board × V)} {alpha beta : V} {i cutoff : Int}
    (hundo : ∀ m ∈ b.getLegalMoves env.order, Undoes b m)
    (hloop : i ≠ cutoff → ∀ arr : List (MoveEval V), arr ≠ [] →
      (arr.map MoveEval.movement).Perm (b.getLegalMoves env.order) →
        ∃ d, (loop b.forgetKill arr).Yields eval [] (b.forgetKill, d) ∧
          Approx alpha beta (minimax env eval (cutoff - i).toNat (side = .white) b) d) :
    Returns eval b alpha beta (minimax env eval (cutoff - i).toNat (side = .white) b)
      (level env side loop b i cutoff) := by
  have hforget : b.forgetKill.forgetKill = b.forgetKill := rfl
  obtain ⟨c, arr, hc, hperm, hcons, hnil, hrun⟩ :=
    orderChildren_yields env eval (side = .black) hundo rfl
  obtain ⟨hempty, hlength, _⟩ := ordering_facts hperm
  by_cases harr : arr = []
  · refine ⟨b, _, rfl, Yields.poll (hrun.bind_nil ?_), Approx.of_eq⟩
    rw [minimax_leaf _ _ (hempty.mp harr), hnil harr]
    subst harr
    exact Yields.ask (Proc.yields_done _)
  · have hne := mt hempty.mpr harr
    have hisEmpty : arr.isEmpty = false := by simpa using harr
    obtain rfl := hcons harr
    by_cases hic : i = cutoff
    · refine ⟨b.forgetKill, _, rfl, Yields.poll (hrun.bind_nil ?_), Approx.of_eq⟩
      have hzero : (cutoff - i).toNat = 0 := by simp [hic]
      rw [hzero, minimax_zero _ hne, ← hlength]
      simp only [hisEmpty, Bool.false_eq_true, if_false, if_pos hic]
      exact Yields.ask (Proc.yields_done _)
    · obtain ⟨c', arr', _, hperm', hcons', _, hrun'⟩ :=
        orderChildren_yields env eval (side = .black) hundo hforget
      obtain rfl := hcons' (mt (ordering_facts hperm').1.mp hne)
      obtain ⟨d, hyields, hd⟩ := hloop hic arr harr hperm
      refine ⟨b.forgetKill, d, rfl, Yields.poll (hrun.bind_nil ?_), hd⟩
      simp only [hisEmpty, Bool.false_eq_true, if_false, if_neg hic]
      exact hrun'.bind_nil (Yields.poll hyields)

/-- `MAX_VAL` and `MIN_VAL` compute the minimax value through their window. -/
theorem val_returns (h : Bounded env eval) (side : PlayerColor) (fuel : Nat) {alpha beta : V}
    (hwindow : alpha < beta) {i cutoff : Int} (hi : i ≤ cutoff)
    (hfuel : (cutoff - i).toNat < fuel)
    (hrestores : Board.Restores env.order ((cutoff - i).toNat + 1) b) :
    Returns eval b alpha beta (minimax env eval (cutoff - i).toNat (side = .white) b)
      (sideVal env side fuel b alpha beta i cutoff) := by
  induction fuel generalizing side b alpha beta i with
  | zero => exact absurd hfuel (Nat.not_lt_zero _)
  | succ fuel ih =>
    rw [sideVal_succ]
    refine level_returns side hrestores.undoes fun hne arr harr hperm => ?_
    obtain ⟨hempty, _, hlegal⟩ := ordering_facts hperm
    have hdepth : (cutoff - i).toNat = (cutoff - (i + 1)).toNat + 1 := by omega
    rw [hdepth] at hrestores
    have hsearches : Searches env eval b
        (fun m => minimax env eval (cutoff - (i + 1)).toNat (side.other = .white) (b.doMove m))
        fun c m alpha beta =>
          moveAndEval (fun c => sideVal env side.other fuel c alpha beta (i + 1) cutoff) c m :=
      Returns.searches hrestores.undoes fun m hm alpha beta hwindow =>
        ih side.other hwindow (by omega) (by omega) (hrestores m hm).2
    obtain ⟨d, hloop, hd⟩ := sideLoop_yields hsearches
      (fun m => minimax_bounded h _ _ (b.doMove m)) hlegal (Scan.init side hwindow)
      fun hnil => absurd hnil harr
    refine ⟨d, hloop, ?_⟩
    rw [hdepth, minimax_side side (mt hempty.mpr harr), ← (hperm.map _).foldl_eq, List.map_map]
    exact hd

end Window

end Rollerball
