import Rollerball.Board.Undo
import Rollerball.Engine.Search
import Rollerball.Lib.Minimax

/-!
# Plain minimax

The full-width tree of a board, and the boards on which playing and taking back restores the
position in all of it. What undo leaves of a capture is only that it is forgotten, which changes
neither the legal moves nor the boards after them.
-/

namespace Rollerball

namespace Board

/-- Playing and taking back restores the board at every node of the next `depth` levels. -/
def Restores (order : VisitOrder) : Nat → Board → Prop
  | 0, _ => True
  | depth + 1, b => ∀ m ∈ b.getLegalMoves order,
      ((b.doMove m).undoLastMove m).SamePosition b ∧ Restores order depth (b.doMove m)

section Forget

variable {b c : Board} {m : U16}

theorem undoLastMove_killed (d : Board) (m : U16) :
    (d.undoLastMove m).lastKilledPiece = 0 ∧ (d.undoLastMove m).lastKilledPieceIdx = none := by
  cases hfound : (List.finRange 12).find? fun i => d.pieces i = getp1 m <;>
    cases hidx : d.lastKilledPieceIdx <;>
      simp [undoLastMove, rawUndoLastMove, flipPlayer, put, hfound, hidx]

theorem SamePosition.undo_eq (h : ((c.doMove m).undoLastMove m).SamePosition b) :
    (c.doMove m).undoLastMove m = b.forgetKill := by
  obtain ⟨hpiece, hidx⟩ := undoLastMove_killed (c.doMove m) m
  generalize (c.doMove m).undoLastMove m = d at h hpiece hidx
  apply ext_fields
  · exact congrFun h.pieces
  · exact congrFun h.board0
  · exact congrFun h.board90
  · exact congrFun h.board180
  · exact congrFun h.board270
  · exact h.playerToPlay
  · exact hpiece
  · exact hidx

theorem doMove_forgetKill (b : Board) (m : U16) : b.forgetKill.doMove m = b.doMove m := rfl

theorem doMove_congr (h : c.forgetKill = b.forgetKill) (m : U16) : c.doMove m = b.doMove m := by
  rw [← doMove_forgetKill c, h, doMove_forgetKill]

theorem getLegalMoves_forgetKill (order : VisitOrder) (b : Board) :
    b.forgetKill.getLegalMoves order = b.getLegalMoves order := by
  have hmoves : b.forgetKill.getPseudolegalMoves order = b.getPseudolegalMoves order := rfl
  rw [getLegalMoves, getLegalMoves, hmoves]
  cases order.visit (b.getPseudolegalMoves order) with
  | nil => rfl
  | cons m ms => rfl

theorem getLegalMoves_congr (order : VisitOrder) (h : c.forgetKill = b.forgetKill) :
    c.getLegalMoves order = b.getLegalMoves order := by
  rw [← getLegalMoves_forgetKill order c, h, getLegalMoves_forgetKill]

theorem restoreKilled_eq (h : c.forgetKill = b.forgetKill) : restoreKilled b c = b := by
  have hfields : restoreKilled b c = restoreKilled b c.forgetKill := rfl
  rw [hfields, h]
  rfl

end Forget

end Board

/-- No move of the next `depth` plies promotes. -/
def Board.PromotionFree (order : VisitOrder) : Nat → Board → Prop
  | 0, _ => True
  | depth + 1, b => ∀ m ∈ b.getLegalMoves order,
      getpromo m = 0 ∧ PromotionFree order depth (b.doMove m)

/-- A tree without promotions restores its boards. -/
theorem Board.PromotionFree.restores {codes : Slot → List U8} {order : VisitOrder} {depth : Nat}
    {b : Board} (h : Board.PromotionFree order depth b) (hcodes : Admissible codes)
    (hwf : b.Wf codes) : Board.Restores order depth b := by
  induction depth generalizing b with
  | zero => trivial
  | succ depth ih =>
    intro m hm
    obtain ⟨hpromo, hrest⟩ := h m hm
    obtain ⟨i, k, hmove⟩ := hwf.legal_mover order hcodes hm
    constructor
    · rw [Board.undoLastMove_doMove, hmove.undo_exact hwf hpromo]
      exact Board.SamePosition.forgetKill b
    · exact ih hrest (hwf.doMove order hcodes hm)

theorem Board.Restores.mono {order : VisitOrder} {depth depth' : Nat} (hle : depth ≤ depth')
    {b : Board} (h : Board.Restores order depth' b) : Board.Restores order depth b := by
  induction depth generalizing depth' b with
  | zero => trivial
  | succ depth ih =>
    obtain ⟨depth', rfl⟩ : ∃ n, depth' = n + 1 := ⟨depth' - 1, by omega⟩
    exact fun m hm => ⟨(h m hm).1, ih (Nat.le_of_succ_le_succ hle) (h m hm).2⟩

def Undoes (b : Board) (m : U16) : Prop := (b.doMove m).undoLastMove m = b.forgetKill

theorem Board.Restores.undoes {order : VisitOrder} {depth : Nat} {b : Board}
    (h : Board.Restores order (depth + 1) b) : ∀ m ∈ b.getLegalMoves order, Undoes b m :=
  fun m hm => (h m hm).1.undo_eq

open Minimax

section Plain

variable {V : Type} [LinearOrder V] (env : Platform V) (eval : Board × Nat → V)

/-- The full-width tree below a board, `depth` levels deep, without any window. A leaf with legal
moves is scored after `Order_Children` has forgotten the last capture. -/
def minimax : Nat → Bool → Board → V
  | depth, maximize, b =>
    if (b.getLegalMoves env.order).isEmpty then eval (b, 0)
    else match depth with
      | 0 => eval (b.forgetKill, (b.getLegalMoves env.order).length)
      | depth + 1 =>
        let values := (b.getLegalMoves env.order).map fun m =>
          minimax depth (!maximize) (b.doMove m)
        if maximize then values.foldl max env.lowest else values.foldl min env.highest

/-- The evaluator stays strictly between `-DBL_MAX` and `DBL_MAX`. -/
def Bounded : Prop := ∀ q, env.lowest < eval q ∧ eval q < env.highest

variable {env eval}

section Nodes

variable {b : Board} (depth : Nat) (maximize : Bool)

theorem minimax_leaf (h : b.getLegalMoves env.order = []) :
    minimax env eval depth maximize b = eval (b, 0) := by
  cases depth <;> rw [minimax, h] <;> rfl

theorem minimax_zero (h : b.getLegalMoves env.order ≠ []) :
    minimax env eval 0 maximize b = eval (b.forgetKill, (b.getLegalMoves env.order).length) := by
  rw [minimax, if_neg (by simpa using h)]

theorem minimax_max (h : b.getLegalMoves env.order ≠ []) :
    minimax env eval (depth + 1) true b = ((b.getLegalMoves env.order).map fun m =>
      minimax env eval depth false (b.doMove m)).foldl max env.lowest := by
  rw [minimax, if_neg (by simpa using h)]
  rfl

theorem minimax_min (h : b.getLegalMoves env.order ≠ []) :
    minimax env eval (depth + 1) false b = ((b.getLegalMoves env.order).map fun m =>
      minimax env eval depth true (b.doMove m)).foldl min env.highest := by
  rw [minimax, if_neg (by simpa using h)]
  rfl

theorem lt_minimax_max {v : V} {m : U16} (hm : m ∈ b.getLegalMoves env.order)
    (h : v < minimax env eval depth false (b.doMove m)) :
    v < minimax env eval (depth + 1) true b := by
  rw [minimax_max _ (List.ne_nil_of_mem hm)]
  refine h.trans_le (le_foldl_max_of_mem ?_ _)
  exact List.mem_map.mpr ⟨m, hm, rfl⟩

theorem minimax_min_lt {v : V} {m : U16} (hm : m ∈ b.getLegalMoves env.order)
    (h : minimax env eval depth true (b.doMove m) < v) :
    minimax env eval (depth + 1) false b < v := by
  rw [minimax_min _ (List.ne_nil_of_mem hm)]
  refine (foldl_min_le_of_mem ?_ _).trans_lt h
  exact List.mem_map.mpr ⟨m, hm, rfl⟩

theorem minimax_max_lt {v : V} (hlowest : env.lowest < v)
    (hleaf : b.getLegalMoves env.order = [] → eval (b, 0) < v)
    (h : ∀ m ∈ b.getLegalMoves env.order, minimax env eval depth false (b.doMove m) < v) :
    minimax env eval (depth + 1) true b < v := by
  by_cases hnone : b.getLegalMoves env.order = []
  · rw [minimax_leaf _ _ hnone]
    exact hleaf hnone
  · rw [minimax_max _ hnone]
    exact foldl_max_lt (List.forall_mem_map.mpr h) hlowest

theorem lt_minimax_min {v : V} (hhighest : v < env.highest)
    (hleaf : b.getLegalMoves env.order = [] → v < eval (b, 0))
    (h : ∀ m ∈ b.getLegalMoves env.order, v < minimax env eval depth true (b.doMove m)) :
    v < minimax env eval (depth + 1) false b := by
  by_cases hnone : b.getLegalMoves env.order = []
  · rw [minimax_leaf _ _ hnone]
    exact hleaf hnone
  · rw [minimax_min _ hnone]
    exact lt_foldl_min (List.forall_mem_map.mpr h) hhighest

end Nodes

theorem minimax_bounded (h : Bounded env eval) (depth : Nat) (maximize : Bool) (b : Board) :
    env.lowest < minimax env eval depth maximize b ∧
      minimax env eval depth maximize b < env.highest := by
  induction depth generalizing maximize b with
  | zero =>
    rw [minimax]
    split
    · exact h _
    · exact h _
  | succ depth ih =>
    have hrange := (h (b, 0)).1.trans (h (b, 0)).2
    rw [minimax]
    split
    · exact h _
    rename_i hmoves
    have hne : (b.getLegalMoves env.order).map (fun m =>
        minimax env eval depth (!maximize) (b.doMove m)) ≠ [] := by
      simpa using hmoves
    have hlow : ∀ v ∈ (b.getLegalMoves env.order).map (fun m =>
        minimax env eval depth (!maximize) (b.doMove m)), env.lowest < v ∧ v < env.highest := by
      intro v hv
      obtain ⟨m, _, rfl⟩ := List.mem_map.mp hv
      exact ih _ _
    cases maximize with
    | true =>
      exact ⟨lt_foldl_max hne fun v hv => (hlow v hv).1,
        foldl_max_lt (fun v hv => (hlow v hv).2) hrange⟩
    | false =>
      exact ⟨lt_foldl_min (fun v hv => (hlow v hv).1) hrange,
        foldl_min_lt hne fun v hv => (hlow v hv).2⟩

end Plain

section Pawnless

variable {b : Board} (order : VisitOrder)

theorem Board.promotionFree_of_pawnless (h : b.Wf slotCodes)
    (hpawns : ∀ i, startType i = .pawn → b.pieces i = DEAD) (depth : Nat) :
    Board.PromotionFree order depth b := by
  induction depth generalizing b with
  | zero => trivial
  | succ depth ih =>
    intro m hm
    obtain ⟨i, k, hmove⟩ := h.legal_mover order admissible_slotCodes hm
    constructor
    · refine hmove.promo_cases.resolve_right ?_
      intro h
      rcases h with ⟨rfl, _⟩
      have hcode := hmove.code (h.loose admissible_slotCodes)
      have hdead := hpawns i (startType_of_kindOf_pawn hcode hmove.kind)
      exact hmove.source.ne_dead (by rw [← hmove.slot, hdead])
    · exact ih (h.doMove order admissible_slotCodes hm) fun j hj =>
        h.dead_doMove order admissible_slotCodes hm (hpawns j hj)

theorem Board.restores_of_pawnless (h : b.Wf slotCodes)
    (hpawns : ∀ i, startType i = .pawn → b.pieces i = DEAD) (depth : Nat) :
    Board.Restores order depth b :=
  (Board.promotionFree_of_pawnless order h hpawns depth).restores admissible_slotCodes h

def Board.kings : Board :=
  let zero : Square → U8 := fun _ => 0
  let pieces : Slot → Square := fun i => if startType i = .king then startSquare i else DEAD
  let board0 := ([Slot.wKing, Slot.bKing].foldl fun board i =>
    Function.update board (startSquare i) ((slotColor i).bits ||| PieceType.king.bits)) zero
  { pieces := pieces
    board0 := board0
    board90 := rotateBoard board0 zero cw90
    board180 := rotateBoard board0 zero cw180
    board270 := rotateBoard board0 zero acw90
    playerToPlay := .white
    lastKilledPiece := 0
    lastKilledPieceIdx := none }

theorem Board.kings_wf : Board.kings.Wf slotCodes where
  board90 := rotateBoard_apply cw90_injective _ _
  board180 := rotateBoard_apply cw180_injective _ _
  board270 := rotateBoard_apply acw90_injective _ _
  distinct := by decide +kernel
  playable := by decide +kernel
  code := by decide +kernel
  empty := by decide +kernel

end Pawnless

end Rollerball
