import Rollerball.Board.Moves
import Rollerball.Rules.Value
import Mathlib.Algebra.BigOperators.Ring.Finset

/-!
# How many moves there are

A generator inserts at most one move for each square its loops visit, so every kind of piece has a
bound of its own, and a player has no more moves than the pieces on the ring allow.
-/

namespace Rollerball

open Census

theorem length_insert_le (moves : MoveSet) (m : U16) :
    (moves.insert m).length ≤ moves.length + 1 := by
  rw [List.length_insert]
  split <;> omega

theorem length_foldl_insert_le {β : Type*} (f : β → U16) (xs : List β) (moves : MoveSet) :
    (xs.foldl (fun acc x => acc.insert (f x)) moves).length ≤ moves.length + xs.length := by
  induction xs generalizing moves with
  | nil => exact le_rfl
  | cons x xs ih =>
    have hinsert := length_insert_le moves (f x)
    have hrest := ih (moves.insert (f x))
    rw [List.foldl_cons, List.length_cons]
    omega

section Generators

variable (board : Square → U8) (color : U8) (p0 : Square)

theorem insertUnlessOwn_length (p1 : Square) (m : U16) (moves : MoveSet) :
    (insertUnlessOwn board color p1 m moves).length ≤ moves.length + 1 := by
  rw [insertUnlessOwn]
  split
  · exact length_insert_le moves m
  · exact Nat.le_succ _

theorem slideMoves_length (squares : List Square) (moves : MoveSet) :
    (slideMoves board color p0 squares moves).1.length ≤ moves.length + squares.length := by
  induction squares generalizing moves with
  | nil => exact le_rfl
  | cons p1 rest ih =>
    have hinsert := length_insert_le moves (move p0 p1)
    have hrest := ih (moves.insert (move p0 p1))
    rw [slideMoves, List.length_cons]
    split_ifs
    · exact Nat.le_add_right _ _
    · show (moves.insert (move p0 p1)).length ≤ _
      omega
    · omega

/-- At most as many moves as its generator may insert for a piece of a kind. -/
def stride : PieceType → Nat
  | .rook => 16
  | .bishop => 8
  | .king => 7
  | .pawn => 5

theorem ite_length {P : Prop} [Decidable P] {n k : Nat} {moves moves' : MoveSet}
    (hmoves : moves.length ≤ k) (h : moves'.length ≤ moves.length + n) :
    (if P then moves' else moves).length ≤ k + if P then n else 0 := by
  split_ifs <;> omega

theorem constructBottomPawnMovesWithBoard_length (promote : Bool) :
    (constructBottomPawnMovesWithBoard p0 board promote).length ≤ stride .pawn := by
  unfold constructBottomPawnMovesWithBoard
  lift_lets
  extract_lets color advance first second
  have hadvance : ∀ p1 moves, (advance p1 moves).length ≤ moves.length + 2 := by
    intro p1 moves
    show (if promote then _ else _ : MoveSet).length ≤ _
    have hrook := insertUnlessOwn_length board color p1 (movePromo p0 p1 pawnRook.toNat) moves
    have hbishop := insertUnlessOwn_length board color p1 (movePromo p0 p1 pawnBishop.toNat)
      (insertUnlessOwn board color p1 (movePromo p0 p1 pawnRook.toNat) moves)
    have hplain := insertUnlessOwn_length board color p1 (move p0 p1) moves
    split <;> omega
  have hfirst : first.length ≤ 2 := hadvance _ []
  have hsecond : second.length ≤ 4 := (hadvance _ _).trans (Nat.add_le_add_right hfirst 2)
  have hlast := insertUnlessOwn_length board color 17 (move p0 17) second
  show _ ≤ 5
  split <;> omega

theorem constructBottomKingMovesWithBoard_length :
    (constructBottomKingMovesWithBoard p0 board).length ≤ stride .king := by
  unfold constructBottomKingMovesWithBoard
  lift_lets
  extract_lets color step x m1 m2 m3 m4 m5 m6 m7
  have hstep : ∀ p1 moves, (step p1 moves).length ≤ moves.length + 1 := fun p1 moves =>
    insertUnlessOwn_length board color p1 (move p0 p1) moves
  have h1 : m1.length ≤ 1 := hstep _ []
  have h2 : m2.length ≤ 2 := (hstep _ _).trans (Nat.add_le_add_right h1 1)
  have h3 := ite_length (P := p0 = 10) h2 (hstep (square (x - 1) 2) m2)
  have h4 := ite_length (P := p0 ≠ 6) h3 (hstep (square (x + 1) 0) m3)
  have h5 := ite_length (P := p0 ≠ 6) h4 (hstep (square (x + 1) 1) m4)
  have h6 := ite_length (P := p0 ≥ 12) h5 (hstep (square (x + 1) 2) m5)
  have h7 := ite_length (P := p0 = 13) h6 (hstep (square x 2) m6)
  have hsteps : ∀ p0 : Square, 2 + (if p0 = 10 then 1 else 0) + (if p0 ≠ 6 then 1 else 0) +
      (if p0 ≠ 6 then 1 else 0) + (if p0 ≥ 12 then 1 else 0) + (if p0 = 13 then 1 else 0) ≤ 6 := by
    decide
  exact (hstep _ m7).trans (Nat.add_le_add_right (h7.trans (hsteps p0)) 1)

theorem constructBottomBishopMovesWithBoard_length :
    (constructBottomBishopMovesWithBoard p0 board).length ≤ stride .bishop := by
  unfold constructBottomBishopMovesWithBoard
  lift_lets
  extract_lets color m0 topRight m1 bottomRight m2 m3
  have h0 : m0.length ≤ 0 := le_rfl
  have h1 := ite_length (P := p0 < 6 ∨ p0 ≥ 12) h0
    (insertUnlessOwn_length board color topRight (move p0 topRight) m0)
  have h2 := ite_length (P := p0 > 6) h1
    (insertUnlessOwn_length board color bottomRight (move p0 bottomRight) m1)
  have h3 := slideMoves_length board color p0 (bishopP1s p0) m2
  have h4 := slideMoves_length board color p0 (bishopP1s2 p0) m3
  have hsteps : ∀ p0 : Square, 0 + (if p0 < 6 ∨ p0 ≥ 12 then 1 else 0) +
      (if p0 > 6 then 1 else 0) + (bishopP1s p0).length + (bishopP1s2 p0).length ≤ 8 := by
    decide
  exact h4.trans ((Nat.add_le_add_right (h3.trans (Nat.add_le_add_right h2 _)) _).trans (hsteps p0))

theorem constructBottomRookMovesWithBoard_length :
    (constructBottomRookMovesWithBoard p0 board).length ≤ stride .rook := by
  unfold constructBottomRookMovesWithBoard
  lift_lets
  extract_lets color m0 top m1 m2 bottom m3 right m4
  have h0 : m0.length ≤ 0 := le_rfl
  have h1 : m1.length ≤ 0 + 1 := insertUnlessOwn_length board color top (move p0 top) m0
  have hlane := ite_length (P := p0 = 1) h1 (slideMoves_length board color p0 innerLane m1)
  have h2 : m2.length ≤ 0 + if p0 < 8 ∨ p0 = 13 then 1 + (if p0 = 1 then 6 else 0) else 0 :=
    ite_length h0 (by rwa [Nat.add_assoc] at hlane)
  have h3 := ite_length (P := p0 ≥ 8) h2
    (insertUnlessOwn_length board color bottom (move p0 bottom) m2)
  have h4 := ite_length (P := p0 ≠ 6) h3
    (insertUnlessOwn_length board color right (move p0 right) m3)
  have hleft := (slideMoves_length board color p0 (leftOf p0) m4).trans (Nat.add_le_add_right h4 _)
  have hreflect := slideMoves_length board color p0 leftRookReflect
    (slideMoves board color p0 (leftOf p0) m4).1
  have hsteps : ∀ p0 : Square,
      0 + (if p0 < 8 ∨ p0 = 13 then 1 + (if p0 = 1 then 6 else 0) else 0) +
        (if p0 ≥ 8 then 1 else 0) + (if p0 ≠ 6 then 1 else 0) + (leftOf p0).length +
          (if p0 < 8 then leftRookReflect.length else 0) ≤ 16 := by
    decide
  refine le_trans ?_ (hsteps p0)
  -- a slide to the left that is stopped ends the moves
  dsimp only
  split
  · exact hleft.trans (Nat.le_add_right _ _)
  · exact ite_length hleft hreflect

end Generators

theorem transformMoves_length (ord : VisitOrder) (moves : MoveSet) (transform : Square → Square) :
    (transformMoves ord moves transform).length ≤ moves.length := by
  have hfold := length_foldl_insert_le
    (fun m => movePromo (transform (getp0 m)) (transform (getp1 m)) (getpromo m).toNat)
    (ord.visit moves) []
  rwa [(ord.visit_perm moves).length_eq, List.length_nil, Nat.zero_add] at hfold

namespace Board

variable (ord : VisitOrder) (b : Board)

def slotStride (i : Slot) : Nat :=
  if b.pieces i = DEAD then 0 else (kindOf (b.board0 (b.pieces i))).elim 0 stride

theorem movesForPiece_length (p : Square) :
    (b.getPseudolegalMovesForPiece ord p).length ≤ (kindOf (b.board0 p)).elim 0 stride := by
  refine (transformMoves_length ord _ _).trans ?_
  rw [kindOf]
  split_ifs
  · exact constructBottomPawnMovesWithBoard_length _ _ true
  · exact constructBottomPawnMovesWithBoard_length _ _ false
  · exact constructBottomRookMovesWithBoard_length _ _
  · exact constructBottomBishopMovesWithBoard_length _ _
  · exact constructBottomKingMovesWithBoard_length _ _
  · exact le_rfl

theorem movesForSide_length (color : PlayerColor) :
    (b.getPseudolegalMovesForSide ord color).length ≤
      ((sideSlots color).map b.slotStride).sum := by
  have hfold : ∀ (slots : List Slot) (moves : MoveSet), (slots.foldl (fun moves i =>
      if b.pieces i = DEAD then moves
      else (ord.visit (b.getPseudolegalMovesForPiece ord (b.pieces i))).foldl
        (fun moves m => moves.insert m) moves) moves).length ≤
          moves.length + (slots.map b.slotStride).sum := by
    intro slots
    induction slots with
    | nil => exact fun _ => le_rfl
    | cons i slots ih =>
      intro moves
      rw [List.foldl_cons, List.map_cons, List.sum_cons, slotStride]
      split_ifs
      · rw [Nat.zero_add]
        exact ih moves
      · have hpiece := b.movesForPiece_length ord (b.pieces i)
        have hinsert := length_foldl_insert_le id
          (ord.visit (b.getPseudolegalMovesForPiece ord (b.pieces i))) moves
        rw [(ord.visit_perm _).length_eq] at hinsert
        refine (ih _).trans ?_
        simp only [id] at hinsert
        omega
  have hside := hfold (sideSlots color) []
  rwa [List.length_nil, Nat.zero_add] at hside

section Counts

variable {b}

theorem Wf.legal_length (h : b.Wf looseCodes) :
    (b.getLegalMoves ord).length ≤ ((sideSlots b.playerToPlay).map b.slotStride).sum := by
  have hsubset : b.getLegalMoves ord ⊆ b.getPseudolegalMoves ord := fun m hm =>
    (h.mem_pseudolegal ord).mpr ((h.mem_getLegalMoves ord).mp hm).pseudo
  have hlegal := ((getLegalMoves_nodup ord b).subperm hsubset).length_le
  exact hlegal.trans (b.movesForSide_length ord b.playerToPlay)

theorem Wf.count_slots (h : b.Wf looseCodes) (c : PlayerColor) (k : PieceType) :
    b.position.count c k = ∑ i, if b.pieces i ≠ DEAD ∧ slotColor i = c ∧
      kindOf (b.board0 (b.pieces i)) = some k then 1 else 0 := by
  have hplaces : ∀ p a, b.position.cell p = some a → ∃ i, b.pieces i ≠ DEAD ∧ b.pieces i = p := by
    intro p a hp
    obtain ⟨i, rfl, hdead, _⟩ := h.slot_of_cell hp
    exact ⟨i, hdead, rfl⟩
  rw [Position.count, census_of_places _ hplaces fun i j hi _ => h.distinct i j hi]
  refine Finset.sum_congr rfl fun i _ => ?_
  rw [ite_and]
  refine ite_congr rfl (fun hi => ?_) fun _ => rfl
  obtain ⟨l, hkind, hcell⟩ := h.cell_slot hi
  rw [hcell, hkind, Option.elim_some, weigh]
  refine if_congr ?_ rfl rfl
  rw [Prod.mk.injEq, Option.some.injEq]

def mobility (pos : Position) (c : PlayerColor) : Int :=
  16 * pos.count c .rook + 8 * pos.count c .bishop + 7 * pos.count c .king + 5 * pos.count c .pawn

theorem Wf.sum_slotStride (h : b.Wf looseCodes) (c : PlayerColor) :
    (((sideSlots c).map b.slotStride).sum : Int) = mobility b.position c := by
  have hslots : (sideSlots c).toFinset = Finset.univ.filter fun i => slotColor i = c := by
    cases c <;> decide
  have hnodup : (sideSlots c).Nodup := by cases c <;> decide
  rw [← List.sum_toFinset b.slotStride hnodup, hslots, Finset.sum_filter, mobility]
  simp only [h.count_slots, Finset.mul_sum, ← Finset.sum_add_distrib]
  rw [Nat.cast_sum]
  refine Finset.sum_congr rfl fun i _ => ?_
  rw [slotStride]
  by_cases hi : b.pieces i ≠ DEAD
  · obtain ⟨l, hkind, _⟩ := h.cell_slot hi
    rw [if_neg hi, hkind]
    by_cases hc : slotColor i = c
    · cases l <;> simp [hi, hc, stride]
    · simp [hc]
  · simp [not_not.mp hi]

theorem Wf.moves_le (h : b.Wf looseCodes) : (b.getLegalMoves ord).length ≤ 79 := by
  have hslot : ∀ i, ∀ piece ∈ looseCodes i, (kindOf piece).elim 0 stride ≤
      if startType i = .pawn then 16 else stride (startType i) := by
    decide
  have hstride : ∀ i, b.slotStride i ≤
      if startType i = .pawn then 16 else stride (startType i) := by
    intro i
    rw [slotStride]
    split
    · exact Nat.zero_le _
    · rename_i hi
      exact hslot i _ (h.code i hi)
  refine ((h.legal_length ord).trans (List.sum_le_sum fun i _ => hstride i)).trans ?_
  cases b.playerToPlay <;> decide

/-- A player has at most 16 moves for each rook, 8 for each bishop, 7 for the king and 5 for each
pawn, and never more than 79. -/
theorem Wf.moves_le_mobility (h : b.Wf looseCodes) :
    ((b.getLegalMoves ord).length : Int) ≤ mobility b.position b.playerToPlay ∧
      (b.getLegalMoves ord).length ≤ 79 := by
  refine ⟨?_, h.moves_le ord⟩
  rw [← h.sum_slotStride]
  exact_mod_cast h.legal_length ord

theorem Wf.moves_le_mobility_start :
    ((new.getLegalMoves VisitOrder.insertion).length : Int) ≤ 57 := by
  have hmobility : mobility new.position new.playerToPlay = 57 := by decide +kernel
  rw [← hmobility]
  exact (Wf.moves_le_mobility VisitOrder.insertion (new_wf.loose admissible_slotCodes)).1

end Counts

end Board

end Rollerball
