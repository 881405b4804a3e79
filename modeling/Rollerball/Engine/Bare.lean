import Rollerball.Board.Kings
import Rollerball.Engine.Minimax

/-!
# Bare kings

On a board with nothing but its kings the mover's king steps and the other king stays. A score that
looks at one king and the player to play can be followed down the whole tree.
-/

namespace Rollerball

namespace Board

/-- A well-formed board with nothing but the two kings, the waiting one not in check. -/
structure Bare (b : Board) : Prop where
  wf : b.Wf slotCodes
  safe : b.KingsSafe
  alone : ∀ i, (∀ c, i ≠ kingSlot c) → b.pieces i = DEAD

section Steps

variable {b : Board} {m : U16} {ord : VisitOrder}

theorem Bare.doMove (h : b.Bare) (hm : m ∈ b.getLegalMoves ord) : (b.doMove m).Bare where
  wf := h.wf.doMove ord admissible_slotCodes hm
  safe := h.safe.doMove ord h.wf hm
  alone := fun i hi => h.wf.dead_doMove ord admissible_slotCodes hm (h.alone i hi)

private theorem kingSlot_codes (c : PlayerColor) :
    ∀ piece ∈ slotCodes (kingSlot c), kindOf piece = some .king := by
  cases c <;> decide

theorem Bare.king_steps (h : b.Bare) (hm : m ∈ b.getLegalMoves ord) :
    (b.doMove m).pieces (kingSlot b.playerToPlay) = getp1 m ∧
      getp1 m ∈ (pattern .king (b.pieces (kingSlot b.playerToPlay))).squares := by
  obtain ⟨i, k, hmove⟩ := h.wf.legal_mover ord admissible_slotCodes hm
  have hlive : b.pieces i ≠ DEAD := by
    rw [hmove.slot]
    exact hmove.source.ne_dead
  obtain ⟨c, rfl⟩ : ∃ c, i = kingSlot c := by
    by_contra hnone
    exact hlive (h.alone i fun c hc => hnone ⟨c, hc⟩)
  obtain rfl : c = b.playerToPlay := (slotColor_kingSlot c).symm.trans hmove.color
  have hkind : k = .king :=
    Option.some.inj (hmove.kind.symm.trans (kingSlot_codes _ _ (hmove.code h.wf)))
  subst hkind
  constructor
  · change (b.rawDoMove m).pieces _ = _
    rw [hmove.pieces_rawDoMove h.wf, if_pos rfl]
  · rw [hmove.slot]
    exact Walk.Pattern.reach_subset _ _ _ hmove.facts.target

end Steps

private theorem kings_alive : ∀ c, Board.kings.pieces (kingSlot c) ≠ DEAD := by
  intro c
  cases c <;> decide

private theorem kings_alone : ∀ i, Board.kings.pieces i ≠ DEAD →
    i = kingSlot .white ∨ i = kingSlot .black := by decide

theorem kings_bare : Board.kings.Bare := by
  have hcheck : Board.kings.flipPlayer.inCheck VisitOrder.insertion = false := by decide
  refine ⟨kings_wf, kings_wf.kingsSafe kings_alive hcheck, fun i hi => ?_⟩
  by_contra hlive
  rcases kings_alone i hlive with hwhite | hblack
  · exact hi .white hwhite
  · exact hi .black hblack

end Board

/-- A score that rewards the white king on `b1` and `c1`, and on `e1` only until Black replies. -/
def lure (q : Board × Nat) : ℤ :=
  let king := q.1.pieces Slot.wKing
  if king = 1 ∨ king = 2 then 1
  else if king = 4 ∧ q.1.playerToPlay = .black then 2
  else 0

theorem lure_bounds (q : Board × Nat) : 0 ≤ lure q ∧ lure q ≤ 2 := by
  simp only [lure]
  split_ifs <;> decide

section Lure

variable {env : Platform ℤ} {b : Board} {m : U16}

theorem minimax_lure_zero (env : Platform ℤ) (maximize : Bool) (b : Board) :
    minimax env lure 0 maximize b = lure (b, 0) := by
  by_cases hnone : b.getLegalMoves env.order = []
  · exact minimax_leaf 0 maximize hnone
  · exact minimax_zero maximize hnone

theorem lure_stays (hhighest : 2 < env.highest) (h : b.Bare) (hturn : b.playerToPlay = .black)
    (hking : b.pieces Slot.wKing = 1 ∨ b.pieces Slot.wKing = 2) :
    0 < minimax env lure 1 false b := by
  refine lt_minimax_min 0 (by omega) (fun _ => by simp [lure, hking]) fun r hr => ?_
  have hstays := h.safe.waiting_stays env.order h.wf hr
  rw [hturn] at hstays
  rw [minimax_lure_zero, lure,
    if_pos (by rwa [show (b.doMove r).pieces Slot.wKing = _ from hstays])]
  decide

theorem lure_goes_on (hhighest : 2 < env.highest) (h : b.Bare) (hturn : b.playerToPlay = .black)
    (hking : b.pieces Slot.wKing = 2)
    (hback : ∀ r ∈ b.getLegalMoves env.order,
      move 2 1 ∈ (b.doMove r).getLegalMoves env.order) :
    0 < minimax env lure 3 false b := by
  refine lt_minimax_min 2 (by omega) (fun _ => by simp [lure, hking]) fun r hr => ?_
  have hbare := h.doMove hr
  have hsteps := hbare.king_steps (hback r hr)
  rw [Board.doMove_playerToPlay, hturn] at hsteps
  refine lt_minimax_max 1 (hback r hr) (lure_stays hhighest (hbare.doMove (hback r hr)) ?_ ?_)
  · rw [Board.doMove_playerToPlay, Board.doMove_playerToPlay, hturn]
    rfl
  · exact Or.inl (hsteps.1.trans (by decide))

theorem lure_ends (h : b.Bare) (hturn : b.playerToPlay = .black)
    (hb1 : b.pieces Slot.wKing ≠ 1) (hc1 : b.pieces Slot.wKing ≠ 2)
    (hreply : b.pieces Slot.wKing = 4 → b.getLegalMoves env.order ≠ []) :
    minimax env lure 1 false b < 1 := by
  by_cases hnone : b.getLegalMoves env.order = []
  · have hking : b.pieces Slot.wKing ≠ 4 := fun hking => hreply hking hnone
    rw [minimax_leaf _ _ hnone]
    simp [lure, hb1, hc1, hking]
  · obtain ⟨r, hr⟩ := List.exists_mem_of_ne_nil _ hnone
    have hstays := h.safe.waiting_stays env.order h.wf hr
    rw [hturn] at hstays
    have hking : (b.doMove r).pieces Slot.wKing = b.pieces Slot.wKing := hstays
    refine minimax_min_lt 0 hr ?_
    rw [minimax_lure_zero]
    simp [lure, hking, hb1, hc1, hturn, PlayerColor.other]

private theorem king_leaves : ∀ q ∈ (pattern .king 4).squares, q ≠ 1 ∧ q ≠ 2 ∧ q ≠ 4 := by decide

theorem lure_falls (hlowest : env.lowest < 0) (h : b.Bare) (hturn : b.playerToPlay = .black)
    (hking : b.pieces Slot.wKing = 4) {r : U16} (hr : r ∈ b.getLegalMoves env.order) :
    minimax env lure 3 false b < 1 := by
  have hbare := h.doMove hr
  have hstays := h.safe.waiting_stays env.order h.wf hr
  rw [hturn] at hstays
  have hking' : (b.doMove r).pieces Slot.wKing = 4 := hstays.trans hking
  have hturn' : (b.doMove r).playerToPlay = .white := by
    rw [Board.doMove_playerToPlay, hturn]
    rfl
  refine minimax_min_lt 2 hr (minimax_max_lt 1 (by omega) (fun _ => ?_) fun w hw => ?_)
  · simp [lure, hking', hturn, PlayerColor.other]
  · obtain ⟨hmoved, hsquare⟩ := hbare.king_steps hw
    rw [hturn'] at hmoved hsquare
    rw [show (b.doMove r).pieces (Board.kingSlot .white) = 4 from hking'] at hsquare
    have hw' : ((b.doMove r).doMove w).pieces Slot.wKing = getp1 w := hmoved
    obtain ⟨hb1, hc1, he1⟩ := king_leaves _ hsquare
    refine lure_ends (hbare.doMove hw) ?_ (hw' ▸ hb1) (hw' ▸ hc1) fun he => ?_
    · rw [Board.doMove_playerToPlay, hturn']
      rfl
    · exact absurd (hw'.symm.trans he) he1

end Lure

theorem kings_step {m : U16} (hm : m ∈ Board.kings.getLegalMoves VisitOrder.insertion) :
    (Board.kings.doMove m).pieces Slot.wKing = getp1 m ∧ getp1 m ≠ 1 ∧
      (getp1 m = 2 → m = move 11 2) ∧ (getp1 m = 4 → m = move 11 4) := by
  have htable : ∀ m ∈ Board.kings.getPseudolegalMoves VisitOrder.insertion,
      getp1 m ≠ 1 ∧ (getp1 m = 2 → m = move 11 2) ∧ (getp1 m = 4 → m = move 11 4) := by
    decide
  have hpseudo := ((Board.kings_wf.loose admissible_slotCodes).mem_getLegalMoves_fresh _).mp hm
  exact ⟨(Board.kings_bare.king_steps hm).1, htable m hpseudo.1⟩

theorem kings_c1_legal : move 11 2 ∈ Board.kings.getLegalMoves VisitOrder.insertion :=
  Board.kings_wf.legal_of_plays (by decide +kernel)

theorem kings_e1_legal : move 11 4 ∈ Board.kings.getLegalMoves VisitOrder.insertion :=
  Board.kings_wf.legal_of_plays (by decide +kernel)

theorem kings_three_legal : [move 11 2, move 11 4, move 11 3] ⊆
    Board.kings.getLegalMoves VisitOrder.insertion := by
  have hplays : ∀ m ∈ [move 11 2, move 11 4, move 11 3], Board.kings.plays [m] = true := by
    decide +kernel
  exact fun m hm => Board.kings_wf.legal_of_plays (hplays m hm)

theorem kings_c1_b1 : ∀ r ∈ (Board.kings.doMove (move 11 2)).getLegalMoves VisitOrder.insertion,
    move 2 1 ∈ ((Board.kings.doMove (move 11 2)).doMove r).getLegalMoves
      VisitOrder.insertion := by
  intro r hr
  have hbare := Board.kings_bare.doMove kings_c1_legal
  have htable : ∀ r ∈ (Board.kings.doMove (move 11 2)).getPseudolegalMoves VisitOrder.insertion,
      ((Board.kings.doMove (move 11 2)).doMove r).plays [move 2 1] = true := by decide +kernel
  have hpseudo := ((hbare.wf.loose admissible_slotCodes).mem_getLegalMoves_fresh _).mp hr
  exact (hbare.doMove hr).wf.legal_of_plays (htable r hpseudo.1)

theorem kings_e1_reply : move 43 42 ∈ (Board.kings.doMove (move 11 4)).getLegalMoves
    VisitOrder.insertion :=
  (Board.kings_bare.doMove kings_e1_legal).wf.legal_of_plays (by decide +kernel)

end Rollerball
