import Mathlib.Algebra.BigOperators.Fin
import Mathlib.Tactic.Ring
import Rollerball.Board.Census
import Rollerball.Board.Undo

/-!
# The margin of a game

`get_margin_score` compares what the two sides have left, a promoted pawn still counting as a pawn.
Along a game it is the balance of the captures.
-/

open scoped BigOperators

namespace Rollerball

open Ledger

namespace Board

section Score

variable (b : Board)

/-- A comparison with `DEAD`, as a number. -/
def alive (i : Slot) : Int := if b.pieces i ≠ DEAD then 1 else 0

def getMarginScore : Int :=
  0 - b.alive .bRookWs * 3 - b.alive .bRookBs * 3 - b.alive .bBishop * 5 - b.alive .bPawnWs -
    b.alive .bPawnBs + b.alive .wRookWs * 3 + b.alive .wRookBs * 3 + b.alive .wBishop * 5 +
    b.alive .wPawnWs + b.alive .wPawnBs

def worth (i : Slot) : Nat :=
  match startType i with
  | .pawn => 1
  | .rook => 3
  | .bishop => 5
  | .king => 0

def capturedWorth (m : U16) : Nat := ∑ i, if b.pieces i = getp1 m then worth i else 0

end Score

def material (c : PlayerColor) (b : Board) : Nat :=
  ∑ i, if b.pieces i ≠ DEAD ∧ slotColor i = c then worth i else 0

def gain (c : PlayerColor) (b : Board) (m : U16) : Nat :=
  if b.playerToPlay = c then b.capturedWorth m else 0

section Score

variable (b : Board)

private def signed (i : Slot) : Int := if slotColor i = .white then worth i else -worth i

private theorem getMarginScore_sum : b.getMarginScore = ∑ i, b.alive i * signed i := by
  have hsum : ∑ i, b.alive i * signed i = b.alive .bRookWs * -3 + (b.alive .bRookBs * -3 +
      (b.alive .bKing * -0 + (b.alive .bBishop * -5 + (b.alive .bPawnWs * -1 +
      (b.alive .bPawnBs * -1 + (b.alive .wRookWs * 3 + (b.alive .wRookBs * 3 +
      (b.alive .wKing * 0 + (b.alive .wBishop * 5 + (b.alive .wPawnWs * 1 +
      (b.alive .wPawnBs * 1 + 0))))))))))) := by
    rw [Fin.sum_univ_def]
    rfl
  rw [hsum, getMarginScore]
  ring

theorem getMarginScore_eq : b.getMarginScore = b.material .white - b.material .black := by
  rw [getMarginScore_sum, material, material, Nat.cast_sum, Nat.cast_sum, ← Finset.sum_sub_distrib]
  refine Finset.sum_congr rfl fun i _ => ?_
  unfold alive signed
  rcases PlayerColor.eq_or_eq_other .white (slotColor i) with hc | hc
  · by_cases hi : b.pieces i = DEAD
    · simp [hi]
    · simp [hi, hc]
  · by_cases hi : b.pieces i = DEAD
    · simp [hi]
    · simp [hi, hc, PlayerColor.other]

end Score

section Ply

variable {b : Board} {m : U16} (ord : VisitOrder)

/-- A capture takes from the other side what it gains, and no move takes or gives anything else. -/
theorem Reachable.material_doMove (h : b.Reachable ord) (hm : m ∈ b.getLegalMoves ord)
    (c : PlayerColor) : (b.doMove m).material c + b.gain c.other m = b.material c := by
  have hwf := h.wf ord
  obtain ⟨i, k, hmove⟩ := hwf.legal_mover ord admissible_slotCodes hm
  have hpieces : ∀ j, (b.doMove m).pieces j =
      if j = i then getp1 m else if b.pieces j = getp1 m then DEAD else b.pieces j :=
    hmove.pieces_rawDoMove hwf
  have hsource : b.pieces i ≠ DEAD := by rw [hmove.slot]; exact hmove.source.ne_dead
  have htarget : getp1 m ≠ DEAD := hmove.target.ne_dead
  have hgain : b.gain c.other m =
      ∑ j, if b.pieces j = getp1 m ∧ slotColor j = c then worth j else 0 := by
    rw [gain, capturedWorth]
    split_ifs with hturn
    · refine Finset.sum_congr rfl fun j _ => if_congr ?_ rfl rfl
      refine (and_iff_left_of_imp fun hj => ?_).symm
      rw [hmove.captured_color (hwf.loose admissible_slotCodes) hj, hturn, PlayerColor.other_other]
    · refine (Finset.sum_eq_zero fun j _ => if_neg ?_).symm
      rintro ⟨hj, rfl⟩
      have hcolor := hmove.captured_color (hwf.loose admissible_slotCodes) hj
      rw [hcolor, PlayerColor.other_other] at hturn
      exact hturn rfl
  rw [hgain, material, material, ← Finset.sum_add_distrib]
  refine Finset.sum_congr rfl fun j _ => ?_
  rw [hpieces j]
  by_cases hji : j = i
  · subst hji
    have hne : b.pieces j ≠ getp1 m := by rw [hmove.slot]; exact hmove.ne
    simp [hsource, htarget, hne]
  · by_cases hj : b.pieces j = getp1 m
    · simp [hji, hj, htarget]
    · simp [hji, hj]

theorem Reachable.margin_doMove (h : b.Reachable ord) (hm : m ∈ b.getLegalMoves ord) :
    (b.doMove m).getMarginScore + b.gain .black m = b.getMarginScore + b.gain .white m := by
  have hwhite : (b.doMove m).material .white + b.gain .black m = b.material .white :=
    h.material_doMove ord hm .white
  have hblack : (b.doMove m).material .black + b.gain .white m = b.material .black :=
    h.material_doMove ord hm .black
  rw [getMarginScore_eq, getMarginScore_eq]
  omega

end Ply

section Games

variable {ms : List U16} (ord : VisitOrder)

def gains (c : PlayerColor) : Board → List U16 → Nat := spent doMove (gain c)

theorem Reachable.material_game {b : Board} (h : b.Reachable ord) (hgame : LegalGame ord b ms)
    (c : PlayerColor) : (ms.foldl doMove b).material c + gains c.other b ms = b.material c := by
  have hrun := (legalGame_iff_run ord).mp hgame
  have hkeeps : ∀ (b : Board) (m : U16), b.Reachable ord → m ∈ b.getLegalMoves ord →
      (b.doMove m).Reachable ord := fun _ m hb hm => hb.tail ⟨m, hm, rfl⟩
  have hstep : ∀ (b : Board) (m : U16), b.Reachable ord → m ∈ b.getLegalMoves ord →
      (b.doMove m).material c + b.gain c.other m = b.material c :=
    fun _ _ hb hm => hb.material_doMove ord hm c
  exact hrun.spent_eq hkeeps hstep h

private theorem new_material : ∀ c, Board.new.material c = 13 := by
  intro c
  cases c <;> decide +kernel

/-- After every game from the start the margin is what White has captured less what Black has. A
move never makes it worse for its side, and one that captures nothing, a promotion or not, leaves it
as it is. -/
theorem margin_game (hgame : LegalGame ord Board.new ms) :
    (ms.foldl doMove Board.new).getMarginScore =
        (gains .white Board.new ms : Int) - gains .black Board.new ms ∧
      (∀ c, gains c Board.new ms ≤ 13) ∧
      ∀ m ∈ (ms.foldl doMove Board.new).getLegalMoves ord,
        ((ms.foldl doMove Board.new).playerToPlay = .white →
          (ms.foldl doMove Board.new).getMarginScore ≤
            ((ms.foldl doMove Board.new).doMove m).getMarginScore) ∧
        ((ms.foldl doMove Board.new).playerToPlay = .black →
          ((ms.foldl doMove Board.new).doMove m).getMarginScore ≤
            (ms.foldl doMove Board.new).getMarginScore) ∧
        ((∀ i, (ms.foldl doMove Board.new).pieces i ≠ getp1 m) →
          ((ms.foldl doMove Board.new).doMove m).getMarginScore =
            (ms.foldl doMove Board.new).getMarginScore) := by
  have hwhite := Reachable.material_game ord .refl hgame .white
  have hblack := Reachable.material_game ord .refl hgame .black
  rw [new_material] at hwhite hblack
  change _ + gains .black _ _ = 13 at hwhite
  change _ + gains .white _ _ = 13 at hblack
  refine ⟨?_, fun c => ?_, fun m hm => ?_⟩
  · rw [getMarginScore_eq]
    omega
  · cases c
    · omega
    · omega
  · have hmargin := (Reachable.accounts ord .refl hgame).1.margin_doMove ord hm
    refine ⟨fun hturn => ?_, fun hturn => ?_, fun hempty => ?_⟩
    · have hgain : gain .black (ms.foldl doMove Board.new) m = 0 :=
        if_neg (by rw [hturn]; decide)
      omega
    · have hgain : gain .white (ms.foldl doMove Board.new) m = 0 :=
        if_neg (by rw [hturn]; decide)
      omega
    · have hgain : ∀ c, gain c (ms.foldl doMove Board.new) m = 0 := by
        intro c
        rw [gain, capturedWorth, Finset.sum_eq_zero fun i _ => if_neg (hempty i), ite_self]
      rw [hgain, hgain] at hmargin
      simpa using hmargin

/-- A game in which White captures and promotes. -/
theorem margin_game_promotion : (promotionBoard.doMove promotionMove).getMarginScore =
      (gains .white Board.new (promotionGame ++ [promotionMove]) : Int) -
        gains .black Board.new (promotionGame ++ [promotionMove]) ∧
    promotionBoard.getMarginScore ≤ (promotionBoard.doMove promotionMove).getMarginScore := by
  have hgame := new_wf.legalGame_of_plays promotionGame_plays
  have hmargin := (margin_game VisitOrder.insertion (hgame.concat promotionMove_legal)).1
  rw [List.foldl_append] at hmargin
  exact ⟨hmargin, ((margin_game VisitOrder.insertion hgame).2.2 _ promotionMove_legal).1
    promotionBoard_turn⟩

end Games

end Board

end Rollerball
