import Rollerball.Board.Kings
import Rollerball.Board.Mirror
import Rollerball.Board.Pawns
import Rollerball.Lib.Ledger

/-!
# What a game uses up

Captures, promotions and pawn moves cannot be taken back by later moves: each draws on a total that
no move raises. From the start a game has room for few of them.
-/

namespace Rollerball

open Census Ledger

namespace Position

def pieceWeight : Square → Piece → Nat := fun _ _ => 1

def pawnWeight : Square → Piece → Nat := fun _ piece => if piece.2 = .pawn then 1 else 0

/-- The steps a pawn has left on its arc, the promoting one included. -/
def stepWeight : Square → Piece → Nat := fun p piece =>
  if piece.2 = .pawn then 16 - progress piece.1 p else 0

section Play

variable {pos : Position} {c : PlayerColor} {m : U16} {k : PieceType}

theorem MoveFacts.source_ne_target (h : pos.MoveFacts c m k) (hring : pos.OnRing) :
    getp0 m ≠ getp1 m := by
  intro heq
  have htarget := Walk.Pattern.reach_subset _ _ _ h.target
  rw [← heq] at htarget
  exact self_not_mem_pattern (hring _ _ h.source) k htarget

/-- A move replaces the weight of its piece, and takes that of the piece it captures. -/
theorem MoveFacts.census_next (h : pos.MoveFacts c m k) (hring : pos.OnRing)
    (w : Square → Piece → Nat) :
    census w (pos.next m).cell +
        (w (getp0 m) (c, k) + (pos.cell (getp1 m)).elim 0 (w (getp1 m))) =
      census w pos.cell + w (getp1 m) (promotedPiece (c, k) (getpromo m)) := by
  have hcell : (pos.next m).cell = Function.update (Function.update pos.cell (getp1 m)
      (some (promotedPiece (c, k) (getpromo m)))) (getp0 m) none := by
    simp only [Position.next, Position.play, h.source, Option.map_some]
  rw [hcell]
  exact census_move w h.source (h.source_ne_target hring) _

end Play

end Position

namespace Board

open Position

def live (b : Board) : Nat := (Finset.univ.filter fun i : Slot => b.pieces i ≠ DEAD).card

def pawns (b : Board) : Nat :=
  (Finset.univ.filter fun p : Square => b.board0 p &&& PieceType.pawn.bits ≠ 0#8).card

def stepsLeft (b : Board) : Nat := census stepWeight b.position.cell

def captures (b : Board) (m : U16) : Bool := b.board0 (getp1 m) != 0#8

def capturesPawn (b : Board) (m : U16) : Bool :=
  b.board0 (getp1 m) &&& PieceType.pawn.bits != 0#8

def movesPawn (b : Board) (m : U16) : Bool :=
  b.board0 (getp0 m) &&& PieceType.pawn.bits != 0#8

def promotion (_ : Board) (m : U16) : Bool := getpromo m != 0

def tally (property : Board → U16 → Bool) : Board → List U16 → Nat :=
  spent doMove fun b m => (property b m).toNat

section Position

variable {b : Board}

theorem Wf.captures_eq (h : b.Wf looseCodes) (m : U16) :
    (captures b m).toNat = (b.position.cell (getp1 m)).elim 0 (pieceWeight (getp1 m)) := by
  have hholds := congrFun h.occupied_eq (getp1 m)
  change captures b m = (b.position.cell (getp1 m)).isSome at hholds
  rw [hholds]
  cases b.position.cell (getp1 m) <;> rfl

theorem Wf.pawn_byte (h : b.Wf looseCodes) (p : Square) :
    (b.board0 p &&& PieceType.pawn.bits != 0#8).toNat =
      (b.position.cell p).elim 0 (pawnWeight p) := by
  cases hcell : b.position.cell p with
  | none =>
    rcases h.byte_cases p with h0 | ⟨i, _, _, hcode⟩
    · rw [h0]
      rfl
    · obtain ⟨k, _, hcell'⟩ := looseCodes_kind hcode
      exact absurd (hcell.symm.trans hcell') (by simp)
  | some piece =>
    obtain ⟨i, rfl, hdead, hcolor, hk⟩ := h.slot_of_cell (c := piece.1) (k := piece.2) hcell
    have hpawn := (h.pawn_iff (p := b.pieces i) (c := piece.1)).symm
    rw [and_iff_left ((looseCodes_and_bits (h.code i hdead) _).mpr hcolor), hcell,
      Option.some.injEq, Prod.ext_iff, and_iff_right rfl, ← bne_iff_ne] at hpawn
    rw [Option.elim_some, pawnWeight, if_congr hpawn rfl rfl]
    cases b.board0 (b.pieces i) &&& PieceType.pawn.bits != 0#8 <;> rfl

theorem Wf.live_eq (h : b.Wf looseCodes) : b.live = census pieceWeight b.position.cell := by
  have hplaces : ∀ p a, b.position.cell p = some a → ∃ i, b.pieces i ≠ DEAD ∧ b.pieces i = p := by
    intro p a hp
    obtain ⟨i, rfl, hdead, _⟩ := h.slot_of_cell hp
    exact ⟨i, hdead, rfl⟩
  rw [census_of_places pieceWeight hplaces fun i j hi _ => h.distinct i j hi, live,
    Finset.card_filter]
  refine Finset.sum_congr rfl fun i _ => ?_
  split_ifs with hi
  · obtain ⟨k, _, hcell⟩ := h.cell_slot hi
    rw [hcell]
    rfl
  · rfl

theorem Wf.pawns_eq (h : b.Wf looseCodes) : b.pawns = census pawnWeight b.position.cell := by
  rw [pawns, Finset.card_filter]
  refine Finset.sum_congr rfl fun p _ => ?_
  rw [← h.pawn_byte p, Bool.toNat, Bool.cond_eq_ite, if_congr bne_iff_ne rfl rfl]

end Position

section Ply

variable {b : Board} {m : U16} (ord : VisitOrder)

theorem Reachable.census_doMove (h : b.Reachable ord) (hm : m ∈ b.getLegalMoves ord) :
    ∃ k, b.position.MoveFacts b.playerToPlay m k ∧ ∀ w,
      census w (b.doMove m).position.cell + (w (getp0 m) (b.playerToPlay, k) +
          (b.position.cell (getp1 m)).elim 0 (w (getp1 m))) =
        census w b.position.cell +
          w (getp1 m) (promotedPiece (b.playerToPlay, k) (getpromo m)) := by
  have hwf := h.wf ord
  obtain ⟨k, hfacts, _⟩ := hwf.legal_facts ord hm
  refine ⟨k, hfacts, fun w => ?_⟩
  rw [hwf.position_doMove ord admissible_slotCodes hm]
  exact hfacts.census_next (hwf.loose admissible_slotCodes).onRing w

theorem Reachable.loose (h : b.Reachable ord) : b.Wf looseCodes :=
  (Reachable.wf ord h).loose admissible_slotCodes

theorem Reachable.live_doMove (h : b.Reachable ord) (hm : m ∈ b.getLegalMoves ord) :
    (b.doMove m).live + (captures b m).toNat = b.live := by
  have hloose := h.loose ord
  have hnext : (b.doMove m).Reachable ord := h.tail ⟨m, hm, rfl⟩
  obtain ⟨k, _, hcensus⟩ := h.census_doMove ord hm
  have hpieces := hcensus pieceWeight
  have hmoved : pieceWeight (getp0 m) (b.playerToPlay, k) =
      pieceWeight (getp1 m) (promotedPiece (b.playerToPlay, k) (getpromo m)) := rfl
  rw [← hloose.captures_eq] at hpieces
  rw [hloose.live_eq, (hnext.loose ord).live_eq]
  omega

theorem Reachable.pawns_doMove (h : b.Reachable ord) (hm : m ∈ b.getLegalMoves ord) :
    (b.doMove m).pawns + ((promotion b m).toNat + (capturesPawn b m).toNat) = b.pawns := by
  have hloose := h.loose ord
  have hnext : (b.doMove m).Reachable ord := h.tail ⟨m, hm, rfl⟩
  obtain ⟨k, hfacts, hcensus⟩ := h.census_doMove ord hm
  have hpawns := hcensus pawnWeight
  have hmoved : pawnWeight (getp0 m) (b.playerToPlay, k) =
      pawnWeight (getp1 m) (promotedPiece (b.playerToPlay, k) (getpromo m)) +
        (promotion b m).toNat := by
    rcases moveFlags_cases hfacts.flag with ⟨hlast, hflag⟩ | ⟨_, hzero⟩
    · have hpromo : promotion b m = true := bne_iff_ne.mpr (hfacts.promo_iff.mpr hlast)
      rw [hpromo, pawnWeight, pawnWeight, if_pos hlast.1, if_neg (promotedPiece_ne_pawn hflag)]
      rfl
    · rw [promotion, hzero, promotedPiece_zero]
      rfl
  rw [← hloose.pawn_byte, hmoved] at hpawns
  rw [hloose.pawns_eq, (hnext.loose ord).pawns_eq, capturesPawn]
  omega

private theorem progress_le : ∀ c p, OnArc c p → progress c p ≤ 15 := by
  intro c
  cases c <;> unfold OnArc progress <;> decide

/-- A pawn move takes at least one of the steps left to the pawns. -/
theorem Reachable.steps_doMove (h : b.Reachable ord) (hm : m ∈ b.getLegalMoves ord) :
    (b.doMove m).stepsLeft + (movesPawn b m).toNat ≤ b.stepsLeft := by
  obtain ⟨k, hfacts, hcensus⟩ := h.census_doMove ord hm
  have hsteps := hcensus stepWeight
  have hmoves : (movesPawn b m).toNat = pawnWeight (getp0 m) (b.playerToPlay, k) := by
    rw [movesPawn, (h.loose ord).pawn_byte, hfacts.source, Option.elim_some]
  have hmoved : stepWeight (getp1 m) (promotedPiece (b.playerToPlay, k) (getpromo m)) +
      pawnWeight (getp0 m) (b.playerToPlay, k) ≤ stepWeight (getp0 m) (b.playerToPlay, k) := by
    by_cases hk : k = .pawn
    · subst hk
      have harc := h.pawnsOnArc ord _ _ hfacts.source
      have hleft := progress_le _ _ harc
      have hadvance := (pawn_steps harc (Walk.Pattern.reach_subset _ _ _ hfacts.target)).1
      have hweight : ∀ p, stepWeight p (b.playerToPlay, .pawn) = 16 - progress b.playerToPlay p :=
        fun _ => rfl
      have hone : pawnWeight (getp0 m) (b.playerToPlay, .pawn) = 1 := rfl
      rw [hone, hweight (getp0 m)]
      rcases moveFlags_cases hfacts.flag with ⟨_, hflag⟩ | ⟨_, hzero⟩
      · rw [stepWeight, if_neg (promotedPiece_ne_pawn hflag)]
        omega
      · rw [hzero, promotedPiece_zero, hweight (getp1 m)]
        omega
    · rcases moveFlags_cases hfacts.flag with ⟨hlast, _⟩ | ⟨_, hzero⟩
      · exact absurd hlast.1 hk
      · rw [hzero, promotedPiece_zero, pawnWeight, if_neg hk, stepWeight, if_neg hk]
        exact Nat.zero_le _
  rw [hmoves, stepsLeft, stepsLeft]
  omega

end Ply

section Games

variable {b : Board} {ms : List U16} (ord : VisitOrder)

theorem legalGame_iff_run :
    LegalGame ord b ms ↔ Run doMove (fun b m => m ∈ b.getLegalMoves ord) b ms := by
  induction ms generalizing b with
  | nil => exact Iff.rfl
  | cons m ms ih => exact and_congr_right fun _ => ih

theorem Reachable.two_le_live (h : b.Reachable ord) : 2 ≤ b.live := by
  have halive := (h.kingsSafe ord).alive
  refine Finset.one_lt_card.mpr ⟨kingSlot .white, ?_, kingSlot .black, ?_, by decide⟩
  · exact Finset.mem_filter.mpr ⟨Finset.mem_univ _, halive .white⟩
  · exact Finset.mem_filter.mpr ⟨Finset.mem_univ _, halive .black⟩

theorem Reachable.accounts (h : b.Reachable ord) (hgame : LegalGame ord b ms) :
    (ms.foldl doMove b).Reachable ord ∧
      (ms.foldl doMove b).live + tally captures b ms = b.live ∧
      (ms.foldl doMove b).pawns + (tally promotion b ms + tally capturesPawn b ms) = b.pawns ∧
      tally movesPawn b ms ≤ b.stepsLeft := by
  have hrun := (legalGame_iff_run ord).mp hgame
  have hkeeps : ∀ (b : Board) (m : U16), b.Reachable ord → m ∈ b.getLegalMoves ord →
      (b.doMove m).Reachable ord := fun _ m hb hm => hb.tail ⟨m, hm, rfl⟩
  refine ⟨hrun.keeps hkeeps h, ?_, ?_, ?_⟩
  · exact hrun.spent_eq hkeeps (fun _ _ hb hm => hb.live_doMove ord hm) h
  · rw [tally, tally, ← spent_add]
    exact hrun.spent_eq hkeeps (fun _ _ hb hm => hb.pawns_doMove ord hm) h
  · have hspent := hrun.spent_le hkeeps (fun _ _ hb hm => hb.steps_doMove ord hm) h
    exact le_trans (Nat.le_add_left _ _) hspent

private theorem new_totals :
    Board.new.live = 12 ∧ Board.new.pawns = 4 ∧ Board.new.stepsLeft = 48 :=
  ⟨by decide +kernel, by decide +kernel, by decide +kernel⟩

/-- In every legal game the live pieces and the captures are twelve, and the pawns, the promotions
and the captured pawns four. So no game has more than ten captures, four promotions or 48 moves
of pawns. -/
theorem game_accounts (hgame : LegalGame ord Board.new ms) :
    (ms.foldl doMove Board.new).live + tally captures Board.new ms = 12 ∧
      (ms.foldl doMove Board.new).pawns +
        (tally promotion Board.new ms + tally capturesPawn Board.new ms) = 4 ∧
      tally captures Board.new ms ≤ 10 ∧ tally movesPawn Board.new ms ≤ 48 := by
  obtain ⟨hend, hlive, hpawns, hsteps⟩ := Reachable.accounts ord .refl hgame
  have hkings := hend.two_le_live ord
  obtain ⟨hlive₀, hpawns₀, hsteps₀⟩ := new_totals
  rw [hlive₀] at hlive
  rw [hpawns₀] at hpawns
  rw [hsteps₀] at hsteps
  exact ⟨hlive, hpawns, by omega, hsteps⟩

theorem game_accounts_opening :
    (Board.new.doMove (move 10 17)).live + tally captures Board.new [move 10 17] = 12 :=
  have hgame : LegalGame VisitOrder.insertion Board.new [move 10 17] := ⟨opening_legal, trivial⟩
  (game_accounts VisitOrder.insertion hgame).1

end Games

end Board

end Rollerball
