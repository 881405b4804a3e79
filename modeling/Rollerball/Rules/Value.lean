import Rollerball.Lib.Game
import Rollerball.Lib.Ledger
import Rollerball.Rules.Mirror
import Mathlib.Algebra.Order.Field.Rat
import Mathlib.Data.Set.Finite.Basic
import Mathlib.Tactic.Ring

/-!
# The worth of a position

The score of a position counts its pieces, measures how near its pawns are to promotion and looks
for check. With it the rules are a game of values, in which the mirrored position is worth the
negative.
-/

namespace Rollerball

open Census

def weigh (c : PlayerColor) (k : PieceType) (f : Square → Int) : Square → Piece → Int :=
  fun p piece => if piece = (c, k) then f p else 0

/-- Seven less the distance to the nearer square of the goal. -/
def nearness (c : PlayerColor) (p : Square) : Int :=
  let x : Int := getx p
  let y : Int := gety p
  match c with
  | .black => 7 - min (|x - 2| + |y - 0|) (|x - 2| + |y - 1|)
  | .white => 7 - min (|x - 4| + |y - 5|) (|x - 4| + |y - 6|)

namespace Position

def count (pos : Position) (c : PlayerColor) (k : PieceType) : Int :=
  census (weigh c k fun _ => 1) pos.cell

def material (pos : Position) (c : PlayerColor) : ℚ :=
  1 + pos.count c .pawn + 5 * pos.count c .rook + 3 * pos.count c .bishop

def advance (pos : Position) (c : PlayerColor) : Int :=
  census (weigh c .pawn (nearness c)) pos.cell

open Classical in
/-- What check is worth: a checkmate much, any other check little and with the other sign. -/
noncomputable def peril (pos : Position) : ℚ :=
  if pos.InCheck pos.turn then
    if ∃ m, pos.Legal m then if pos.turn = .white then 1 else -1
    else if pos.turn = .white then -100000 else 100000
  else 0

noncomputable def score (pos : Position) : ℚ :=
  (pos.count .white .pawn - pos.count .black .pawn) +
  10 * (pos.count .white .rook - pos.count .black .rook) +
  3 * (pos.count .white .bishop - pos.count .black .bishop) +
  1 / 2 * (pos.material .white / pos.material .black) -
  1 / 2 * (pos.material .black / pos.material .white) +
  1 / 50 * (pos.advance .white - pos.advance .black) +
  4 / 5 * pos.peril

theorem finite_legal (pos : Position) : {m | pos.Legal m}.Finite := by
  have hfinite : Finite U16 := Finite.of_injective BitVec.toFin fun _ _ h => BitVec.toFin_inj.mp h
  exact Set.toFinite _

/-- The rules as a game that White wants to end high. -/
noncomputable def rules : Game Position U16 where
  maximizes := fun pos => pos.turn = .white
  moves := fun pos => pos.finite_legal.toFinset
  next := next

theorem mem_rules_moves {pos : Position} {m : U16} : m ∈ rules.moves pos ↔ pos.Legal m :=
  pos.finite_legal.mem_toFinset

noncomputable def value (pos : Position) (depth : Nat) : ℚ := rules.value score depth pos

def PromotionFree : Nat → Position → Prop
  | 0, _ => True
  | depth + 1, pos => ∀ m, pos.Legal m → getpromo m = 0 ∧ PromotionFree depth (pos.next m)

section Value

variable {pos : Position} {m : U16} (depth : Nat)

theorem value_stuck (h : ¬∃ m, pos.Legal m) : pos.value depth = pos.score := by
  refine Game.value_stuck depth (Finset.eq_empty_of_forall_notMem fun m hm => h ⟨m, ?_⟩)
  exact mem_rules_moves.mp hm

/-- A move that no other beats for the player to move is worth what the position is. -/
theorem value_eq_of_best (hm : pos.Legal m)
    (hbest : ∀ m', pos.Legal m' →
      match pos.turn with
      | .white => (pos.next m').value depth ≤ (pos.next m).value depth
      | .black => (pos.next m).value depth ≤ (pos.next m').value depth) :
    (pos.next m).value depth = pos.value (depth + 1) := by
  have hmem := mem_rules_moves.mpr hm
  have hmoves : (rules.moves pos).Nonempty := ⟨m, hmem⟩
  cases hturn : pos.turn with
  | white =>
    simp only [hturn] at hbest
    refine Eq.trans ?_ (Game.value_max depth hmoves hturn).symm
    refine le_antisymm
      (Finset.le_sup' (fun m => rules.value score depth (rules.next pos m)) hmem) ?_
    exact Finset.sup'_le _ _ fun m' hm' => hbest m' (mem_rules_moves.mp hm')
  | black =>
    have hmin : ¬rules.maximizes pos := fun hwhite => by
      change pos.turn = .white at hwhite
      rw [hturn] at hwhite
      exact absurd hwhite (by decide)
    simp only [hturn] at hbest
    refine Eq.trans ?_ (Game.value_min depth hmoves hmin).symm
    refine le_antisymm ?_
      (Finset.inf'_le (fun m => rules.value score depth (rules.next pos m)) hmem)
    exact Finset.le_inf' _ _ fun m' hm' => hbest m' (mem_rules_moves.mp hm')

end Value

section Mirror

variable {pos : Position} (c : PlayerColor)

private theorem nearness_cw180 : ∀ p, Playable p → nearness c (cw180 p) = nearness c.other p := by
  cases c <;> decide

theorem census_swap (k : PieceType) {f g : Square → Int} (hring : pos.OnRing)
    (hfg : ∀ p, Playable p → f (cw180 p) = g p) :
    census (weigh c k f) pos.swap.cell = census (weigh c.other k g) pos.cell := by
  let turn : Square ≃ Square := ⟨cw180, cw180, cw180_cw180, cw180_cw180⟩
  refine (Equiv.sum_comp turn _).symm.trans (Finset.sum_congr rfl fun p _ => ?_)
  have hturned : pos.swap.cell (cw180 p) =
      (pos.cell p).map fun piece => (piece.1.other, piece.2) := by
    simp only [Position.swap, cw180_cw180]
  change (pos.swap.cell (cw180 p)).elim 0 (weigh c k f (cw180 p)) = _
  rw [hturned]
  cases hcell : pos.cell p with
  | none => rfl
  | some piece =>
    have hother : (piece.1.other, piece.2) = (c, k) ↔ piece = (c.other, k) := by
      obtain ⟨d, l⟩ := piece
      cases c <;> cases d <;> simp [PlayerColor.other]
    rw [Option.map_some, Option.elim_some, Option.elim_some, weigh, weigh, hfg p (hring p _ hcell),
      if_congr hother rfl rfl]

theorem count_swap (k : PieceType) (hring : pos.OnRing) :
    pos.swap.count c k = pos.count c.other k :=
  census_swap c k hring fun _ _ => rfl

theorem advance_swap (hring : pos.OnRing) : pos.swap.advance c = pos.advance c.other :=
  census_swap c .pawn hring (nearness_cw180 c)

theorem material_swap (hring : pos.OnRing) : pos.swap.material c = pos.material c.other := by
  rw [material, count_swap c _ hring, count_swap c _ hring, count_swap c _ hring, material]

theorem peril_swap (hring : pos.OnRing) : pos.swap.peril = -pos.peril := by
  have hcheck : pos.swap.InCheck pos.swap.turn ↔ pos.InCheck pos.turn := inCheck_swap hring
  have hlegal : (∃ m, pos.swap.Legal m) ↔ ∃ m, pos.Legal m := by
    simp only [legal_swap_iff hring]
    exact ⟨fun ⟨_, m, hm, _⟩ => ⟨m, hm⟩, fun ⟨m, hm⟩ => ⟨_, m, hm, rfl⟩⟩
  have hturn : pos.swap.turn = pos.turn.other := rfl
  by_cases hchecked : pos.InCheck pos.turn
  · rw [peril, peril, if_pos hchecked, if_pos (hcheck.mpr hchecked), hturn]
    by_cases hmove : ∃ m, pos.Legal m
    · rw [if_pos hmove, if_pos (hlegal.mpr hmove)]
      cases pos.turn <;> simp [PlayerColor.other]
    · rw [if_neg hmove, if_neg (mt hlegal.mp hmove)]
      cases pos.turn <;> simp [PlayerColor.other]
  · rw [peril, peril, if_neg hchecked, if_neg (mt hcheck.mp hchecked), neg_zero]

theorem score_swap (hring : pos.OnRing) : pos.swap.score = -pos.score := by
  rw [score, score, peril_swap hring]
  simp only [count_swap _ _ hring, advance_swap _ hring, material_swap _ hring, PlayerColor.other]
  ring

theorem rules_mirrors : rules.Mirrors rules OnRing swap rot where
  keeps := fun pos m hring hm => hring.play (mem_rules_moves.mp hm).pseudo
  maximizes := fun pos => by
    change pos.turn.other = .white ↔ ¬pos.turn = .white
    cases pos.turn <;> decide
  moves := fun pos hring => by
    ext m
    rw [mem_rules_moves, legal_swap_iff hring, Finset.mem_image]
    simp only [mem_rules_moves]
  next := fun pos m _ hm => by
    obtain ⟨k, hfacts⟩ := (mem_rules_moves.mp hm).pseudo.facts
    have hplay : pos.swap.play (rot m) = (pos.play m).swap :=
      play_swap (moveFlags_subset _ _ _ hfacts.flag)
    exact congrArg (fun p : Position => ({ p with turn := pos.turn.other.other } : Position)) hplay

/-- The mirrored position is worth the negative at every depth. -/
theorem value_swap (hring : pos.OnRing) (depth : Nat) :
    pos.swap.value depth = -pos.value depth :=
  rules_mirrors.value (fun _ _ h => neg_le_neg h) (fun _ hring => score_swap hring) depth hring

theorem PromotionFree.swap (hring : pos.OnRing) {depth : Nat} (h : pos.PromotionFree depth) :
    pos.swap.PromotionFree depth := by
  induction depth generalizing pos with
  | zero => trivial
  | succ depth ih =>
    intro m hm
    obtain ⟨m', hm', rfl⟩ := (legal_swap_iff hring).mp hm
    obtain ⟨hpromo, hrest⟩ := h m' hm'
    have hlegal := mem_rules_moves.mpr hm'
    have hnext : pos.swap.next (rot m') = (pos.next m').swap :=
      rules_mirrors.next pos m' hring hlegal
    obtain ⟨k, hfacts⟩ := hm'.pseudo.facts
    constructor
    · rw [rot, getpromo_movePromo _ _ (moveFlags_subset _ _ _ hfacts.flag), hpromo]
    · rw [hnext]
      exact ih (rules_mirrors.keeps pos m' hring hlegal) hrest

end Mirror

end Position

end Rollerball
