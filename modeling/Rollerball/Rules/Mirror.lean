import Rollerball.Rules.Position

/-!
# Colour symmetry of the game

Turning the board by a half turn and exchanging the colours carries every pattern, promotion line
and move of one side to those of the other side, so it commutes with the rules of the game.
-/

namespace Rollerball

open Walk (Pattern)

/-- Both squares of a move turned by a half turn, its promotion flag kept. -/
def rot (m : U16) : U16 := movePromo (cw180 (getp0 m)) (cw180 (getp1 m)) (getpromo m).toNat

theorem rot_movePromo (p q : Square) {pt : U8} (hpt : pt ∈ promoFlags) :
    rot (movePromo p q pt.toNat) = movePromo (cw180 p) (cw180 q) pt.toNat := by
  rw [rot, getp0_movePromo p q hpt, getp1_movePromo p q hpt, getpromo_movePromo p q hpt]

def Side.opposite : Side → Side
  | bottom => top
  | left => right
  | top => bottom
  | right => left

private theorem side_cw180 : ∀ p, Playable p → side (cw180 p) = (side p).opposite := by
  decide

private theorem coordMap_opposite (s : Side) : ∀ p,
    s.opposite.coordMap (cw180 p) = s.coordMap p := by
  cases s <;> decide

private theorem invCoordMap_opposite (s : Side) : ∀ q,
    s.opposite.invCoordMap q = cw180 (s.invCoordMap q) := by
  cases s <;> decide

/-- A piece and its image are generated in the same frame and rotated back through opposite
tables. -/
theorem pattern_cw180 (k : PieceType) {p : Square} (hp : Playable p) :
    pattern k (cw180 p) = (pattern k p).map cw180 := by
  have htables : (side p).opposite.invCoordMap = cw180 ∘ (side p).invCoordMap :=
    funext (invCoordMap_opposite (side p))
  rw [pattern, side_cw180 p hp, coordMap_opposite, htables, pattern, Pattern.map_map]

private theorem lastArcSquares_cw180 (c : PlayerColor) : ∀ p,
    cw180 p ∈ lastArcSquares c.other ↔ p ∈ lastArcSquares c := by
  cases c <;> decide

private theorem moveFlags_cw180 (c : PlayerColor) (k : PieceType) (p : Square) :
    moveFlags c.other k (cw180 p) = moveFlags c k p := by
  simp only [moveFlags, lastArcSquares_cw180]

namespace Position

def OnRing (pos : Position) : Prop := ∀ p piece, pos.cell p = some piece → Playable p

/-- The position seen by the other player. -/
def swap (pos : Position) : Position where
  cell := fun p => (pos.cell (cw180 p)).map fun piece => (piece.1.other, piece.2)
  turn := pos.turn.other

@[simp] theorem swap_swap (pos : Position) : pos.swap.swap = pos := by
  apply ext
  · intro p
    simp [swap, Option.map_map, Function.comp_def]
  · simp [swap]

section Symmetry

variable {pos : Position} {c : PlayerColor} {k : PieceType} {p q : Square} {m : U16}

theorem swap_cell : pos.swap.cell (cw180 p) = some (c.other, k) ↔ pos.cell p = some (c, k) := by
  simp only [swap, cw180_cw180, Option.map_eq_some_iff, Prod.mk.injEq]
  constructor
  · intro h
    rcases h with ⟨⟨c', k'⟩, hcell, hc, rfl⟩
    rw [hcell, ← PlayerColor.other_other c', hc, PlayerColor.other_other]
  · intro hcell
    exact ⟨_, hcell, rfl, rfl⟩

theorem OnRing.swap (h : pos.OnRing) : pos.swap.OnRing := by
  intro p piece hp
  obtain ⟨piece', hcell, _⟩ := Option.map_eq_some_iff.mp hp
  exact (playable_cw180 p).mp (h _ _ hcell)

private theorem holds_swap (pos : Position) : pos.swap.holds ∘ cw180 = pos.holds := by
  funext q
  simp [holds, Position.swap]

private theorem holdsOwn_swap (pos : Position) (c : PlayerColor) :
    pos.swap.holdsOwn c.other ∘ cw180 = pos.holdsOwn c := by
  funext q
  have hother : ∀ d : PlayerColor, (d.other = c.other) = (d = c) := by
    intro d
    cases c <;> cases d <;> simp [PlayerColor.other]
  cases hq : pos.cell q with
  | none => simp [holdsOwn, Position.swap, hq]
  | some piece => simp [holdsOwn, Position.swap, hq, hother]

theorem reach_swap (hp : Playable p) :
    pos.swap.reach c.other k (cw180 p) = (pos.reach c k p).map cw180 := by
  rw [reach, pattern_cw180 k hp, Walk.Pattern.reach_map, holds_swap, holdsOwn_swap, reach]

theorem Pseudo.swap (hring : pos.OnRing) (h : pos.Pseudo c m) :
    pos.swap.Pseudo c.other (rot m) := by
  cases h with
  | @intro p k q pt hcell hreach hflag =>
    rw [rot_movePromo p q (moveFlags_subset c k p hflag)]
    have hp := hring p _ hcell
    refine .intro (swap_cell.mpr hcell) ?_ ?_
    · rw [reach_swap hp]
      exact List.mem_map_of_mem hreach
    · rwa [moveFlags_cw180]

theorem Pseudo.rot_rot (h : pos.Pseudo c m) : rot (rot m) = m := by
  cases h with
  | @intro p k q pt hcell hreach hflag =>
    have hpt := moveFlags_subset c k p hflag
    rw [rot_movePromo p q hpt, rot_movePromo _ _ hpt, cw180_cw180, cw180_cw180]

theorem attacks_swap (hring : pos.OnRing) (h : pos.Attacks c q) :
    pos.swap.Attacks c.other (cw180 q) := by
  obtain ⟨p, k, hcell, hreach⟩ := h
  refine ⟨cw180 p, k, swap_cell.mpr hcell, ?_⟩
  rw [reach_swap (hring p _ hcell)]
  exact List.mem_map_of_mem hreach

private theorem inCheck_swap_of (hring : pos.OnRing) (h : pos.InCheck c) :
    pos.swap.InCheck c.other := by
  obtain ⟨q, hking, hatt⟩ := h
  exact ⟨cw180 q, swap_cell.mpr hking, attacks_swap hring hatt⟩

theorem inCheck_swap (hring : pos.OnRing) : pos.swap.InCheck c.other ↔ pos.InCheck c := by
  constructor
  · intro h
    have hback := inCheck_swap_of hring.swap h
    rwa [swap_swap, PlayerColor.other_other] at hback
  · exact inCheck_swap_of hring

theorem play_swap (hpromo : getpromo m ∈ promoFlags) :
    pos.swap.play (rot m) = (pos.play m).swap := by
  have h0 : getp0 (rot m) = cw180 (getp0 m) := getp0_movePromo _ _ hpromo
  have h1 : getp1 (rot m) = cw180 (getp1 m) := getp1_movePromo _ _ hpromo
  have hpt : getpromo (rot m) = getpromo m := getpromo_movePromo _ _ hpromo
  have hturn : ∀ p q : Square, p = cw180 q ↔ cw180 p = q := by
    intro p q
    constructor
    · rintro rfl
      exact cw180_cw180 q
    · rintro rfl
      exact (cw180_cw180 p).symm
  have hpiece : ∀ piece : Piece, promotedPiece (piece.1.other, piece.2) (getpromo m) =
      ((promotedPiece piece (getpromo m)).1.other, (promotedPiece piece (getpromo m)).2) := by
    intro piece
    unfold promotedPiece
    split_ifs <;> rfl
  apply ext
  · intro p
    simp only [play, Position.swap, h0, h1, hpt, Function.update_apply, hturn p, cw180_cw180]
    split_ifs
    · rfl
    · simp only [Option.map_map, Function.comp_def, hpiece]
    · rfl
  · rfl

theorem OnRing.play (hring : pos.OnRing) (h : pos.Pseudo c m) : (pos.play m).OnRing := by
  obtain ⟨k, hfacts⟩ := h.facts
  intro p piece hp
  simp only [Position.play, Function.update_apply] at hp
  split_ifs at hp with hp0 hp1
  · rw [hp1]
    exact pattern_squares_playable (hring _ _ hfacts.source) k
      (Walk.Pattern.reach_subset _ _ _ hfacts.target)
  · exact hring p piece hp

theorem Legal.swap (hring : pos.OnRing) (h : pos.Legal m) : pos.swap.Legal (rot m) := by
  obtain ⟨k, hfacts⟩ := h.pseudo.facts
  refine ⟨h.pseudo.swap hring, ?_⟩
  rw [play_swap (moveFlags_subset _ _ _ hfacts.flag)]
  intro hcheck
  exact h.safe ((inCheck_swap (hring.play h.pseudo)).mp hcheck)

theorem legal_swap_iff (hring : pos.OnRing) :
    pos.swap.Legal m ↔ ∃ m', pos.Legal m' ∧ rot m' = m := by
  constructor
  · intro h
    have hback := h.swap hring.swap
    rw [swap_swap] at hback
    exact ⟨rot m, hback, h.pseudo.rot_rot⟩
  · intro h
    rcases h with ⟨m', hm', rfl⟩
    exact hm'.swap hring

end Symmetry

end Position

end Rollerball
