import Rollerball.Board.Reach

/-!
# Pawns

A pawn walks clockwise along its colour's arc and leaves it only by promoting. Black's arc is
White's turned by 180 degrees, so every fact is stated once, in White's coordinates.
-/

namespace Rollerball

/-- White's arc: bottom squares up to column 2, the left side, top squares up to column 3. -/
def OnWhiteArc (p : Square) : Prop :=
  Playable p ∧
    ((side p = .bottom ∧ getx p ≤ 2) ∨ side p = .left ∨ (side p = .top ∧ getx p ≤ 3))

instance : DecidablePred OnWhiteArc := fun p => by unfold OnWhiteArc; infer_instance

/-- Squares in the coordinates of the side that starts at the bottom. -/
def PlayerColor.view : PlayerColor → Square → Square
  | white => id
  | black => cw180

def OnArc (c : PlayerColor) (p : Square) : Prop := OnWhiteArc (c.view p)

def Side.index : Side → Nat
  | bottom => 0
  | left => 1
  | top => 2
  | right => 3

/-- How far a square lies clockwise: six steps to a side, each side walked leftwards in its own
frame. -/
def clockwise (p : Square) : Nat := 6 * (side p).index + (6 - getx ((side p).coordMap p))

def progress (c : PlayerColor) (p : Square) : Nat := clockwise (c.view p)

private theorem pawn_steps_white : ∀ p, OnWhiteArc p → ∀ q ∈ (pattern .pawn p).squares,
    clockwise p < clockwise q ∧ (p ∉ lastArcSquares .white → OnWhiteArc q) := by decide

private theorem pawn_steps_black : ∀ p, OnWhiteArc (cw180 p) → ∀ q ∈ (pattern .pawn p).squares,
    clockwise (cw180 p) < clockwise (cw180 q) ∧
      (p ∉ lastArcSquares .black → OnWhiteArc (cw180 q)) := by decide

theorem pawn_steps {c : PlayerColor} {p q : Square} (hp : OnArc c p)
    (hq : q ∈ (pattern .pawn p).squares) :
    progress c p < progress c q ∧ (p ∉ lastArcSquares c → OnArc c q) := by
  cases c with
  | white => exact pawn_steps_white p hp q hq
  | black => exact pawn_steps_black p hp q hq

private theorem promotedPiece_kind (piece : Piece) {pt : U8}
    (hpt : pt ∈ [pawnRook, pawnBishop]) :
    (promotedPiece piece pt).2 = .rook ∨ (promotedPiece piece pt).2 = .bishop := by
  have hne : pawnBishop ≠ pawnRook := by decide
  simp only [List.mem_cons, List.not_mem_nil, or_false] at hpt
  rcases hpt with rfl | rfl
  · left
    rw [promotedPiece, if_pos rfl]
  · right
    rw [promotedPiece, if_neg hne, if_pos rfl]

theorem promotedPiece_ne_pawn {piece : Piece} {pt : U8}
    (hpt : pt ∈ [pawnRook, pawnBishop]) : (promotedPiece piece pt).2 ≠ .pawn := by
  rcases promotedPiece_kind piece hpt with hkind | hkind <;> simp [hkind]

private theorem promotedPiece_ne_king {piece : Piece} {pt : U8}
    (hpt : pt ∈ [pawnRook, pawnBishop]) : (promotedPiece piece pt).2 ≠ .king := by
  rcases promotedPiece_kind piece hpt with hkind | hkind <;> simp [hkind]

theorem Position.MoveFacts.promo_iff {pos : Position} {c : PlayerColor} {m : U16} {k : PieceType}
    (h : pos.MoveFacts c m k) :
    getpromo m ≠ 0 ↔ k = .pawn ∧ getp0 m ∈ lastArcSquares c := by
  have hne : ∀ pt ∈ [pawnRook, pawnBishop], pt ≠ 0 := by decide
  rcases moveFlags_cases h.flag with ⟨hlast, hflag⟩ | ⟨hlast, hzero⟩
  · exact iff_of_true (hne _ hflag) hlast
  · exact iff_of_false (fun hpromo => hpromo hzero) hlast

namespace Board

def PawnsOnArc (b : Board) : Prop :=
  ∀ p c, b.position.cell p = some (c, .pawn) → OnArc c p

theorem new_pawnsOnArc : Board.new.PawnsOnArc := by
  have hall : ∀ p, ∀ piece ∈ cellOf (Board.new.board0 p),
      piece.2 = .pawn → OnWhiteArc (piece.1.view p) := by decide
  intro p c hp
  exact hall p (c, .pawn) hp rfl

section Ply

variable {b : Board} {m : U16} (ord : VisitOrder)

theorem PawnsOnArc.doMove (harc : b.PawnsOnArc) (h : b.Wf slotCodes)
    (hm : m ∈ b.getLegalMoves ord) : (b.doMove m).PawnsOnArc := by
  intro p c hp
  obtain ⟨k, hfacts⟩ :=
    (((h.loose admissible_slotCodes).mem_getLegalMoves ord).mp hm).pseudo.facts
  rw [h.position_doMove ord admissible_slotCodes hm] at hp
  simp only [Position.next, Position.play, Function.update_apply] at hp
  split_ifs at hp with hp0 hp1
  · rw [hfacts.source, Option.map_some, Option.some.injEq] at hp
    rcases moveFlags_cases hfacts.flag with ⟨_, hflag⟩ | ⟨hlast, hzero⟩
    · -- a promoted piece is no pawn
      exact absurd (congrArg Prod.snd hp) (promotedPiece_ne_pawn hflag)
    · rw [hzero, promotedPiece_zero, Prod.mk.injEq] at hp
      obtain ⟨rfl, rfl⟩ := hp
      have hsteps := pawn_steps (harc _ _ hfacts.source)
        (Walk.Pattern.reach_subset _ _ _ hfacts.target)
      rw [hp1]
      exact hsteps.2 fun hlast' => hlast ⟨rfl, hlast'⟩
  · exact harc p c hp

end Ply

/-- Attacks by a side see the other side's pieces as occupied squares only. -/
private theorem attacks_of_colors {pos pos' : Position} {c : PlayerColor}
    (hcolor : ∀ q, (pos.cell q).map Prod.fst = (pos'.cell q).map Prod.fst)
    (hown : ∀ q k, pos.cell q = some (c, k) → pos'.cell q = some (c, k)) {q : Square}
    (h : pos.Attacks c q) : pos'.Attacks c q := by
  obtain ⟨p, k, hp, hreach⟩ := h
  refine ⟨p, k, hown p k hp, ?_⟩
  have hholds : pos.holds = pos'.holds := by
    funext r
    have hr := congrArg Option.isSome (hcolor r)
    simpa [Position.holds] using hr
  have hholdsOwn : pos.holdsOwn c = pos'.holdsOwn c := by
    funext r
    have hr := congrArg (fun x : Option PlayerColor => x.any fun d => d = c) (hcolor r)
    simpa [Position.holdsOwn, Option.any_map, Function.comp_def] using hr
  unfold Position.reach at hreach ⊢
  rwa [← hholds, ← hholdsOwn]

/-- What a promotion puts on the board does not matter for check on the mover. -/
private theorem play_inCheck_of_promo {pos : Position} {c : PlayerColor} {p q : Square}
    {pt pt' : U8} (hpt : pt ∈ [pawnRook, pawnBishop]) (hpt' : pt' ∈ [pawnRook, pawnBishop])
    (hp : pos.cell p = some (c, .pawn))
    (h : (pos.play (movePromo p q pt.toNat)).InCheck c) :
    (pos.play (movePromo p q pt'.toNat)).InCheck c := by
  have hcell : ∀ pt ∈ [pawnRook, pawnBishop], ∃ k, k ≠ .king ∧
      (pos.play (movePromo p q pt.toNat)).cell =
        Function.update (Function.update pos.cell q (some (c, k))) p none := by
    intro pt hpt
    have hflags : pt ∈ promoFlags := by
      revert pt
      decide
    refine ⟨(promotedPiece (c, .pawn) pt).2, promotedPiece_ne_king hpt, ?_⟩
    · simp only [Position.play, getp0_movePromo p q hflags, getp1_movePromo p q hflags,
        getpromo_movePromo p q hflags, hp, Option.map_some]
      have hpiece : promotedPiece (c, PieceType.pawn) pt =
          (c, (promotedPiece (c, PieceType.pawn) pt).2) :=
        Prod.ext (promotedPiece_color _ _) rfl
      rw [← hpiece]
  obtain ⟨k, hk, hplay⟩ := hcell pt hpt
  obtain ⟨k', hk', hplay'⟩ := hcell pt' hpt'
  obtain ⟨r, hking, hatt⟩ := h
  refine ⟨r, ?_, attacks_of_colors ?_ ?_ hatt⟩
  · rw [hplay] at hking
    rw [hplay']
    simp only [Function.update_apply] at hking ⊢
    split_ifs at hking ⊢ with hrp hrq
    · exact absurd (congrArg Prod.snd (Option.some.inj hking)) hk
    · exact hking
  · intro s
    rw [hplay, hplay']
    simp only [Function.update_apply]
    split_ifs <;> rfl
  · intro s l hs
    rw [hplay] at hs
    rw [hplay']
    simp only [Function.update_apply] at hs ⊢
    split_ifs at hs ⊢ with hsp hsq
    · exact absurd (congrArg Prod.fst (Option.some.inj hs)) (by simp)
    · exact hs

theorem Wf.promo_both {b : Board} (ord : VisitOrder) (h : b.Wf slotCodes) {p q : Square}
    {pt pt' : U8} (hpt : pt ∈ [pawnRook, pawnBishop]) (hpt' : pt' ∈ [pawnRook, pawnBishop])
    (hm : movePromo p q pt.toNat ∈ b.getLegalMoves ord) :
    movePromo p q pt'.toNat ∈ b.getLegalMoves ord := by
  have hloose := h.loose admissible_slotCodes
  rw [hloose.mem_getLegalMoves ord] at hm ⊢
  have hflags : ∀ pt ∈ [pawnRook, pawnBishop], pt ∈ promoFlags := by decide
  have hne : ∀ pt ∈ [pawnRook, pawnBishop], pt ≠ 0 := by decide
  obtain ⟨k, hfacts⟩ := hm.pseudo.facts
  have hsource := hfacts.source
  have htarget := hfacts.target
  have hflag := hfacts.flag
  rw [getp0_movePromo p q (hflags pt hpt)] at hsource htarget hflag
  rw [getp1_movePromo p q (hflags pt hpt)] at htarget
  rw [getpromo_movePromo p q (hflags pt hpt)] at hflag
  rcases moveFlags_cases hflag with ⟨⟨rfl, hlast⟩, _⟩ | ⟨_, hzero⟩
  · refine ⟨.intro hsource htarget ?_, fun hcheck => hm.safe ?_⟩
    · rw [moveFlags, if_pos ⟨rfl, hlast⟩]
      exact hpt'
    · exact play_inCheck_of_promo hpt' hpt hsource hcheck
  · exact absurd hzero (hne pt hpt)

section Games

variable {b : Board} (ord : VisitOrder)

theorem Reachable.pawnsOnArc (h : b.Reachable ord) : b.PawnsOnArc := by
  induction h with
  | refl => exact new_pawnsOnArc
  | tail hprefix hstep ih =>
    obtain ⟨m, hm, rfl⟩ := hstep
    exact ih.doMove ord (new_wf.run ord hprefix) hm

theorem Wf.pawn_iff (h : b.Wf looseCodes) {p : Square} {c : PlayerColor} :
    (b.board0 p &&& PieceType.pawn.bits ≠ 0#8 ∧ b.board0 p &&& c.bits ≠ 0#8) ↔
      b.position.cell p = some (c, .pawn) := by
  have hkind : b.board0 p &&& PieceType.pawn.bits ≠ 0#8 ↔ kindOf (b.board0 p) = some .pawn := by
    unfold kindOf
    split_ifs <;> simp_all
  rcases h.byte_cases p with h0 | ⟨i, hi, hdead, hcode⟩
  · simp [position, h0]
  · obtain ⟨k, hk, hcell⟩ := looseCodes_kind hcode
    rw [hkind, looseCodes_and_bits hcode, hk]
    simp only [position, hcell, Option.some.injEq, Prod.mk.injEq, and_comm]

theorem Wf.legal_facts (h : b.Wf slotCodes) {m : U16} (hm : m ∈ b.getLegalMoves ord) :
    ∃ k, b.position.MoveFacts b.playerToPlay m k ∧
      (b.board0 (getp0 m) &&& PieceType.pawn.bits ≠ 0#8 ↔ k = .pawn) := by
  have hloose := h.loose admissible_slotCodes
  obtain ⟨i, k, hmove⟩ := h.legal_mover ord admissible_slotCodes hm
  refine ⟨k, hmove.facts, ?_⟩
  have hbits := (looseCodes_and_bits (hmove.code hloose) b.playerToPlay).mpr hmove.color
  have hpawn := @Wf.pawn_iff b hloose (getp0 m) b.playerToPlay
  rw [hmove.facts.source] at hpawn
  simpa [hbits] using hpawn

/-- In every legal game pawns stand on their colour's arc, advance with every move, and promote
exactly from the last two squares of the arc, with the choice of rook or bishop. -/
theorem pawns_advance (h : b.Reachable ord) :
    (∀ p c, b.board0 p &&& PieceType.pawn.bits ≠ 0#8 → b.board0 p &&& c.bits ≠ 0#8 →
        OnArc c p) ∧
      (∀ m ∈ b.getLegalMoves ord, b.board0 (getp0 m) &&& PieceType.pawn.bits ≠ 0#8 →
        progress b.playerToPlay (getp0 m) < progress b.playerToPlay (getp1 m)) ∧
      (∀ m ∈ b.getLegalMoves ord, getpromo m ≠ 0 ↔
        b.board0 (getp0 m) &&& PieceType.pawn.bits ≠ 0#8 ∧
          getp0 m ∈ lastArcSquares b.playerToPlay) ∧
      ∀ p q : Square, movePromo p q pawnRook.toNat ∈ b.getLegalMoves ord ↔
        movePromo p q pawnBishop.toNat ∈ b.getLegalMoves ord := by
  have hwf := h.wf ord
  have hloose := hwf.loose admissible_slotCodes
  have harc := h.pawnsOnArc ord
  refine ⟨?_, ?_, ?_, ?_⟩
  · intro p c hpawn hcolor
    exact harc p c (hloose.pawn_iff.mp ⟨hpawn, hcolor⟩)
  · intro m hm hpawn
    obtain ⟨k, hfacts, hk⟩ := hwf.legal_facts ord hm
    obtain rfl := hk.mp hpawn
    exact (pawn_steps (harc _ _ hfacts.source)
      (Walk.Pattern.reach_subset _ _ _ hfacts.target)).1
  · intro m hm
    obtain ⟨k, hfacts, hk⟩ := hwf.legal_facts ord hm
    rw [hk]
    exact hfacts.promo_iff
  · intro p q
    exact ⟨hwf.promo_both ord (by decide) (by decide), hwf.promo_both ord (by decide) (by decide)⟩

theorem pawns_advance_opening : OnArc .white 17 :=
  (pawns_advance VisitOrder.insertion opening_reachable).1 17 .white (by decide)
    (by decide)

end Games

end Board

end Rollerball
