import Rollerball.Engine.Mates
import Rollerball.Engine.Value

/-!
# What ordering the moves leaves on the board

`Order_Children` plays and takes back every move before a node is scored. A promotion that is taken
back leaves its type bit on the pawn, and the features count the pawn twice. So `MAX_VAL` and
`MIN_VAL`, called at their cutoff on a board without such marks, score a position too well for the
player who may promote, and exactly right otherwise. On the boards of a search that the orderings of
earlier levels have marked already, nothing of the kind holds.
-/

namespace Rollerball

namespace Board

/-- A kept board whose bytes are those of `b`, but for pawns of the player to move that carry the
type bit of a promotion. -/
structure Residue (b c : Board) : Prop where
  kept : b.Kept c
  byte : ∀ i, b.pieces i ≠ DEAD → c.board0 (b.pieces i) ≠ b.board0 (b.pieces i) →
    slotColor i = b.playerToPlay ∧ startType i = .pawn ∧
      b.board0 (b.pieces i) = b.playerToPlay.bits ||| PieceType.pawn.bits ∧
      c.board0 (b.pieces i) ∈
        [b.playerToPlay.bits ||| PieceType.pawn.bits ||| PieceType.rook.bits,
          b.playerToPlay.bits ||| PieceType.pawn.bits ||| PieceType.bishop.bits]

def Marked (b c : Board) (i : Slot) : Prop :=
  b.pieces i ≠ DEAD ∧ c.board0 (b.pieces i) ≠ b.board0 (b.pieces i)

section Residue

variable {b c : Board} {m : U16}

theorem Residue.refl (h : b.Wf slotCodes) : b.Residue b where
  kept := Kept.refl (h.loose admissible_slotCodes)
  byte := fun _ _ hne => absurd rfl hne

private theorem marks_ne_plain : ∀ d : PlayerColor,
    d.bits ||| PieceType.pawn.bits ∉
      [d.bits ||| PieceType.pawn.bits ||| PieceType.rook.bits,
        d.bits ||| PieceType.pawn.bits ||| PieceType.bishop.bits] := by
  intro d
  cases d <;> decide

theorem Mover.board0_undo {d : PlayerColor} {i : Slot} {k : PieceType} (hmove : c.Mover d m i k)
    (h : c.Wf looseCodes) (p : Square) : ((c.doMove m).undoLastMove m).board0 p =
      if p = getp0 m then remark (c.board0 (getp0 m)) (getpromo m) else c.board0 p := by
  rw [undoLastMove_doMove, hmove.rawUndo_rawDo h, ← Function.update_apply]
  rfl

theorem Residue.promotes (h : b.Residue c) (hb : b.Wf slotCodes) {i : Slot}
    (hmove : c.Mover c.playerToPlay m i .pawn) (hflag : getpromo m ∈ [pawnRook, pawnBishop]) :
    startType i = .pawn ∧
      b.board0 (getp0 m) = b.playerToPlay.bits ||| PieceType.pawn.bits ∧
      remark (c.board0 (getp0 m)) (getpromo m) ∈
        [b.playerToPlay.bits ||| PieceType.pawn.bits ||| PieceType.rook.bits,
          b.playerToPlay.bits ||| PieceType.pawn.bits ||| PieceType.bishop.bits] := by
  have hplayer := h.kept.alike.playerToPlay
  have hcolor : slotColor i = b.playerToPlay := hmove.color.trans hplayer
  have hslot : b.pieces i = getp0 m := by rw [← h.kept.alike.pieces, hmove.slot]
  have hlive : b.pieces i ≠ DEAD := by rw [hslot]; exact hmove.source.ne_dead
  have hsource : b.position.cell (getp0 m) = some (b.playerToPlay, .pawn) := by
    rw [← h.kept.alike.position, ← hplayer]
    exact hmove.facts.source
  obtain ⟨_, _, _, _, hkind⟩ := (hb.loose admissible_slotCodes).slot_of_cell hsource
  have hcode := hb.code i hlive
  rw [hslot] at hcode
  have hmark := remark_pawn (slotColor i) _ hflag _ (looseCodes_colorBits (hmove.code h.kept.wf))
  rw [hcolor] at hmark
  refine ⟨startType_of_kindOf_pawn (admissible_slotCodes.loose i hcode) hkind, ?_, hmark⟩
  rw [← hcolor]
  exact slotCodes_pawn hcode hkind

/-- Playing and taking back a legal move marks its pawn if the move promotes, and nothing else. -/
theorem Residue.undo (h : b.Residue c) (hb : b.Wf slotCodes) (hm : b.position.Legal m) :
    b.Residue ((c.doMove m).undoLastMove m) ∧
      ((∃ i, b.Marked ((c.doMove m).undoLastMove m) i) ↔
        (∃ i, b.Marked c i) ∨ getpromo m ≠ 0) := by
  have hkept : b.Kept ((c.doMove m).undoLastMove m) :=
    h.kept.undo hm.pseudo (Kept.refl (h.kept.doMove_wf hm.pseudo))
  obtain ⟨i, k, hmove⟩ := h.kept.wf.mover (h.kept.pseudo hm.pseudo)
  have hslot : b.pieces i = getp0 m := by rw [← h.kept.alike.pieces, hmove.slot]
  have hlive : b.pieces i ≠ DEAD := by rw [hslot]; exact hmove.source.ne_dead
  have hboard := hmove.board0_undo h.kept.wf
  rcases hmove.promo_cases with hzero | ⟨rfl, hflag⟩
  · have hsame : ((c.doMove m).undoLastMove m).board0 = c.board0 := by
      funext p
      rw [hboard, hzero, remark_zero]
      split_ifs with hp
      · rw [hp]
      · rfl
    have hmarked : (∃ i, b.Marked ((c.doMove m).undoLastMove m) i) ↔ ∃ i, b.Marked c i := by
      unfold Marked
      rw [hsame]
    refine ⟨⟨hkept, ?_⟩, ?_⟩
    · rw [hsame]
      exact h.byte
    · rw [hmarked, or_iff_left (not_not.mpr hzero)]
  · obtain ⟨hstart, hplain, hmark⟩ := h.promotes hb hmove hflag
    have hpromo : getpromo m ≠ 0 := by
      rcases List.mem_pair.mp hflag with hflag | hflag
      · rw [hflag]
        decide
      · rw [hflag]
        decide
    constructor
    · refine ⟨hkept, fun j hj hne => ?_⟩
      rw [hboard] at hne ⊢
      by_cases hjp : b.pieces j = getp0 m
      · obtain rfl : j = i := hb.distinct j i hj (hjp.trans hslot.symm)
        rw [if_pos hjp, hjp]
        exact ⟨hmove.color.trans h.kept.alike.playerToPlay, hstart, hplain, hmark⟩
      · rw [if_neg hjp] at hne ⊢
        exact h.byte j hj hne
    · refine iff_of_true ⟨i, hlive, ?_⟩ (Or.inr hpromo)
      rw [hboard, hslot, if_pos rfl, hplain]
      exact fun heq => marks_ne_plain _ (heq ▸ hmark)

end Residue

section Features

variable {b c : Board}

def surplus (b c : Board) (k : PieceType) (i : Slot) : Int :=
  signAlive c (c.pieces i) k - signAlive b (b.pieces i) k

theorem Residue.surplus_unmarked (h : b.Residue c) {i : Slot} (hi : ¬b.Marked c i)
    (k : PieceType) : surplus b c k i = 0 := by
  rw [surplus, signAlive, signAlive, h.kept.alike.pieces]
  by_cases hdead : b.pieces i = DEAD
  · rw [if_pos hdead, if_pos hdead, sub_self]
  · have hsame : c.board0 (b.pieces i) = b.board0 (b.pieces i) := by
      by_contra hne
      exact hi ⟨hdead, hne⟩
    rw [hsame, sub_self]

theorem Residue.surplus_marked (h : b.Residue c) {i : Slot} (hi : b.Marked c i) :
    surplus b c .pawn i = 0 ∧ 0 ≤ surplus b c .rook i ∧ 0 ≤ surplus b c .bishop i ∧
      1 ≤ surplus b c .rook i + surplus b c .bishop i := by
  obtain ⟨_, _, hplain, hmark⟩ := h.byte i hi.1 hi.2
  have hcounts : ∀ d : PlayerColor, ∀ x ∈
      [d.bits ||| PieceType.pawn.bits ||| PieceType.rook.bits,
        d.bits ||| PieceType.pawn.bits ||| PieceType.bishop.bits],
      x &&& PieceType.pawn.bits ≠ 0#8 ∧
        (d.bits ||| PieceType.pawn.bits) &&& PieceType.pawn.bits ≠ 0#8 ∧
        (d.bits ||| PieceType.pawn.bits) &&& PieceType.rook.bits = 0#8 ∧
        (d.bits ||| PieceType.pawn.bits) &&& PieceType.bishop.bits = 0#8 ∧
        (x &&& PieceType.rook.bits ≠ 0#8 ∨ x &&& PieceType.bishop.bits ≠ 0#8) := by
    intro d
    cases d <;> decide
  obtain ⟨hpawn, hpawn', hrook, hbishop, hnew⟩ := hcounts _ _ hmark
  simp only [surplus, signAlive, h.kept.alike.pieces, if_neg hi.1, hplain, if_pos hpawn,
    if_pos hpawn', if_neg (not_not.mpr hrook), if_neg (not_not.mpr hbishop)]
  refine ⟨rfl, ?_, ?_, ?_⟩
  · split_ifs <;> decide
  · split_ifs <;> decide
  · rcases hnew with hnew | hnew
    · rw [if_pos hnew]
      split_ifs <;> decide
    · rw [if_pos hnew]
      split_ifs <;> decide

theorem Residue.surplus_nonneg (h : b.Residue c) (i : Slot) :
    surplus b c .pawn i = 0 ∧ 0 ≤ surplus b c .rook i ∧ 0 ≤ surplus b c .bishop i := by
  by_cases hi : b.Marked c i
  · obtain ⟨hpawn, hrook, hbishop, _⟩ := h.surplus_marked hi
    exact ⟨hpawn, hrook, hbishop⟩
  · have hzero := h.surplus_unmarked hi
    exact ⟨hzero _, (hzero _).ge, (hzero _).ge⟩

theorem numAlive_surplus (b c : Board) (slots : List Slot) (k : PieceType) :
    numAlive c slots k = numAlive b slots k + (slots.map (surplus b c k)).sum := by
  induction slots with
  | nil => rfl
  | cons i slots ih =>
    rw [numAlive, numAlive] at ih
    simp only [numAlive, List.map_cons, List.sum_cons, ih, surplus]
    ring

theorem Residue.manhattan_eq (h : b.Residue c) (i : Slot) (col : PlayerColor) :
    manhattanToPromotion c (c.pieces i) col = manhattanToPromotion b (b.pieces i) col := by
  have hpieces := h.kept.alike.pieces
  have hsign := (h.surplus_nonneg i).1
  rw [surplus, signAlive, signAlive, hpieces] at hsign
  simp only [manhattanToPromotion, hpieces]
  by_cases hdead : b.pieces i = DEAD
  · rw [if_pos (Or.inl hdead), if_pos (Or.inl hdead)]
  · simp only [hdead, false_or, if_false] at hsign ⊢
    refine if_congr ?_ rfl rfl
    split_ifs at hsign with hc hb
    · exact not_congr (iff_of_true hc hb)
    · exact absurd hsign (by decide)
    · exact absurd hsign (by decide)
    · rename_i hb
      exact not_congr (iff_of_false hc hb)

theorem Residue.counts (h : b.Residue c) (col : PlayerColor) :
    numAlive c (pawnSlots col) .pawn = numAlive b (pawnSlots col) .pawn ∧
      promotionDistance c col = promotionDistance b col ∧
      ∃ rooks bishops : Int, 0 ≤ rooks ∧ 0 ≤ bishops ∧
        numAlive c (rookSlots col) .rook = numAlive b (rookSlots col) .rook + rooks ∧
        numAlive c (bishopSlots col) .bishop = numAlive b (bishopSlots col) .bishop + bishops ∧
        (col ≠ b.playerToPlay → rooks = 0 ∧ bishops = 0) ∧
        ((¬∃ i, b.Marked c i) → rooks = 0 ∧ bishops = 0) ∧
        ((∃ i, b.Marked c i) → col = b.playerToPlay → 1 ≤ rooks + bishops) := by
  have hall := h.surplus_nonneg
  have hzero : ∀ (slots : List Slot) k, (∀ i ∈ slots, ¬b.Marked c i) →
      (slots.map (surplus b c k)).sum = 0 := by
    intro slots k hslots
    refine List.sum_eq_zero fun x hx => ?_
    obtain ⟨i, hi, rfl⟩ := List.mem_map.mp hx
    exact h.surplus_unmarked (hslots i hi) k
  have hcolors : ∀ col, (∀ i ∈ rookSlots col, slotColor i = col) ∧
      (∀ i ∈ bishopSlots col, slotColor i = col) ∧
      ∀ i, slotColor i = col → startType i = .pawn → i ∈ rookSlots col ∧ i ∈ bishopSlots col := by
    intro col
    cases col <;> decide
  have hrooks : ∀ x ∈ (rookSlots col).map (surplus b c .rook), 0 ≤ x :=
    List.forall_mem_map.mpr fun i _ => (hall i).2.1
  have hbishops : ∀ x ∈ (bishopSlots col).map (surplus b c .bishop), 0 ≤ x :=
    List.forall_mem_map.mpr fun i _ => (hall i).2.2
  refine ⟨?_, ?_, _, _, List.sum_nonneg hrooks, List.sum_nonneg hbishops,
    numAlive_surplus b c _ _, numAlive_surplus b c _ _, ?_, ?_, ?_⟩
  · rw [numAlive_surplus b c, List.sum_eq_zero, add_zero]
    exact List.forall_mem_map.mpr fun i _ => (hall i).1
  · exact congrArg List.sum (List.map_congr_left fun i _ => h.manhattan_eq i col)
  · intro hcol
    have hunmarked : ∀ i, slotColor i = col → ¬b.Marked c i := fun i hi hmarked =>
      hcol (hi.symm.trans (h.byte i hmarked.1 hmarked.2).1)
    exact ⟨hzero _ _ fun i hi => hunmarked i ((hcolors col).1 i hi),
      hzero _ _ fun i hi => hunmarked i ((hcolors col).2.1 i hi)⟩
  · intro hnone
    exact ⟨hzero _ _ fun i _ hi => hnone ⟨i, hi⟩, hzero _ _ fun i _ hi => hnone ⟨i, hi⟩⟩
  · rintro ⟨i, hi⟩ rfl
    obtain ⟨hcolor, hpawn, _⟩ := h.byte i hi.1 hi.2
    obtain ⟨hrook, hbishop⟩ := (hcolors _).2.2 i hcolor hpawn
    have hsingle := (h.surplus_marked hi).2.2.2
    have hrook' := List.single_le_sum hrooks _ (List.mem_map_of_mem hrook)
    have hbishop' := List.single_le_sum hbishops _ (List.mem_map_of_mem hbishop)
    omega

/-- Marks are worth at least three points to the player whose pieces are worth `x`, and they do not
make the material ratio worse. -/
private theorem marks_gain {x y : ℚ} (hx : 0 < x) (hy : 0 < y) {rooks bishops : Int}
    (hrooks : 0 ≤ rooks) (hbishops : 0 ≤ bishops) (hmark : 1 ≤ rooks + bishops) :
    3 ≤ (10 * rooks + 3 * bishops : ℚ) ∧ x / y ≤ (x + (5 * rooks + 3 * bishops)) / y ∧
      y / (x + (5 * rooks + 3 * bishops)) ≤ y / x := by
  have hrooks' : (0 : ℚ) ≤ rooks := by exact_mod_cast hrooks
  have hbishops' : (0 : ℚ) ≤ bishops := by exact_mod_cast hbishops
  have hmark' : (1 : ℚ) ≤ rooks + bishops := by exact_mod_cast hmark
  have hmore : x ≤ x + (5 * rooks + 3 * bishops) := by linarith
  exact ⟨by linarith, div_le_div_of_nonneg_right hmore hy.le,
    div_le_div_of_nonneg_left hy.le hx hmore⟩

/-- With no pawn marked the score is that of the position. A mark is worth three points or more to
the player to move. -/
theorem Residue.eval (h : b.Residue c) (hb : b.Wf slotCodes) (ord : VisitOrder) {n : Nat}
    (hn : n = 0 ↔ ¬∃ m, b.position.Legal m) :
    ((¬∃ i, b.Marked c i) → WSum.eval ord (c, n) = b.position.score) ∧
      ((∃ i, b.Marked c i) →
        (b.playerToPlay = .white → b.position.score + 3 ≤ WSum.eval ord (c, n)) ∧
        (b.playerToPlay = .black → WSum.eval ord (c, n) ≤ b.position.score - 3)) := by
  have hloose := hb.loose admissible_slotCodes
  have hcheck : checkFeature ord c n = checkFeature ord b n := by
    rw [h.kept.wf.checkFeature_eq ord, hloose.checkFeature_eq ord, h.kept.alike.position]
    · rw [hn, hloose.legal_iff_nonempty ord]
    · rw [hn, h.kept.wf.legal_iff_nonempty ord, h.kept.alike.position]
  have hscore := hb.eval_eq_score ord (hn.trans (hloose.legal_iff_nonempty ord).symm)
  rw [← hscore, WSum.eval_eq, WSum.eval_eq, hcheck]
  obtain ⟨hwp, hwd, wr, wb, hwr₀, hwb₀, hwr, hwb, hwother, hwnone, hwsome⟩ := h.counts .white
  obtain ⟨hbp, hbd, br, bb, hbr₀, hbb₀, hbr, hbb, hbother, hbnone, hbsome⟩ := h.counts .black
  have hwhite : pieceValue c .white = pieceValue b .white + (5 * wr + 3 * wb) := by
    simp only [pieceValue, hwp, hwr, hwb]
    push_cast
    ring
  have hblack : pieceValue c .black = pieceValue b .black + (5 * br + 3 * bb) := by
    simp only [pieceValue, hbp, hbr, hbb]
    push_cast
    ring
  have hwpos := (pieceValue_bounds b .white).1
  have hbpos := (pieceValue_bounds b .black).1
  rw [hwp, hbp, hwd, hbd, hwr, hwb, hbr, hbb, hwhite, hblack]
  constructor
  · intro hnone
    obtain ⟨rfl, rfl⟩ := hwnone hnone
    obtain ⟨rfl, rfl⟩ := hbnone hnone
    simp only [Int.cast_zero, mul_zero, add_zero]
  · intro hsome
    constructor
    · intro hturn
      obtain ⟨rfl, rfl⟩ := hbother (by rw [hturn]; decide)
      obtain ⟨hgain, hratio, hinverse⟩ := marks_gain (zero_lt_one.trans_le hwpos)
        (zero_lt_one.trans_le hbpos) hwr₀ hwb₀ (hwsome hsome hturn.symm)
      push_cast
      simp only [mul_zero, add_zero]
      linarith
    · intro hturn
      obtain ⟨rfl, rfl⟩ := hwother (by rw [hturn]; decide)
      obtain ⟨hgain, hratio, hinverse⟩ := marks_gain (zero_lt_one.trans_le hbpos)
        (zero_lt_one.trans_le hwpos) hbr₀ hbb₀ (hbsome hsome hturn.symm)
      push_cast
      simp only [mul_zero, add_zero]
      linarith

end Features

end Board

section Horizon

variable {V : Type} [LinearOrder V] {eval : Board × Nat → V} {b c : Board}

theorem orderLoop_residue {env : Platform V} (hb : b.Wf slotCodes) (reverse : Bool)
    (ms : List U16) (hms : ∀ m ∈ ms, b.position.Legal m) (hc : b.Residue c)
    (arr : List (MoveEval V)) :
    (orderLoop env reverse ms c arr).Ensures (undisturbed eval) fun r =>
      b.Residue r.1 ∧
        ((∃ i, b.Marked r.1 i) ↔ (∃ i, b.Marked c i) ∨ ∃ m ∈ ms, getpromo m ≠ 0) := by
  induction ms generalizing c arr with
  | nil => exact ⟨hc, by simp only [List.not_mem_nil, false_and, exists_false, or_false]⟩
  | cons m ms ih =>
    intro search hsearch
    obtain rfl : search = true := hsearch
    intro d _
    obtain ⟨hundo, hmarked⟩ := hc.undo hb (hms m List.mem_cons_self)
    apply (ih (fun m' hm' => hms m' (List.mem_cons_of_mem _ hm')) hundo _).imp
    rintro r ⟨hresidue, hmarks⟩
    refine ⟨hresidue, hmarks.trans ?_⟩
    simp only [hmarked, or_assoc, List.mem_cons, exists_eq_or_imp]

theorem orderChildren_residue {env : Platform V} (hb : b.Wf slotCodes) (reverse : Bool) :
    (orderChildren env b reverse).Ensures (undisturbed eval) fun r =>
      b.Residue r.1 ∧ ((∃ i, b.Marked r.1 i) ↔ ∃ m, b.position.Legal m ∧ getpromo m ≠ 0) ∧
        (r.2 = [] ↔ ¬∃ m, b.position.Legal m) := by
  have hloose := hb.loose admissible_slotCodes
  have hlist : ∀ m, m ∈ env.order.visit (b.getLegalMoves env.order) ↔ b.position.Legal m := by
    intro m
    rw [env.order.mem_visit, hloose.mem_getLegalMoves]
  apply ((orderLoop_residue hb reverse _ (fun m hm => (hlist m).mp hm) (Board.Residue.refl hb)
    []).and (orderChildren_legal reverse (Board.Kept.refl hloose))).imp
  rintro r ⟨⟨hresidue, hmarks⟩, _, hlegal⟩
  refine ⟨hresidue, hmarks.trans ?_, listed_nil_iff hlegal⟩
  rw [or_iff_right fun hmarked => ?_]
  · simp only [hlist]
  · obtain ⟨i, hi⟩ := hmarked
    exact hi.2 rfl

variable {env : Platform ℚ}

/-- The score of the position when no legal move promotes, and one at least three points too good
for the player to move when one does. -/
def HorizonScore (b : Board) (d : ℚ) : Prop :=
  ((¬∃ m, b.position.Legal m ∧ getpromo m ≠ 0) → d = b.position.score) ∧
    ((∃ m, b.position.Legal m ∧ getpromo m ≠ 0) →
      (b.playerToPlay = .white → b.position.score + 3 ≤ d) ∧
      (b.playerToPlay = .black → d ≤ b.position.score - 3))

/-- Called at its cutoff on a board without marks, with any window and in an undisturbed run,
`MAX_VAL` or `MIN_VAL` scores the position exactly if no legal move promotes, and three points or
more too well for the player to move if one does. -/
theorem horizon_score (hb : b.Wf slotCodes) (fuel : Nat) (alpha beta : ℚ) (i : Int) (j : Nat) :
    ∃ c d, ((sideVal env b.playerToPlay (fuel + 1) b alpha beta i i).run (WSum.eval env.order)
        (fun _ => true) j).result = some (c, d) ∧ HorizonScore b d := by
  have hpost : (sideVal env b.playerToPlay (fuel + 1) b alpha beta i i).Ensures
      (undisturbed (WSum.eval env.order)) fun r => HorizonScore b r.2 := by
    have hleaf := fun reverse => @orderChildren_residue _ _ (WSum.eval env.order) _ env hb reverse
    have hscore : ∀ c n, b.Residue c → ((∃ i, b.Marked c i) ↔
        ∃ m, b.position.Legal m ∧ getpromo m ≠ 0) → (n = 0 ↔ ¬∃ m, b.position.Legal m) →
          HorizonScore b (WSum.eval env.order (c, n)) := by
      intro c n hc hmarks hn
      have heval := hc.eval hb env.order hn
      rwa [hmarks] at heval
    rw [sideVal_succ]
    intro search hsearch
    obtain rfl : search = true := hsearch
    apply (hleaf (b.playerToPlay = .black)).bind
    rintro ⟨c, arr⟩ ⟨hc, hmarks, hnil⟩
    dsimp only
    split
    · rename_i hempty
      rintro _ rfl
      exact hscore c 0 hc hmarks (iff_of_true rfl (hnil.mp (List.isEmpty_iff.mp hempty)))
    · rw [if_pos rfl]
      rintro _ rfl
      exact hscore c _ hc hmarks (List.length_eq_zero_iff.trans hnil)
  obtain ⟨_, hresult, hends⟩ := hpost.run (fun _ => rfl) (fun _ => rfl) (i := j)
  obtain ⟨⟨c, d⟩, hrun⟩ := Option.ne_none_iff_exists'.mp hends
  exact ⟨c, d, hrun, hresult _ hrun⟩

/-- The board on which White may promote is scored too well. -/
theorem horizon_score_promotion :
    ∃ c d, ((maxVal WSum.platform 1 Board.promotionBoard (-1) 1 0 0).run
        (WSum.eval WSum.platform.order) (fun _ => true) 0).result = some (c, d) ∧
      Board.promotionBoard.position.score + 3 ≤ d := by
  have hwf := Board.promotionBoard_reachable.wf VisitOrder.insertion
  obtain ⟨c, d, hrun, _, hpromotes⟩ :=
    @horizon_score Board.promotionBoard WSum.platform hwf 0 (-1) 1 0 0
  have hlegal := ((hwf.loose admissible_slotCodes).mem_getLegalMoves VisitOrder.insertion).mp
    Board.promotionMove_legal
  rw [Board.promotionBoard_turn] at hrun
  exact ⟨c, d, hrun, (hpromotes ⟨_, hlegal, by decide⟩).1 Board.promotionBoard_turn⟩

end Horizon

end Rollerball
