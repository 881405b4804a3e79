import Rollerball.Board.Reach
import Rollerball.Rules.Walks

/-!
# What the generators and the filter give

On every board whose four arrays agree, the moves generated for a bishop, a rook or a king go
exactly where its walk on the real board leads, whatever the other squares hold. The legality
filter on one shared copy is the filter on fresh copies, in whatever order the moves are visited.
-/

namespace Rollerball

theorem occupied_of_owned {board : Square → U8} {color : U8} (p : Square)
    (h : owned board color p = true) : occupied board p = true := by
  simp only [owned, occupied, bne_iff_ne] at h ⊢
  intro hzero
  exact h (by rw [hzero, BitVec.zero_and])

namespace Board

def destinations (ord : VisitOrder) (b : Board) (p : Square) : List Square :=
  (b.getPseudolegalMovesForPiece ord p).map getp1

/-- The squares that hold a piece of the colour of the piece on `p`. -/
def ownedBy (b : Board) (p : Square) : Square → Bool :=
  owned b.board0 (colorBits (b.board0 p))

section Destinations

variable {b : Board} {p q : Square} (ord : VisitOrder)

theorem Agree.mem_destinations (h : b.Agree) {k : PieceType}
    (hk : kindOf (b.board0 p) = some k) :
    q ∈ b.destinations ord p ↔ q ∈ (pattern k p).reach (occupied b.board0) (b.ownedBy p) := by
  simp only [destinations, List.mem_map, h.mem_movesForPiece ord hk]
  constructor
  · intro h
    rcases h with ⟨m, ⟨r, hr, pt, hpt, rfl⟩, rfl⟩
    rwa [getp1_movePromo p r (frameFlags_subset _ _ _ hpt)]
  · intro hq
    obtain ⟨pt, hpt⟩ := frameFlags_ne_nil k p (b.board0 p)
    exact ⟨_, ⟨q, hq, pt, hpt, rfl⟩, getp1_movePromo p q (frameFlags_subset _ _ _ hpt)⟩

/-- The moves generated for a bishop are its two backward steps and its two forward walks with
one rebound. -/
theorem bishop_destinations (h : b.Agree) (hp : Playable p)
    (hk : kindOf (b.board0 p) = some .bishop) :
    q ∈ b.destinations ord p ↔ BishopReaches (occupied b.board0) (b.ownedBy p) p q := by
  rw [h.mem_destinations ord hk]
  exact reach_bishop occupied_of_owned hp

theorem bishop_destinations_opening : 10 ∈ opening.destinations VisitOrder.insertion 3 := by
  apply (bishop_destinations VisitOrder.insertion (opening_reachable.wf _).agree (by decide)
    (by decide +kernel)).mpr
  refine ⟨by decide +kernel, Or.inr (Or.inl ?_)⟩
  exact .here (by decide)

/-- The moves generated for a rook are its forward slide, the slide round the corner or along the
inner lane, and its single steps. -/
theorem rook_destinations (h : b.Agree) (hp : Playable p)
    (hk : kindOf (b.board0 p) = some .rook) :
    q ∈ b.destinations ord p ↔ RookReaches (occupied b.board0) (b.ownedBy p) p q := by
  rw [h.mem_destinations ord hk]
  exact reach_rook occupied_of_owned hp

theorem rook_destinations_opening : 5 ∈ opening.destinations VisitOrder.insertion 4 := by
  apply (rook_destinations VisitOrder.insertion (opening_reachable.wf _).agree (by decide)
    (by decide +kernel)).mpr
  exact ⟨by decide +kernel, Or.inr (Or.inr (Or.inr (by decide)))⟩

private theorem Agree.mem_king (h : b.Agree) (hp : Playable p)
    (hk : kindOf (b.board0 p) = some .king) :
    q ∈ b.destinations ord p ↔ KingReaches (b.ownedBy p) p q := by
  rw [h.mem_destinations ord hk]
  exact reach_king hp

private theorem colorBits_and (x y : U8) : colorBits x &&& colorBits y = y &&& colorBits x := by
  ext i hi
  simp only [colorBits, BitVec.getElem_and]
  cases x[i] <;> cases y[i] <;> simp

private theorem Agree.kings_symmetric (h : b.Agree) (hp : Playable p) (hq : Playable q)
    (hkp : kindOf (b.board0 p) = some .king) (hkq : kindOf (b.board0 q) = some .king)
    (hcolors : colorBits (b.board0 p) &&& colorBits (b.board0 q) = 0#8) :
    q ∈ b.destinations ord p ↔ p ∈ b.destinations ord q := by
  have hqp : b.ownedBy p q = false := by
    rw [ownedBy, owned, bne_eq_false_iff_eq, ← colorBits_and, hcolors]
  have hpq : b.ownedBy q p = false := by
    rw [ownedBy, owned, bne_eq_false_iff_eq, ← colorBits_and, BitVec.and_comm, hcolors]
  rw [h.mem_king ord hp hkp, h.mem_king ord hq hkq, KingReaches, KingReaches,
    Grid.distance_comm]
  simp only [hqp, hpq, hp, hq]

end Destinations

section Kings

variable {codes : Slot → List U8} {b : Board} {m : U16} (ord : VisitOrder)

theorem Wf.king_move_apart (hcodes : Admissible codes) (h : b.Wf codes)
    (hm : m ∈ b.getLegalMoves ord) (hking : getp0 m = b.pieces (kingSlot b.playerToPlay))
    (halive : b.pieces (kingSlot b.playerToPlay.other) ≠ DEAD) :
    Grid.distance (point (getp1 m)) (point (b.pieces (kingSlot b.playerToPlay.other))) ≠ 1 := by
  intro hdist
  have hloose := h.loose hcodes
  have hlegal := (hloose.mem_getLegalMoves ord).mp hm
  obtain ⟨i, k, hmove⟩ := hloose.mover hlegal.pseudo
  have hcell : b.position.cell (getp0 m) = some (b.playerToPlay, .king) :=
    hloose.cell_king.mpr ⟨hking.symm, hmove.source.ne_dead⟩
  obtain rfl : k = .king := by
    have hsource := hmove.facts.source
    rw [hcell, Option.some.injEq, Prod.mk.injEq] at hsource
    exact hsource.2.symm
  have hpromo : getpromo m = 0 := by
    rcases hmove.promo_cases with hzero | ⟨hpawn, _⟩
    · exact hzero
    · cases hpawn
  have hplayable := hloose.playable _ halive
  have henemy : b.position.cell (b.pieces (kingSlot b.playerToPlay.other)) =
      some (b.playerToPlay.other, .king) := hloose.cell_king.mpr ⟨rfl, halive⟩
  generalize b.pieces (kingSlot b.playerToPlay.other) = e at *
  have he0 : e ≠ getp0 m := by
    rintro rfl
    rw [hcell] at henemy
    simp at henemy
  have he1 : e ≠ getp1 m := by
    rintro rfl
    simp [Grid.distance] at hdist
  have hafter : (b.position.play m).cell (getp1 m) = some (b.playerToPlay, .king) := by
    simp only [Position.play, Function.update_apply, hmove.ne.symm, if_false, if_true, hcell,
      hpromo]
    rfl
  have hafter' : (b.position.play m).cell e = some (b.playerToPlay.other, .king) := by
    simp [Position.play, he0, he1, henemy]
  refine hlegal.safe ⟨getp1 m, hafter, e, .king, hafter', ?_⟩
  rw [Position.reach, reach_king hplayable]
  refine ⟨?_, hmove.target, ?_⟩
  · rw [Position.holdsOwn, hafter]
    simp
  · rwa [Grid.distance_comm]

/-- The moves generated for a king go to the neighbouring squares of the ring that its side does
not hold; so kings attack each other's squares alike, and no legal move of a king ends next to
the other king. -/
theorem king_destinations (hcodes : Admissible codes) (b : Board) :
    (b.Agree → ∀ p, Playable p → kindOf (b.board0 p) = some .king →
      (∀ q, q ∈ b.destinations ord p ↔ KingReaches (b.ownedBy p) p q) ∧
        ∀ q, Playable q → kindOf (b.board0 q) = some .king →
          colorBits (b.board0 p) &&& colorBits (b.board0 q) = 0#8 →
          (q ∈ b.destinations ord p ↔ p ∈ b.destinations ord q)) ∧
      (b.Wf codes → ∀ m ∈ b.getLegalMoves ord, getp0 m = b.pieces (kingSlot b.playerToPlay) →
        b.pieces (kingSlot b.playerToPlay.other) ≠ DEAD →
        Grid.distance (point (getp1 m))
          (point (b.pieces (kingSlot b.playerToPlay.other))) ≠ 1) := by
  constructor
  · intro h p hp hk
    exact ⟨fun q => h.mem_king ord hp hk, fun q hq hkq => h.kings_symmetric ord hp hq hk hkq⟩
  · intro h m hm hking halive
    exact h.king_move_apart ord hcodes hm hking halive

theorem king_destinations_opening : 10 ∈ opening.destinations VisitOrder.insertion 11 := by
  have hking := (king_destinations VisitOrder.insertion admissible_slotCodes opening).1
    (opening_reachable.wf _).agree 11 (by decide) (by decide +kernel)
  exact (hking.1 10).mpr ⟨by decide +kernel, by decide, by decide⟩

end Kings

section Filter

variable {codes : Slot → List U8} {b : Board} (ord : VisitOrder)

private theorem legalLoop_nodup (ms : List U16) (c : Board) {legalMoves : MoveSet}
    (h : legalMoves.Nodup) :
    (ms.foldl (fun (c, legalMoves) m =>
      let c := c.rawDoMove m
      let legalMoves := if !c.inCheck ord then legalMoves.insert m else legalMoves
      (c.rawUndoLastMove m, legalMoves)) (c, legalMoves)).2.Nodup := by
  induction ms generalizing c legalMoves with
  | nil => exact h
  | cons m ms ih =>
    rw [List.foldl_cons]
    apply ih
    split
    · exact h.insert
    · exact h

private theorem legalLoop_subset (ms : List U16) (c : Board) (legalMoves : MoveSet) :
    (ms.foldl (fun (c, legalMoves) m =>
      let c := c.rawDoMove m
      let legalMoves := if !c.inCheck ord then legalMoves.insert m else legalMoves
      (c.rawUndoLastMove m, legalMoves)) (c, legalMoves)).2 ⊆ legalMoves ++ ms := by
  induction ms generalizing c legalMoves with
  | nil => simp
  | cons m ms ih =>
    rw [List.foldl_cons]
    intro m' hm'
    rcases List.mem_append.mp (ih _ _ hm') with h | h
    · split at h
      · rcases List.mem_insert_iff.mp h with rfl | h
        · exact List.mem_append_right _ List.mem_cons_self
        · exact List.mem_append_left _ h
      · exact List.mem_append_left _ h
    · exact List.mem_append_right _ (List.mem_cons_of_mem _ h)

theorem word_of_mem_getLegalMoves {ord : VisitOrder} {m : U16} (hm : m ∈ b.getLegalMoves ord) :
    ∃ p q : Square, ∃ pt ∈ promoFlags, m = movePromo p q pt.toNat := by
  have hpseudo := legalLoop_subset ord _ b [] hm
  rw [List.nil_append, ord.mem_visit, getPseudolegalMoves, mem_getPseudolegalMovesForSide]
    at hpseudo
  obtain ⟨i, _, _, hmi⟩ := hpseudo
  exact word_of_mem_movesForPiece hmi

theorem getLegalMoves_nodup (b : Board) : (b.getLegalMoves ord).Nodup :=
  legalLoop_nodup ord _ b List.nodup_nil

theorem inCheck_eq_false (b : Board) : b.inCheck ord = false ↔
    ∀ m ∈ b.getPseudolegalMovesForSide ord b.playerToPlay.other,
      getp1 m ≠ b.pieces (kingSlot b.playerToPlay) := by
  simp only [inCheck, underThreat, List.any_eq_false, ord.mem_visit, beq_iff_eq]

/-- The set of moves `get_legal_moves` returns does not depend on the order of visiting, and it
holds the pseudo-legal moves after which, on a fresh copy, no move of the opponent ends on the
mover's king. -/
theorem legal_moves_fresh (hcodes : Admissible codes) (h : b.Wf codes) (ord' : VisitOrder) :
    (b.getLegalMoves ord).Perm (b.getLegalMoves ord') ∧
      ∀ m, m ∈ b.getLegalMoves ord ↔ m ∈ b.getPseudolegalMoves ord' ∧
        ∀ m' ∈ (b.rawDoMove m).getPseudolegalMovesForSide ord' b.playerToPlay.other,
          getp1 m' ≠ (b.rawDoMove m).pieces (kingSlot b.playerToPlay) := by
  have hloose := h.loose hcodes
  have horder : ∀ m, m ∈ b.getLegalMoves ord ↔ m ∈ b.getLegalMoves ord' := fun m => by
    rw [hloose.mem_getLegalMoves ord, hloose.mem_getLegalMoves ord']
  constructor
  · exact (List.perm_ext_iff_of_nodup (getLegalMoves_nodup ord b)
      (getLegalMoves_nodup ord' b)).mpr horder
  · intro m
    have hcheck := inCheck_eq_false ord' (b.rawDoMove m)
    rw [rawDoMove_playerToPlay] at hcheck
    rw [horder, hloose.mem_getLegalMoves_fresh ord', hcheck]

theorem legal_moves_fresh_start :
    (Board.new.getLegalMoves VisitOrder.insertion).Perm
      (Board.new.getLegalMoves ⟨List.reverse, List.reverse_perm⟩) :=
  (legal_moves_fresh VisitOrder.insertion admissible_slotCodes new_wf _).1

end Filter

end Board

end Rollerball
