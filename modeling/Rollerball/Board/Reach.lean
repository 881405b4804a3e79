import Rollerball.Board.Legal

/-!
# Legal games

The start board is well formed and legal play keeps it so. The results of this module hold for
every board reached by any number of legal moves.
-/

namespace Rollerball

private theorem foldl_update_apply {f : Square → Square} (hf : Function.Injective f)
    (src : Square → U8) (squares : List Square) (tgt : Square → U8) (p : Square) :
    squares.foldl (fun tgt i => Function.update tgt (f i) (src i)) tgt (f p) =
      if p ∈ squares then src p else tgt (f p) := by
  induction squares generalizing tgt with
  | nil => simp
  | cons i squares ih =>
    rw [List.foldl_cons, ih]
    by_cases hp : p ∈ squares
    · simp [hp]
    · by_cases hpi : p = i
      · subst hpi
        simp [hp]
      · simp [hp, hpi, Function.update_of_ne (hf.ne hpi)]

/-- `rotate_board` fills every place of the target through an injective table. -/
theorem rotateBoard_apply {f : Square → Square} (hf : Function.Injective f)
    (src tgt : Square → U8) (p : Square) : rotateBoard src tgt f (f p) = src p := by
  rw [rotateBoard, foldl_update_apply hf, if_pos (List.mem_finRange p)]

namespace Board

theorem new_wf : Board.new.Wf slotCodes where
  board90 := rotateBoard_apply cw90_injective _ _
  board180 := rotateBoard_apply cw180_injective _ _
  board270 := rotateBoard_apply acw90_injective _ _
  distinct := by decide +kernel
  playable := by decide +kernel
  code := by decide +kernel
  empty := by decide +kernel

section Ply

variable {codes : Slot → List U8} {b : Board} {m : U16} (ord : VisitOrder)

theorem Wf.flipPlayer (h : b.Wf codes) : b.flipPlayer.Wf codes := { h with }

theorem Wf.legal_mover (hcodes : Admissible codes) (h : b.Wf codes)
    (hm : m ∈ b.getLegalMoves ord) : ∃ i k, b.Mover b.playerToPlay m i k :=
  (h.loose hcodes).mover (((h.loose hcodes).mem_getLegalMoves ord).mp hm).pseudo

theorem Wf.doMove (hcodes : Admissible codes) (h : b.Wf codes)
    (hm : m ∈ b.getLegalMoves ord) : (b.doMove m).Wf codes := by
  obtain ⟨i, k, hmove⟩ := h.legal_mover ord hcodes hm
  exact (hmove.wf_rawDoMove hcodes h).flipPlayer

theorem Wf.position_doMove (hcodes : Admissible codes) (h : b.Wf codes)
    (hm : m ∈ b.getLegalMoves ord) : (b.doMove m).position = b.position.next m := by
  obtain ⟨i, k, hmove⟩ := h.legal_mover ord hcodes hm
  have hpos := hmove.position_rawDoMove (h.loose hcodes)
  apply Position.ext
  · intro p
    exact congrArg (fun pos => pos.cell p) hpos
  · simp [Position.next]

theorem Wf.killed_slot (hcodes : Admissible codes) (h : b.Wf codes)
    (hm : m ∈ b.getLegalMoves ord) {i : Slot} (hlive : b.pieces i ≠ DEAD)
    (hdead : (b.doMove m).pieces i = DEAD) :
    b.pieces i = getp1 m ∧ slotColor i = b.playerToPlay.other := by
  obtain ⟨j, k, hmove⟩ := h.legal_mover ord hcodes hm
  have hpieces := hmove.pieces_rawDoMove h i
  rw [show (b.rawDoMove m).pieces i = DEAD from hdead] at hpieces
  split_ifs at hpieces with hij hi1
  · exact absurd hpieces.symm hmove.target.ne_dead
  · exact ⟨hi1, hmove.captured_color (h.loose hcodes) hi1⟩
  · exact absurd hpieces.symm hlive

theorem Wf.dead_doMove (hcodes : Admissible codes) (h : b.Wf codes)
    (hm : m ∈ b.getLegalMoves ord) {i : Slot} (hdead : b.pieces i = DEAD) :
    (b.doMove m).pieces i = DEAD := by
  obtain ⟨j, k, hmove⟩ := h.legal_mover ord hcodes hm
  have hij : i ≠ j := by
    rintro rfl
    exact hmove.source.ne_dead (by rw [← hmove.slot, hdead])
  change (b.rawDoMove m).pieces i = DEAD
  rw [hmove.pieces_rawDoMove h, if_neg hij, hdead, ite_self]

end Ply

section Games

variable {b b' : Board} (ord : VisitOrder)

theorem Wf.run (h : b.Wf slotCodes) (hrun : Relation.ReflTransGen (LegalStep ord) b b') :
    b'.Wf slotCodes := by
  induction hrun with
  | refl => exact h
  | tail _ hstep ih =>
    obtain ⟨m, hm, rfl⟩ := hstep
    exact ih.doMove ord admissible_slotCodes hm

theorem Reachable.wf (h : b.Reachable ord) : b.Wf slotCodes := new_wf.run ord h

theorem Wf.dead_run (h : b.Wf slotCodes) (hrun : Relation.ReflTransGen (LegalStep ord) b b')
    {i : Slot} (hdead : b.pieces i = DEAD) : b'.pieces i = DEAD := by
  induction hrun with
  | refl => exact hdead
  | tail hprefix hstep ih =>
    obtain ⟨m, hm, rfl⟩ := hstep
    exact (h.run ord hprefix).dead_doMove ord admissible_slotCodes hm ih

/-- Every board of every legal game is well formed, with exactly one type bit on every piece.
From it on dead slots stay dead, and each move kills at most one slot, an enemy one. -/
theorem reachable_invariant (h : b.Reachable ord) :
    b.Wf slotCodes ∧
      (∀ b', Relation.ReflTransGen (LegalStep ord) b b' →
        ∀ i, b.pieces i = DEAD → b'.pieces i = DEAD) ∧
      ∀ m ∈ b.getLegalMoves ord, ∀ i, b.pieces i ≠ DEAD → (b.doMove m).pieces i = DEAD →
        slotColor i = b.playerToPlay.other ∧
          ∀ j, b.pieces j ≠ DEAD → (b.doMove m).pieces j = DEAD → j = i := by
  have hwf := h.wf ord
  refine ⟨hwf, fun b' hrun i hdead => hwf.dead_run ord hrun hdead, ?_⟩
  intro m hm i hlive hdead
  have hi := hwf.killed_slot ord admissible_slotCodes hm hlive hdead
  refine ⟨hi.2, ?_⟩
  intro j hjlive hjdead
  have hj := hwf.killed_slot ord admissible_slotCodes hm hjlive hjdead
  exact hwf.distinct j i hjlive (by rw [hj.1, hi.1])

/-- A list of moves each of which is legal when checked on a fresh copy. -/
def plays (b : Board) : List U16 → Bool
  | [] => true
  | m :: ms =>
      (b.getPseudolegalMoves VisitOrder.insertion).elem m &&
        !(b.rawDoMove m).inCheck VisitOrder.insertion && plays (b.doMove m) ms

theorem plays_append (b : Board) (ms ms' : List U16) :
    b.plays (ms ++ ms') = true ↔ b.plays ms = true ∧ (ms.foldl doMove b).plays ms' = true := by
  induction ms generalizing b with
  | nil => exact (and_iff_right rfl).symm
  | cons m ms ih =>
    simp only [List.cons_append, plays, Bool.and_eq_true, ih, List.foldl_cons, and_assoc]

theorem Wf.plays_cons (h : b.Wf slotCodes) {m : U16} {ms : List U16}
    (hplays : b.plays (m :: ms) = true) :
    m ∈ b.getLegalMoves VisitOrder.insertion ∧ (b.doMove m).plays ms = true := by
  simp only [Board.plays, Bool.and_eq_true, Bool.not_eq_true', List.elem_eq_mem,
    decide_eq_true_eq] at hplays
  obtain ⟨hm, hrest⟩ := hplays
  exact ⟨((h.loose admissible_slotCodes).mem_getLegalMoves_fresh _).mpr hm, hrest⟩

theorem Wf.legal_of_plays (h : b.Wf slotCodes) {m : U16} (hplays : b.plays [m] = true) :
    m ∈ b.getLegalMoves VisitOrder.insertion := (h.plays_cons hplays).1

theorem Reachable.plays (h : b.Reachable VisitOrder.insertion) (ms : List U16)
    (hplays : b.plays ms = true) : (ms.foldl Board.doMove b).Reachable VisitOrder.insertion := by
  induction ms generalizing b with
  | nil => exact h
  | cons m ms ih =>
    obtain ⟨hm, hrest⟩ := (h.wf VisitOrder.insertion).plays_cons hplays
    exact ih (h.tail ⟨m, hm, rfl⟩) hrest

theorem opening_legal : move 10 17 ∈ Board.new.getLegalMoves VisitOrder.insertion :=
  new_wf.legal_of_plays (by decide +kernel)

def opening : Board := Board.new.doMove (move 10 17)

theorem opening_reachable : opening.Reachable VisitOrder.insertion :=
  Relation.ReflTransGen.single ⟨_, opening_legal, rfl⟩

theorem reachable_invariant_opening : opening.Wf slotCodes :=
  (reachable_invariant VisitOrder.insertion opening_reachable).1

/-- After `e2f2 e6f5 d2e2 f5f4` the king on `e2` is in check. -/
def checkedGame : List U16 := [move 12 13, move 44 37, move 11 12, move 37 29]

/-- The check can be answered with `f2f3`. -/
theorem checkedGame_plays : Board.new.plays (checkedGame ++ [move 13 21]) = true := by
  decide +kernel

end Games

end Board

end Rollerball
