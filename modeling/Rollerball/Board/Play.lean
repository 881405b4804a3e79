import Rollerball.Board.WellFormed

/-!
# Playing a move and taking it back

The scan over the twelve slots, the promotion and the eight array writes of `_do_move` carry a
well-formed board to a well-formed board and play the move of the abstract game. Taking the move
back restores every field except, after a promotion, the type bits of the promoted pawn.
-/

namespace Rollerball

namespace Board

def scanned (p0 p1 p : Square) : Square :=
  let p := if p = p1 then DEAD else p
  if p = p0 then p1 else p

private theorem scanSlot_pieces (p0 p1 : Square) (b : Board) (i : Slot) :
    (scanSlot p0 p1 b i).pieces = Function.update b.pieces i (scanned p0 p1 (b.pieces i)) := by
  by_cases h1 : b.pieces i = p1
  · by_cases h0 : DEAD = p0 <;> simp [scanSlot, scanned, h1, h0]
  · by_cases h0 : b.pieces i = p0
    · subst h0
      simp [scanSlot, scanned, h1]
    · simp [scanSlot, scanned, h1, h0]

private theorem scanSlot_frame (p0 p1 : Square) (b : Board) (i : Slot) :
    scanSlot p0 p1 b i =
      { b with
        pieces := Function.update b.pieces i (scanned p0 p1 (b.pieces i))
        lastKilledPiece := if b.pieces i = p1 then b.board0 p1 else b.lastKilledPiece
        lastKilledPieceIdx := if b.pieces i = p1 then some i else b.lastKilledPieceIdx } := by
  have hpieces := scanSlot_pieces p0 p1 b i
  rw [← hpieces]
  by_cases h1 : b.pieces i = p1
  · by_cases h0 : DEAD = p0 <;> simp [scanSlot, h1, h0]
  · by_cases h0 : b.pieces i = p0
    · subst h0
      simp [scanSlot, h1]
    · simp [scanSlot, h1, h0]

private theorem foldl_scanSlot_pieces (p0 p1 : Square) (slots : List Slot) (hslots : slots.Nodup)
    (b : Board) (j : Slot) :
    (slots.foldl (scanSlot p0 p1) b).pieces j =
      if j ∈ slots then scanned p0 p1 (b.pieces j) else b.pieces j := by
  induction slots generalizing b with
  | nil => simp
  | cons i slots ih =>
    have hi := (List.nodup_cons.mp hslots).1
    rw [List.foldl_cons, ih (List.nodup_cons.mp hslots).2, scanSlot_pieces]
    by_cases hj : j = i
    · subst hj
      simp [hi]
    · simp [hj]

private theorem foldl_scanSlot_frame (p0 p1 : Square) (slots : List Slot) (b : Board) :
    (slots.foldl (scanSlot p0 p1) b).board0 = b.board0 ∧
      (slots.foldl (scanSlot p0 p1) b).board90 = b.board90 ∧
      (slots.foldl (scanSlot p0 p1) b).board180 = b.board180 ∧
      (slots.foldl (scanSlot p0 p1) b).board270 = b.board270 ∧
      (slots.foldl (scanSlot p0 p1) b).playerToPlay = b.playerToPlay := by
  induction slots generalizing b with
  | nil => exact ⟨rfl, rfl, rfl, rfl, rfl⟩
  | cons i slots ih =>
    have h := ih (scanSlot p0 p1 b i)
    rw [scanSlot_frame] at h
    rw [List.foldl_cons, scanSlot_frame]
    exact h

private theorem foldl_scanSlot_kill_none (p0 p1 : Square) (slots : List Slot) (hslots : slots.Nodup)
    (b : Board) (hfree : ∀ j ∈ slots, b.pieces j ≠ p1) :
    (slots.foldl (scanSlot p0 p1) b).lastKilledPiece = b.lastKilledPiece ∧
      (slots.foldl (scanSlot p0 p1) b).lastKilledPieceIdx = b.lastKilledPieceIdx := by
  induction slots generalizing b with
  | nil => exact ⟨rfl, rfl⟩
  | cons i slots ih =>
    have hi := List.nodup_cons.mp hslots
    have hfree' : ∀ j ∈ slots, (scanSlot p0 p1 b i).pieces j ≠ p1 := by
      intro j hj
      have hji : j ≠ i := fun h => hi.1 (h ▸ hj)
      rw [scanSlot_pieces, Function.update_of_ne hji]
      exact hfree j (List.mem_cons_of_mem _ hj)
    rw [List.foldl_cons, (ih hi.2 _ hfree').1, (ih hi.2 _ hfree').2, scanSlot_frame]
    simp [hfree i List.mem_cons_self]

private theorem foldl_scanSlot_kill_some (p0 p1 : Square) (slots : List Slot) (hslots : slots.Nodup)
    (b : Board) (k : Slot) (hk : k ∈ slots) (hp1 : b.pieces k = p1)
    (hunique : ∀ j ∈ slots, b.pieces j = p1 → j = k) :
    (slots.foldl (scanSlot p0 p1) b).lastKilledPiece = b.board0 p1 ∧
      (slots.foldl (scanSlot p0 p1) b).lastKilledPieceIdx = some k := by
  induction slots generalizing b with
  | nil => cases hk
  | cons i slots ih =>
    have hi := List.nodup_cons.mp hslots
    have hrest : ∀ j ∈ slots, (scanSlot p0 p1 b i).pieces j = b.pieces j := by
      intro j hj
      have hji : j ≠ i := fun h => hi.1 (h ▸ hj)
      rw [scanSlot_pieces, Function.update_of_ne hji]
    rw [List.foldl_cons]
    by_cases hik : i = k
    · subst hik
      have hfree : ∀ j ∈ slots, (scanSlot p0 p1 b i).pieces j ≠ p1 := by
        intro j hj hj1
        rw [hrest j hj] at hj1
        exact hi.1 (hunique j (List.mem_cons_of_mem _ hj) hj1 ▸ hj)
      have hnone := foldl_scanSlot_kill_none p0 p1 slots hi.2 _ hfree
      rw [hnone.1, hnone.2, scanSlot_frame]
      simp [hp1]
    · have hk' : k ∈ slots := (List.mem_cons.mp hk).resolve_left fun h => hik h.symm
      have hstep := ih hi.2 (scanSlot p0 p1 b i) hk' (by rw [hrest k hk', hp1])
        (fun j hj hj1 => hunique j (List.mem_cons_of_mem _ hj) (by rw [← hrest j hj, hj1]))
      rw [hstep.1, hstep.2, scanSlot_frame]
      exact ⟨rfl, rfl⟩

private theorem scan_pieces (b : Board) (p0 p1 : Square) (j : Slot) :
    (b.scan p0 p1).pieces j = scanned p0 p1 (b.pieces j) := by
  unfold scan
  rw [foldl_scanSlot_pieces p0 p1 _ (List.nodup_finRange 12), if_pos (List.mem_finRange j)]

private theorem scan_frame (b : Board) (p0 p1 : Square) :
    (b.scan p0 p1).board0 = b.board0 ∧ (b.scan p0 p1).board90 = b.board90 ∧
      (b.scan p0 p1).board180 = b.board180 ∧ (b.scan p0 p1).board270 = b.board270 ∧
      (b.scan p0 p1).playerToPlay = b.playerToPlay := by
  unfold scan
  exact foldl_scanSlot_frame p0 p1 _ b

private theorem scan_kill_none (b : Board) (p0 p1 : Square) (hfree : ∀ j, b.pieces j ≠ p1) :
    (b.scan p0 p1).lastKilledPiece = b.lastKilledPiece ∧
      (b.scan p0 p1).lastKilledPieceIdx = b.lastKilledPieceIdx := by
  unfold scan
  exact foldl_scanSlot_kill_none p0 p1 _ (List.nodup_finRange 12) b fun j _ => hfree j

private theorem scan_kill_some (b : Board) (p0 p1 : Square) {k : Slot} (hp1 : b.pieces k = p1)
    (hunique : ∀ j, b.pieces j = p1 → j = k) :
    (b.scan p0 p1).lastKilledPiece = b.board0 p1 ∧
      (b.scan p0 p1).lastKilledPieceIdx = some k := by
  unfold scan
  exact foldl_scanSlot_kill_some p0 p1 _ (List.nodup_finRange 12) b k (List.mem_finRange k) hp1
    fun j _ => hunique j

/-- The scan and the eight writes of `_do_move`, field by field. -/
private theorem rawDoMove_eq (b : Board) (m : U16) :
    b.rawDoMove m = ((b.forgetKill.scan (getp0 m) (getp1 m)).put (getp1 m)
      (promote (b.board0 (getp0 m)) (getpromo m))).put (getp0 m) 0 := rfl

/-- The slot `i` stands on the source of the move word, and its destination is playable. -/
structure Carries (b : Board) (m : U16) (i : Slot) : Prop where
  slot : b.pieces i = getp0 m
  source : Playable (getp0 m)
  target : Playable (getp1 m)
  ne : getp0 m ≠ getp1 m

theorem rawDoMove_pieces (b : Board) (m : U16) (j : Slot) :
    (b.rawDoMove m).pieces j = scanned (getp0 m) (getp1 m) (b.pieces j) := by
  rw [rawDoMove_eq]
  simp only [put, scan_pieces, forgetKill]

@[simp] theorem rawDoMove_board0 (b : Board) (m : U16) :
    (b.rawDoMove m).board0 = Function.update (Function.update b.board0 (getp1 m)
      (promote (b.board0 (getp0 m)) (getpromo m))) (getp0 m) 0 := by
  rw [rawDoMove_eq]
  simp only [put, (scan_frame _ _ _).1, forgetKill]

@[simp] theorem rawDoMove_playerToPlay (b : Board) (m : U16) :
    (b.rawDoMove m).playerToPlay = b.playerToPlay := by
  rw [rawDoMove_eq]
  simp only [put, (scan_frame _ _ _).2.2.2.2, forgetKill]

@[simp] theorem doMove_playerToPlay (b : Board) (m : U16) :
    (b.doMove m).playerToPlay = b.playerToPlay.other :=
  congrArg PlayerColor.other (rawDoMove_playerToPlay b m)

theorem rawDoMove_rotated (b : Board) (m : U16) :
    (b.rawDoMove m).board90 = Function.update (Function.update b.board90 (cw90 (getp1 m))
        (promote (b.board0 (getp0 m)) (getpromo m))) (cw90 (getp0 m)) 0 ∧
      (b.rawDoMove m).board180 = Function.update (Function.update b.board180 (cw180 (getp1 m))
        (promote (b.board0 (getp0 m)) (getpromo m))) (cw180 (getp0 m)) 0 ∧
      (b.rawDoMove m).board270 = Function.update (Function.update b.board270 (acw90 (getp1 m))
        (promote (b.board0 (getp0 m)) (getpromo m))) (acw90 (getp0 m)) 0 := by
  obtain ⟨_, h90, h180, h270, _⟩ := scan_frame b.forgetKill (getp0 m) (getp1 m)
  rw [rawDoMove_eq]
  simp only [put, h90, h180, h270]
  exact ⟨rfl, rfl, rfl⟩

private theorem update_rotated {rot : Square → Square} (hrot : Function.Injective rot)
    {array board0 : Square → U8} (h : ∀ p, array (rot p) = board0 p) (p1 p0 : Square)
    (v w : U8) (p : Square) :
    Function.update (Function.update array (rot p1) v) (rot p0) w (rot p) =
      Function.update (Function.update board0 p1 v) p0 w p := by
  simp only [Function.update_apply, hrot.eq_iff, h]

section Carries

variable {codes : Slot → List U8} {b : Board} {m : U16} {i : Slot}

theorem Carries.slot_unique (hi : b.Carries m i) (h : b.Wf codes) {j : Slot}
    (hj : b.pieces j = getp0 m) : j = i := by
  apply h.distinct j i
  · rw [hj]
    exact hi.source.ne_dead
  · rw [hj, hi.slot]

theorem Carries.pieces_rawDoMove (hi : b.Carries m i) (h : b.Wf codes) (j : Slot) :
    (b.rawDoMove m).pieces j =
      if j = i then getp1 m else if b.pieces j = getp1 m then DEAD else b.pieces j := by
  rw [rawDoMove_pieces]
  by_cases hj : j = i
  · subst hj
    simp [scanned, hi.slot, hi.ne]
  · have hj0 : b.pieces j ≠ getp0 m := fun h0 => hj (hi.slot_unique h h0)
    have hdead : DEAD ≠ getp0 m := hi.source.ne_dead.symm
    by_cases hj1 : b.pieces j = getp1 m
    · simp [scanned, hj, hj1, hdead]
    · simp [scanned, hj, hj1, hj0]

theorem Carries.live_rawDoMove (hi : b.Carries m i) (h : b.Wf codes) {j : Slot}
    (hj : (b.rawDoMove m).pieces j ≠ DEAD) :
    (j = i ∧ (b.rawDoMove m).pieces j = getp1 m) ∨
      ((b.rawDoMove m).pieces j = b.pieces j ∧ b.pieces j ≠ DEAD ∧ b.pieces j ≠ getp0 m ∧
        b.pieces j ≠ getp1 m) := by
  rw [hi.pieces_rawDoMove h] at hj ⊢
  split_ifs at hj ⊢ with hji hj1
  · exact Or.inl ⟨hji, rfl⟩
  · exact absurd rfl hj
  · exact Or.inr ⟨rfl, hj, fun h0 => hji (hi.slot_unique h h0), hj1⟩

theorem Agree.rawDoMove (h : b.Agree) (m : U16) : (b.rawDoMove m).Agree where
  board90 := by
    intro p
    rw [(rawDoMove_rotated b m).1, rawDoMove_board0]
    exact update_rotated cw90_injective h.board90 _ _ _ _ _
  board180 := by
    intro p
    rw [(rawDoMove_rotated b m).2.1, rawDoMove_board0]
    exact update_rotated cw180_injective h.board180 _ _ _ _ _
  board270 := by
    intro p
    rw [(rawDoMove_rotated b m).2.2, rawDoMove_board0]
    exact update_rotated acw90_injective h.board270 _ _ _ _ _

/-- `_do_move` keeps the five copies of the position in agreement when it writes a byte the
carried slot may hold. -/
theorem Carries.wf_rawDoMove (hi : b.Carries m i) (h : b.Wf codes)
    (hcode : promote (b.board0 (getp0 m)) (getpromo m) ∈ codes i) : (b.rawDoMove m).Wf codes where
  board90 := (h.agree.rawDoMove m).board90
  board180 := (h.agree.rawDoMove m).board180
  board270 := (h.agree.rawDoMove m).board270
  distinct := by
    intro j l hj hjl
    have hl : (b.rawDoMove m).pieces l ≠ DEAD := by rwa [← hjl]
    rcases hi.live_rawDoMove h hj with ⟨hji, hjp⟩ | ⟨hjp, hjlive, _, hj1⟩
    · rcases hi.live_rawDoMove h hl with ⟨hli, _⟩ | ⟨hlp, _, _, hl1⟩
      · rw [hji, hli]
      · rw [hjp, hlp] at hjl
        exact absurd hjl.symm hl1
    · rcases hi.live_rawDoMove h hl with ⟨_, hlp⟩ | ⟨hlp, _, _, _⟩
      · rw [hjp, hlp] at hjl
        exact absurd hjl hj1
      · rw [hjp, hlp] at hjl
        exact h.distinct j l hjlive hjl
  playable := by
    intro j hj
    rcases hi.live_rawDoMove h hj with ⟨_, hjp⟩ | ⟨hjp, hlive, _, _⟩
    · rw [hjp]
      exact hi.target
    · rw [hjp]
      exact h.playable j hlive
  code := by
    intro j hj
    rw [rawDoMove_board0]
    rcases hi.live_rawDoMove h hj with ⟨hji, hjp⟩ | ⟨hjp, hlive, hj0, hj1⟩
    · rw [hjp, Function.update_of_ne hi.ne.symm, Function.update_self, hji]
      exact hcode
    · rw [hjp, Function.update_of_ne hj0, Function.update_of_ne hj1]
      exact h.code j hlive
  empty := by
    intro p hp
    rw [rawDoMove_board0]
    by_cases hp0 : p = getp0 m
    · rw [hp0, Function.update_self]
      rfl
    · rw [Function.update_of_ne hp0]
      have hip := hp i
      rw [hi.pieces_rawDoMove h, if_pos rfl] at hip
      have hp1 : p ≠ getp1 m := fun heq => hip hi.target.ne_dead heq.symm
      rw [Function.update_of_ne hp1]
      apply h.empty p
      intro j hj hjp
      have hji : j ≠ i := fun heq => hp0 (by rw [← hjp, heq, hi.slot])
      have hj' := hp j
      rw [hi.pieces_rawDoMove h, if_neg hji, hjp, if_neg hp1] at hj'
      exact hj' (hjp ▸ hj) rfl

end Carries

/-- The slot that makes a pseudo-legal move, with the squares it connects. -/
structure Mover (b : Board) (c : PlayerColor) (m : U16) (i : Slot) (k : PieceType) : Prop where
  color : slotColor i = c
  slot : b.pieces i = getp0 m
  kind : kindOf (b.board0 (getp0 m)) = some k
  facts : b.position.MoveFacts c m k
  source : Playable (getp0 m)
  target : Playable (getp1 m)
  ne : getp0 m ≠ getp1 m

theorem Wf.mover {b : Board} (h : b.Wf looseCodes) {c : PlayerColor} {m : U16}
    (hm : b.position.Pseudo c m) : ∃ i k, b.Mover c m i k := by
  obtain ⟨k, hfacts⟩ := hm.facts
  obtain ⟨i, hi, hdead, hcolor, hkind⟩ := h.slot_of_cell hfacts.source
  have hsource : Playable (getp0 m) := hi ▸ h.playable i (by rwa [hi])
  have htarget := Walk.Pattern.reach_subset _ _ _ hfacts.target
  refine ⟨i, k, hcolor, hi, hkind, hfacts, hsource,
    pattern_squares_playable hsource k htarget, ?_⟩
  intro heq
  rw [← heq] at htarget
  exact self_not_mem_pattern hsource k htarget

section Move

variable {codes : Slot → List U8} {b : Board} {c : PlayerColor} {m : U16} {i : Slot}
  {k : PieceType}

theorem Mover.code (hmove : b.Mover c m i k) (h : b.Wf codes) : b.board0 (getp0 m) ∈ codes i := by
  have hcode := h.code i (by rw [hmove.slot]; exact hmove.source.ne_dead)
  rwa [hmove.slot] at hcode

theorem Mover.carries (hmove : b.Mover c m i k) : b.Carries m i :=
  ⟨hmove.slot, hmove.source, hmove.target, hmove.ne⟩

theorem Mover.slot_unique (hmove : b.Mover c m i k) (h : b.Wf codes) {j : Slot}
    (hj : b.pieces j = getp0 m) : j = i :=
  hmove.carries.slot_unique h hj

theorem Mover.pieces_rawDoMove (hmove : b.Mover c m i k) (h : b.Wf codes) (j : Slot) :
    (b.rawDoMove m).pieces j =
      if j = i then getp1 m else if b.pieces j = getp1 m then DEAD else b.pieces j :=
  hmove.carries.pieces_rawDoMove h j

theorem Mover.killed (hmove : b.Mover c m i k) (h : b.Wf codes) :
    ((∀ j, b.pieces j ≠ getp1 m) ∧ (b.rawDoMove m).lastKilledPiece = 0 ∧
        (b.rawDoMove m).lastKilledPieceIdx = none) ∨
      ∃ j, b.pieces j = getp1 m ∧ (b.rawDoMove m).lastKilledPiece = b.board0 (getp1 m) ∧
        (b.rawDoMove m).lastKilledPieceIdx = some j := by
  rw [rawDoMove_eq]
  simp only [put]
  by_cases hfree : ∀ j, b.pieces j ≠ getp1 m
  · left
    obtain ⟨hpiece, hidx⟩ := scan_kill_none b.forgetKill (getp0 m) (getp1 m) hfree
    exact ⟨hfree, hpiece, hidx⟩
  · right
    push Not at hfree
    obtain ⟨j, hj⟩ := hfree
    have hunique : ∀ l, b.pieces l = getp1 m → l = j := by
      intro l hl
      exact h.distinct l j (by rw [hl]; exact hmove.target.ne_dead) (by rw [hl, hj])
    obtain ⟨hpiece, hidx⟩ := scan_kill_some b.forgetKill (getp0 m) (getp1 m) hj hunique
    exact ⟨j, hj, hpiece, hidx⟩

theorem Mover.captured_color (hmove : b.Mover c m i k) (h : b.Wf looseCodes) {j : Slot}
    (hj : b.pieces j = getp1 m) : slotColor j = c.other := by
  have hlive : b.pieces j ≠ DEAD := by rw [hj]; exact hmove.target.ne_dead
  obtain ⟨k', _, hcell⟩ := h.cell_slot hlive
  rw [hj] at hcell
  rcases PlayerColor.eq_or_eq_other c (slotColor j) with hc | hc
  · rw [hc] at hcell
    exact absurd hcell (hmove.facts.not_own k')
  · exact hc

theorem Mover.promote_mem (hmove : b.Mover c m i k) (hcodes : Admissible codes)
    (h : b.Wf codes) : promote (b.board0 (getp0 m)) (getpromo m) ∈ codes i := by
  have hcode := hmove.code h
  by_cases hpawn : k = .pawn
  · exact hcodes.promoted i _ hcode (hpawn ▸ hmove.kind) _
  · have hzero : getpromo m = 0 := by
      have hflag := hmove.facts.flag
      simpa [moveFlags, hpawn] using hflag
    rw [hzero]
    exact hcode

theorem Mover.wf_rawDoMove (hmove : b.Mover c m i k) (hcodes : Admissible codes)
    (h : b.Wf codes) : (b.rawDoMove m).Wf codes :=
  hmove.carries.wf_rawDoMove h (hmove.promote_mem hcodes h)

private theorem cellOf_promote {piece promo : U8} (hpiece : piece ∈ looseCodes i) :
    cellOf (promote piece promo) = (cellOf piece).map fun x => promotedPiece x promo := by
  obtain ⟨k, _, hcell⟩ := looseCodes_kind hpiece
  have hbits : ∀ (c : PlayerColor) (k : PieceType), cellOf (c.bits ||| k.bits) = some (c, k) := by
    intro c k
    cases c <;> cases k <;> decide
  rw [hcell]
  unfold promote promotedPiece
  rw [looseCodes_colorBits hpiece]
  split_ifs
  · rw [hbits]; rfl
  · rw [hbits]; rfl
  · rw [hcell]; rfl

/-- `_do_move` plays the move of the abstract game. -/
theorem Mover.position_rawDoMove (hmove : b.Mover c m i k) (h : b.Wf looseCodes) :
    (b.rawDoMove m).position = b.position.play m := by
  apply Position.ext
  · intro p
    simp only [position, Position.play, rawDoMove_board0, Function.update_apply]
    split_ifs with hp0 hp1
    · exact cellOf_zero
    · exact cellOf_promote (hmove.code h)
    · rfl
  · simp [Position.play]

/-- The byte a move and its undo leave on the source square. -/
def remark (piece promo : U8) : U8 := demote (promote piece promo) promo

@[simp] theorem remark_zero (piece : U8) : remark piece 0 = piece := rfl

theorem ext_fields {b b' : Board} (hpieces : ∀ j, b.pieces j = b'.pieces j)
    (h0 : ∀ p, b.board0 p = b'.board0 p) (h90 : ∀ p, b.board90 p = b'.board90 p)
    (h180 : ∀ p, b.board180 p = b'.board180 p) (h270 : ∀ p, b.board270 p = b'.board270 p)
    (hplayer : b.playerToPlay = b'.playerToPlay)
    (hpiece : b.lastKilledPiece = b'.lastKilledPiece)
    (hidx : b.lastKilledPieceIdx = b'.lastKilledPieceIdx) : b = b' := by
  cases b
  cases b'
  simp only [mk.injEq]
  exact ⟨funext hpieces, funext h0, funext h90, funext h180, funext h270, hplayer, hpiece, hidx⟩

/-- A well-formed board is determined by its slots, one array, the player and the last capture. -/
theorem Wf.ext {b b' : Board} (h : b.Wf codes) (h' : b'.Wf codes)
    (hpieces : ∀ i, b.pieces i = b'.pieces i) (h0 : ∀ p, b.board0 p = b'.board0 p)
    (hplayer : b.playerToPlay = b'.playerToPlay)
    (hpiece : b.lastKilledPiece = b'.lastKilledPiece)
    (hidx : b.lastKilledPieceIdx = b'.lastKilledPieceIdx) : b = b' := by
  apply ext_fields hpieces h0 _ _ _ hplayer hpiece hidx
  · intro p
    rw [← cw90_acw90 p, h.board90, h'.board90, h0]
  · intro p
    rw [← cw180_cw180 p, h.board180, h'.board180, h0]
  · intro p
    rw [← acw90_cw90 p, h.board270, h'.board270, h0]

private theorem update_undone {rot : Square → Square} (hrot : Function.Injective rot)
    {array board0 : Square → U8} (h : ∀ p, array (rot p) = board0 p) {p0 p1 : Square}
    (v x dead : U8) (hdead : dead = board0 p1) (hne : p0 ≠ p1) (p : Square) :
    Function.update (Function.update (Function.update (Function.update array (rot p1) v)
      (rot p0) 0) (rot p0) x) (rot p1) dead p = Function.update array (rot p0) x p := by
  by_cases hp1 : p = rot p1
  · subst hp1
    have hrne : rot p1 ≠ rot p0 := fun heq => hne (hrot heq).symm
    rw [Function.update_self, Function.update_of_ne hrne, h, hdead]
  · by_cases hp0 : p = rot p0
    · subst hp0
      rw [Function.update_of_ne hp1, Function.update_self, Function.update_self]
    · simp only [Function.update_of_ne hp1, Function.update_of_ne hp0]

private theorem find_mover (hmove : b.Mover c m i k) (h : b.Wf codes) :
    (List.finRange 12).find? (fun j => (b.rawDoMove m).pieces j = getp1 m) = some i := by
  have hmover : (b.rawDoMove m).pieces i = getp1 m := by
    rw [hmove.pieces_rawDoMove h, if_pos rfl]
  cases hfind : (List.finRange 12).find? fun j => (b.rawDoMove m).pieces j = getp1 m with
  | none =>
    have hnone := List.find?_eq_none.mp hfind i (List.mem_finRange i)
    simp [hmover] at hnone
  | some j =>
    have hj := List.find?_some hfind
    simp only [decide_eq_true_eq, hmove.pieces_rawDoMove h] at hj
    by_cases hji : j = i
    · rw [hji]
    · simp only [hji, if_false] at hj
      split_ifs at hj with hj1
      · exact absurd hj.symm hmove.target.ne_dead
      · exact absurd hj hj1

private theorem Mover.rawUndo_slots (hmove : b.Mover c m i k) (h : b.Wf codes) :
    (b.rawDoMove m).rawUndoLastMove m =
      (({ b.rawDoMove m with
          pieces := b.pieces
          lastKilledPiece := 0
          lastKilledPieceIdx := none } : Board).put (getp0 m)
        (remark (b.board0 (getp0 m)) (getpromo m))).put (getp1 m) (b.board0 (getp1 m)) := by
  have hfind := find_mover hmove h
  have hbyte : (b.rawDoMove m).board0 (getp1 m) =
      promote (b.board0 (getp0 m)) (getpromo m) := by
    rw [rawDoMove_board0, Function.update_of_ne hmove.ne.symm, Function.update_self]
  have hpieces := hmove.pieces_rawDoMove h
  have hkill : (b.rawDoMove m).lastKilledPiece = b.board0 (getp1 m) := by
    rcases hmove.killed h with ⟨hfree, hpiece, _⟩ | ⟨_, _, hpiece, _⟩
    · rw [hpiece, h.empty _ fun j _ => hfree j]
      rfl
    · exact hpiece
  have hidx := hmove.killed h
  generalize b.rawDoMove m = d at *
  simp only [rawUndoLastMove, hfind, hbyte, hkill]
  rcases hidx with ⟨hfree, _, hnone⟩ | ⟨l, hl, _, hsome⟩
  · have hslots : Function.update d.pieces i (getp0 m) = b.pieces := by
      funext j
      by_cases hji : j = i
      · subst hji
        simp [hmove.slot]
      · simp [hji, hpieces, hfree j]
    rw [hnone, hslots]
    rfl
  · have hslots : Function.update (Function.update d.pieces i (getp0 m)) l (getp1 m) =
        b.pieces := by
      funext j
      by_cases hjl : j = l
      · subst hjl
        simp [hl]
      · have hj1 : b.pieces j ≠ getp1 m := by
          intro hj
          exact hjl (h.distinct j l (by rw [hj]; exact hmove.target.ne_dead) (by rw [hj, hl]))
        by_cases hji : j = i
        · subst hji
          simp [hmove.slot, hjl]
        · simp [hji, hjl, hpieces, hj1]
    rw [hsome, ← hslots]
    rfl

/-- Playing a move and taking it back returns the board with the capture forgotten and the byte
of the moved piece rewritten. -/
theorem Mover.rawUndo_rawDo (hmove : b.Mover c m i k) (h : b.Wf codes) :
    (b.rawDoMove m).rawUndoLastMove m =
      b.forgetKill.put (getp0 m) (remark (b.board0 (getp0 m)) (getpromo m)) := by
  obtain ⟨h90, h180, h270⟩ := rawDoMove_rotated b m
  rw [hmove.rawUndo_slots h]
  apply ext_fields
  · exact fun j => rfl
  · intro p
    simp only [put, rawDoMove_board0]
    exact update_undone Function.injective_id (fun _ => rfl) _ _ _ rfl hmove.ne p
  · intro p
    simp only [put, h90]
    exact update_undone cw90_injective h.board90 _ _ _ rfl hmove.ne p
  · intro p
    simp only [put, h180]
    exact update_undone cw180_injective h.board180 _ _ _ rfl hmove.ne p
  · intro p
    simp only [put, h270]
    exact update_undone acw90_injective h.board270 _ _ _ rfl hmove.ne p
  · exact rawDoMove_playerToPlay b m
  · rfl
  · rfl

end Move

@[simp] theorem flipPlayer_flipPlayer (b : Board) : b.flipPlayer.flipPlayer = b := by
  cases b
  simp [flipPlayer]

theorem rawUndoLastMove_flipPlayer (d : Board) (m : U16) :
    d.flipPlayer.rawUndoLastMove m = (d.rawUndoLastMove m).flipPlayer := by
  cases hfound : (List.finRange 12).find? fun i => d.pieces i = getp1 m <;>
    cases hidx : d.lastKilledPieceIdx <;>
      simp only [rawUndoLastMove, flipPlayer, put, hfound, hidx]

/-- The engine's copy of the undo flips the player back and does the same. -/
theorem undoLastMove_doMove (b : Board) (m : U16) :
    (b.doMove m).undoLastMove m = (b.rawDoMove m).rawUndoLastMove m := by
  rw [undoLastMove, doMove, rawUndoLastMove_flipPlayer, flipPlayer_flipPlayer]

end Board

end Rollerball
