import Rollerball.Board.Mirror
import Rollerball.Board.Undo
import Rollerball.Lib.Paint
import Rollerball.Server.Codec

/-!
# Printed boards

`board_to_str` paints a board over an empty ring, seven lines of seven squares with the last row
first, and `all_boards_to_str` paints the four rotated arrays side by side. What is printed tells
the position: it can be read back, and two boards that print alike play the same games.
-/

namespace Rollerball

open Paint (paint)

def pieceToChar (piece : U8) : U8 :=
  let ch :=
    if piece &&& PieceType.pawn.bits ≠ 0#8 then ascii 'p'
    else if piece &&& PieceType.rook.bits ≠ 0#8 then ascii 'r'
    else if piece &&& PieceType.bishop.bits ≠ 0#8 then ascii 'b'
    else if piece &&& PieceType.king.bits ≠ 0#8 then ascii 'k'
    else ascii '.'
  if piece &&& PlayerColor.white.bits ≠ 0#8 then ch - (ascii 'a' - ascii 'A') else ch

def boardMask : Text :=
  literal ".......\n.......\n..   ..\n..   ..\n..   ..\n.......\n.......\n"

/-- The loops skip the line ends and the centre of the ring. -/
def Gap (str : Text) (i : Nat) : Prop := str[i]? = some (ascii '\n') ∨ str[i]? = some (ascii ' ')

instance (str : Text) : DecidablePred (Gap str) := fun i => by unfold Gap; infer_instance

def boardToStr (board : Square → U8) : Text :=
  (List.range 56).foldl (fun str i =>
    if Gap str i then str
    else str.set ((48 - (i / 8) * 8) + i % 8) (pieceToChar (board (Fin.ofNat 64 i)))) boardMask

/-- Colours are an enumeration here, so no board prints the `UNKNOWN` of the third branch. -/
def playerToPlayToStr (b : Board) : Text :=
  match b.playerToPlay with
  | .white => literal "WHITE"
  | .black => literal "BLACK"

/-- The four arrays behind the address of `board_0`. -/
def Board.boards (b : Board) : Fin 4 → Square → U8 := ![b.board0, b.board90, b.board180, b.board270]

def allBoardsToStr (b : Board) : Text :=
  let boardStr := (List.finRange 4).foldl (fun str k =>
    (List.range 56).foldl (fun str i =>
      if Gap boardMask i then str
      else str.set ((224 - (i / 8) * 32) + k * 8 + i % 8)
        (pieceToChar (b.boards k (Fin.ofNat 64 i)))) str) (List.replicate 256 (ascii ' '))
  ((List.range 8).foldl (fun str i => str.set (31 + 32 * i) (ascii '\n')) boardStr).drop 32

def printedAt (i : Nat) : Nat := (48 - (i / 8) * 8) + i % 8

/-- The character of a square in the `k`-th picture of `all_boards_to_str`. -/
def printedIn (k : Fin 4) (i : Nat) : Nat := (192 - (i / 8) * 32) + k * 8 + i % 8

def drawn : List Nat := (List.range 56).filter fun i => ¬Gap boardMask i

private theorem gap_boardMask : ∀ i ∈ List.range 56, (Gap boardMask i ↔
    i % 8 = 7 ∨ 2 ≤ i % 8 ∧ i % 8 ≤ 4 ∧ 2 ≤ i / 8 ∧ i / 8 ≤ 4) := by decide

theorem mem_drawn {i : Nat} : i ∈ drawn ↔
    i < 56 ∧ i % 8 ≠ 7 ∧ ¬(2 ≤ i % 8 ∧ i % 8 ≤ 4 ∧ 2 ≤ i / 8 ∧ i / 8 ≤ 4) := by
  rw [drawn, List.mem_filter, List.mem_range]
  refine and_congr_right fun hi => ?_
  rw [decide_eq_true_eq, gap_boardMask i (List.mem_range.mpr hi), not_or]

private theorem drawn_iff : ∀ p, Playable p ↔ p.val < 56 ∧ p.val % 8 ≠ 7 ∧
    ¬(2 ≤ p.val % 8 ∧ p.val % 8 ≤ 4 ∧ 2 ≤ p.val / 8 ∧ p.val / 8 ≤ 4) := by decide

theorem Playable.drawn {p : Square} (hp : Playable p) : p.val ∈ drawn :=
  mem_drawn.mpr ((drawn_iff p).mp hp)

theorem playable_of_drawn {i : Nat} (hi : i ∈ drawn) : Playable (Fin.ofNat 64 i) := by
  have hlt := (mem_drawn.mp hi).1
  rw [drawn_iff, Fin.val_ofNat, Nat.mod_eq_of_lt (by omega)]
  exact mem_drawn.mp hi

private theorem gap_printedAt {i : Nat} (hi : i ∈ List.range 56)
    (hgap : Gap boardMask (printedAt i)) : Gap boardMask i := by
  have hlt := List.mem_range.mp hi
  have hmem : printedAt i ∈ List.range 56 := by
    rw [List.mem_range, printedAt]
    omega
  rw [gap_boardMask _ hmem, printedAt] at hgap
  rw [gap_boardMask i hi]
  omega

theorem pieceToChar_ne_gap (piece : U8) :
    pieceToChar piece ≠ ascii '\n' ∧ pieceToChar piece ≠ ascii ' ' := by
  unfold pieceToChar
  split_ifs <;> decide

private theorem gap_set {str : Text} {i j : Nat} (hi : ¬Gap boardMask (printedAt i))
    (hj : Gap str j ↔ Gap boardMask j) (piece : U8) :
    Gap (str.set (printedAt i) (pieceToChar piece)) j ↔ Gap boardMask j := by
  obtain ⟨hend, hblank⟩ := pieceToChar_ne_gap piece
  by_cases hji : printedAt i = j
  · subst hji
    refine iff_of_false ?_ hi
    rw [Gap, List.getElem?_set_self']
    cases str[printedAt i]? with
    | none => simp
    | some ch => simp [hend, hblank]
  · rw [Gap, List.getElem?_set_ne hji]
    exact hj

theorem boardToStr_eq_paint (board : Square → U8) :
    boardToStr board =
      paint printedAt (fun i => pieceToChar (board (Fin.ofNat 64 i))) drawn boardMask := by
  refine Paint.foldl_skip fun str hstr i hi hgap j hj => ?_
  exact gap_set (fun h => hgap (gap_printedAt hi h)) (hstr j hj) _

private theorem printedAt_injOn : ∀ i ∈ drawn, ∀ j ∈ drawn, printedAt i = printedAt j → i = j := by
  intro i hi j hj h
  have hi := (mem_drawn.mp hi).1
  have hj := (mem_drawn.mp hj).1
  unfold printedAt at h
  omega

private theorem boardMask_length : boardMask.length = 56 := by decide

private theorem printedAt_lt : ∀ i ∈ drawn, printedAt i < boardMask.length := by
  intro i hi
  have hi := (mem_drawn.mp hi).1
  rw [boardMask_length, printedAt]
  omega

theorem boardToStr_at (board : Square → U8) {p : Square} (hp : Playable p) :
    (boardToStr board)[printedAt p]? = some (pieceToChar (board p)) := by
  rw [boardToStr_eq_paint, Paint.paint_written printedAt_injOn hp.drawn (printedAt_lt _ hp.drawn),
    Fin.ofNat_val_eq_self]

theorem boardToStr_inj (board board' : Square → U8) : boardToStr board = boardToStr board' ↔
    ∀ p, Playable p → pieceToChar (board p) = pieceToChar (board' p) := by
  constructor
  · intro h p hp
    have hread := congrArg (fun str : Text => str[printedAt p]?) h
    simp only [boardToStr_at _ hp, Option.some.injEq] at hread
    exact hread
  · intro h
    rw [boardToStr_eq_paint, boardToStr_eq_paint, Paint.paint_inj printedAt_injOn printedAt_lt]
    exact fun i hi => h _ (playable_of_drawn hi)

private def pictures : List (Fin 4 × Nat) :=
  (List.finRange 4).flatMap fun k => drawn.map fun i => (k, i)

private theorem mem_pictures {k : Fin 4} {i : Nat} : (k, i) ∈ pictures ↔ i ∈ drawn := by
  simp [pictures]

/-- Where the loops of `all_boards_to_str` draw, before the top line is cut off. -/
private def canvasAt (ki : Fin 4 × Nat) : Nat := (224 - (ki.2 / 8) * 32) + ki.1 * 8 + ki.2 % 8

private theorem canvasAt_eq {k : Fin 4} {i : Nat} (hi : i ∈ drawn) :
    canvasAt (k, i) = 32 + printedIn k i := by
  have hlt := (mem_drawn.mp hi).1
  simp only [canvasAt, printedIn]
  omega

private theorem canvasAt_injOn : ∀ ki ∈ pictures, ∀ lj ∈ pictures,
    canvasAt ki = canvasAt lj → ki = lj := by
  rintro ⟨k, i⟩ hi ⟨l, j⟩ hj h
  have hi := mem_drawn.mp (mem_pictures.mp hi)
  have hj := mem_drawn.mp (mem_pictures.mp hj)
  simp only [canvasAt] at h
  have hk : k = l := Fin.ext (by omega)
  have hij : i = j := by omega
  rw [hk, hij]

private theorem canvasAt_lt : ∀ ki ∈ pictures,
    canvasAt ki < (List.replicate 256 (ascii ' ')).length := by
  rintro ⟨k, i⟩ hi
  have hi := (mem_drawn.mp (mem_pictures.mp hi)).1
  rw [List.length_replicate, canvasAt]
  omega

private theorem canvasAt_ne_end : ∀ ki ∈ pictures, ∀ i ∈ List.range 8,
    31 + 32 * i ≠ canvasAt ki := by
  rintro ⟨k, i⟩ hi n _ h
  have hi := mem_drawn.mp (mem_pictures.mp hi)
  simp only [canvasAt] at h
  omega

/-- The pieces of the four boards, then the line ends; the top line is cut off. -/
theorem allBoardsToStr_eq_paint (b : Board) : allBoardsToStr b =
    (paint (fun i => 31 + 32 * i) (fun _ => ascii '\n') (List.range 8)
      (paint canvasAt (fun ki => pieceToChar (b.boards ki.1 (Fin.ofNat 64 ki.2))) pictures
        (List.replicate 256 (ascii ' ')))).drop 32 := by
  have hboard : ∀ (k : Fin 4) (str : Text), (List.range 56).foldl (fun str i =>
      if Gap boardMask i then str
      else str.set ((224 - (i / 8) * 32) + k * 8 + i % 8)
        (pieceToChar (b.boards k (Fin.ofNat 64 i)))) str =
      paint (fun i => canvasAt (k, i)) (fun i => pieceToChar (b.boards k (Fin.ofNat 64 i))) drawn
        str := fun k str => Paint.foldl_skip fun _ _ _ _ _ _ _ => Iff.rfl
  simp only [allBoardsToStr, hboard]
  rw [Paint.foldl_paint canvasAt fun ki => pieceToChar (b.boards ki.1 (Fin.ofNat 64 ki.2))]
  rfl

theorem allBoardsToStr_at (b : Board) (k : Fin 4) {p : Square} (hp : Playable p) :
    (allBoardsToStr b)[printedIn k p]? = some (pieceToChar (b.boards k p)) := by
  have hmem : (k, p.val) ∈ pictures := mem_pictures.mpr hp.drawn
  rw [allBoardsToStr_eq_paint, List.getElem?_drop, ← canvasAt_eq hp.drawn,
    Paint.paint_kept (canvasAt_ne_end _ hmem),
    Paint.paint_written canvasAt_injOn hmem (canvasAt_lt _ hmem)]
  simp only [Fin.ofNat_val_eq_self]

theorem allBoardsToStr_inj (b c : Board) : allBoardsToStr b = allBoardsToStr c ↔
    ∀ k, boardToStr (b.boards k) = boardToStr (c.boards k) := by
  constructor
  · intro h k
    refine (boardToStr_inj _ _).mpr fun p hp => ?_
    have hread := congrArg (fun str : Text => str[printedIn k p]?) h
    simp only [allBoardsToStr_at _ k hp, Option.some.injEq] at hread
    exact hread
  · intro h
    have hpictures := (Paint.paint_inj canvasAt_injOn canvasAt_lt).mpr fun ki hki =>
      (boardToStr_inj _ _).mp (h ki.1) _ (playable_of_drawn (mem_pictures.mp hki))
    rw [allBoardsToStr_eq_paint, allBoardsToStr_eq_paint, hpictures]

def letters : List (U8 × Piece) :=
  [(ascii 'p', .black, .pawn), (ascii 'r', .black, .rook), (ascii 'b', .black, .bishop),
    (ascii 'k', .black, .king), (ascii 'P', .white, .pawn), (ascii 'R', .white, .rook),
    (ascii 'B', .white, .bishop), (ascii 'K', .white, .king)]

/-- The letter of a piece; an empty square is a dot. -/
def showCell (cell : Option Piece) : U8 :=
  (cell.bind fun piece => (letters.map Prod.swap).lookup piece).getD (ascii '.')

theorem lookup_showCell (cell : Option Piece) : letters.lookup (showCell cell) = cell := by
  rcases cell with _ | ⟨c, k⟩
  · decide
  · cases c <;> cases k <;> decide

def readCell (place : Square → Nat) (text : Text) (p : Square) : Option Piece :=
  if Playable p then text[place p]?.bind fun ch => letters.lookup ch else none

def readPlayer (text : Text) : Option PlayerColor :=
  if text = literal "WHITE" then some .white
  else if text = literal "BLACK" then some .black
  else none

def readPosition (place : Square → Nat) (text player : Text) : Option Position :=
  (readPlayer player).map fun turn => ⟨readCell place text, turn⟩

/-- Where a square of the first board stands on the `k`-th. -/
def turned : Fin 4 → Square → Square := ![id, cw90, cw180, acw90]

theorem playable_turned : ∀ k p, Playable p → Playable (turned k p) := by decide +kernel

private theorem pieceToChar_zero : pieceToChar 0#8 = showCell (cellOf 0#8) := by decide

private theorem pieceToChar_code : ∀ i, ∀ piece ∈ looseCodes i,
    pieceToChar piece = showCell (cellOf piece) := by decide +kernel

theorem turned_onto (k : Fin 4) {p : Square} (hp : Playable p) :
    ∃ q, Playable q ∧ turned k q = p := by
  match k with
  | 0 => exact ⟨p, hp, rfl⟩
  | 1 => exact ⟨acw90 p, playable_turned 3 p hp, cw90_acw90 p⟩
  | 2 => exact ⟨cw180 p, playable_turned 2 p hp, cw180_cw180 p⟩
  | 3 => exact ⟨cw90 p, playable_turned 1 p hp, acw90_cw90 p⟩

theorem readPlayer_printed (b : Board) :
    readPlayer (playerToPlayToStr b) = some b.playerToPlay := by
  unfold playerToPlayToStr
  cases b.playerToPlay <;> decide

namespace Board

section Printed

variable {codes : Slot → List U8} {b c : Board}

theorem Agree.boards (h : b.Agree) (k : Fin 4) (p : Square) :
    b.boards k (turned k p) = b.board0 p := by
  match k with
  | 0 => rfl
  | 1 => exact h.board90 p
  | 2 => exact h.board180 p
  | 3 => exact h.board270 p

theorem Wf.letter (h : b.Wf looseCodes) (p : Square) :
    pieceToChar (b.board0 p) = showCell (b.position.cell p) := by
  show _ = showCell (cellOf (b.board0 p))
  rcases h.byte_cases p with h0 | ⟨i, _, _, hcode⟩
  · rw [h0]
    exact pieceToChar_zero
  · exact pieceToChar_code i _ hcode

theorem Wf.readCell (h : b.Wf looseCodes) {place : Square → Nat} {text : Text}
    (hshown : ∀ p, Playable p → text[place p]? = some (pieceToChar (b.board0 p))) :
    Rollerball.readCell place text = b.position.cell := by
  funext p
  unfold Rollerball.readCell
  split_ifs with hp
  · rw [hshown p hp, Option.bind_some, h.letter, lookup_showCell]
  · exact (Option.eq_none_iff_forall_ne_some.mpr fun piece hpiece =>
      hp (h.onRing p piece hpiece)).symm

theorem print_eq_iff (hb : b.Wf looseCodes) (hc : c.Wf looseCodes) :
    boardToStr b.board0 = boardToStr c.board0 ∧ playerToPlayToStr b = playerToPlayToStr c ↔
      b.position = c.position := by
  constructor
  · rintro ⟨hboard, hplayer⟩
    apply Position.ext
    · intro p
      rw [← hb.readCell fun p hp => boardToStr_at b.board0 hp,
        ← hc.readCell fun p hp => boardToStr_at c.board0 hp, hboard]
    · have hread := congrArg readPlayer hplayer
      rw [readPlayer_printed, readPlayer_printed, Option.some.injEq] at hread
      exact hread
  · intro h
    have hturn : b.playerToPlay = c.playerToPlay := congrArg Position.turn h
    constructor
    · rw [boardToStr_inj]
      intro p _
      rw [hb.letter, hc.letter, h]
    · unfold playerToPlayToStr
      rw [hturn]

theorem print_all_eq_iff (hb : b.Agree) (hc : c.Agree) :
    allBoardsToStr b = allBoardsToStr c ↔ boardToStr b.board0 = boardToStr c.board0 := by
  rw [allBoardsToStr_inj]
  constructor
  · intro h
    exact h 0
  · intro h k
    rw [boardToStr_inj] at h ⊢
    intro p hp
    obtain ⟨q, hq, rfl⟩ := turned_onto k hp
    rw [hb.boards, hc.boards]
    exact h q hq

/-- What is printed of a board can be read back: the board alone, and each of the four boards
side by side in its own rotation, show the position. -/
theorem Wf.read_printed (hcodes : Admissible codes) (hb : b.Wf codes) :
    readPosition (fun p => printedAt p) (boardToStr b.board0) (playerToPlayToStr b) =
        some b.position ∧
      ∀ k, readPosition (fun p => printedIn k (turned k p)) (allBoardsToStr b)
        (playerToPlayToStr b) = some b.position := by
  have h := hb.loose hcodes
  have hread : ∀ place text, (∀ p, Playable p →
      text[place p]? = some (pieceToChar (b.board0 p))) →
      readPosition place text (playerToPlayToStr b) = some b.position := by
    intro place text hshown
    rw [readPosition, readPlayer_printed, h.readCell hshown]
    rfl
  constructor
  · exact hread _ _ fun p hp => boardToStr_at b.board0 hp
  · intro k
    refine hread _ _ fun p hp => ?_
    rw [allBoardsToStr_at b k (playable_turned k p hp), h.agree.boards]

/-- The board after the promotion `d6e7r` has been tried and taken back. -/
def triedBoard : Board := (promotionBoard.rawDoMove promotionMove).rawUndoLastMove promotionMove

/-- The pawn on `d6` has the byte of a promotion, and the second picture shows it as a pawn. -/
theorem read_printed_tried : triedBoard.board0 43 =
      PlayerColor.white.bits ||| PieceType.pawn.bits ||| PieceType.rook.bits ∧
    readPosition (fun p => printedIn 1 (turned 1 p)) (allBoardsToStr triedBoard)
      (playerToPlayToStr triedBoard) = some promotionBoard.position := by
  have hwf := promotionBoard_reachable.wf VisitOrder.insertion
  obtain ⟨i, k, hmove⟩ := hwf.legal_mover _ admissible_slotCodes promotionMove_legal
  obtain ⟨htried, halike⟩ := hmove.undo_alike (hwf.loose admissible_slotCodes)
  have hread := (htried.read_printed admissible_looseCodes).2 1
  rw [halike.position] at hread
  exact ⟨by decide +kernel, hread⟩

/-- Boards that print alike play the same games, and print alike after each of them: which slot
holds which piece, and the bits a taken back promotion leaves, never show. -/
theorem same_print {codes' : Slot → List U8} (ord ord' : VisitOrder) (hcodes : Admissible codes)
    (hcodes' : Admissible codes') (hb : b.Wf codes) (hc : c.Wf codes')
    (hboard : boardToStr b.board0 = boardToStr c.board0)
    (hplayer : playerToPlayToStr b = playerToPlayToStr c) (ms : List U16) :
    (LegalGame ord b ms ↔ LegalGame ord' c ms) ∧
      (LegalGame ord b ms →
        boardToStr (ms.foldl doMove b).board0 = boardToStr (ms.foldl doMove c).board0 ∧
        allBoardsToStr (ms.foldl doMove b) = allBoardsToStr (ms.foldl doMove c) ∧
        playerToPlayToStr (ms.foldl doMove b) = playerToPlayToStr (ms.foldl doMove c) ∧
        (ms.foldl doMove b).inCheck ord = (ms.foldl doMove c).inCheck ord') := by
  replace hb := hb.loose hcodes
  replace hc := hc.loose hcodes'
  have hpos := (print_eq_iff hb hc).mp ⟨hboard, hplayer⟩
  clear hboard hplayer
  induction ms generalizing b c with
  | nil =>
    obtain ⟨hboard, hplayer⟩ := (print_eq_iff hb hc).mpr hpos
    have hcheck : b.inCheck ord = c.inCheck ord' := by
      rw [Bool.eq_iff_iff, hb.inCheck_iff ord, hc.inCheck_iff ord', ← position_turn,
        ← position_turn, hpos]
    exact ⟨Iff.rfl, fun _ =>
      ⟨hboard, (print_all_eq_iff hb.agree hc.agree).mpr hboard, hplayer, hcheck⟩⟩
  | cons m ms ih =>
    have hmoves : m ∈ b.getLegalMoves ord ↔ m ∈ c.getLegalMoves ord' := by
      rw [hb.mem_getLegalMoves ord, hc.mem_getLegalMoves ord', hpos]
    have hnext : m ∈ b.getLegalMoves ord → (b.doMove m).position = (c.doMove m).position := by
      intro hm
      rw [hb.position_doMove ord admissible_looseCodes hm,
        hc.position_doMove ord' admissible_looseCodes (hmoves.mp hm), hpos]
    have hrest : m ∈ b.getLegalMoves ord → _ := fun hm =>
      ih (hb.doMove ord admissible_looseCodes hm)
        (hc.doMove ord' admissible_looseCodes (hmoves.mp hm)) (hnext hm)
    constructor
    · rw [LegalGame, LegalGame, ← hmoves]
      exact and_congr_right fun hm => (hrest hm).1
    · rintro ⟨hm, hgame⟩
      exact (hrest hm).2 hgame

/-- The start with the black rooks in each other's slots. -/
def exchanged : Board :=
  { Board.new with pieces := Board.new.pieces ∘ Equiv.swap 0 1 }

private theorem exchanged_wf : exchanged.Wf slotCodes where
  board90 := new_wf.board90
  board180 := new_wf.board180
  board270 := new_wf.board270
  distinct := by decide +kernel
  playable := by decide +kernel
  code := by decide +kernel
  empty := by decide +kernel

/-- Exchanging the rooks' slots allows the same opening move. -/
theorem same_print_exchanged : LegalGame VisitOrder.insertion exchanged [move 10 17] :=
  (same_print VisitOrder.insertion VisitOrder.insertion admissible_slotCodes admissible_slotCodes
    new_wf exchanged_wf rfl rfl [move 10 17]).1.mp ⟨opening_legal, trivial⟩

end Printed

end Board

end Rollerball
