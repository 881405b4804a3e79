import Rollerball.Board.Moves
import Rollerball.Server.Handlers

/-!
# What the replies say

`on_stop` builds a move text with a sign for check, checkmate or stalemate, and sends the text
without it. The decoder takes every fifth character but `r` for a promotion to a bishop, the
signs included.
-/

namespace Rollerball

open Classical in
/-- What the player to play is told: nothing, check, checkmate or stalemate. -/
noncomputable def Position.sign (pos : Position) : Text :=
  if pos.InCheck pos.turn then
    if ∃ m, pos.Legal m then literal "+" else literal "#"
  else if ∃ m, pos.Legal m then [] else literal "-"

namespace Server

section Sign

variable (ord : VisitOrder) {b : Board}

def signText (b : Board) : Text := annotate ord b []

theorem annotate_eq (b : Board) (text : Text) : annotate ord b text = text ++ signText ord b := by
  simp only [signText, annotate]
  split_ifs <;> simp

theorem signText_eq_nil (b : Board) :
    signText ord b = [] ↔ b.inCheck ord = false ∧ b.getLegalMoves ord ≠ [] := by
  have hplus : literal "+" ≠ [] := by decide
  have hhash : literal "#" ≠ [] := by decide
  have hminus : literal "-" ≠ [] := by decide
  simp only [signText, annotate, List.nil_append, List.length_eq_zero_iff]
  cases b.inCheck ord
  · by_cases hmoves : b.getLegalMoves ord = [] <;> simp [hmoves, hminus]
  · simp only [if_true, Bool.true_eq_false, false_and, iff_false]
    split
    · exact hplus
    · exact hhash

theorem signText_eq_sign (h : b.Wf looseCodes) : signText ord b = b.position.sign := by
  have hmoves := h.exists_legal_iff ord
  simp only [signText, annotate, List.nil_append, Position.sign]
  by_cases hcheck : b.position.InCheck b.position.turn
  · rw [if_pos ((h.inCheck_iff ord).mpr hcheck), if_pos hcheck]
    by_cases hlegal : ∃ m, b.position.Legal m
    · rw [if_pos (hmoves.mp hlegal), if_pos hlegal]
    · rw [if_neg (mt hmoves.mpr hlegal), if_neg hlegal]
  · rw [if_neg (mt (h.inCheck_iff ord).mp hcheck), if_neg hcheck]
    by_cases hlegal : ∃ m, b.position.Legal m
    · rw [if_neg (hmoves.mp hlegal).ne', if_pos hlegal]
    · rw [if_pos (Nat.eq_zero_of_not_pos (mt hmoves.mpr hlegal)), if_neg hlegal]

/-- The broadcast of `on_stop` tells the state of the game it leaves exactly when there is nothing
to tell: the opponent is not in check and has a legal move. The local text, which is not sent, is
right in every game. -/
theorem reply_reports_state_iff {s : Server} (hb : s.b.Reachable ord)
    (hm : s.bestMove ∈ s.b.getLegalMoves ord) (hthread : s.gameThread = true) :
    ∃ r a, s.onStop ord = .ok r ∧
      { s with search := false, gameThread := false }.answer ord = .ok a ∧
      r.server.b = s.b.doMove s.bestMove ∧
      a.strMove = moveToStr s.bestMove ++ (s.b.doMove s.bestMove).position.sign ∧
      (r.broadcasts =
          [literal "bestmove " ++ moveToStr s.bestMove ++ (s.b.doMove s.bestMove).position.sign] ↔
        (s.b.doMove s.bestMove).inCheck ord = false ∧
          (s.b.doMove s.bestMove).getLegalMoves ord ≠ []) := by
  have hwf := ((hb.wf ord).doMove ord admissible_slotCodes hm).loose admissible_slotCodes
  refine ⟨_, _, s.onStop_legal ord hthread hm, answer_legal ord _ hm, rfl, ?_, ?_⟩
  · rw [annotate_eq, signText_eq_sign ord hwf]
  · rw [← signText_eq_nil, signText_eq_sign ord hwf, List.cons.injEq, and_iff_left rfl]
    exact List.self_eq_append_right

/-- The reply that opens the game with `c2b3` tells all there is to tell. -/
theorem reply_reports_state_iff_opening :
    ∃ r, (Server.mk Board.new (move 10 17) true true).onStop VisitOrder.insertion = .ok r ∧
      r.broadcasts =
        [literal "bestmove " ++ moveToStr (move 10 17) ++ Board.opening.position.sign] := by
  obtain ⟨r, _, hr, _, _, _, hreports⟩ := @reply_reports_state_iff VisitOrder.insertion
    ⟨Board.new, move 10 17, true, true⟩ .refl Board.opening_legal rfl
  have hreply : Board.opening.inCheck VisitOrder.insertion = false ∧
      Board.opening.plays [move 42 41] = true := by decide +kernel
  have hlegal := (Board.opening_reachable.wf _).legal_of_plays hreply.2
  exact ⟨r, hr, hreports.mpr ⟨hreply.1, List.ne_nil_of_mem hlegal⟩⟩

end Sign

/-- The board after `e2f2 e6f5 d2e2`, where `f5f4` gives check. -/
def checkBoard : Board := [move 12 13, move 44 37, move 11 12].foldl Board.doMove Board.new

private theorem checkBoard_plays :
    Board.new.plays [move 12 13, move 44 37, move 11 12] = true ∧
      checkBoard.plays [move 37 29, move 13 21] = true :=
  (Board.plays_append Board.new [move 12 13, move 44 37, move 11 12] [move 37 29, move 13 21]).mp
    Board.checkedGame_plays

theorem checkBoard_reachable : checkBoard.Reachable VisitOrder.insertion :=
  .plays .refl _ checkBoard_plays.1

theorem checkMove_legal : move 37 29 ∈ checkBoard.getLegalMoves VisitOrder.insertion :=
  ((checkBoard_reachable.wf _).plays_cons checkBoard_plays.2).1

private theorem checkBoard_sign :
    (checkBoard.doMove (move 37 29)).position.sign = literal "+" := by
  have hwf := (checkBoard_reachable.wf _).doMove _ admissible_slotCodes checkMove_legal
  have hcheck : (checkBoard.doMove (move 37 29)).inCheck VisitOrder.insertion = true := by
    decide +kernel
  have hreply : move 13 21 ∈ (checkBoard.doMove (move 37 29)).getLegalMoves VisitOrder.insertion :=
    hwf.legal_of_plays ((checkBoard_reachable.wf _).plays_cons checkBoard_plays.2).2
  rw [← signText_eq_sign VisitOrder.insertion (hwf.loose admissible_slotCodes), signText, annotate,
    if_pos hcheck, if_pos (List.length_pos_of_mem hreply)]
  rfl

def checkServer : Server := ⟨checkBoard, move 37 29, true, true⟩

/-- The check is not told to the client: it is sent `bestmove f5f4` instead of `bestmove f5f4+`. -/
theorem reply_hides_check :
    checkServer.b.Reachable VisitOrder.insertion ∧
      checkServer.bestMove ∈ checkServer.b.getLegalMoves VisitOrder.insertion ∧
      checkServer.gameThread = true ∧
      ∃ r, checkServer.onStop VisitOrder.insertion = .ok r ∧
        r.server.b.position.sign = literal "+" ∧
        r.broadcasts = [literal "bestmove f5f4"] ∧
        r.broadcasts ≠ [literal "bestmove " ++ moveToStr checkServer.bestMove ++
          r.server.b.position.sign] := by
  refine ⟨checkBoard_reachable, checkMove_legal, rfl, _,
    checkServer.onStop_legal _ rfl checkMove_legal, checkBoard_sign, by decide, ?_⟩
  rw [show (checkServer.b.doMove checkServer.bestMove).position.sign = literal "+" from
    checkBoard_sign]
  decide

end Server

def coordinates (p q : Square) : Text :=
  [ascii 'a' + BitVec.ofNat 8 (getx p), ascii '1' + BitVec.ofNat 8 (gety p),
    ascii 'a' + BitVec.ofNat 8 (getx q), ascii '1' + BitVec.ofNat 8 (gety q)]

/-- The promotion a suffix names: `r` a rook, `b` a bishop, anything else none. -/
def namedFlag (w : Text) : U8 :=
  if w.head? = some (ascii 'r') then pawnRook
  else if w.head? = some (ascii 'b') then pawnBishop
  else 0

/-- The promotion `str_to_move` reads from a suffix. -/
def suffixFlag : Text → U8
  | [] => 0
  | c :: _ => if c = ascii 'r' then pawnRook else pawnBishop

theorem suffixFlag_mem (w : Text) : suffixFlag w ∈ promoFlags := by
  cases w with
  | nil => decide
  | cons c w =>
    rw [suffixFlag]
    split_ifs <;> decide

theorem strToMove_coordinates (p q : Square) (w : Text) :
    strToMove (coordinates p q ++ w) = .ok (movePromo p q (suffixFlag w).toNat) := by
  have hp := (square_chars p).1
  have hq := (square_chars q).1
  refine Eq.trans ?_ (congrArg Except.ok (congrArg₂ (movePromo · · _) hp hq))
  cases w <;> rfl

theorem suffixFlag_eq_iff (w : Text) :
    suffixFlag w = namedFlag w ↔
      w = [] ∨ w.head? = some (ascii 'r') ∨ w.head? = some (ascii 'b') := by
  have hne : pawnBishop ≠ 0 := by decide
  have hrb : ascii 'r' ≠ ascii 'b' := by decide
  cases w with
  | nil => simp [suffixFlag, namedFlag]
  | cons c w =>
    simp only [suffixFlag, namedFlag, List.head?_cons, Option.some.injEq, reduceCtorEq, false_or]
    by_cases hr : c = ascii 'r'
    · simp [hr]
    · by_cases hb : c = ascii 'b'
      · simp [hb, hrb.symm]
      · simp only [hr, hb, if_false, or_self, iff_false]
        exact hne

theorem suffixFlag_eq_zero (w : Text) : suffixFlag w = 0 ↔ w = [] := by
  have hrook : pawnRook ≠ 0 := by decide
  have hbishop : pawnBishop ≠ 0 := by decide
  cases w with
  | nil => simp [suffixFlag]
  | cons c w =>
    rw [suffixFlag, iff_false_right (List.cons_ne_nil c w)]
    split_ifs
    · exact hrook
    · exact hbishop

theorem moveToStr_coordinates (p q : Square) {pt : U8} (hpt : pt ∈ promoFlags) :
    ∃ letter, moveToStr (movePromo p q pt.toNat) = coordinates p q ++ letter ∧
      (letter = [] ↔ pt = 0) ∧ ∀ w, letter ≠ [] → suffixFlag (letter ++ w) = pt := by
  rw [moveToStr, getp0_movePromo p q hpt, getp1_movePromo p q hpt, getpromo_movePromo p q hpt,
    promo_chars pt hpt]
  refine ⟨_, rfl, ?_⟩
  simp only [promoFlags, List.mem_cons, List.not_mem_nil, or_false] at hpt
  rcases hpt with rfl | rfl | rfl
  · exact ⟨by decide, fun w h => absurd (by decide) h⟩
  · exact ⟨by decide, fun w _ => rfl⟩
  · exact ⟨by decide, fun w _ => rfl⟩

/-- The decoder gives a move text the promotion its suffix names exactly when the suffix is empty
or starts with `r` or `b`; so it gives back the move of a text built by `on_stop` exactly when
the move promotes or no sign was appended. -/
theorem decoder_names_promotion_iff (ord : VisitOrder) :
    (∀ (p q : Square) (w : Text), ∃ m, strToMove (coordinates p q ++ w) = .ok m ∧
      getp0 m = p ∧ getp1 m = q ∧
      (getpromo m = namedFlag w ↔
        w = [] ∨ w.head? = some (ascii 'r') ∨ w.head? = some (ascii 'b'))) ∧
      ∀ (s : Server) (a : Answer), s.answer ord = .ok a →
        (strToMove a.strMove = .ok s.bestMove ↔ getpromo s.bestMove ≠ 0 ∨
          ((s.b.doMove s.bestMove).inCheck ord = false ∧
            (s.b.doMove s.bestMove).getLegalMoves ord ≠ [])) := by
  constructor
  · intro p q w
    have hflag := suffixFlag_mem w
    refine ⟨_, strToMove_coordinates p q w, getp0_movePromo p q hflag, getp1_movePromo p q hflag,
      ?_⟩
    rw [getpromo_movePromo p q hflag, suffixFlag_eq_iff]
  · intro s a ha
    have hlegal := (s.answer_ok ord ha).1
    rw [s.answer_legal ord hlegal] at ha
    obtain rfl := Except.ok.inj ha
    obtain ⟨p, q, pt, hpt, hm⟩ := Board.word_of_mem_getLegalMoves hlegal
    rw [Server.annotate_eq, ← Server.signText_eq_nil]
    generalize Server.signText ord _ = sign
    rw [hm, getpromo_movePromo p q hpt]
    obtain ⟨letter, htext, hempty, hnamed⟩ := moveToStr_coordinates p q hpt
    rw [htext, List.append_assoc, strToMove_coordinates]
    have hword : (Except.ok (movePromo p q (suffixFlag (letter ++ sign)).toNat) :
        Except Halt U16) = .ok (movePromo p q pt.toNat) ↔ suffixFlag (letter ++ sign) = pt := by
      constructor
      · intro h
        have hpromo := congrArg getpromo (Except.ok.inj h)
        rwa [getpromo_movePromo p q (suffixFlag_mem _), getpromo_movePromo p q hpt] at hpromo
      · intro h
        rw [h]
    rw [hword]
    by_cases hzero : pt = 0
    · rw [hempty.mpr hzero, hzero, List.nil_append, suffixFlag_eq_zero]
      simp
    · rw [hnamed sign (mt hempty.mp hzero)]
      exact iff_of_true rfl (Or.inl hzero)

/-- The check sign after `c2b3` is decoded as a promotion to a bishop. -/
theorem decoder_reads_sign_as_bishop :
    coordinates 10 17 ++ literal "+" = literal "c2b3+" ∧ namedFlag (literal "+") = 0 ∧
      strToMove (literal "c2b3+") = .ok (movePromo 10 17 pawnBishop.toNat) ∧
      getpromo (movePromo 10 17 pawnBishop.toNat) = pawnBishop ∧
      movePromo 10 17 pawnBishop.toNat ≠ move 10 17 := by
  decide

end Rollerball
