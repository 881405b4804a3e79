import Rollerball.Board.Legal

/-!
# Messages and move texts

Messages are strings of bytes that the server splits at blanks. A move is written as its two
squares and a promotion letter; reading the text of a move of the game gives the move back.
-/

namespace Rollerball

/-- A `std::string`. -/
abbrev Text := List U8

def ascii (c : Char) : U8 := BitVec.ofNat 8 c.toNat

def literal (s : String) : Text := s.toList.map ascii

/-- The ways a handler ends without returning: the call of `std::exit`, an index past the end of
its string or vector, a failed `assert`, `std::terminate` on a thread that is overwritten while
joinable, and the `std::system_error` of joining a thread that is not. -/
inductive Halt
  | exit
  | outOfRange
  | assertFailed
  | terminate
  | systemError
  deriving DecidableEq, Repr

section Split

variable (delim : U8)

/-- The loop of `std::getline` calls, with the characters of the current item read so far. The
stream fails when it ends before it has extracted a character. -/
def splitLoop (item : Text) : Text → List Text
  | [] => if item = [] then [] else [item]
  | c :: s => if c = delim then item :: splitLoop [] s else splitLoop (item ++ [c]) s

def split (s : Text) : List Text := splitLoop delim [] s

def join : List Text → Text
  | [] => []
  | [tok] => tok
  | tok :: toks => tok ++ delim :: join toks

variable {delim}

theorem splitLoop_token (item : Text) {tok : Text} (htok : delim ∉ tok) (s : Text) :
    splitLoop delim item (tok ++ s) = splitLoop delim (item ++ tok) s := by
  induction tok generalizing item with
  | nil => rw [List.nil_append, List.append_nil]
  | cons c tok ih =>
    have hc : c ≠ delim := fun h => htok (h ▸ List.mem_cons_self)
    have hrest : delim ∉ tok := fun h => htok (List.mem_cons_of_mem c h)
    rw [List.cons_append, splitLoop, if_neg hc, ih _ hrest, List.append_assoc]
    rfl

theorem split_join (toks : List Text) (hdelim : ∀ tok ∈ toks, delim ∉ tok)
    (hnonempty : ∀ tok ∈ toks, tok ≠ []) : split delim (join delim toks) = toks := by
  induction toks with
  | nil => rfl
  | cons tok toks ih =>
    have htok : delim ∉ tok := hdelim tok List.mem_cons_self
    have hne : tok ≠ [] := hnonempty tok List.mem_cons_self
    have ih' := ih (fun t ht => hdelim t (List.mem_cons_of_mem _ ht))
      fun t ht => hnonempty t (List.mem_cons_of_mem _ ht)
    cases toks with
    | nil =>
      have hloop := splitLoop_token [] htok []
      rw [List.append_nil, List.nil_append] at hloop
      rw [join, split, hloop, splitLoop, if_neg hne]
    | cons tok' toks =>
      rw [join, split, splitLoop_token [] htok, List.nil_append, splitLoop, if_pos rfl]
      · exact congrArg (tok :: ·) ih'
      · exact List.cons_ne_nil tok' toks

end Split

def moveToStr (m : U16) : Text :=
  [ascii 'a' + BitVec.ofNat 8 (getx (getp0 m)), ascii '1' + BitVec.ofNat 8 (gety (getp0 m)),
    ascii 'a' + BitVec.ofNat 8 (getx (getp1 m)), ascii '1' + BitVec.ofNat 8 (gety (getp1 m))] ++
  (if getpromo m &&& pawnBishop ≠ 0#8 then literal "b"
    else if getpromo m &&& pawnRook ≠ 0#8 then literal "r"
    else [])

/-- `move[i]`: the byte after the last one is the terminating zero. -/
def charAt (s : Text) (i : Nat) : Except Halt U8 :=
  match s[i]? with
  | some c => .ok c
  | none => if i = s.length then .ok 0 else .error .outOfRange

def strToMove (s : Text) : Except Halt U16 := do
  let x0 := (← charAt s 0) - ascii 'a'
  let y0 := (← charAt s 1) - ascii '1'
  let x1 := (← charAt s 2) - ascii 'a'
  let y1 := (← charAt s 3) - ascii '1'
  let promo : U8 :=
    match s[4]? with
    | some c => if c = ascii 'r' then pawnRook else pawnBishop
    | none => 0
  return movePromo (pos x0.toNat y0.toNat) (pos x1.toNat y1.toNat) promo.toNat

theorem square_chars : ∀ p : Square,
    pos (ascii 'a' + BitVec.ofNat 8 (getx p) - ascii 'a').toNat
        (ascii '1' + BitVec.ofNat 8 (gety p) - ascii '1').toNat = p.val ∧
      ascii 'a' + BitVec.ofNat 8 (getx p) ≠ ascii ' ' ∧
      ascii '1' + BitVec.ofNat 8 (gety p) ≠ ascii ' ' := by decide

theorem promo_chars : ∀ pt ∈ promoFlags,
    (if pt &&& pawnBishop ≠ 0#8 then literal "b"
      else if pt &&& pawnRook ≠ 0#8 then literal "r" else []) =
      if pt = pawnRook then [ascii 'r'] else if pt = pawnBishop then [ascii 'b'] else [] := by
  decide

/-- Reading the text of a move gives the move back, promotion included. -/
theorem strToMove_moveToStr (p q : Square) {pt : U8} (hpt : pt ∈ promoFlags) :
    strToMove (moveToStr (movePromo p q pt.toNat)) = .ok (movePromo p q pt.toNat) := by
  have hp := (square_chars p).1
  have hq := (square_chars q).1
  rw [moveToStr, getp0_movePromo p q hpt, getp1_movePromo p q hpt, getpromo_movePromo p q hpt,
    promo_chars pt hpt]
  simp only [promoFlags, List.mem_cons, List.not_mem_nil, or_false] at hpt
  rcases hpt with rfl | rfl | rfl
  all_goals
    refine Eq.trans ?_ (congrArg Except.ok (congrArg₂ (movePromo · · _) hp hq))
    rfl

theorem moveToStr_ne_nil (m : U16) : moveToStr m ≠ [] := List.cons_ne_nil _ _

theorem moveToStr_no_blank (m : U16) : ascii ' ' ∉ moveToStr m := by
  have hp := (square_chars (getp0 m)).2
  have hq := (square_chars (getp1 m)).2
  have hb : ascii ' ' ∉ literal "b" := by decide
  have hr : ascii ' ' ∉ literal "r" := by decide
  rw [moveToStr, List.mem_append, not_or]
  constructor
  · simp only [List.mem_cons, List.not_mem_nil, or_false, not_or]
    exact ⟨hp.1.symm, hp.2.symm, hq.1.symm, hq.2.symm⟩
  · split_ifs
    · exact hb
    · exact hr
    · exact List.not_mem_nil

theorem Position.Pseudo.strToMove {position : Position} {c : PlayerColor} {m : U16}
    (h : position.Pseudo c m) : strToMove (moveToStr m) = .ok m := by
  obtain ⟨k, hfacts⟩ := h.facts
  have hpt := moveFlags_subset c k _ hfacts.flag
  rw [hfacts.word]
  exact strToMove_moveToStr _ _ hpt

end Rollerball
