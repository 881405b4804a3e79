import Rollerball.Board.Reach
import Rollerball.Server.Codec

/-!
# The message handlers

Each handler takes the fields of the server to new ones and lists what it broadcasts. The engine
thread owns `best_move` while it runs; everything else is written by the handlers only.
-/

namespace Rollerball

/-- The fields of `UCIWSServer` and of its engine that the handlers use. -/
structure Server where
  b : Board
  bestMove : U16
  search : Bool
  /-- Whether `game_thread` is joinable. -/
  gameThread : Bool

structure Reply where
  server : Server
  broadcasts : List Text

/-- What `on_stop` ends with. Its local `str_move` is not sent. -/
structure Answer where
  server : Server
  strMove : Text
  broadcast : Text

namespace Server

/-- The constructor leaves the two atomic fields of the engine indeterminate. -/
def start (bestMove : U16) (search : Bool) : Server := ⟨Board.new, bestMove, search, false⟩

section Handlers

variable (ord : VisitOrder) (s : Server)

def onUci : Except Halt Reply := .ok ⟨s, [literal "uciok"]⟩

def onIsready : Except Halt Reply := .ok ⟨s, [literal "readyok"]⟩

def onUcinewgame : Except Halt Reply := .ok ⟨{ s with b := Board.new }, []⟩

def onPosition (toks : List Text) : Except Halt Reply :=
  if h : toks.length > 3 then do
    let m ← strToMove toks[toks.length - 1]
    return ⟨{ s with b := s.b.doMove m }, []⟩
  else .ok ⟨s, []⟩

/-- Assigning a new thread over a joinable one ends the program. -/
def onGo : Except Halt Reply :=
  if s.gameThread then .error .terminate
  else .ok ⟨{ s with search := true, gameThread := true }, []⟩

/-- The move text with the sign of check, checkmate or stalemate for the side that is to play. -/
def annotate (b : Board) (strMove : Text) : Text :=
  let oppMoves := b.getLegalMoves ord
  if b.inCheck ord then
    if oppMoves.length > 0 then strMove ++ literal "+" else strMove ++ literal "#"
  else if oppMoves.length = 0 then strMove ++ literal "-"
  else strMove

/-- `on_stop` from its read of `best_move` on. -/
def answer : Except Halt Answer :=
  let move := s.bestMove
  let legalMoves := s.b.getLegalMoves ord
  if ¬legalMoves.length > 0 then .error .assertFailed
  else if ¬legalMoves.count move > 0 then .error .assertFailed
  else
    let b := s.b.doMove move
    .ok ⟨{ s with b := b }, annotate ord b (moveToStr move), literal "bestmove " ++ moveToStr move⟩

/-- The first statement of `on_stop`. -/
def requestStop : Server := { s with search := false }

/-- `game_thread.join()`, once the thread has ended. -/
def join : Except Halt Server :=
  if s.gameThread then .ok { s with gameThread := false } else .error .systemError

/-- `on_stop`, on the value `best_move` has when the joined thread has ended. -/
def onStop : Except Halt Reply := do
  let s ← s.requestStop.join
  let a ← s.answer ord
  return ⟨a.server, [a.broadcast]⟩

def onQuit : Except Halt Reply := .error .exit

def handleMessage (message : Text) : Except Halt Reply :=
  match split (ascii ' ') message with
  | [] => .error .outOfRange
  | tok :: toks =>
    if tok = literal "uci" then s.onUci
    else if tok = literal "isready" then s.onIsready
    else if tok = literal "ucinewgame" then s.onUcinewgame
    else if tok = literal "position" then s.onPosition (tok :: toks)
    else if tok = literal "go" then s.onGo
    else if tok = literal "stop" then s.onStop ord
    else if tok = literal "quit" then onQuit
    else .ok ⟨s, []⟩

end Handlers

section Messages

variable (ord : VisitOrder) (s : Server)

theorem handleMessage_ucinewgame :
    s.handleMessage ord (literal "ucinewgame") = s.onUcinewgame := rfl

theorem handleMessage_go : s.handleMessage ord (literal "go") = s.onGo := rfl

theorem handleMessage_stop : s.handleMessage ord (literal "stop") = s.onStop ord := rfl

def positionMessage (texts : List Text) : Text :=
  Rollerball.join (ascii ' ')
    (literal "position" :: literal "startpos" :: literal "moves" :: texts)

theorem onPosition_last {toks : List Text} (hlength : toks.length ≥ 3) {text : Text} {m : U16}
    (hm : strToMove text = .ok m) :
    s.onPosition (toks ++ [text]) = .ok ⟨{ s with b := s.b.doMove m }, []⟩ := by
  have hlength' : (toks ++ [text]).length > 3 := by
    rw [List.length_append, List.length_singleton]
    omega
  have hlast : (toks ++ [text])[(toks ++ [text]).length - 1] = text := by simp
  rw [onPosition, dif_pos hlength', hlast, hm]
  rfl

private theorem command_tokens : ∀ tok ∈ [literal "position", literal "startpos", literal "moves"],
    ascii ' ' ∉ tok ∧ tok ≠ [] := by decide

/-- A position message plays its last text; the texts before it are not looked at. -/
theorem handleMessage_position {texts : List Text}
    (htexts : ∀ tok ∈ texts, ascii ' ' ∉ tok ∧ tok ≠ []) {text : Text}
    (htext : ascii ' ' ∉ text ∧ text ≠ []) {m : U16} (hm : strToMove text = .ok m) :
    s.handleMessage ord (positionMessage (texts ++ [text])) =
      .ok ⟨{ s with b := s.b.doMove m }, []⟩ := by
  have htokens : ∀ tok ∈ [literal "position", literal "startpos", literal "moves"] ++
      (texts ++ [text]), ascii ' ' ∉ tok ∧ tok ≠ [] := by
    intro tok htok
    rcases List.mem_append.mp htok with h | h
    · exact command_tokens tok h
    · rcases List.mem_append.mp h with h | h
      · exact htexts tok h
      · rw [List.mem_singleton.mp h]
        exact htext
  have hsplit : split (ascii ' ') (positionMessage (texts ++ [text])) =
      [literal "position", literal "startpos", literal "moves"] ++ (texts ++ [text]) :=
    split_join _ (fun tok htok => (htokens tok htok).1) fun tok htok => (htokens tok htok).2
  have hposition : s.handleMessage ord (positionMessage (texts ++ [text])) =
      s.onPosition ([literal "position", literal "startpos", literal "moves"] ++
        (texts ++ [text])) := by
    rw [handleMessage, hsplit]
    rfl
  rw [hposition, ← List.append_assoc]
  apply s.onPosition_last _ hm
  rw [List.length_append]
  exact Nat.le_add_right 3 _

theorem answer_legal (h : s.bestMove ∈ s.b.getLegalMoves ord) :
    s.answer ord = .ok ⟨{ s with b := s.b.doMove s.bestMove },
      annotate ord (s.b.doMove s.bestMove) (moveToStr s.bestMove),
      literal "bestmove " ++ moveToStr s.bestMove⟩ := by
  have hlength : (s.b.getLegalMoves ord).length > 0 := List.length_pos_of_mem h
  have hcount : (s.b.getLegalMoves ord).count s.bestMove > 0 := List.count_pos_iff.mpr h
  rw [answer, if_neg (not_not.mpr hlength), if_neg (not_not.mpr hcount)]

theorem join_joinable (h : s.gameThread = true) : s.join = .ok { s with gameThread := false } :=
  if_pos h

theorem onStop_legal (hthread : s.gameThread = true)
    (h : s.bestMove ∈ s.b.getLegalMoves ord) :
    s.onStop ord = .ok
      ⟨{ s with b := s.b.doMove s.bestMove, search := false, gameThread := false },
        [literal "bestmove " ++ moveToStr s.bestMove]⟩ := by
  have hanswer := answer_legal ord { s with search := false, gameThread := false } h
  rw [onStop, join_joinable s.requestStop hthread]
  exact congrArg (fun a => a >>= fun a => pure (Reply.mk a.server [a.broadcast])) hanswer

theorem onGo_idle (h : s.gameThread = false) :
    s.onGo = .ok ⟨{ s with search := true, gameThread := true }, []⟩ := by
  rw [onGo, h]
  rfl

theorem answer_illegal (h : s.bestMove ∉ s.b.getLegalMoves ord) :
    s.answer ord = .error .assertFailed := by
  have hcount : ¬(s.b.getLegalMoves ord).count s.bestMove > 0 := mt List.count_pos_iff.mp h
  rw [answer, if_pos hcount, ite_self]

theorem answer_ok {a : Answer} (ha : s.answer ord = .ok a) :
    s.bestMove ∈ s.b.getLegalMoves ord ∧ a.server = { s with b := s.b.doMove s.bestMove } ∧
      a.broadcast = literal "bestmove " ++ moveToStr s.bestMove := by
  by_cases hlegal : s.bestMove ∈ s.b.getLegalMoves ord
  · rw [s.answer_legal ord hlegal] at ha
    rw [← Except.ok.inj ha]
    exact ⟨hlegal, rfl, rfl⟩
  · rw [s.answer_illegal ord hlegal] at ha
    cases ha

theorem join_ok {s' : Server} (h : s.join = .ok s') : s' = { s with gameThread := false } := by
  unfold join at h
  split at h
  · exact (Except.ok.inj h).symm
  · cases h

theorem onGo_ok {r : Reply} (h : s.onGo = .ok r) :
    r.server = { s with search := true, gameThread := true } := by
  unfold onGo at h
  split at h
  · cases h
  · rw [← Except.ok.inj h]

end Messages

end Server

end Rollerball
