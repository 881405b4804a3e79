import Rollerball.Board.Undo
import Rollerball.Server.Handlers

/-!
# Sessions

A client plays a game against the server: it sends the opponent's moves as ever longer lists, and
asks for the server's own moves with `go` and `stop`. The server plays only the last move of each
list on a board it keeps. That board is always the one the whole list leads to.
-/

namespace Rollerball

/-- The board `Board()` becomes when the texts of a history are decoded and played in order. -/
def replay (history : List Text) : Except Halt Board :=
  history.foldlM (fun b text => do return b.doMove (← strToMove text)) Board.new

/-- What the client knows: the move texts so far, and whether the server is thinking. -/
structure Game where
  history : List Text
  thinking : Bool

inductive Event
  | newGame
  | opponent (m : U16)
  | go
  | stop

namespace Event

def message (g : Game) : Event → Text
  | newGame => literal "ucinewgame"
  | opponent m => Server.positionMessage (g.history ++ [moveToStr m])
  | go => literal "go"
  | stop => literal "stop"

/-- When the client may send it. A `stop` comes when `best_move` is legal as `on_stop` reads it. -/
def Allowed (ord : VisitOrder) (g : Game) (s : Server) : Event → Prop
  | newGame => g.thinking = false
  | opponent m => g.thinking = false ∧ ∃ b, replay g.history = .ok b ∧ m ∈ b.getLegalMoves ord
  | go => g.thinking = false
  | stop => g.thinking = true ∧ s.bestMove ∈ s.b.getLegalMoves ord

/-- The game after the reply: a broadcast move joins the history without the word before it. -/
def next (g : Game) (broadcasts : List Text) : Event → Game
  | newGame => ⟨[], false⟩
  | opponent m => ⟨g.history ++ [moveToStr m], false⟩
  | go => ⟨g.history, true⟩
  | stop => ⟨g.history ++ broadcasts.map (List.drop (literal "bestmove ").length), false⟩

end Event

/-- What an event comes to: the history, the board of the server and what is broadcast. -/
structure Turn where
  history : List Text
  b : Board
  broadcasts : List Text

/-- A move of either side is played once and joins the history, and the server's own is sent. -/
def Event.turn (g : Game) (s : Server) : Event → Turn
  | newGame => ⟨[], Board.new, []⟩
  | opponent m => ⟨g.history ++ [moveToStr m], s.b.doMove m, []⟩
  | go => ⟨g.history, s.b, []⟩
  | stop => ⟨g.history ++ [moveToStr s.bestMove], s.b.doMove s.bestMove,
      [literal "bestmove " ++ moveToStr s.bestMove]⟩

/-- The games and servers a session leads to. While the server is thinking its engine may store
any value. -/
inductive Session (ord : VisitOrder) : Game → Server → Prop
  | start (bestMove : U16) (search : Bool) :
      Session ord ⟨[], false⟩ (Server.start bestMove search)
  | message {g : Game} {s : Server} (h : Session ord g s) (e : Event) (he : e.Allowed ord g s)
      {r : Reply} (hr : s.handleMessage ord (e.message g) = .ok r) :
      Session ord (e.next g r.broadcasts) r.server
  | store {g : Game} {s : Server} (h : Session ord g s) (hthinking : g.thinking = true)
      (m : U16) : Session ord g { s with bestMove := m }

section Tracking

variable {ord : VisitOrder} {g : Game} {s : Server}

structure Tracks (ord : VisitOrder) (g : Game) (s : Server) : Prop where
  board : replay g.history = .ok s.b
  reachable : s.b.Reachable ord
  thread : s.gameThread = g.thinking
  texts : ∀ text ∈ g.history, ascii ' ' ∉ text ∧ text ≠ []

theorem replay_append {history : List Text} {b : Board} {text : Text} {m : U16}
    (hb : replay history = .ok b) (hm : strToMove text = .ok m) :
    replay (history ++ [text]) = .ok (b.doMove m) := by
  rw [replay] at hb
  rw [replay, List.foldlM_append, hb]
  change (strToMove text >>= fun m => pure (b.doMove m)) >>= pure = _
  rw [hm]
  rfl

theorem Board.Reachable.strToMove {b : Board} (hb : b.Reachable ord) {m : U16}
    (hm : m ∈ b.getLegalMoves ord) : Rollerball.strToMove (moveToStr m) = .ok m := by
  have hloose := (hb.wf ord).loose admissible_slotCodes
  exact ((hloose.mem_getLegalMoves ord).mp hm).pseudo.strToMove

theorem Tracks.move (h : Tracks ord g s) {m : U16} (hm : m ∈ s.b.getLegalMoves ord)
    {s' : Server} (hb : s'.b = s.b.doMove m) (hthread : s'.gameThread = false) :
    Tracks ord ⟨g.history ++ [moveToStr m], false⟩ s' where
  board := by
    rw [hb]
    exact replay_append h.board (h.reachable.strToMove hm)
  reachable := by
    rw [hb]
    exact h.reachable.tail ⟨m, hm, rfl⟩
  thread := hthread
  texts := by
    intro text htext
    rcases List.mem_append.mp htext with hold | hnew
    · exact h.texts text hold
    · rw [List.mem_singleton.mp hnew]
      exact ⟨moveToStr_no_blank m, moveToStr_ne_nil m⟩

theorem Tracks.start (bestMove : U16) (search : Bool) :
    Tracks ord ⟨[], false⟩ (Server.start bestMove search) where
  board := rfl
  reachable := .refl
  thread := rfl
  texts := fun _ h => absurd h List.not_mem_nil

/-- A message the client may send is handled, and server and game stay together. -/
theorem Tracks.handle (h : Tracks ord g s) (e : Event) (he : e.Allowed ord g s) :
    ∃ r, s.handleMessage ord (e.message g) = .ok r ∧
      ⟨(e.next g r.broadcasts).history, r.server.b, r.broadcasts⟩ = e.turn g s ∧
      Tracks ord (e.next g r.broadcasts) r.server := by
  cases e with
  | newGame =>
    refine ⟨_, s.handleMessage_ucinewgame ord, rfl, rfl, .refl, ?_, ?_⟩
    · rw [h.thread]
      exact he
    · exact fun _ htext => absurd htext List.not_mem_nil
  | opponent m =>
    obtain ⟨hidle, b, hb, hm⟩ := he
    have hbs : b = s.b := Except.ok.inj (hb.symm.trans h.board)
    rw [hbs] at hm
    have htext := s.handleMessage_position ord h.texts ⟨moveToStr_no_blank m, moveToStr_ne_nil m⟩
      (h.reachable.strToMove hm)
    exact ⟨_, htext, rfl, h.move hm rfl (h.thread.trans hidle)⟩
  | go =>
    have hreply := (s.handleMessage_go ord).trans (s.onGo_idle (h.thread.trans he))
    exact ⟨_, hreply, rfl, h.board, h.reachable, rfl, h.texts⟩
  | stop =>
    obtain ⟨hthinking, hbest⟩ := he
    have hreply := (s.handleMessage_stop ord).trans
      (s.onStop_legal ord (h.thread.trans hthinking) hbest)
    have hdrop : [literal "bestmove " ++ moveToStr s.bestMove].map
        (List.drop (literal "bestmove ").length) = [moveToStr s.bestMove] := by
      rw [List.map_singleton, List.drop_left]
    refine ⟨_, hreply, ?_⟩
    rw [Event.next, hdrop]
    exact ⟨rfl, h.move hbest rfl rfl⟩

theorem Session.tracks (h : Session ord g s) : Tracks ord g s := by
  induction h with
  | start bestMove search => exact .start bestMove search
  | message _ e he hr ih =>
    obtain ⟨r, hr', _, htracks⟩ := ih.handle e he
    rw [Except.ok.inj (hr.symm.trans hr')]
    exact htracks
  | store _ _ _ ih => exact ⟨ih.board, ih.reachable, ih.thread, ih.texts⟩

/-- After every message of a session the board of the server is the one the history leads to, and
the next message is handled without a fault and comes to what it is for. -/
theorem board_tracks_game (h : Session ord g s) :
    replay g.history = .ok s.b ∧
      ∀ e : Event, e.Allowed ord g s → ∃ r, s.handleMessage ord (e.message g) = .ok r ∧
        ⟨(e.next g r.broadcasts).history, r.server.b, r.broadcasts⟩ = e.turn g s := by
  refine ⟨h.tracks.board, fun e he => ?_⟩
  obtain ⟨r, hr, hturn, _⟩ := h.tracks.handle e he
  exact ⟨r, hr, hturn⟩

/-- While the server is thinking its engine may settle on any move. -/
theorem Session.think {history : List Text} (h : Session ord ⟨history, false⟩ s) (m : U16) :
    ∃ s', Session ord ⟨history, true⟩ s' ∧ s'.b = s.b ∧ s'.bestMove = m := by
  obtain ⟨r, hr, hturn, _⟩ := h.tracks.handle .go rfl
  exact ⟨_, (h.message .go rfl hr).store rfl m, congrArg Turn.b hturn, rfl⟩

theorem Session.turn {history : List Text} (h : Session ord ⟨history, false⟩ s) (own : Bool)
    {m : U16} (hm : m ∈ s.b.getLegalMoves ord) :
    ∃ s', Session ord ⟨history ++ [moveToStr m], false⟩ s' ∧ s'.b = s.b.doMove m := by
  cases own with
  | false =>
    have he : (Event.opponent m).Allowed ord ⟨history, false⟩ s :=
      ⟨rfl, s.b, h.tracks.board, hm⟩
    obtain ⟨r, hr, hturn, _⟩ := h.tracks.handle _ he
    exact ⟨r.server, h.message _ he hr, congrArg Turn.b hturn⟩
  | true =>
    obtain ⟨s', h', hb, rfl⟩ := h.think m
    rw [← hb] at hm ⊢
    have he : Event.stop.Allowed ord ⟨history, true⟩ s' := ⟨rfl, hm⟩
    obtain ⟨r, hr, hturn, _⟩ := h'.tracks.handle _ he
    have hnext : Event.next ⟨history, true⟩ r.broadcasts .stop =
        ⟨history ++ [moveToStr s'.bestMove], false⟩ :=
      congrArg (fun t => Game.mk t.history false) hturn
    exact ⟨r.server, hnext ▸ h'.message _ he hr, congrArg Turn.b hturn⟩

theorem Session.game {history : List Text}
    (h : Session VisitOrder.insertion ⟨history, false⟩ s) (own : Bool) {ms : List U16}
    (hplays : s.b.plays ms = true) :
    ∃ s', Session VisitOrder.insertion ⟨history ++ ms.map moveToStr, false⟩ s' ∧
      s'.b = ms.foldl Board.doMove s.b := by
  induction ms generalizing history s own with
  | nil => exact ⟨s, by rwa [List.map_nil, List.append_nil], rfl⟩
  | cons m ms ih =>
    obtain ⟨hm, hrest⟩ := (h.tracks.reachable.wf _).plays_cons hplays
    obtain ⟨s₁, h₁, hb₁⟩ := h.turn own hm
    rw [← hb₁] at hrest
    obtain ⟨s', h', hb'⟩ := ih h₁ (!own) hrest
    rw [List.append_assoc, List.singleton_append] at h'
    exact ⟨s', h', hb'.trans (by rw [hb₁, List.foldl_cons])⟩

end Tracking

/-- A session in which the server plays White and promotes with `d6e7r`. -/
theorem board_tracks_game_promotion : ∃ s r,
    Session VisitOrder.insertion ⟨Board.promotionGame.map moveToStr, true⟩ s ∧
      s.handleMessage VisitOrder.insertion (literal "stop") = .ok r ∧
      r.broadcasts = [literal "bestmove d6e7r"] ∧
      r.server.b = Board.promotionBoard.doMove Board.promotionMove ∧
      Session VisitOrder.insertion
        ⟨(Board.promotionGame ++ [Board.promotionMove]).map moveToStr, false⟩ r.server ∧
      replay ((Board.promotionGame ++ [Board.promotionMove]).map moveToStr) = .ok r.server.b := by
  have hstart : Session VisitOrder.insertion ⟨[], false⟩ (Server.start 0 false) := .start 0 false
  obtain ⟨s₁, h₁, hb₁⟩ := hstart.game true Board.promotionGame_plays
  obtain ⟨s, hs, hb, hbest⟩ := h₁.think Board.promotionMove
  have hboard : s.b = Board.promotionBoard := hb.trans hb₁
  have hallowed : Event.stop.Allowed VisitOrder.insertion
      ⟨[] ++ Board.promotionGame.map moveToStr, true⟩ s := by
    refine ⟨rfl, ?_⟩
    rw [hboard, hbest]
    exact Board.promotionMove_legal
  obtain ⟨r, hr, hturn⟩ := (board_tracks_game hs).2 _ hallowed
  have hsent : r.broadcasts = [literal "bestmove " ++ moveToStr s.bestMove] :=
    congrArg Turn.broadcasts hturn
  have hplayed : r.server.b = s.b.doMove s.bestMove := congrArg Turn.b hturn
  have hrecord : Event.next ⟨[] ++ Board.promotionGame.map moveToStr, true⟩ r.broadcasts .stop =
      ⟨(Board.promotionGame ++ [Board.promotionMove]).map moveToStr, false⟩ := by
    rw [List.map_append, List.map_singleton, ← hbest]
    exact congrArg (fun t => Game.mk t.history false) hturn
  have hnext := hs.message _ hallowed hr
  rw [hrecord] at hnext
  refine ⟨s, r, hs, hr, ?_, ?_, hnext, (board_tracks_game hnext).1⟩
  · rw [hsent, hbest]
    decide
  · rw [hplayed, hboard, hbest]

end Rollerball
