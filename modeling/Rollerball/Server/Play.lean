import Rollerball.Server.Concurrency

/-!
# Playing against any engine

`find_best_move` is virtual, and the two builds of the server link different engines. Whichever it
is, its thread acts between the messages of a client and inside the wait of `on_stop`. The client
and the server are still in a state of a session in which every message is handled at once.
-/

namespace Rollerball

theorem System.EngineStep.writes {V : Type} [LinearOrder V] [Zero V] {env : Platform V}
    {eval : Board × Nat → V} {s s' : System V} (hstep : EngineStep env eval s s') :
    ∃ m, s'.server = { s.server with bestMove := m } := by
  cases hstep with
  | copy h => exact ⟨s.server.bestMove, rfl⟩
  | @act color p p' e h hp =>
    cases e with
    | read => exact ⟨s.server.bestMove, rfl⟩
    | silent => exact ⟨s.server.bestMove, rfl⟩
    | store m => exact ⟨m, rfl⟩
  | finish h => exact ⟨s.server.bestMove, rfl⟩

/-- An engine as the server sees its thread: where it starts, and what an action may do to the
fields of the server. -/
structure EngineThread where
  State : Type
  starting : Server → State
  step : Server → State → Server → State → Prop
  returned : State → Prop
  /-- The thread writes nothing but `best_move`. -/
  writes : ∀ {s t s' t'}, step s t s' t' → ∃ m, s' = { s with bestMove := m }

/-- The thread of `engine.cpp`, with what `best_move` was before it and what has been seen of it. -/
def cppEngine {V : Type} [LinearOrder V] [Zero V] (env : Platform V) (eval : Board × Nat → V) :
    EngineThread where
  State := GameThread V × U16 × Proc.Seen U16
  starting := fun s => (.starting, s.bestMove, .fresh)
  step := fun s t s' t' => ∃ stopping,
    System.EngineStep env eval ⟨s, t.1, stopping, t.2.1, t.2.2⟩ ⟨s', t'.1, stopping, t'.2.1, t'.2.2⟩
  returned := fun t => t.1 = .finished
  writes := by
    rintro s t s' t' ⟨stopping, hstep⟩
    obtain ⟨m, hm⟩ := hstep.writes
    exact ⟨m, hm⟩

/-- What the thread of `engine_py.cpp` is doing: about to import `engine.py`, about to call its
`find_best_move` unless the import has left `my_module` null, about to store the result, returned,
or ended with the program by an exception. -/
inductive PyThread
  | starting
  | imported (found : Bool)
  | called (m : U16)
  | finished
  | terminated

/-- `random.randint(0, n - 1)` draws from the range, or raises an exception when it is empty. -/
def Randint (n : Nat) : Option Nat → Prop
  | some idx => idx < n
  | none => n = 0

/-- `find_best_move` of `engine.py`, on the list of the legal moves and what was drawn. -/
def pyFindBestMove (moves : List U16) (drawn : Option Nat) : Option U16 :=
  drawn.bind fun idx => moves[idx]?

theorem exists_drawn (ord : VisitOrder) {moves : List U16} {m : U16} (hm : m ∈ moves) :
    ∃ drawn, Randint moves.length drawn ∧ pyFindBestMove (ord.visit moves) drawn = some m := by
  obtain ⟨idx, hidx, hget⟩ := List.mem_iff_getElem.mp (ord.mem_visit.mpr hm)
  refine ⟨some idx, hidx.trans_eq (ord.visit_perm moves).length_eq, ?_⟩
  rw [pyFindBestMove, Option.bind_some, List.getElem?_eq_getElem hidx, hget]

/-- An action of the thread of `engine_py.cpp`, where `found` says whether Python can import
`engine.py`. It does not read the flag. -/
inductive PyStep (ord : VisitOrder) (found : Bool) : Server → PyThread → Server → PyThread → Prop
  -- the exception of a failed import is caught
  | load {s : Server} : PyStep ord found s .starting s (.imported found)
  -- `my_module.attr` throws on a null module, and nothing catches it
  | attr {s : Server} : PyStep ord found s (.imported false) s .terminated
  | call {s : Server} {drawn : Option Nat} {m : U16}
      (hdrawn : Randint (s.b.getLegalMoves ord).length drawn)
      (hm : pyFindBestMove (ord.visit (s.b.getLegalMoves ord)) drawn = some m) :
      PyStep ord found s (.imported true) s (.called m)
  | raise {s : Server} {drawn : Option Nat} (hdrawn : Randint (s.b.getLegalMoves ord).length drawn)
      (hnone : pyFindBestMove (ord.visit (s.b.getLegalMoves ord)) drawn = none) :
      PyStep ord found s (.imported true) s .terminated
  | store {s : Server} {m : U16} :
      PyStep ord found s (.called m) { s with bestMove := m } .finished

def pyEngine (ord : VisitOrder) (found : Bool) : EngineThread where
  State := PyThread
  starting := fun _ => .starting
  step := PyStep ord found
  returned := fun t => t = .finished
  writes := by
    intro s t s' t' hstep
    cases hstep with
    | load => exact ⟨s.bestMove, rfl⟩
    | attr => exact ⟨s.bestMove, rfl⟩
    | call hdrawn hm => exact ⟨s.bestMove, rfl⟩
    | raise hdrawn hnone => exact ⟨s.bestMove, rfl⟩
    | store => exact ⟨_, rfl⟩

/-- A client with its record of the game, the server, the thread if it is joinable, and whether
`on_stop` waits for it. -/
structure Play (E : EngineThread) where
  game : Game
  server : Server
  thread : Option E.State
  stopping : Bool

namespace Play

variable {E : EngineThread}

def start (bestMove : U16) (search : Bool) : Play E :=
  ⟨⟨[], false⟩, Server.start bestMove search, none, false⟩

def handled (p : Play E) (e : Event) (r : Reply) : Play E where
  game := e.next p.game r.broadcasts
  server := r.server
  thread := match e with
    | .go => some (E.starting p.server)
    | _ => p.thread
  stopping := p.stopping

def stop (p : Play E) : Play E := { p with server := p.server.requestStop, stopping := true }

def answered (p : Play E) (a : Answer) : Play E where
  game := Event.stop.next p.game [a.broadcast]
  server := a.server
  thread := none
  stopping := false

inductive EngineStep : Play E → Play E → Prop
  | act {p : Play E} {t t' : E.State} {server' : Server} (h : p.thread = some t)
      (hact : E.step p.server t server' t') :
      EngineStep p { p with server := server', thread := some t' }

/-- A step of client, server and thread. The client sends `go` in a game that is not over, and
`stop` in a state that satisfies `ok`. -/
inductive Step (ord : VisitOrder) (ok : Play E → Prop) : Play E → Play E → Prop
  | engine {p p' : Play E} (h : EngineStep p p') : Step ord ok p p'
  | query {p : Play E} {r : Reply} (hfree : p.stopping = false)
      (hr : p.server.onUci = .ok r ∨ p.server.onIsready = .ok r) :
      Step ord ok p { p with server := r.server }
  | message {p : Play E} (e : Event) (hstop : e ≠ .stop) (he : e.Allowed ord p.game p.server)
      (hgo : e = .go → p.server.b.getLegalMoves ord ≠ []) {r : Reply}
      (hr : p.server.handleMessage ord (e.message p.game) = .ok r) :
      Step ord ok p (p.handled e r)
  | stop {p : Play E} (hthinking : p.game.thinking = true) (hfree : p.stopping = false)
      (hok : ok p) : Step ord ok p p.stop
  | answer {p : Play E} {t : E.State} {server : Server} {a : Answer} (hstop : p.stopping = true)
      (ht : p.thread = some t) (hend : E.returned t) (hjoin : p.server.join = .ok server)
      (ha : server.answer ord = .ok a) : Step ord ok p (p.answered a)

/-- The states of all runs of a fresh server. -/
def Reached (ord : VisitOrder) (ok : Play E → Prop) (p : Play E) : Prop :=
  ∃ bestMove search, Relation.ReflTransGen (Step ord ok) (start bestMove search) p

def asked (p : Play E) : Server :=
  if p.stopping then { p.server with search := true } else p.server

section Refinement

variable {ord : VisitOrder} {ok : Play E → Prop} {p p' : Play E}

structure Refines (ord : VisitOrder) (p : Play E) : Prop where
  session : Session ord p.game p.asked
  thread : p.thread.isSome = p.game.thinking
  free : p.game.thinking = false → p.stopping = false
  flag : p.game.thinking = true → p.server.search = !p.stopping

theorem asked_b (p : Play E) : p.asked.b = p.server.b := by
  unfold asked
  split <;> rfl

theorem asked_of_free (h : p.stopping = false) : p.asked = p.server := by
  rw [asked, h]
  rfl

theorem Refines.board (h : p.Refines ord) : replay p.game.history = .ok p.server.b := by
  rw [h.session.tracks.board, asked_b]

theorem Refines.reachable (h : p.Refines ord) : p.server.b.Reachable ord := by
  rw [← asked_b]
  exact h.session.tracks.reachable

theorem Refines.gameThread (h : p.Refines ord) : p.server.gameThread = p.game.thinking := by
  rw [← h.session.tracks.thread, asked]
  split <;> rfl

theorem Refines.engine (h : p.Refines ord) (hstep : EngineStep p p') : p'.Refines ord := by
  cases hstep with
  | act ht hact =>
    obtain ⟨m, rfl⟩ := E.writes hact
    have hthinking : p.game.thinking = true := by rw [← h.thread, ht]; rfl
    refine ⟨?_, hthinking.symm, h.free, h.flag⟩
    have hstored := h.session.store hthinking m
    unfold asked at hstored ⊢
    cases hstopping : p.stopping with
    | true => simpa only [hstopping, if_true] using hstored
    | false => simpa only [hstopping, Bool.false_eq_true, if_false] using hstored

theorem thinking_of_allowed {e : Event} {g : Game} {s : Server} (hstop : e ≠ .stop)
    (he : e.Allowed ord g s) : g.thinking = false := by
  cases e with
  | newGame => exact he
  | opponent m => exact he.1
  | go => exact he
  | stop => exact absurd rfl hstop

theorem Refines.message (h : p.Refines ord) {e : Event} (hstop : e ≠ .stop)
    (he : e.Allowed ord p.game p.server) {r : Reply}
    (hr : p.server.handleMessage ord (e.message p.game) = .ok r) : (p.handled e r).Refines ord := by
  have hidle := thinking_of_allowed hstop he
  have hsession := h.session
  have hfree := h.free hidle
  rw [asked_of_free hfree] at hsession
  refine ⟨?_, ?_, fun _ => hfree, ?_⟩
  · have hasked : (p.handled e r).asked = r.server := asked_of_free hfree
    rw [hasked]
    exact hsession.message e he hr
  · cases e with
    | newGame => exact h.thread.trans hidle
    | opponent m => exact h.thread.trans hidle
    | go => rfl
    | stop => exact absurd rfl hstop
  · cases e with
    | newGame => nofun
    | opponent m => nofun
    | go =>
      intro _
      rw [Event.message, Server.handleMessage_go] at hr
      show r.server.search = !p.stopping
      rw [Server.onGo_ok _ hr, hfree]
      rfl
    | stop => exact absurd rfl hstop

theorem Refines.stop (h : p.Refines ord) (hthinking : p.game.thinking = true)
    (hfree : p.stopping = false) : p.stop.Refines ord := by
  refine ⟨?_, h.thread, fun hidle => absurd (hidle.symm.trans hthinking) Bool.false_ne_true,
    fun _ => rfl⟩
  have hsession := h.session
  have hflag := h.flag hthinking
  rw [hfree, Bool.not_false] at hflag
  rw [asked_of_free hfree] at hsession
  have hserver : p.stop.asked = p.server := by
    show { p.server.requestStop with search := true } = p.server
    rw [← hflag]
    rfl
  rwa [hserver]

theorem Refines.answer (h : p.Refines ord) (hstop : p.stopping = true) {server : Server}
    {a : Answer} (hjoin : p.server.join = .ok server) (ha : server.answer ord = .ok a) :
    (p.answered a).Refines ord := by
  have hthinking : p.game.thinking = true := by
    by_contra hidle
    exact Bool.false_ne_true ((h.free (by simpa using hidle)).symm.trans hstop)
  obtain ⟨hlegal, hserver, hbroadcast⟩ := Server.answer_ok _ _ ha
  rw [Server.join_ok _ hjoin] at hlegal hserver hbroadcast
  have hasked : p.asked = { p.server with search := true } := by
    rw [asked, hstop]
    rfl
  have hlegal' : p.asked.bestMove ∈ p.asked.b.getLegalMoves ord := by
    rw [hasked]
    exact hlegal
  have hthread : p.asked.gameThread = true := h.session.tracks.thread.trans hthinking
  have hreply := (p.asked.handleMessage_stop ord).trans (p.asked.onStop_legal ord hthread hlegal')
  have hsession := h.session.message .stop ⟨hthinking, hlegal'⟩ hreply
  have hflag := h.flag hthinking
  rw [hstop, Bool.not_true] at hflag
  refine ⟨?_, rfl, fun _ => rfl, nofun⟩
  have hanswered : (p.answered a).asked = a.server := rfl
  rw [hanswered, answered, hserver, hbroadcast]
  rw [hasked] at hsession
  convert hsession using 1
  rw [← hflag]

theorem Refines.step (h : p.Refines ord) (hstep : Step ord ok p p') : p'.Refines ord := by
  cases hstep with
  | engine hstep => exact h.engine hstep
  | @query r hfree hr =>
    have hserver : r.server = p.server := by
      rcases hr with hr | hr
      · exact (congrArg Reply.server (Except.ok.inj hr)).symm
      · exact (congrArg Reply.server (Except.ok.inj hr)).symm
    rw [hserver]
    exact h
  | message e hstop he hgo hr => exact h.message hstop he hr
  | stop hthinking hfree hok => exact h.stop hthinking hfree
  | answer hstop ht hend hjoin ha => exact h.answer hstop hjoin ha

theorem Reached.refines (h : Reached ord ok p) : p.Refines ord := by
  obtain ⟨bestMove, search, hrun⟩ := h
  induction hrun with
  | refl => exact ⟨.start bestMove search, rfl, fun _ => rfl, nofun⟩
  | tail _ hstep ih => exact ih.step hstep

/-- Whatever the engine does, after any interleaving the server is in a state of a sequential
session and its board is the one the client's record leads to. A message the client may send is
handled, and a `stop` is answered exactly when the thread that returns has left a legal move, which
then joins the record. -/
theorem interleavings_are_sessions (h : Reached ord ok p) :
    Session ord p.game p.asked ∧ replay p.game.history = .ok p.server.b ∧
      (∀ e : Event, e ≠ .stop → e.Allowed ord p.game p.server →
        ∃ r, p.server.handleMessage ord (e.message p.game) = .ok r) ∧
      (p.stopping = true →
        ((∃ server a, p.server.join = .ok server ∧ server.answer ord = .ok a ∧
          (p.answered a).game.history = p.game.history ++ [moveToStr p.server.bestMove]) ↔
        p.server.bestMove ∈ p.server.b.getLegalMoves ord)) := by
  have hrefines := h.refines
  refine ⟨hrefines.session, hrefines.board, fun e hstop he => ?_, fun hstop => ?_⟩
  · have hfree := hrefines.free (thinking_of_allowed hstop he)
    have htracks := hrefines.session.tracks
    rw [asked_of_free hfree] at htracks
    obtain ⟨r, hr, _⟩ := htracks.handle e he
    exact ⟨r, hr⟩
  · constructor
    · rintro ⟨server, a, hjoin, ha, _⟩
      have hlegal := (Server.answer_ok _ _ ha).1
      rwa [Server.join_ok _ hjoin] at hlegal
    · intro hlegal
      have hjoinable : p.server.gameThread = true := by
        rw [hrefines.gameThread]
        by_contra hidle
        exact Bool.false_ne_true ((hrefines.free (by simpa using hidle)).symm.trans hstop)
      refine ⟨_, _, p.server.join_joinable hjoinable,
        Server.answer_legal ord { p.server with gameThread := false } hlegal, ?_⟩
      rw [answered, Event.next, List.map_singleton, List.drop_left]

end Refinement

theorem interleavings_are_sessions_python :
    ∃ p : Play (pyEngine VisitOrder.insertion true), p.stopping = true ∧
      p.server.bestMove ∈ p.server.b.getLegalMoves VisitOrder.insertion ∧
      Session VisitOrder.insertion p.game p.asked ∧
      ∃ server a, p.server.join = .ok server ∧ server.answer VisitOrder.insertion = .ok a := by
  have hgo := @Step.message (pyEngine VisitOrder.insertion true) VisitOrder.insertion
    (fun _ => True) (start 0 false) .go nofun rfl (fun _ => List.ne_nil_of_mem Board.opening_legal)
    ⟨⟨Board.new, 0, true, true⟩, []⟩ rfl
  have hstop := (Relation.ReflTransGen.single hgo).tail (.stop rfl rfl trivial)
  obtain ⟨drawn, hdrawn, hm⟩ := exists_drawn VisitOrder.insertion Board.opening_legal
  have hcall : PyStep VisitOrder.insertion true ⟨Board.new, 0, false, true⟩ (.imported true)
      ⟨Board.new, 0, false, true⟩ (.called (move 10 17)) := .call hdrawn hm
  have hloaded := hstop.tail (.engine (.act rfl .load))
  have hcalled := hloaded.tail (.engine (.act rfl hcall))
  have hstored := hcalled.tail (.engine (.act rfl .store))
  obtain ⟨hsession, _, _, hanswer⟩ := interleavings_are_sessions ⟨0, false, hstored⟩
  obtain ⟨server, a, hjoin, ha, _⟩ := (hanswer rfl).mpr Board.opening_legal
  exact ⟨_, rfl, Board.opening_legal, hsession, server, a, hjoin, ha⟩

end Play

end Rollerball
