import Rollerball.Engine.Evaluation
import Rollerball.Engine.Stores
import Rollerball.Server.Session

/-!
# The server and its engine thread

`on_go` starts a thread that searches a copy of the board and stores into `best_move`; `on_stop`
lowers the flag, waits for the thread and plays what it finds there. The steps of the thread come
in any order between the messages, each seen at once by the server. A stop finds a move of the
search it stops only if the thread has made enough reads of the flag by then: before that,
`best_move` is what was left of an earlier search, or what the constructor left.
-/

namespace Rollerball

/-- What `game_thread` is doing: not joinable, started but without its copy of the board, in a
round of `search_move`, or returned. -/
inductive GameThread (V : Type)
  | idle
  | starting
  | searching (color : PlayerColor) (p : Search V (Progress ⊕ Board))
  | finished

/-- The server, its thread and whether `on_stop` waits for it. The value of `best_move` before the
search and what has been seen of the search are recorded; no step depends on them. -/
structure System (V : Type) where
  server : Server
  thread : GameThread V
  stopping : Bool
  stale : U16
  seen : Proc.Seen U16

namespace System

variable {V : Type}

def start (bestMove : U16) (search : Bool) : System V :=
  ⟨Server.start bestMove search, .idle, false, bestMove, .fresh⟩

def act (s : System V) (e : Proc.Effect U16) (thread : GameThread V) : System V :=
  { s with
    server := match e with
      | .store m => { s.server with bestMove := m }
      | _ => s.server
    thread := thread
    seen := s.seen.after s.server.search e }

theorem act_search (s : System V) (e : Proc.Effect U16) (thread : GameThread V) :
    (s.act e thread).server.search = s.server.search := by
  cases e <;> rfl

def stop (s : System V) : System V := { s with server := s.server.requestStop, stopping := true }

section Steps

variable [LinearOrder V] [Zero V] (env : Platform V) (eval : Board × Nat → V)

def copied (s : System V) : System V :=
  { s with
    thread := .searching s.server.b.playerToPlay
      (searchRound env s.server.b.playerToPlay ⟨s.server.b, 1, env.unset⟩) }

inductive EngineStep : System V → System V → Prop
  | copy {s : System V} (h : s.thread = .starting) : EngineStep s (s.copied env)
  | act {s : System V} {color : PlayerColor} {p p' : Search V (Progress ⊕ Board)}
      {e : Proc.Effect U16} (h : s.thread = .searching color p)
      (hp : Proc.Step (searchRound env color) eval s.server.search p e p') :
      EngineStep s (s.act e (.searching color p'))
  | finish {s : System V} {color : PlayerColor} {b : Board}
      (h : s.thread = .searching color (.done (.inr b))) :
      EngineStep s { s with thread := .finished }

/-- One step of the system, when a `stop` arrives only in a state that satisfies `ok`. Messages
are handled one at a time, and none that changes the board comes between `go` and `stop`. -/
inductive Step (ok : System V → Prop) : System V → System V → Prop
  | engine {s s' : System V} (h : EngineStep env eval s s') : Step ok s s'
  | query {s : System V} {r : Reply} (hfree : s.stopping = false)
      (hr : s.server.onUci = .ok r ∨ s.server.onIsready = .ok r) :
      Step ok s { s with server := r.server }
  | newGame {s : System V} {r : Reply} (hidle : s.thread = .idle)
      (hr : s.server.onUcinewgame = .ok r) : Step ok s { s with server := r.server }
  | position {s : System V} {r : Reply} (hidle : s.thread = .idle) (toks : List Text)
      (htoks : toks.length ≤ 3 ∨
        ∃ m ∈ s.server.b.getLegalMoves env.order, toks.getLast? = some (moveToStr m))
      (hr : s.server.onPosition toks = .ok r) : Step ok s { s with server := r.server }
  | go {s : System V} {r : Reply} (hidle : s.thread = .idle)
      (hlegal : s.server.b.getLegalMoves env.order ≠ []) (hr : s.server.onGo = .ok r) :
      Step ok s ⟨r.server, .starting, false, s.server.bestMove, .fresh⟩
  | stop {s : System V} (hthread : s.thread ≠ .idle) (hfree : s.stopping = false) (hok : ok s) :
      Step ok s s.stop
  | answer {s : System V} {server : Server} {a : Answer} (hstop : s.stopping = true)
      (hend : s.thread = .finished) (hjoin : s.server.join = .ok server)
      (ha : server.answer env.order = .ok a) :
      Step ok s { s with server := a.server, thread := .idle, stopping := false }

/-- The states of the runs of a fresh server whose stops arrive in states that satisfy `ok`. -/
def Reached (ok : System V → Prop) (s : System V) : Prop :=
  ∃ bestMove search, Relation.ReflTransGen (Step env eval ok) (start bestMove search) s

/-- The reads of the flag the first round of a search makes before its first store. -/
def storeReads (b : Board) : Nat :=
  ((searchRound env b.playerToPlay ⟨b, 1, env.unset⟩).firstPublish eval).getD 0

/-- The thread has made the reads that lead to its first store, or the move left in `best_move`
from before the search happens to be legal. -/
def Timely (s : System V) : Prop :=
  storeReads env eval s.server.b ≤ s.seen.reads ∨
    s.stale ∈ s.server.b.getLegalMoves env.order

end Steps

end System

theorem Server.onPosition_reachable {ord : VisitOrder} {s : Server} (hb : s.b.Reachable ord)
    {toks : List Text} (htoks : toks.length ≤ 3 ∨
      ∃ m ∈ s.b.getLegalMoves ord, toks.getLast? = some (moveToStr m)) {r : Reply}
    (hr : s.onPosition toks = .ok r) : r.server.b.Reachable ord := by
  by_cases hlength : toks.length ≤ 3
  · rw [onPosition, dif_neg (not_lt.mpr hlength)] at hr
    rwa [← Except.ok.inj hr]
  · obtain ⟨m, hm, hlast⟩ := htoks.resolve_left hlength
    obtain ⟨front, rfl⟩ := List.getLast?_eq_some_iff.mp hlast
    rw [List.length_append, List.length_singleton] at hlength
    rw [s.onPosition_last (by omega) (hb.strToMove hm)] at hr
    rw [← Except.ok.inj hr]
    exact hb.tail ⟨m, hm, rfl⟩

namespace System

section Invariant

variable {V : Type} [LinearOrder V] [Zero V] {env : Platform V} {eval : Board × Nat → V}
  {s s' : System V}

structure Active (env : Platform V) (s : System V) : Prop where
  joinable : s.server.gameThread = true
  flag : s.stopping = true → s.server.search = false
  legal : s.server.b.getLegalMoves env.order ≠ []
  best : s.server.bestMove = s.seen.stored.getD s.stale

structure Inv (env : Platform V) (eval : Board × Nat → V) (s : System V) : Prop where
  reachable : s.server.b.Reachable env.order
  free : s.thread = .idle → s.stopping = false
  active : s.thread ≠ .idle → s.Active env
  fresh : s.thread = .starting → s.seen = .fresh
  sound : ∀ color p, s.thread = .searching color p →
    Proc.Sound eval (legalSpec env s.server.b).contract (Searching s.server.b)
      (storeReads env eval s.server.b) s.server.search s.seen p
  returns : ∀ color p, s.thread = .searching color p →
    p.Ensures Proc.total (Sum.elim (fun s' => 0 ≤ s'.cutoff) fun _ => True)
  stored : s.thread = .finished → ∀ m, s.seen.stored = some m →
    s.server.b.position.Legal m ∧ storeReads env eval s.server.b ≤ s.seen.reads
  unstored : s.thread = .finished → s.seen.stored = none →
    s.seen.reads < storeReads env eval s.server.b

theorem Inv.wf (h : Inv env eval s) : s.server.b.Wf looseCodes :=
  (h.reachable.wf env.order).loose admissible_slotCodes

theorem Inv.idle (hreachable : s.server.b.Reachable env.order) (hidle : s.thread = .idle)
    (hfree : s.stopping = false) : Inv env eval s where
  reachable := hreachable
  free := fun _ => hfree
  active := fun h => absurd hidle h
  fresh := fun h => by rw [hidle] at h; cases h
  sound := fun color p h => by rw [hidle] at h; cases h
  returns := fun color p h => by rw [hidle] at h; cases h
  stored := fun h => by rw [hidle] at h; cases h
  unstored := fun h => by rw [hidle] at h; cases h

theorem storeReads_spec (heval : Bounded env eval) {b : Board} (hb : b.Wf looseCodes)
    (hlegal : b.getLegalMoves env.order ≠ []) :
    (searchRound env b.playerToPlay ⟨b, 1, env.unset⟩).firstPublish eval =
      some (storeReads env eval b) := by
  have hsome := searchRound_publishes heval hb hlegal b.playerToPlay (searching_start hb env.unset)
  obtain ⟨n, hn⟩ := Option.isSome_iff_exists.mp hsome
  rw [storeReads, hn]
  rfl

theorem searchRound_returns (color : PlayerColor) (s : Progress) (hs : 0 ≤ s.cutoff) :
    (searchRound env color s).Ensures Proc.total
      (Sum.elim (fun s' => 0 ≤ s'.cutoff) fun _ => True) := by
  apply (searchRound_ends env color hs).imp
  rintro (s' | b) hr
  · have hcutoff : s'.cutoff = s.cutoff + 2 := hr
    show 0 ≤ s'.cutoff
    omega
  · trivial

theorem Inv.copy (heval : Bounded env eval) (h : Inv env eval s) (hthread : s.thread = .starting) :
    Inv env eval (s.copied env) := by
  have hactive := h.active (by rw [hthread]; nofun)
  refine ⟨h.reachable, nofun, fun _ => ⟨hactive.joinable, hactive.flag, hactive.legal,
    hactive.best⟩, nofun, ?_, ?_, nofun, nofun⟩
  · intro color p heq
    obtain ⟨rfl, rfl⟩ := GameThread.searching.inj heq
    show Proc.Sound eval _ _ _ s.server.search s.seen _
    rw [h.fresh hthread]
    exact .start (searchRound_stoppable s.server.b.playerToPlay)
      (searching_start h.wf env.unset) (storeReads_spec heval h.wf hactive.legal)
  · intro color p heq
    obtain ⟨rfl, rfl⟩ := GameThread.searching.inj heq
    exact searchRound_returns _ _ (show (0 : Int) ≤ 1 by decide)

theorem Inv.act (heval : Bounded env eval) (h : Inv env eval s) {color : PlayerColor}
    {p p' : Search V (Progress ⊕ Board)} {e : Proc.Effect U16}
    (hthread : s.thread = .searching color p)
    (hp : Proc.Step (searchRound env color) eval s.server.search p e p') :
    Inv env eval (s.act e (.searching color p')) := by
  have hactive := h.active (by rw [hthread]; nofun)
  have hsound := (h.sound color p hthread).step (searchRound_stoppable color) rfl
    (fun q => heval q) hp
  have hstage : ∀ color' p'', GameThread.searching color p' = .searching color' p'' →
      Proc.Sound eval (legalSpec env s.server.b).contract (Searching s.server.b)
        (storeReads env eval s.server.b) s.server.search (s.seen.after s.server.search e) p'' := by
    intro color' p'' heq
    obtain ⟨rfl, rfl⟩ := GameThread.searching.inj heq
    exact hsound
  have hreturns : ∀ color' p'', GameThread.searching color p' = .searching color' p'' →
      p''.Ensures Proc.total (Sum.elim (fun s' => 0 ≤ s'.cutoff) fun _ => True) := by
    intro color' p'' heq
    obtain ⟨rfl, rfl⟩ := GameThread.searching.inj heq
    exact (h.returns color p hthread).step (searchRound_returns color) hp
  cases e with
  | store m =>
    exact ⟨h.reachable, nofun, fun _ => ⟨hactive.joinable, hactive.flag, hactive.legal, rfl⟩,
      nofun, hstage, hreturns, nofun, nofun⟩
  | read =>
    exact ⟨h.reachable, nofun,
      fun _ => ⟨hactive.joinable, hactive.flag, hactive.legal, hactive.best⟩,
      nofun, hstage, hreturns, nofun, nofun⟩
  | silent =>
    exact ⟨h.reachable, nofun,
      fun _ => ⟨hactive.joinable, hactive.flag, hactive.legal, hactive.best⟩,
      nofun, hstage, hreturns, nofun, nofun⟩

theorem Inv.finish (h : Inv env eval s) {color : PlayerColor} {b : Board}
    (hthread : s.thread = .searching color (.done (.inr b))) :
    Inv env eval { s with thread := .finished } := by
  have hactive := h.active (by rw [hthread]; nofun)
  have hsound := h.sound color _ hthread
  exact ⟨h.reachable, nofun, fun _ => ⟨hactive.joinable, hactive.flag, hactive.legal,
    hactive.best⟩, nofun, nofun, nofun, fun _ => hsound.stored, fun _ => hsound.returned⟩

theorem Inv.engine (heval : Bounded env eval) (h : Inv env eval s)
    (hstep : EngineStep env eval s s') : Inv env eval s' := by
  cases hstep with
  | copy hthread => exact h.copy heval hthread
  | act hthread hp => exact h.act heval hthread hp
  | finish hthread => exact h.finish hthread

theorem Inv.stop (h : Inv env eval s) (hthread : s.thread ≠ .idle) : Inv env eval s.stop := by
  have hactive := h.active hthread
  exact ⟨h.reachable, fun hidle => absurd hidle hthread,
    fun _ => ⟨hactive.joinable, fun _ => rfl, hactive.legal, hactive.best⟩, h.fresh,
    fun color p hp => (h.sound color p hp).lower, h.returns, h.stored, h.unstored⟩

/-- What `on_stop` reads is legal exactly when the stop came in time. -/
theorem Inv.best_legal_iff (h : Inv env eval s) (hend : s.thread = .finished) :
    s.server.bestMove ∈ s.server.b.getLegalMoves env.order ↔ Timely env eval s := by
  have hactive := h.active (by rw [hend]; nofun)
  rw [hactive.best]
  cases hstored : s.seen.stored with
  | none =>
    have hreads := h.unstored hend hstored
    exact ⟨Or.inr, fun htimely => htimely.resolve_left (not_le.mpr hreads)⟩
  | some m =>
    obtain ⟨hlegal, hreads⟩ := h.stored hend m hstored
    exact ⟨fun _ => Or.inl hreads, fun _ => (h.wf.mem_getLegalMoves env.order).mpr hlegal⟩

/-- Every step keeps the invariant. An answer has passed the assertions of `on_stop`, so the move
it has played is legal. -/
theorem Inv.step (heval : Bounded env eval) {ok : System V → Prop} (h : Inv env eval s)
    (hstep : Step env eval ok s s') : Inv env eval s' := by
  cases hstep with
  | engine hstep => exact h.engine heval hstep
  | @query r hfree hr =>
    have hserver : r.server = s.server := by
      rcases hr with hr | hr
      · rw [← Except.ok.inj hr]
      · rw [← Except.ok.inj hr]
    rw [hserver]
    exact h
  | newGame hidle hr =>
    rw [← Except.ok.inj hr]
    exact .idle .refl hidle (h.free hidle)
  | position hidle toks htoks hr =>
    exact .idle (Server.onPosition_reachable h.reachable htoks hr) hidle (h.free hidle)
  | go hidle hlegal hr =>
    rw [Server.onGo_ok _ hr]
    exact ⟨h.reachable, nofun, fun _ => ⟨rfl, nofun, hlegal, rfl⟩, fun _ => rfl, nofun, nofun,
      nofun, nofun⟩
  | stop hthread hfree hok => exact h.stop hthread
  | answer hstop hend hjoin ha =>
    obtain ⟨hlegal, hserver, _⟩ := Server.answer_ok _ _ ha
    rw [Server.join_ok _ hjoin] at hlegal hserver
    refine .idle ?_ rfl rfl
    rw [hserver]
    exact h.reachable.tail ⟨_, hlegal, rfl⟩

theorem Inv.start (bestMove : U16) (search : Bool) : Inv env eval (System.start bestMove search) :=
  .idle .refl rfl rfl

theorem Reached.inv (heval : Bounded env eval) {ok : System V → Prop}
    (h : Reached env eval ok s) : Inv env eval s := by
  obtain ⟨bestMove, search, hrun⟩ := h
  induction hrun with
  | refl => exact .start bestMove search
  | tail _ hstep ih => exact ih.step heval hstep

theorem EngineStep.not_idle (hstep : EngineStep env eval s s') : s.thread ≠ .idle := by
  cases hstep with
  | copy hthread => rw [hthread]; nofun
  | act hthread hp => rw [hthread]; nofun
  | finish hthread => rw [hthread]; nofun

theorem EngineStep.stopping (hstep : EngineStep env eval s s') : s'.stopping = s.stopping := by
  cases hstep <;> rfl

theorem EngineStep.frame (hstep : EngineStep env eval s s') (hflag : s.server.search = false) :
    s'.server.search = false ∧ (Timely env eval s' ↔ Timely env eval s) := by
  cases hstep with
  | copy hthread => exact ⟨hflag, Iff.rfl⟩
  | @act color p p' e hthread hp =>
    have hreads : (s.seen.after s.server.search e).reads = s.seen.reads := by
      rw [hflag, Proc.Seen.after_reads_false]
    have htimely : Timely env eval (s.act e (.searching color p')) ↔
        storeReads env eval s.server.b ≤ (s.seen.after s.server.search e).reads ∨
          s.stale ∈ s.server.b.getLegalMoves env.order := by
      cases e <;> exact Iff.rfl
    rw [hreads] at htimely
    refine ⟨?_, htimely⟩
    cases e <;> exact hflag
  | finish hthread => exact ⟨hflag, Iff.rfl⟩

theorem stop_run_frame (hrun : Relation.ReflTransGen (EngineStep env eval) s.stop s') :
    s'.server.search = false ∧ (Timely env eval s' ↔ Timely env eval s) := by
  induction hrun with
  | refl => exact ⟨rfl, Iff.rfl⟩
  | tail _ hstep ih =>
    have hframe := hstep.frame ih.1
    exact ⟨hframe.1, hframe.2.trans ih.2⟩

theorem Inv.run (heval : Bounded env eval) (h : Inv env eval s)
    (hrun : Relation.ReflTransGen (EngineStep env eval) s s') : Inv env eval s' := by
  induction hrun with
  | refl => exact h
  | tail _ hstep ih => exact ih.engine heval hstep

theorem engine_run {color : PlayerColor} {p p' : Search V (Progress ⊕ Board)}
    (hthread : s.thread = .searching color p)
    (hrun : Relation.ReflTransGen
      (fun p p' => ∃ e, Proc.Step (searchRound env color) eval s.server.search p e p') p p') :
    ∃ s', Relation.ReflTransGen (EngineStep env eval) s s' ∧ s'.thread = .searching color p' ∧
      s'.server.search = s.server.search := by
  induction hrun with
  | refl => exact ⟨s, .refl, hthread, rfl⟩
  | tail _ hp ih =>
    obtain ⟨s', hrun, hthread', hsearch⟩ := ih
    obtain ⟨e, hp⟩ := hp
    rw [← hsearch] at hp
    exact ⟨_, hrun.tail (.act hthread' hp), rfl, (act_search _ e _).trans hsearch⟩

theorem stopped_round {color : PlayerColor} {progress : Progress}
    (hthread : s.thread = .searching color (.done (.inl progress)))
    (hflag : s.server.search = false) :
    ∃ s', Relation.ReflTransGen (EngineStep env eval) s s' ∧ s'.thread = .finished := by
  have hround : Relation.ReflTransGen
      (fun p p' => ∃ e, Proc.Step (searchRound env color) eval s.server.search p e p')
      (.done (.inl progress)) (.done (.inr progress.board)) := by
    rw [hflag]
    cases color with
    | white => exact .tail (.single ⟨_, .round progress⟩) ⟨_, .read _⟩
    | black => exact .tail (.single ⟨_, .round progress⟩) ⟨_, .read _⟩
  obtain ⟨s', hrun, hthread', _⟩ := engine_run hthread hround
  exact ⟨_, hrun.tail (.finish hthread'), rfl⟩

theorem searching_returns {color : PlayerColor} {p : Search V (Progress ⊕ Board)}
    (hreturns : p.Ensures Proc.total (Sum.elim (fun s' => 0 ≤ s'.cutoff) fun _ => True))
    (hthread : s.thread = .searching color p) (hflag : s.server.search = false) :
    ∃ s', Relation.ReflTransGen (EngineStep env eval) s s' ∧ s'.thread = .finished := by
  obtain ⟨r, hp⟩ := @Proc.Ensures.reaches_done _ _ _ _ _ (searchRound env color) eval
    s.server.search _ _ hreturns
  obtain ⟨s₁, hrun, hthread₁, hflag₁⟩ := engine_run hthread hp
  cases r with
  | inl progress =>
    obtain ⟨s', hrun', hend⟩ := stopped_round hthread₁ (hflag₁.trans hflag)
    exact ⟨s', hrun.trans hrun', hend⟩
  | inr b => exact ⟨_, hrun.tail (.finish hthread₁), rfl⟩

theorem Inv.returned (heval : Bounded env eval) (h : Inv env eval s) (hthread : s.thread ≠ .idle)
    (hflag : s.server.search = false) :
    ∃ s', Relation.ReflTransGen (EngineStep env eval) s s' ∧ s'.thread = .finished := by
  cases hcase : s.thread with
  | idle => exact absurd hcase hthread
  | starting =>
    have hcopy := h.copy heval hcase
    have hthread' : (s.copied env).thread = .searching _ _ := rfl
    obtain ⟨s', hrun, hend⟩ := searching_returns (hcopy.returns _ _ hthread') hthread' hflag
    exact ⟨s', .head (.copy hcase) hrun, hend⟩
  | searching color p => exact searching_returns (h.returns color p hcase) hcase hflag
  | finished => exact ⟨s, .refl, hcase⟩

theorem Reached.timely (heval : Bounded env eval) (h : Reached env eval (Timely env eval) s)
    (hstop : s.stopping = true) : Timely env eval s := by
  obtain ⟨bestMove, search, hrun⟩ := h
  induction hrun with
  | refl => cases hstop
  | @tail s s' hprefix hstep ih =>
    have hinv : Inv env eval s := Reached.inv heval ⟨bestMove, search, hprefix⟩
    cases hstep with
    | engine hstep =>
      have hstop' : s.stopping = true := hstep.stopping.symm.trans hstop
      have hflag := (hinv.active hstep.not_idle).flag hstop'
      exact (hstep.frame hflag).2.mpr (ih hstop')
    | query hfree hr => exact absurd (hfree.symm.trans hstop) Bool.false_ne_true
    | newGame hidle hr => exact absurd ((hinv.free hidle).symm.trans hstop) Bool.false_ne_true
    | position hidle toks htoks hr =>
      exact absurd ((hinv.free hidle).symm.trans hstop) Bool.false_ne_true
    | go hidle hlegal hr => cases hstop
    | stop hthread hfree hok => exact hok
    | answer hstop' hend hjoin ha => cases hstop

end Invariant

section Runs

variable {V : Type} [LinearOrder V] [Zero V] {env : Platform V}

/-- In every run, the thread returns after a stop, and what `on_stop` then reads from `best_move` is
a legal move if and only if the stop came in time. So in a run whose stops all come in time, every
stop is answered with a legal move. -/
theorem stop_reads_legal_move_iff (evaluator : Evaluator env) :
    (∀ s, Reached env evaluator.eval (fun _ => True) s → s.thread ≠ .idle →
      (∃ s', Relation.ReflTransGen (EngineStep env evaluator.eval) s.stop s' ∧
        s'.thread = .finished) ∧
      ∀ s', Relation.ReflTransGen (EngineStep env evaluator.eval) s.stop s' →
        s'.thread = .finished →
          (s'.server.bestMove ∈ s'.server.b.getLegalMoves env.order ↔
            Timely env evaluator.eval s)) ∧
      ∀ s, Reached env evaluator.eval (Timely env evaluator.eval) s → s.stopping = true →
        s.thread = .finished →
          s.server.bestMove ∈ s.server.b.getLegalMoves env.order ∧
            ∃ server a, s.server.join = .ok server ∧ server.answer env.order = .ok a ∧
              a.broadcast = literal "bestmove " ++ moveToStr s.server.bestMove := by
  constructor
  · intro s hs hthread
    have hinv := (hs.inv evaluator.bounded).stop hthread
    refine ⟨hinv.returned evaluator.bounded hthread rfl, fun s' hrun hend => ?_⟩
    rw [(hinv.run evaluator.bounded hrun).best_legal_iff hend]
    exact (stop_run_frame hrun).2
  · intro s hs hstop hend
    have hinv := hs.inv evaluator.bounded
    have hlegal := (hinv.best_legal_iff hend).mpr (hs.timely evaluator.bounded hstop)
    have hjoinable := (hinv.active (by rw [hend]; nofun)).joinable
    exact ⟨hlegal, _, _, s.server.join_joinable hjoinable,
      Server.answer_legal env.order { s.server with gameThread := false } hlegal, rfl⟩

def thinking : System ℚ := ⟨⟨Board.new, 0, true, true⟩, .starting, false, 0, .fresh⟩

theorem zero_not_legal :
    (0 : U16) ∉ Board.new.getLegalMoves VisitOrder.insertion := by
  rw [(Board.new_wf.loose admissible_slotCodes).mem_getLegalMoves_fresh]
  exact fun h => absurd h.1 (by decide)

theorem thinking_reached (ok : System ℚ → Prop) :
    Reached WSum.platform WSum.evaluator.eval ok thinking := by
  have hgo := @Step.go ℚ _ _ WSum.platform WSum.evaluator.eval ok (start 0 false)
    ⟨thinking.server, []⟩ rfl (List.ne_nil_of_mem Board.opening_legal) rfl
  exact ⟨0, false, .single hgo⟩

theorem stop_reads_legal_move_iff_thinking :
    ∀ s', Relation.ReflTransGen (EngineStep WSum.platform WSum.evaluator.eval) thinking.stop s' →
      s'.thread = .finished →
        (s'.server.bestMove ∈ s'.server.b.getLegalMoves WSum.platform.order ↔
          Timely WSum.platform WSum.evaluator.eval thinking) :=
  ((stop_reads_legal_move_iff WSum.evaluator).1 thinking (thinking_reached _) nofun).2

/-- A `stop` that follows `go` at once finds what the constructor left in `best_move`, here zero,
and fails an assertion. -/
theorem stop_reads_stale_move :
    ∃ s : System ℚ, Reached WSum.platform WSum.evaluator.eval (fun _ => True) s ∧
      s.stopping = true ∧ s.thread = .finished ∧
      s.server.bestMove ∉ s.server.b.getLegalMoves WSum.platform.order ∧
      ∃ server, s.server.join = .ok server ∧
        server.answer WSum.platform.order = .error .assertFailed := by
  obtain ⟨bestMove, search, hrun⟩ := thinking_reached fun _ => True
  have hstop := hrun.tail (.stop nofun rfl trivial)
  have hcopy := hstop.tail (.engine (.copy rfl))
  have hread := hcopy.tail (.engine (.act rfl (.read _)))
  have hend := hread.tail (.engine (.finish rfl))
  exact ⟨_, ⟨bestMove, search, hend⟩, rfl, rfl, zero_not_legal, _, rfl,
    Server.answer_illegal _ _ zero_not_legal⟩

end Runs

end System

end Rollerball
