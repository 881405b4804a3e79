import Rollerball.Engine.Effort
import Rollerball.Server.Play

/-!
# The two builds

The engine of `engine_py.cpp` ignores the flag and stores its move before it returns, so `on_stop`
can come at any moment. The engine of `engine.cpp` returns soon after the flag has fallen, and may
return without having stored anything.
-/

namespace Rollerball

namespace System

variable {V : Type} [LinearOrder V] [Zero V] {env : Platform V} {eval : Board × Nat → V}
  {s s' : System V}

theorem EngineStep.restop (hstep : EngineStep env eval s s') (stopping : Bool) :
    EngineStep env eval { s with stopping := stopping } { s' with stopping := stopping } := by
  cases hstep with
  | copy h => exact .copy h
  | act h hp => exact .act h hp
  | finish h => exact .finish h

theorem EngineStep.still_busy (hstep : EngineStep env eval s s') : s'.thread ≠ .idle := by
  cases hstep <;> nofun

end System

namespace Play

variable {E : EngineThread} {ord : VisitOrder}

/-- The thread comes to its end, and wherever it ends `on_stop` goes on, plays a legal move and
sends it. -/
def Answers (ord : VisitOrder) (p : Play E) : Prop :=
  (∃ p' t, Relation.ReflTransGen EngineStep p p' ∧ p'.thread = some t ∧ E.returned t) ∧
    ∀ p' t, Relation.ReflTransGen EngineStep p p' → p'.thread = some t → E.returned t →
      p'.server.bestMove ∈ p'.server.b.getLegalMoves ord ∧
        ∃ server a, p'.server.join = .ok server ∧ server.answer ord = .ok a ∧
          a.broadcast = literal "bestmove " ++ moveToStr p'.server.bestMove

section Engine

variable {ok : Play E → Prop} {p p' : Play E}

theorem Reached.run (h : Reached ord ok p) (hrun : Relation.ReflTransGen EngineStep p p') :
    Reached ord ok p' := by
  obtain ⟨bestMove, search, hprefix⟩ := h
  exact ⟨bestMove, search, hprefix.trans (hrun.lift id fun _ _ hstep => .engine hstep)⟩

theorem stopping_of_run (hrun : Relation.ReflTransGen EngineStep p p') :
    p'.stopping = p.stopping := by
  induction hrun with
  | refl => rfl
  | tail _ hstep ih =>
    cases hstep with
    | act ht hact => exact ih

theorem Refines.thread_of_stopping (h : p.Refines ord) (hstop : p.stopping = true) :
    ∃ t, p.thread = some t := by
  rw [← Option.isSome_iff_exists, h.thread]
  by_contra hidle
  exact Bool.false_ne_true ((h.free (by simpa using hidle)).symm.trans hstop)

/-- A run is answered if its thread can end and leaves a legal move wherever it ends. -/
theorem Reached.answers (h : Reached ord ok p)
    (hends : ∃ p' t, Relation.ReflTransGen EngineStep p p' ∧ p'.thread = some t ∧ E.returned t)
    (hlegal : ∀ p' t, Relation.ReflTransGen EngineStep p p' → p'.thread = some t →
      E.returned t → p'.server.bestMove ∈ p'.server.b.getLegalMoves ord) : p.Answers ord := by
  refine ⟨hends, fun p' t hrun ht hend => ?_⟩
  have hrefines := (h.run hrun).refines
  have hthinking : p'.server.gameThread = true := by
    rw [hrefines.gameThread, ← hrefines.thread, ht]
    rfl
  have hbest := hlegal p' t hrun ht hend
  exact ⟨hbest, _, _, p'.server.join_joinable hthinking,
    Server.answer_legal ord { p'.server with gameThread := false } hbest, rfl⟩

end Engine

section Python

variable {found : Bool} {ok : Play (pyEngine ord found) → Prop} {p p' : Play (pyEngine ord found)}

def Fits (ord : VisitOrder) (found : Bool) (s : Server) : PyThread → Prop
  | .starting => s.b.getLegalMoves ord ≠ []
  | .imported found' => found' = found ∧ s.b.getLegalMoves ord ≠ []
  | .called m => found = true ∧ m ∈ s.b.getLegalMoves ord
  | .finished => found = true ∧ s.bestMove ∈ s.b.getLegalMoves ord
  | .terminated => found = false

theorem pyFindBestMove_spec {moves : List U16} {drawn : Option Nat}
    (hdrawn : Randint moves.length drawn) :
    (∀ m, pyFindBestMove (ord.visit moves) drawn = some m → m ∈ moves) ∧
      (pyFindBestMove (ord.visit moves) drawn = none ↔ moves = []) := by
  have hlength : (ord.visit moves).length = moves.length := (ord.visit_perm moves).length_eq
  cases drawn with
  | none =>
    have hempty : moves = [] := List.length_eq_zero_iff.mp hdrawn
    exact ⟨nofun, iff_of_true rfl hempty⟩
  | some idx =>
    have hidx : idx < moves.length := hdrawn
    have hsome : pyFindBestMove (ord.visit moves) (some idx) = some (ord.visit moves)[idx] :=
      List.getElem?_eq_getElem (by omega)
    rw [hsome]
    constructor
    · rintro m hm
      rw [← Option.some.inj hm]
      exact ord.mem_visit.mp (List.getElem_mem _)
    · refine iff_of_false nofun ?_
      rintro rfl
      exact absurd hidx (Nat.not_lt_zero _)

theorem PyStep.fits {s s' : Server} {t t' : PyThread} (hstep : PyStep ord found s t s' t')
    (h : Fits ord found s t) : Fits ord found s' t' := by
  cases hstep with
  | load => exact ⟨rfl, h⟩
  | attr => exact h.1.symm
  | call hdrawn hm => exact ⟨h.1.symm, (pyFindBestMove_spec hdrawn).1 _ hm⟩
  | raise hdrawn hnone => exact absurd ((pyFindBestMove_spec hdrawn).2.mp hnone) h.2
  | store => exact h

theorem Refines.fits_step (h : p.Refines ord)
    (hfits : ∀ t, p.thread = some t → Fits ord found p.server t) (hstep : Step ord ok p p') :
    ∀ t, p'.thread = some t → Fits ord found p'.server t := by
  cases hstep with
  | engine hstep =>
    cases hstep with
    | act ht hact =>
      intro t' ht'
      rw [← Option.some.inj ht']
      exact PyStep.fits hact (hfits _ ht)
  | query hfree hr =>
    intro t ht
    rcases hr with hr | hr
    · rw [← Except.ok.inj hr]
      exact hfits t ht
    · rw [← Except.ok.inj hr]
      exact hfits t ht
  | message e hstop he hgo hr =>
    have hnone : p.thread = none := by
      rw [← Option.not_isSome_iff_eq_none, h.thread, thinking_of_allowed hstop he]
      exact Bool.false_ne_true
    intro t ht
    cases e with
    | newGame => cases hnone.symm.trans ht
    | opponent m => cases hnone.symm.trans ht
    | go =>
      rw [Event.message, Server.handleMessage_go] at hr
      have hserver : (p.handled .go _).server = _ := Server.onGo_ok _ hr
      rw [hserver, ← Option.some.inj ht]
      exact hgo rfl
    | stop => exact absurd rfl hstop
  | stop hthinking hfree hok =>
    intro t ht
    have hfits := hfits t ht
    cases t <;> exact hfits
  | answer hstop ht hend hjoin ha =>
    intro t ht
    cases ht

theorem Reached.fits (h : Reached ord ok p) :
    ∀ t, p.thread = some t → Fits ord found p.server t := by
  obtain ⟨bestMove, search, hrun⟩ := h
  induction hrun with
  | refl => nofun
  | tail hprefix hstep ih => exact (Reached.refines ⟨_, _, hprefix⟩).fits_step ih hstep

end Python

section Cpp

variable {V : Type} [LinearOrder V] [Zero V] {env : Platform V} {eval : Board × Nat → V}
  {ok : Play (cppEngine env eval) → Prop} {p p' : Play (cppEngine env eval)}

def system (p : Play (cppEngine env eval)) (t : GameThread V × U16 × Proc.Seen U16) : System V :=
  ⟨p.server, t.1, p.stopping, t.2.1, t.2.2⟩

def InTime (p : Play (cppEngine env eval)) : Prop :=
  ∀ t, p.thread = some t → (p.system t).Timely env eval

/-- A state of the system with the same server, and the same thread if there is one. -/
structure Projects (p : Play (cppEngine env eval)) (s : System V) : Prop where
  server : s.server = p.server
  stopping : s.stopping = p.stopping
  idle : p.thread = none → s.thread = .idle
  thread : ∀ t, p.thread = some t → s = p.system t ∧ s.thread ≠ .idle

theorem Projects.start (bestMove : U16) (search : Bool) :
    Projects (Play.start bestMove search : Play (cppEngine env eval))
      (System.start bestMove search) :=
  ⟨rfl, rfl, fun _ => rfl, nofun⟩

theorem Projects.engine {s : System V} (h : Projects p s) (hstep : EngineStep p p') :
    ∃ s', System.EngineStep env eval s s' ∧ Projects p' s' := by
  cases hstep with
  | @act t t' server' ht hact =>
    obtain ⟨stopping, hact⟩ := hact
    obtain ⟨rfl, _⟩ := h.thread t ht
    refine ⟨_, hact.restop p.stopping, rfl, rfl, nofun, fun t'' ht'' => ?_⟩
    rw [← Option.some.inj ht'']
    exact ⟨rfl, hact.still_busy⟩

theorem Projects.message (h : p.Refines env.order) {s : System V} (hs : Projects p s) {e : Event}
    (hstop : e ≠ .stop) (he : e.Allowed env.order p.game p.server)
    (hgo : e = .go → p.server.b.getLegalMoves env.order ≠ []) {r : Reply}
    (hr : p.server.handleMessage env.order (e.message p.game) = .ok r) (ok : System V → Prop) :
    ∃ s', System.Step env eval ok s s' ∧ Projects (p.handled e r) s' := by
  have hthinking := thinking_of_allowed hstop he
  have hfree := h.free hthinking
  have hnone : p.thread = none := by
    rw [← Option.not_isSome_iff_eq_none, h.thread, hthinking]
    exact Bool.false_ne_true
  have hidle := hs.idle hnone
  have hkept : (p.handled e r).thread = none →
      Projects (p.handled e r) { s with server := r.server } :=
    fun hthread => ⟨rfl, hs.stopping, fun _ => hidle, fun t ht => by cases hthread.symm.trans ht⟩
  cases e with
  | newGame =>
    rw [Event.message, Server.handleMessage_ucinewgame, ← hs.server] at hr
    exact ⟨_, .newGame hidle hr, hkept hnone⟩
  | opponent m =>
    obtain ⟨_, b, hb, hm⟩ := he
    obtain rfl : b = p.server.b := Except.ok.inj (hb.symm.trans h.board)
    have htext := h.reachable.strToMove hm
    rw [Event.message, p.server.handleMessage_position env.order h.session.tracks.texts
      ⟨moveToStr_no_blank m, moveToStr_ne_nil m⟩ htext] at hr
    have hlength : [literal "position", literal "startpos", literal "moves"].length ≥ 3 := by decide
    have hlast := s.server.onPosition_last hlength htext
    rw [hs.server, hr] at hlast
    exact ⟨_, .position hidle _ (Or.inr ⟨m, by rwa [hs.server], List.getLast?_concat⟩)
      (by rwa [hs.server]), hkept hnone⟩
  | go =>
    rw [Event.message, Server.handleMessage_go, ← hs.server] at hr
    refine ⟨_, .go hidle (by rw [hs.server]; exact hgo rfl) hr, rfl, hfree.symm, ?_, ?_⟩
    · intro hnone
      cases hnone
    · intro t ht
      rw [← Option.some.inj ht, hs.server]
      refine ⟨?_, fun hidle => by cases hidle⟩
      show _ = System.mk r.server .starting p.stopping p.server.bestMove .fresh
      rw [hfree]
  | stop => exact absurd rfl hstop

theorem Projects.step (h : p.Refines env.order) {s : System V} (hs : Projects p s)
    (hstep : Step env.order InTime p p') :
    ∃ s', System.Step env eval (System.Timely env eval) s s' ∧ Projects p' s' := by
  cases hstep with
  | engine hstep =>
    obtain ⟨s', hact, hs'⟩ := hs.engine hstep
    exact ⟨s', .engine hact, hs'⟩
  | @query r hfree hr =>
    rw [← hs.server] at hr
    refine ⟨_, .query (hs.stopping.trans hfree) hr, rfl, hs.stopping, hs.idle, fun t ht => ?_⟩
    obtain ⟨rfl, hbusy⟩ := hs.thread t ht
    exact ⟨rfl, hbusy⟩
  | message e hstop he hgo hr => exact hs.message h hstop he hgo hr _
  | stop hthinking hfree hok =>
    obtain ⟨t, ht⟩ := Option.isSome_iff_exists.mp (h.thread.trans hthinking)
    obtain ⟨rfl, hbusy⟩ := hs.thread t ht
    refine ⟨_, .stop hbusy hfree (hok t ht), rfl, rfl, fun hnone => ?_, fun t' ht' => ?_⟩
    · cases hnone.symm.trans ht
    · obtain rfl := Option.some.inj (ht.symm.trans ht')
      exact ⟨rfl, hbusy⟩
  | @answer t server a hstop ht hend hjoin ha =>
    obtain ⟨rfl, _⟩ := hs.thread t ht
    exact ⟨_, .answer hstop hend hjoin ha, rfl, rfl, fun _ => rfl, nofun⟩

theorem Reached.projects (h : Reached env.order InTime p) :
    ∃ s, System.Reached env eval (System.Timely env eval) s ∧ Projects p s := by
  obtain ⟨bestMove, search, hrun⟩ := h
  induction hrun with
  | refl => exact ⟨_, ⟨bestMove, search, .refl⟩, .start bestMove search⟩
  | tail hprefix hstep ih =>
    obtain ⟨s, ⟨bestMove', search', hreached⟩, hs⟩ := ih
    obtain ⟨s', hstep', hs'⟩ := hs.step (Reached.refines ⟨_, _, hprefix⟩) hstep
    exact ⟨s', ⟨bestMove', search', hreached.tail hstep'⟩, hs'⟩

theorem Projects.act {s s' : System V} (hs : Projects p s) (hbusy : s.thread ≠ .idle)
    (hstep : System.EngineStep env eval s s') : ∃ p', EngineStep p p' ∧ Projects p' s' := by
  have hsome : p.thread ≠ none := fun hnone => hbusy (hs.idle hnone)
  obtain ⟨t, ht⟩ := Option.ne_none_iff_exists'.mp hsome
  obtain ⟨rfl, _⟩ := hs.thread t ht
  obtain ⟨server', thread', stopping', stale', seen'⟩ := s'
  obtain rfl : stopping' = p.stopping := hstep.stopping
  let p' : Play (cppEngine env eval) :=
    { p with server := server', thread := some (thread', stale', seen') }
  refine ⟨p', .act ht ⟨p.stopping, hstep⟩, rfl, rfl, nofun, fun t' ht' => ?_⟩
  rw [← Option.some.inj ht']
  exact ⟨rfl, hstep.still_busy⟩

theorem Projects.run {s s' : System V} (hs : Projects p s) (hbusy : s.thread ≠ .idle)
    (hrun : Relation.ReflTransGen (System.EngineStep env eval) s s') :
    ∃ p', Relation.ReflTransGen EngineStep p p' ∧ Projects p' s' ∧ s'.thread ≠ .idle := by
  induction hrun with
  | refl => exact ⟨p, .refl, hs, hbusy⟩
  | tail _ hstep ih =>
    obtain ⟨p', hrun, hs', hbusy'⟩ := ih
    obtain ⟨p'', hact, hs''⟩ := hs'.act hbusy' hstep
    exact ⟨p'', hrun.tail hact, hs'', hstep.still_busy⟩

/-- The build with `engine.cpp` answers with a legal move every `stop` of a session whose stops all
come in time. -/
theorem cpp_build_answers (evaluator : Evaluator env)
    {p : Play (cppEngine env evaluator.eval)} (h : Reached env.order InTime p)
    (hstop : p.stopping = true) : p.Answers env.order := by
  obtain ⟨t, ht⟩ := h.refines.thread_of_stopping hstop
  obtain ⟨s, hreached, hs⟩ := h.projects
  obtain ⟨rfl, hbusy⟩ := hs.thread t ht
  have hinv := hreached.inv evaluator.bounded
  obtain ⟨s', hrun, hend⟩ := hinv.returned evaluator.bounded hbusy ((hinv.active hbusy).flag hstop)
  obtain ⟨p', hrun', hs', hbusy'⟩ := hs.run hbusy hrun
  obtain ⟨t', ht'⟩ := Option.ne_none_iff_exists'.mp fun hnone => hbusy' (hs'.idle hnone)
  obtain ⟨rfl, _⟩ := hs'.thread t' ht'
  refine h.answers ⟨p', t', hrun', ht', hend⟩ fun p' t hrun ht hend => ?_
  obtain ⟨s, hreached, hs⟩ := (h.run hrun).projects
  obtain ⟨rfl, _⟩ := hs.thread t ht
  exact ((hreached.inv evaluator.bounded).best_legal_iff hend).mpr
    (hreached.timely evaluator.bounded ((stopping_of_run hrun).trans hstop))

end Cpp

end Play

namespace System

section Deadline

variable {V : Type} [LinearOrder V] [Zero V] {env : Platform V} {eval : Board × Nat → V}
  {ok : System V → Prop} {s : System V}

theorem storeReads_le (heval : Bounded env eval) {b : Board} (hb : b.Wf looseCodes)
    (hlegal : b.getLegalMoves env.order ≠ []) : storeReads env eval b ≤ 13360 := by
  have hfirst := searchRound_publishesBy (fun _ hb => hb.moves_le env.order) heval hb hlegal
    (searching_start hb env.unset) b.playerToPlay _ (storeReads_spec heval hb hlegal)
  simpa only [Int.toNat_one, nodeReads] using hfirst

/-- If the thread returns and leaves an illegal move, it was stopped before it had read the flag
13360 times. -/
theorem illegal_only_early (evaluator : Evaluator env) (h : Reached env evaluator.eval ok s)
    (hend : s.thread = .finished)
    (hillegal : s.server.bestMove ∉ s.server.b.getLegalMoves env.order) :
    s.seen.reads < 13360 := by
  have hinv := h.inv evaluator.bounded
  have hlegal := (hinv.active (by rw [hend]; nofun)).legal
  have hlate := mt (hinv.best_legal_iff hend).mpr hillegal
  exact (not_le.mp fun hreads => hlate (Or.inl hreads)).trans_le
    (storeReads_le evaluator.bounded hinv.wf hlegal)

theorem illegal_only_early_at_once :
    ∃ s : System ℚ, Reached WSum.platform WSum.evaluator.eval (fun _ => True) s ∧
      s.thread = .finished ∧ s.seen.reads < 13360 := by
  obtain ⟨bestMove, search, hrun⟩ := thinking_reached fun _ => True
  have hstop := hrun.tail (.stop nofun rfl trivial)
  have hcopy := hstop.tail (.engine (.copy rfl))
  have hread := hcopy.tail (.engine (.act rfl (.read _)))
  have hend := hread.tail (.engine (.finish rfl))
  exact ⟨_, ⟨bestMove, search, hend⟩, rfl,
    illegal_only_early WSum.evaluator ⟨bestMove, search, hend⟩ rfl zero_not_legal⟩

end Deadline

end System

end Rollerball
