import Rollerball.Board.Unchecked
import Rollerball.Server.Handlers

/-!
# Unchecked messages

`handle_message` takes any text from any client. Nothing checks that the text has a token, that a
move text is long enough or names a move of the game, or that the game thread is in the state the
command needs.
-/

namespace Rollerball

theorem split_eq_nil {delim : U8} {s : Text} : split delim s = [] ↔ s = [] := by
  have hitem : ∀ (s item : Text), item ≠ [] → splitLoop delim item s ≠ [] := by
    intro s
    induction s with
    | nil =>
      intro item hitem
      rw [splitLoop, if_neg hitem]
      exact List.cons_ne_nil _ _
    | cons c s ih =>
      intro item _
      rw [splitLoop]
      split_ifs
      · exact List.cons_ne_nil _ _
      · exact ih _ (by simp)
  cases s with
  | nil => exact iff_of_true rfl rfl
  | cons c s =>
    refine iff_of_false ?_ (List.cons_ne_nil c s)
    rw [split, splitLoop]
    by_cases hc : c = delim
    · rw [if_pos hc]
      exact List.cons_ne_nil _ _
    · rw [if_neg hc]
      exact hitem s _ (by simp)

/-- The third of the four reads may still be the terminating zero, the second may not. -/
theorem strToMove_cases (text : Text) :
    (text.length < 3 ∧ strToMove text = .error .outOfRange) ∨
      (3 ≤ text.length ∧ ∃ m, strToMove text = .ok m) := by
  match text with
  | [] => exact Or.inl ⟨by simp, rfl⟩
  | [_] => exact Or.inl ⟨by simp, rfl⟩
  | [_, _] => exact Or.inl ⟨by simp, rfl⟩
  | [_, _, _] => exact Or.inr ⟨by simp, _, rfl⟩
  | _ :: _ :: _ :: _ :: _ => exact Or.inr ⟨by simp, _, rfl⟩

/-- The ends that are a fault of the handler: an index out of range, a thread that is overwritten
or joined in the wrong state. A failed assertion and `std::exit` are not among them. -/
def Halt.Fault (halt : Halt) : Prop :=
  halt = .outOfRange ∨ halt = .terminate ∨ halt = .systemError

namespace Server

/-- A handler ends in no fault, and leaves the board intact if it returns. -/
def Sound : Except Halt Reply → Prop
  | .ok r => r.server.b.Intact
  | .error halt => ¬halt.Fault

section Handlers

variable (ord : VisitOrder) {s : Server}

theorem onPosition_sound_iff (h : s.b.Intact) (toks : List Text) :
    Sound (s.onPosition toks) ↔ ∀ text, 3 < toks.length → toks.getLast? = some text →
      3 ≤ text.length ∧ ∀ m, strToMove text = .ok m → s.b.Permits m := by
  by_cases hlength : toks.length > 3
  · have hne : toks ≠ [] := List.ne_nil_of_length_pos (by omega)
    have hlast : toks.getLast? = some (toks[toks.length - 1]) := by
      rw [List.getLast?_eq_some_getLast hne, List.getLast_eq_getElem]
    rw [onPosition, dif_pos hlength, hlast]
    generalize toks[toks.length - 1] = text
    simp only [hlength, Option.some.injEq, forall_const, forall_eq']
    rcases strToMove_cases text with ⟨hshort, herror⟩ | ⟨hlong, m, hm⟩
    · rw [herror]
      exact iff_of_false (fun hsound => hsound (Or.inl rfl)) fun h => absurd h.1 (by omega)
    · rw [hm]
      simp only [Except.ok.injEq, forall_eq', hlong, true_and]
      exact h.doMove_iff
  · rw [onPosition, dif_neg hlength]
    exact iff_of_true h fun _ hlong => absurd hlong hlength

theorem onGo_sound_iff (h : s.b.Intact) : Sound s.onGo ↔ s.gameThread = false := by
  rw [onGo]
  cases s.gameThread with
  | true => exact iff_of_false (fun hsound => hsound (Or.inr (Or.inl rfl))) Bool.noConfusion
  | false => exact iff_of_true h rfl

/-- A legal `best_move` may end on a king only if a client has brought the board to a position
in which the king of the player that is not to move is attacked. -/
theorem onStop_sound_iff (h : s.b.Intact) :
    Sound (s.onStop ord) ↔ s.gameThread = true ∧
      (s.bestMove ∈ s.b.getLegalMoves ord →
        ∀ c, s.b.pieces (Board.kingSlot c) ≠ getp1 s.bestMove) := by
  by_cases hthread : s.gameThread = true
  · rw [and_iff_right hthread]
    by_cases hlegal : s.bestMove ∈ s.b.getLegalMoves ord
    · rw [s.onStop_legal ord hthread hlegal, ← h.permits_of_legal hlegal, ← h.doMove_iff]
      exact ⟨fun hsound _ => hsound, fun hsound => hsound hlegal⟩
    · have hanswer := answer_illegal ord { s with search := false, gameThread := false } hlegal
      rw [onStop, join_joinable s.requestStop hthread]
      refine iff_of_true ?_ fun hmem => absurd hmem hlegal
      change Sound (do
        let a ← answer ord { s with search := false, gameThread := false }
        return ⟨a.server, [a.broadcast]⟩)
      rw [hanswer]
      rintro (h | h | h) <;> cases h
  · rw [onStop, join, requestStop, if_neg hthread]
    exact iff_of_false (fun hsound => hsound (Or.inr (Or.inr rfl))) fun h => hthread h.1

/-- What a message must satisfy in the state it finds. -/
structure Admits (s : Server) (message : Text) : Prop where
  nonempty : message ≠ []
  position : ∀ toks text, split (ascii ' ') message = literal "position" :: toks →
    3 ≤ toks.length → toks.getLast? = some text →
    3 ≤ text.length ∧ ∀ m, strToMove text = .ok m → s.b.Permits m
  go : ∀ toks, split (ascii ' ') message = literal "go" :: toks → s.gameThread = false
  stop : ∀ toks, split (ascii ' ') message = literal "stop" :: toks → s.gameThread = true ∧
    (s.bestMove ∈ s.b.getLegalMoves ord →
      ∀ c, s.b.pieces (Board.kingSlot c) ≠ getp1 s.bestMove)

private theorem handleMessage_sound_cases (h : s.b.Intact) {message tok : Text} {toks : List Text}
    (hsplit : split (ascii ' ') message = tok :: toks) :
    Sound (s.handleMessage ord message) ↔
      (tok = literal "position" → Sound (s.onPosition (tok :: toks))) ∧
        (tok = literal "go" → Sound s.onGo) ∧ (tok = literal "stop" → Sound (s.onStop ord)) := by
  rw [handleMessage, hsplit]
  by_cases hposition : tok = literal "position"
  · subst hposition
    have hgo : literal "position" ≠ literal "go" := by decide
    have hstop : literal "position" ≠ literal "stop" := by decide
    exact ⟨fun hsound => ⟨fun _ => hsound, fun heq => absurd heq hgo, fun heq => absurd heq hstop⟩,
      fun hsound => hsound.1 rfl⟩
  · by_cases hgo : tok = literal "go"
    · subst hgo
      have hstop : literal "go" ≠ literal "stop" := by decide
      exact ⟨fun hsound => ⟨fun heq => absurd heq hposition, fun _ => hsound,
        fun heq => absurd heq hstop⟩, fun hsound => hsound.2.1 rfl⟩
    · by_cases hstop : tok = literal "stop"
      · subst hstop
        exact ⟨fun hsound => ⟨fun heq => absurd heq hposition, fun heq => absurd heq hgo,
          fun _ => hsound⟩, fun hsound => hsound.2.2 rfl⟩
      · refine iff_of_true ?_ ⟨fun heq => absurd heq hposition, fun heq => absurd heq hgo,
          fun heq => absurd heq hstop⟩
        dsimp only
        rw [if_neg hposition, if_neg hgo, if_neg hstop]
        split_ifs
        · exact h
        · exact h
        · exact Board.new_intact
        · rintro (hfault | hfault | hfault) <;> cases hfault
        · exact h

theorem handleMessage_sound_iff (h : s.b.Intact) (message : Text) :
    Sound (s.handleMessage ord message) ↔ s.Admits ord message := by
  cases hsplit : split (ascii ' ') message with
  | nil =>
    rw [handleMessage, hsplit]
    exact iff_of_false (fun hsound => hsound (Or.inl rfl))
      fun hadmits => hadmits.nonempty (split_eq_nil.mp hsplit)
  | cons tok toks =>
    have hnonempty : message ≠ [] := fun heq => by
      rw [split_eq_nil.mpr heq] at hsplit
      cases hsplit
    have hgetLast : 3 ≤ toks.length → (tok :: toks).getLast? = toks.getLast? := by
      intro hlength
      cases toks with
      | nil => cases hlength
      | cons tok' toks => rw [List.getLast?_cons_cons]
    rw [handleMessage_sound_cases ord h hsplit, onPosition_sound_iff h, onGo_sound_iff h,
      onStop_sound_iff ord h]
    constructor
    · rintro ⟨hposition, hgo, hstop⟩
      refine ⟨hnonempty, ?_, ?_, ?_⟩
      · intro toks' text heq hlength hlast
        obtain ⟨htok, rfl⟩ := List.cons.inj (hsplit.symm.trans heq)
        exact hposition htok text (Nat.succ_le_succ hlength) (by rwa [hgetLast hlength])
      · intro toks' heq
        exact hgo (List.cons.inj (hsplit.symm.trans heq)).1
      · intro toks' heq
        exact hstop (List.cons.inj (hsplit.symm.trans heq)).1
    · rintro ⟨_, hposition, hgo, hstop⟩
      refine ⟨?_, ?_, ?_⟩
      · rintro rfl text hlength hlast
        have htoks := Nat.le_of_lt_succ hlength
        exact hposition toks text hsplit htoks (by rwa [← hgetLast htoks])
      · rintro rfl
        exact hgo toks hsplit
      · rintro rfl
        exact hstop toks hsplit

end Handlers

section Runs

variable (ord : VisitOrder)

/-- A property of every message of a run, in the state it finds. Each message comes with the value
the engine has left in `best_move` when the message is handled. The run ends early when a handler
does not return. -/
def Along (P : Server → Text → Prop) : Server → List (U16 × Text) → Prop
  | _, [] => True
  | s, (bestMove, message) :: run =>
    P { s with bestMove := bestMove } message ∧
      ∀ r, handleMessage ord { s with bestMove := bestMove } message = .ok r →
        Along P r.server run

theorem along_sound_iff {s : Server} (h : s.b.Intact) (run : List (U16 × Text)) :
    Along ord (fun s message => Sound (s.handleMessage ord message)) s run ↔
      Along ord (fun s message => s.Admits ord message) s run := by
  induction run generalizing s with
  | nil => exact Iff.rfl
  | cons e run ih =>
    obtain ⟨bestMove, message⟩ := e
    have hstep := @handleMessage_sound_iff ord { s with bestMove := bestMove } h message
    rw [Along, Along, hstep]
    refine and_congr_right fun hadmits => forall₂_congr fun r hr => ih ?_
    have hsound := hstep.mpr hadmits
    rwa [hr] at hsound

/-- In a run of arbitrary messages on a fresh server no handler ends in a fault, and the board is
intact after each message, exactly when every message is admitted in the state it finds. -/
theorem runs_sound_iff (bestMove : U16) (search : Bool) (run : List (U16 × Text)) :
    Along ord (fun s message => Sound (s.handleMessage ord message)) (start bestMove search) run ↔
      Along ord (fun s message => s.Admits ord message) (start bestMove search) run :=
  along_sound_iff ord Board.new_intact run

/-- Messages to a fresh server, whose `best_move` stays 0, that end in a fault or corrupt the
board. -/
def GoesWrong (messages : List Text) : Prop :=
  ¬Along VisitOrder.insertion
    (fun s message => Sound (s.handleMessage VisitOrder.insertion message)) (start 0 false)
    (messages.map fun message => (0, message))

/-- The empty message, `stop` before `go`, two `go`, a move text of one character, and a pawn sent
onto the black king. -/
theorem client_text_faults :
    GoesWrong [literal ""] ∧ GoesWrong [literal "stop"] ∧
      GoesWrong [literal "go", literal "go"] ∧
      GoesWrong [literal "position startpos moves x"] ∧
      GoesWrong [literal "position startpos moves c2d6"] := by
  refine ⟨?_, ?_, ?_, ?_, ?_⟩
  · exact fun h => h.1 (Or.inl rfl)
  · exact fun h => h.1 (Or.inr (Or.inr rfl))
  · exact fun h => (h.2 _ rfl).1 (Or.inr (Or.inl rfl))
  · exact fun h => h.1 (Or.inl rfl)
  · intro h
    have hintact : (Board.new.doMove (move 10 43)).Intact := h.1
    exact hintact.alive .black (by decide +kernel)

end Runs

end Server

end Rollerball
