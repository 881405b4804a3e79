import Rollerball.Board.Reach
import Rollerball.Board.Takeback
import Rollerball.Engine.Rules

/-!
# The search gives the board back

Every function of the search plays and takes back moves in pairs, and saves the last-killed
fields across a subtree. Whenever one returns, on whatever reads of the flag and answers of the
evaluator, the board is alike the one it was called on.
-/

namespace Rollerball

namespace Board

/-- A well-formed board alike `b`. -/
structure Kept (b b' : Board) : Prop where
  wf : b'.Wf looseCodes
  alike : b'.Alike b

section Kept

variable {b b' b'' : Board} {m : U16}

theorem Kept.refl (h : b.Wf looseCodes) : b.Kept b := ⟨h, Alike.refl b⟩

theorem Kept.trans (h : b.Kept b') (h' : b'.Kept b'') : b.Kept b'' :=
  ⟨h'.wf, h'.alike.trans h.alike⟩

theorem Kept.pseudo (h : b.Kept b') (hm : b.position.Pseudo b.playerToPlay m) :
    b'.position.Pseudo b'.playerToPlay m := by
  rw [h.alike.position, h.alike.playerToPlay]
  exact hm

theorem Kept.legal_iff (h : b.Kept b') (ord : VisitOrder) :
    m ∈ b'.getLegalMoves ord ↔ b.position.Legal m := by
  rw [h.wf.mem_getLegalMoves ord, h.alike.position]

/-- Playing a move on a kept board, searching, and taking the move back keeps the board. -/
theorem Kept.undo (h : b.Kept b') (hm : b.position.Pseudo b.playerToPlay m)
    (hsearch : (b'.doMove m).Kept b'') :
    b.Kept ((restoreKilled (b'.doMove m) b'').undoLastMove m) := by
  obtain ⟨i, k, hmove⟩ := h.wf.mover (h.pseudo hm)
  have hwf : (restoreKilled (b'.doMove m) b'').Wf looseCodes := { hsearch.wf with }
  have halike : (restoreKilled (b'.doMove m) b'').Alike (b'.doMove m) :=
    ⟨hsearch.alike.pieces, hsearch.alike.position⟩
  have hundo := hmove.undoLastMove_searched h.wf hwf halike rfl rfl
  exact h.trans ⟨hundo.1, hundo.2⟩

theorem Kept.doMove_wf (h : b.Kept b') (hm : b.position.Pseudo b.playerToPlay m) :
    (b'.doMove m).Wf looseCodes := by
  obtain ⟨i, k, hmove⟩ := h.wf.mover (h.pseudo hm)
  exact (hmove.wf_rawDoMove admissible_looseCodes h.wf).flipPlayer

end Kept

end Board

open Proc (anything)

variable {V : Type} {b : Board}

section Frame

variable [LinearOrder V] [Zero V] (env : Platform V)

/-- Well-formed boards are kept, whatever is read, answered and stored. -/
def frameSpec (contract : Proc.Contract (Board × Nat) V U16) : SearchSpec env where
  contract := contract
  good := fun b => b.Wf looseCodes
  keep := Board.Kept
  moves := fun b m => b.position.Pseudo b.playerToPlay m
  score := fun _ => True
  refl := fun _ hb => Board.Kept.refl hb
  listed := by
    intro b c hc m hm
    have hlegal := ((hc.wf.mem_getLegalMoves env.order).mp hm).pseudo
    rwa [hc.alike.position] at hlegal
  played := fun _ _ _ hc hm => hc.doMove_wf hm
  undone := fun _ _ _ _ hc hm hd => hc.undo hm hd
  aborted := fun _ => trivial
  answered := fun _ _ _ => trivial
  raised := fun _ _ _ _ => trivial
  lowered := fun _ _ _ _ => trivial

theorem frameSpec_root {contract : Proc.Contract (Board × Nat) V U16} {cutoff : Int}
    (hfuel : contract.timeouts ∨ 0 ≤ cutoff) (hpublishes : ∀ m, contract.publishes m) (b : Board) :
    (frameSpec env contract).RootSpec b cutoff where
  fuel := hfuel
  stores := fun m _ => hpublishes m
  unset := Or.inl hpublishes

theorem searchMove_frame (rounds : Nat) (h : b.Wf looseCodes) :
    (searchMove env rounds b).Ensures anything (Board.Kept b) := by
  apply Proc.Ensures.loop (fun s => b.Kept s.board) trivial _ rounds (Board.Kept.refl h)
  intro s hs
  apply ((frameSpec_root env (Or.inl trivial) (fun _ => trivial) b).round b.playerToPlay hs).imp
  rintro (s' | b') hr
  · exact hr.1
  · exact hr

end Frame

/-- Emptiness and colour are the same on every square. -/
def SameColors (array array' : Square → U8) : Prop :=
  ∀ p, (array' p = 0 ↔ array p = 0) ∧ colorBits (array' p) = colorBits (array p)

/-- The same slots and player, and on every square of the four arrays the same colours. -/
structure SameBoard (b b' : Board) : Prop where
  pieces : b'.pieces = b.pieces
  playerToPlay : b'.playerToPlay = b.playerToPlay
  board0 : SameColors b.board0 b'.board0
  board90 : SameColors b.board90 b'.board90
  board180 : SameColors b.board180 b'.board180
  board270 : SameColors b.board270 b'.board270

private theorem sameColors_rotated {rot inv : Square → Square} (hinv : ∀ p, rot (inv p) = p)
    {array array' board0 board0' : Square → U8} (h : ∀ p, array (rot p) = board0 p)
    (h' : ∀ p, array' (rot p) = board0' p) (hcolors : SameColors board0 board0') :
    SameColors array array' := by
  intro p
  rw [← hinv p, h, h']
  exact hcolors (inv p)

theorem Board.Kept.sameBoard {b' : Board} (h : b.Wf looseCodes) (hkept : b.Kept b') :
    SameBoard b b' := by
  have hcolors : SameColors b.board0 b'.board0 := by
    intro p
    have hcell : cellOf (b'.board0 p) = cellOf (b.board0 p) :=
      congrArg (fun pos => pos.cell p) hkept.alike.position
    rcases h.byte_cases p with h0 | ⟨i, _, _, hi⟩ <;>
      rcases hkept.wf.byte_cases p with h0' | ⟨j, _, _, hj⟩
    · rw [h0, h0']
      exact ⟨Iff.rfl, rfl⟩
    · obtain ⟨k, _, hk⟩ := looseCodes_kind hj
      rw [h0, hk, cellOf_zero] at hcell
      exact absurd hcell (by simp)
    · obtain ⟨k, _, hk⟩ := looseCodes_kind hi
      rw [h0', hk, cellOf_zero] at hcell
      exact absurd hcell (by simp)
    · obtain ⟨k, _, hk⟩ := looseCodes_kind hi
      obtain ⟨k', _, hk'⟩ := looseCodes_kind hj
      rw [hk, hk', Option.some.injEq, Prod.mk.injEq] at hcell
      refine ⟨iff_of_false (looseCodes_ne_zero hj) (looseCodes_ne_zero hi), ?_⟩
      rw [looseCodes_colorBits hi, looseCodes_colorBits hj, hcell.1]
  exact {
    pieces := hkept.alike.pieces
    playerToPlay := hkept.alike.playerToPlay
    board0 := hcolors
    board90 := sameColors_rotated cw90_acw90 h.board90 hkept.wf.board90 hcolors
    board180 := sameColors_rotated cw180_cw180 h.board180 hkept.wf.board180 hcolors
    board270 := sameColors_rotated acw90_cw90 h.board270 hkept.wf.board270 hcolors }

section Caller

variable [LinearOrder V] [Zero V] (env : Platform V) {codes : Slot → List U8}

/-- Whenever `Order_Children`, `move_and_eval`, `MAX_VAL`, `MIN_VAL` or `search_move` returns,
whatever the reads of the flag and the answers of the evaluator were, it has given the board
back. -/
theorem search_gives_board_back (hcodes : Admissible codes) (hb : b.Wf codes) :
    (∀ reverse, (orderChildren env b reverse).Ensures anything fun r => SameBoard b r.1) ∧
      (∀ m ∈ b.getPseudolegalMoves env.order, ∀ fuel alpha beta i cutoff,
        (moveAndEval (fun b => minVal env fuel b alpha beta i cutoff) b m).Ensures anything
            (fun r => SameBoard b r.1) ∧
          (moveAndEval (fun b => maxVal env fuel b alpha beta i cutoff) b m).Ensures anything
            fun r => SameBoard b r.1) ∧
      (∀ fuel alpha beta i cutoff,
        (maxVal env fuel b alpha beta i cutoff).Ensures anything (fun r => SameBoard b r.1) ∧
          (minVal env fuel b alpha beta i cutoff).Ensures anything fun r => SameBoard b r.1) ∧
      ∀ rounds, (searchMove env rounds b).Ensures anything fun b' => SameBoard b b' := by
  have h := hb.loose hcodes
  have hkept := Board.Kept.refl h
  have hval := fun side fuel (d : Board) (hd : d.Wf looseCodes) alpha beta i cutoff =>
    (frameSpec env anything).val side fuel hd alpha beta i cutoff (Or.inl trivial)
  refine ⟨?_, ?_, ?_, ?_⟩
  · intro reverse
    exact ((frameSpec env anything).orderChildren reverse hkept).imp fun _ hr => hr.1.sameBoard h
  · intro m hm fuel alpha beta i cutoff
    have hpseudo := (h.mem_pseudolegal env.order).mp hm
    have hmove := fun side => (frameSpec env anything).moveAndEval hkept hpseudo fun d hd =>
      hval side fuel d hd alpha beta i cutoff
    exact ⟨(hmove .black).imp fun _ hr => hr.1.sameBoard h,
      (hmove .white).imp fun _ hr => hr.1.sameBoard h⟩
  · intro fuel alpha beta i cutoff
    have hnode := fun side => hval side fuel b h alpha beta i cutoff
    exact ⟨(hnode .white).imp fun _ hr => hr.1.sameBoard h,
      (hnode .black).imp fun _ hr => hr.1.sameBoard h⟩
  · intro rounds
    exact (searchMove_frame env rounds h).imp fun _ hr => hr.sameBoard h

end Caller

theorem search_gives_board_back_opening :
    (searchMove (Platform.sorted (-1000 : ℤ) 1000) 3 Board.opening).Ensures anything
      fun b' => SameBoard Board.opening b' :=
  (search_gives_board_back _ admissible_slotCodes
    (Board.opening_reachable.wf VisitOrder.insertion)).2.2.2 3

end Rollerball
