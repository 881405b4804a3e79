import Rollerball.Engine.Rules

/-!
# Stopping the search

A stopped search unwinds through empty orderings and zeros, but every level reads the flag again
before it uses a score or publishes a move. What has been published when the flag falls is
therefore a prefix of what the undisturbed search publishes.
-/

namespace Rollerball

open Proc (noPublish total Falls)

variable {V : Type} [LinearOrder V] [Zero V] (env : Platform V)

/-- Any board, move and score will do. -/
def anySpec (contract : Proc.Contract (Board × Nat) V U16) : SearchSpec env where
  contract := contract
  good := fun _ => True
  keep := fun _ _ => True
  moves := fun _ _ => True
  score := fun _ => True
  refl := fun _ _ => trivial
  listed := fun _ _ _ _ _ => trivial
  played := fun _ _ _ _ _ => trivial
  undone := fun _ _ _ _ _ _ _ => trivial
  aborted := fun _ => trivial
  answered := fun _ _ _ => trivial
  raised := fun _ _ _ _ => trivial
  lowered := fun _ _ _ _ => trivial

theorem sideChild_silent (side : PlayerColor) (cutoff : Int) (b : Board) (m : U16)
    (alpha beta : V) : (sideChild env side cutoff b m alpha beta).Silent := by
  have hmeets : (anySpec env noPublish).Meets b (sideChild env side cutoff b m alpha beta) :=
    (anySpec env noPublish).sideChild side (Or.inl trivial) trivial trivial alpha beta
  exact hmeets.imp fun _ _ => trivial

theorem roundHead_silent (color : PlayerColor) (s : Progress) :
    (roundHead env color s).Silent := by
  have hhead := (anySpec env noPublish).roundHead (b := s.board) color s (Or.inl trivial) trivial
  exact hhead.imp fun _ _ => trivial

section Discipline

variable (color : PlayerColor)

theorem sideRoot_quiet (cutoff : Int) (arr : List (MoveEval V)) (b : Board) (window : V × V)
    (optimum : MoveEval V) : (sideRoot env color cutoff arr b window optimum).Quiet := by
  cases arr with
  | nil => trivial
  | cons x xs =>
    apply (sideChild_silent env color cutoff b x.movement _ _).quiet.bind
    rintro ⟨c, d⟩ search rfl
    trivial

theorem sideRoot_disciplined (cutoff : Int) (arr : List (MoveEval V)) (b : Board) (window : V × V)
    (optimum : MoveEval V) : (sideRoot env color cutoff arr b window optimum).Disciplined := by
  induction arr generalizing b window optimum with
  | nil => trivial
  | cons x xs ih =>
    apply (sideChild_silent env color cutoff b x.movement _ _).disciplined.bind
    · rintro ⟨c, d⟩ search rfl
      trivial
    · intro r
      rcases r with ⟨c, d⟩
      refine ⟨trivial, ?_⟩
      show Proc.Disciplined (if color.Beats optimum.eval d then _ else _)
      split
      · exact ih _ _ _
      · exact ih _ _ _

omit [LinearOrder V] [Zero V] in
theorem roundTail_quiet (cutoff : Int) (r : Board × MoveEval V) :
    (roundTail cutoff r : Search V (Progress ⊕ Board)).Quiet := by
  rintro search rfl
  trivial

theorem roundRest_quiet (s : Progress) (r : Board ⊕ Board × List (MoveEval V) × V) :
    (roundRest env color s r).Quiet := by
  rcases r with b | ⟨b, arr, bound⟩
  · trivial
  · rw [roundRest, rootLoop_eq]
    exact (sideRoot_quiet env color _ _ _ _ _).bind (roundTail_quiet _)

theorem roundRest_disciplined (s : Progress) (r : Board ⊕ Board × List (MoveEval V) × V) :
    (roundRest env color s r).Disciplined := by
  rcases r with b | ⟨b, arr, bound⟩
  · trivial
  · rw [roundRest, rootLoop_eq]
    apply (sideRoot_disciplined env color _ _ _ _ _).bind (roundTail_quiet _)
    exact fun _ => ⟨trivial, trivial⟩

theorem searchRound_quiet (s : Progress) : (searchRound env color s).Quiet := by
  cases color <;> rintro search rfl <;> trivial

/-- The list an aborted `Order_Children` leaves empty ends the round, and every later use of a
score comes after a read of the flag. -/
theorem searchRound_disciplined (s : Progress) : (searchRound env color s).Disciplined := by
  rw [searchRound_eq]
  exact (roundHead_silent env color s).disciplined.bind (roundRest_quiet env color s)
    (roundRest_disciplined env color s)

theorem searchMove_disciplined (rounds : Nat) (b : Board) : (searchMove env rounds b).Disciplined :=
  Proc.Disciplined.loop (searchRound_quiet env b.playerToPlay)
    (searchRound_disciplined env b.playerToPlay) rounds _

end Discipline

section Stop

theorem searchRound_ends (color : PlayerColor) {s : Progress} (hs : 0 ≤ s.cutoff) :
    (searchRound env color s).Ensures total
      (Sum.elim (fun s' => s'.cutoff = s.cutoff + 2) fun _ => True) := by
  have hroot : (anySpec env total).RootSpec s.board s.cutoff :=
    ⟨Or.inr hs, fun _ _ => trivial, Or.inl fun _ => trivial⟩
  apply (hroot.round color trivial).imp
  rintro (s' | b') hr
  · exact hr.2
  · trivial

theorem searchRound_reads (color : PlayerColor) (s s' : Progress) (eval : Board × Nat → V)
    (flag : Nat → Bool) (i : Nat)
    (hrun : ((searchRound env color s).run eval flag i).result = some (.inl s')) :
    flag i = true ∧ i < ((searchRound env color s).run eval flag i).reads := by
  have hflag : flag i = true := by
    by_contra hfalse
    rw [Bool.not_eq_true] at hfalse
    cases color <;>
      simp [searchRound, whiteRound, blackRound, hfalse] at hrun
  refine ⟨hflag, ?_⟩
  cases color <;> exact Proc.le_reads

theorem searchMove_returns (b : Board) (eval : Board × Nat → V) {flag : Nat → Bool}
    (h : Falls flag) {n : Nat} (hn : flag n = false) :
    ∃ rounds, ∀ rounds' ≥ rounds,
      ((searchMove env rounds' b).run eval flag 0).result ≠ none ∧
        (searchMove env rounds' b).run eval flag 0 = (searchMove env rounds b).run eval flag 0 := by
  let inv : Progress → Prop := fun s => 0 ≤ s.cutoff
  have hround : ∀ s i, inv s →
      (∀ r, ((searchRound env b.playerToPlay s).run eval flag i).result = some r →
        Sum.elim (fun s' => s'.cutoff = s.cutoff + 2) (fun _ => True) r) ∧
        ((searchRound env b.playerToPlay s).run eval flag i).result ≠ none := fun s i hs =>
    ((searchRound_ends env b.playerToPlay hs).run (fun _ => trivial) fun _ => trivial).2
  have hreads : ∀ s i s', inv s →
      ((searchRound env b.playerToPlay s).run eval flag i).result = some (.inl s') →
        inv s' ∧ flag i = true ∧
          i < ((searchRound env b.playerToPlay s).run eval flag i).reads := by
    intro s i s' hs hrun
    have hcutoff : s'.cutoff = s.cutoff + 2 := (hround s i hs).1 _ hrun
    have hpos : 0 ≤ s.cutoff := hs
    refine ⟨?_, searchRound_reads env b.playerToPlay s s' eval flag i hrun⟩
    show 0 ≤ s'.cutoff
    omega
  have hstart : inv ⟨b, 1, env.unset⟩ := show (0 : Int) ≤ 1 by decide
  obtain ⟨rounds, hrounds⟩ := Proc.loop_ends inv (fun s i hs => (hround s i hs).2) hreads h hn
    hstart 0
  refine ⟨rounds, fun rounds' hle => ?_⟩
  have hmono := Proc.run_loop_mono hle hrounds
  exact ⟨fun hnone => hrounds (by rw [← hmono]; exact hnone), hmono⟩

end Stop

end Rollerball
