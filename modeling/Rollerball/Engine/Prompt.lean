import Rollerball.Engine.Evaluation
import Rollerball.Engine.Interrupt
import Rollerball.Engine.Verdict
import Rollerball.Lib.Prompt

/-!
# How soon a stopped search returns

Every level of the search reads the flag once more on its way out, and only a level whose
`Order_Children` was cut short still asks the evaluator, taking the empty list for a leaf. The
search returns when it is stopped or has no move to search, and never otherwise.
-/

namespace Rollerball

open Proc (Effort Prompt Falls)

variable {V : Type} [LinearOrder V] [Zero V] (env : Platform V)

section Nodes

omit [Zero V] in
theorem orderChildren_settles (b : Board) (reverse : Bool) :
    (orderChildren env b reverse).Settles 0 1 := by
  rw [orderChildren]
  cases env.order.visit (b.getLegalMoves env.order) with
  | nil => trivial
  | cons m ms =>
    rintro search rfl
    trivial

omit [Zero V] in
theorem orderChildren_prompt (b : Board) (reverse : Bool) :
    (orderChildren env b reverse).Prompt 0 0 fun _ => True := by
  rw [orderChildren]
  generalize env.order.visit (b.getLegalMoves env.order) = ms
  generalize ([] : List (MoveEval V)) = arr
  induction ms generalizing b arr with
  | nil => trivial
  | cons m ms ih => exact ⟨trivial, fun _ => ih _ _⟩

variable {asks reads : Nat}

omit [LinearOrder V] in
theorem moveAndEval_prompt {val : Board → Search V (Board × V)}
    (hval : ∀ b, (val b).Prompt asks reads fun _ => True) (b : Board) (m : U16) :
    (moveAndEval val b m).Prompt asks reads fun _ => True := by
  refine ⟨trivial, ?_⟩
  exact (hval _).map _

theorem sideLoop_prompt (side : PlayerColor) {child : Board → U16 → V → V → Search V (Board × V)}
    (hchild : ∀ b m alpha beta, (child b m alpha beta).Prompt asks reads fun _ => True)
    (arr : List (MoveEval V)) (b : Board) (window : V × V) (best : V) :
    (sideLoop side child arr b window best).Prompt asks (reads + 1) fun _ => True := by
  induction arr generalizing b window best with
  | nil => trivial
  | cons x xs ih =>
    apply (hchild b x.movement window.1 window.2).thenRead
    · rintro r search rfl
      trivial
    · rintro ⟨c, d⟩ _
      refine ⟨trivial, ?_⟩
      show Prompt _ _ _ (if (side.narrow window d).1 ≥ (side.narrow window d).2 then _ else _)
      split
      · trivial
      · exact ih _ _ _

/-- What follows a stopped `Order_Children` takes its empty list for a leaf, or reads the flag. -/
theorem level_prompt (side : PlayerColor) {loop : Board → List (MoveEval V) → Search V (Board × V)}
    {i cutoff : Int} (hloop : ∀ c arr, (loop c arr).Prompt 1 (reads + 2) fun _ => True)
    (b : Board) : (level env side loop b i cutoff).Prompt 1 (reads + 2) fun _ => True := by
  refine ⟨trivial, (orderChildren_prompt env b (side = .black)).then ?_ ?_⟩
  · rintro ⟨c, arr⟩
    dsimp only
    split
    · exact fun _ _ => trivial
    · split
      · exact fun _ _ => trivial
      · have hread : ∀ r : Board × List (MoveEval V), (Proc.poll fun search =>
            if !search then .done (r.1, 0) else loop r.1 arr).Settles 0 1 := by
          rintro r search rfl
          trivial
        exact ((orderChildren_settles env c (side = .black)).bind hread).mono (Nat.zero_le 1)
          (Nat.le_add_left 2 reads)
  · rintro ⟨c, arr⟩ _
    dsimp only
    split
    · exact fun _ => trivial
    · split
      · exact fun _ => trivial
      · apply (orderChildren_prompt env c (side = .black)).then
        · rintro r search rfl
          trivial
        · rintro ⟨c', _⟩ _
          exact ⟨trivial, hloop c' arr⟩

theorem val_prompt (side : PlayerColor) (fuel : Nat) (b : Board) (alpha beta : V)
    (i cutoff : Int) :
    (sideVal env side fuel b alpha beta i cutoff).Prompt 1 (fuel + 1) fun _ => True := by
  induction fuel generalizing side b alpha beta i with
  | zero =>
    rw [sideVal_zero]
    trivial
  | succ fuel ih =>
    rw [sideVal_succ]
    refine level_prompt env side (fun c arr => sideLoop_prompt side ?_ arr c _ _) b
    exact fun b m alpha beta =>
      moveAndEval_prompt (fun b => ih side.other b alpha beta (i + 1)) b m

end Nodes

section Root

variable (cutoff : Int)

theorem sideChild_prompt (side : PlayerColor) (b : Board) (m : U16) (alpha beta : V) :
    (sideChild env side cutoff b m alpha beta).Prompt 1 (levels cutoff + 1) fun _ => True :=
  moveAndEval_prompt (fun b => val_prompt env side.other (levels cutoff) b alpha beta 0 cutoff) b m

theorem sideRoot_settles (side : PlayerColor) (arr : List (MoveEval V)) (b : Board)
    (window : V × V) (optimum : MoveEval V) :
    (sideRoot env side cutoff arr b window optimum).Settles 0 2 := by
  cases arr with
  | nil => trivial
  | cons x xs =>
    rintro search rfl search rfl
    trivial

theorem sideRoot_prompt (side : PlayerColor) (arr : List (MoveEval V)) (b : Board)
    (window : V × V) (optimum : MoveEval V) :
    (sideRoot env side cutoff arr b window optimum).Prompt 1 (levels cutoff + 2) fun _ => True := by
  induction arr generalizing b window optimum with
  | nil => trivial
  | cons x xs ih =>
    apply (sideChild_prompt env cutoff side b x.movement window.1 window.2).thenRead
    · rintro r search rfl
      trivial
    · rintro ⟨c, d⟩ _
      refine ⟨trivial, ?_⟩
      show Prompt _ _ _ (if side.Beats optimum.eval d then _ else _)
      split
      · exact ih _ _ _
      · exact ih _ _ _

omit [LinearOrder V] [Zero V] in
theorem roundTail_settles (r : Board × MoveEval V) :
    (roundTail cutoff r : Search V (Progress ⊕ Board)).Settles 0 1 := by
  rintro search rfl
  trivial

omit [LinearOrder V] [Zero V] in
theorem roundTail_prompt {asks reads : Nat} (r : Board × MoveEval V) :
    (roundTail cutoff r : Search V (Progress ⊕ Board)).Prompt asks reads
      (Sum.elim (fun s => s.cutoff = cutoff + 2) fun _ => True) := ⟨trivial, rfl⟩

theorem roundRest_settles (color : PlayerColor) (s : Progress)
    (r : Board ⊕ Board × List (MoveEval V) × V) : (roundRest env color s r).Settles 0 3 := by
  rcases r with b | ⟨b, arr, bound⟩
  · trivial
  · rw [roundRest, rootLoop_eq]
    exact (sideRoot_settles env s.cutoff color arr b _ _).bind (roundTail_settles s.cutoff)

theorem roundRest_prompt (color : PlayerColor) (s : Progress)
    (r : Board ⊕ Board × List (MoveEval V) × V) :
    (roundRest env color s r).Prompt 1 (levels s.cutoff + 3)
      (Sum.elim (fun s' => s'.cutoff = s.cutoff + 2) fun _ => True) := by
  rcases r with b | ⟨b, arr, bound⟩
  · trivial
  · rw [roundRest, rootLoop_eq]
    exact (sideRoot_prompt env s.cutoff color arr b _ _).thenRead (roundTail_settles s.cutoff)
      fun r _ => roundTail_prompt s.cutoff r

theorem searchRound_prompt (color : PlayerColor) (s : Progress) :
    (searchRound env color s).Prompt 1 (levels s.cutoff + 3)
      (Sum.elim (fun s' => s'.cutoff = s.cutoff + 2) fun _ => True) := by
  rw [searchRound_eq, roundHead_eq]
  refine ⟨trivial, ?_⟩
  show Prompt _ _ _ (((orderChildren env s.board (color = .black)).bind _).bind _)
  rw [Proc.bind_assoc]
  apply (orderChildren_prompt env s.board (color = .black)).then
  · rintro ⟨c, _ | ⟨x, xs⟩⟩
    · trivial
    · cases color with
      | white =>
        exact (roundRest_settles env .white s (.inr (c, x :: xs, env.lowest))).mono
          (Nat.zero_le 1) (Nat.le_add_left 3 _)
      | black =>
        rintro search rfl search rfl
        trivial
  · rintro ⟨c, _ | ⟨x, xs⟩⟩ _
    · trivial
    · cases color with
      | white => exact roundRest_prompt env .white s (.inr (c, x :: xs, env.lowest))
      | black =>
        show Prompt _ _ _ ((Proc.bind _ _).bind _)
        rw [Proc.bind_assoc]
        have hfirst := sideChild_prompt env s.cutoff .black c x.movement env.lowest env.highest
        apply (hfirst.mono le_rfl (Nat.le_succ _) fun _ => id).thenRead
        · rintro r search rfl
          trivial
        · rintro ⟨c', d⟩ _
          exact ⟨trivial, roundRest_prompt env .black s (.inr (c', x :: xs, min env.highest d))⟩

end Root

section Search

theorem rounds_settle (rounds : Nat) (color : PlayerColor) (s : Progress) :
    (Proc.loop (searchRound env color) rounds s).Settles 0 1 := by
  cases rounds with
  | zero => trivial
  | succ rounds => cases color <;> rintro search rfl <;> trivial

theorem rounds_prompt (rounds : Nat) (color : PlayerColor) (s : Progress) :
    (Proc.loop (searchRound env color) rounds s).Prompt 1 (levels s.cutoff + 2 * rounds + 2)
      fun _ => True := by
  induction rounds generalizing s with
  | zero => trivial
  | succ rounds ih =>
    have hround : levels s.cutoff + 3 ≤ levels s.cutoff + 2 * rounds + 3 := by omega
    apply ((searchRound_prompt env color s).mono le_rfl hround fun _ => id).thenRead
    · rintro (s' | b)
      · exact rounds_settle env rounds color s'
      · trivial
    · rintro (s' | b) hr
      · have hcutoff : s'.cutoff = s.cutoff + 2 := hr
        have hlevels : levels s'.cutoff ≤ levels s.cutoff + 2 := by
          unfold levels
          omega
        exact (ih s').mono le_rfl (by omega) fun _ => id
      · trivial

/-- After the first read that gives false, a search asks the evaluator at most once more, and
reads the flag at most once in each level of its deepest round and in a few other places. -/
theorem stopped_search_prompt (b : Board) (eval : Board × Nat → V) {flag : Nat → Bool}
    (h : Falls flag) (rounds : Nat) :
    ((searchMove env rounds b).costStopped eval flag 0).1 ≤ 1 ∧
      ((searchMove env rounds b).costStopped eval flag 0).2 ≤ 2 * rounds + 4 := by
  have hlevels : levels 1 + 2 * rounds + 2 = 2 * rounds + 4 := by
    rw [show levels 1 = 2 from rfl]
    omega
  have hprompt := rounds_prompt env rounds b.playerToPlay ⟨b, 1, env.unset⟩
  rw [hlevels] at hprompt
  exact hprompt.costStopped_le h

theorem stopped_search_prompt_start :
    ((searchMove (Platform.sorted (-1000 : ℤ) 1000) 5 Board.new).costStopped (fun _ => 0)
      (Proc.fallsAt 40) 0).1 ≤ 1 :=
  (stopped_search_prompt (Platform.sorted (-1000 : ℤ) 1000) Board.new (fun _ => 0)
    (Proc.fallsAt_falls 40) 5).1

end Search

section Returns

variable {env} {root : Board} {eval : Board × Nat → V}

theorem searchRound_goes_on (hb : root.Wf looseCodes) (hlegal : root.getLegalMoves env.order ≠ [])
    (color : PlayerColor) {s : Progress} (hs : Searching root s) :
    (searchRound env color s).Ensures (undisturbed eval)
      (Sum.elim (Searching root) fun _ => False) := by
  have hgoes : (searchRound env color s).Ensures (undisturbed eval)
      (Sum.elim (fun _ => True) fun _ => False) := by
    have hroot : (anySpec env (undisturbed eval)).RootSpec root s.cutoff :=
      ⟨Or.inr hs.2, fun _ _ => trivial, Or.inl fun _ => trivial⟩
    rw [searchRound_eq]
    apply (roundHead_finds (fun _ => id) (Or.inr hs.2) color (hs.1.legal_ne_nil hb hlegal)).bind
    rintro (b | ⟨b, arr, bound⟩) hr
    · exact absurd hr id
    rw [roundRest, rootLoop_eq]
    apply (hroot.sideRoot color (fun _ _ => trivial) trivial _ _ (Or.inr trivial)).bind
    rintro ⟨c, optimum⟩ _ search hsearch
    obtain rfl : search = true := hsearch
    exact ⟨trivial, trivial⟩
  have hroot : (frameSpec env (undisturbed eval)).RootSpec root s.cutoff :=
    frameSpec_root env (Or.inr hs.2) (fun _ => trivial) root
  apply ((hroot.round color hs.1).and hgoes).imp
  rintro (s' | b) ⟨hr, hgoes⟩
  · have hcutoff := hs.2
    refine ⟨hr.1, ?_⟩
    rw [hr.2]
    omega
  · exact hgoes

theorem undisturbed_rounds (hb : root.Wf looseCodes) (hlegal : root.getLegalMoves env.order ≠ [])
    (color : PlayerColor) (rounds : Nat) {s : Progress} (hs : Searching root s) (i : Nat) :
    ((Proc.loop (searchRound env color) rounds s).run eval (fun _ => true) i).result = none := by
  induction rounds generalizing s i with
  | zero => rfl
  | succ rounds ih =>
    obtain ⟨_, hpost, hends⟩ := (searchRound_goes_on hb hlegal color hs).run
      (fun _ => rfl) (fun _ => rfl) (i := i)
    obtain ⟨l, r, j, hrun⟩ := Proc.run_of_result hends
    have hr := hpost r (by rw [hrun])
    cases r with
    | inr b => exact absurd hr id
    | inl s' =>
      rw [Proc.loop, Proc.run_bind_some hrun]
      exact ih hr j

omit [Zero V] in
theorem orderChildren_stuck {b : Board} (hnone : b.getLegalMoves env.order = []) (reverse : Bool) :
    orderChildren env b reverse = .done (b, []) := by
  have hvisit : env.order.visit (b.getLegalMoves env.order) = [] := by
    rw [hnone]
    exact (env.order.visit_perm []).eq_nil
  rw [orderChildren, hvisit, orderLoop, (env.sort_perm reverse []).eq_nil]
  rfl

theorem stuck_round {b : Board} (hnone : b.getLegalMoves env.order = []) (flag : Nat → Bool) :
    ((searchMove env 1 b).run eval flag 0).result ≠ none := by
  rw [searchMove]
  cases hflag : flag 0 <;> cases b.playerToPlay <;>
    simp [Proc.loop, searchRound, whiteRound, blackRound, orderChildren_stuck hnone]

/-- With a flag that stays down once it has fallen, `search_move` returns exactly when it is
stopped or has no legal move to search. -/
theorem search_returns_iff {codes : Slot → List U8} (hcodes : Admissible codes)
    (hwf : root.Wf codes) {flag : Nat → Bool} (h : Falls flag) :
    (∃ rounds, ((searchMove env rounds root).run eval flag 0).result ≠ none) ↔
      (∃ n, flag n = false) ∨ root.getLegalMoves env.order = [] := by
  have hb := hwf.loose hcodes
  constructor
  · rintro ⟨rounds, hends⟩
    by_contra hneither
    obtain ⟨hflag, hlegal⟩ := not_or.mp hneither
    have hup : flag = fun _ => true := by
      funext n
      exact (Bool.eq_false_or_eq_true (flag n)).resolve_right fun hn => hflag ⟨n, hn⟩
    rw [hup] at hends
    exact hends (undisturbed_rounds hb hlegal _ rounds (searching_start hb env.unset) 0)
  · rintro (⟨n, hn⟩ | hnone)
    · obtain ⟨rounds, hrounds⟩ := searchMove_returns env root eval h hn
      exact ⟨rounds, (hrounds rounds le_rfl).1⟩
    · exact ⟨1, stuck_round hnone flag⟩

theorem search_returns_iff_start : ¬∃ rounds, ((searchMove WSum.platform rounds Board.new).run
    (WSum.eval WSum.platform.order) (fun _ => true) 0).result ≠ none := by
  have hfalls : Falls fun _ => true := fun _ => id
  rw [search_returns_iff admissible_slotCodes Board.new_wf hfalls, not_or]
  exact ⟨fun ⟨_, hn⟩ => Bool.noConfusion hn, List.ne_nil_of_mem Board.opening_legal⟩

end Returns

end Rollerball
