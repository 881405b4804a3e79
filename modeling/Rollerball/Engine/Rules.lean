import Rollerball.Engine.Round

/-!
# Proof rules for the search

A specification of the search says what is kept of the board it is called on, which moves it may
play and what its scores satisfy, under a contract on the flag, the evaluator and the stores. One
induction over the functions of the search shows that each of them meets every specification.
-/

namespace Rollerball

open Proc (Contract)

/-- A specification of the functions of the search. -/
structure SearchSpec {V : Type} [LinearOrder V] [Zero V] (env : Platform V) where
  contract : Contract (Board × Nat) V U16
  good : Board → Prop
  keep : Board → Board → Prop
  moves : Board → U16 → Prop
  score : V → Prop
  refl : ∀ b, good b → keep b b
  listed : ∀ b c, keep b c → ∀ m ∈ c.getLegalMoves env.order, moves b m
  played : ∀ b c m, keep b c → moves b m → good (c.doMove m)
  undone : ∀ b c d m, keep b c → moves b m → keep (c.doMove m) d →
    keep b ((restoreKilled (c.doMove m) d).undoLastMove m)
  aborted : contract.reads false → score 0
  answered : ∀ q d, contract.answers q d → score d
  raised : ∀ d m, score d → (m = env.lowest ∨ score m) → score (if m < d then d else m)
  lowered : ∀ d m, score d → (m = env.highest ∨ score m) → score (if m > d then d else m)

namespace SearchSpec

variable {V : Type} [LinearOrder V] [Zero V] {env : Platform V} (spec : SearchSpec env)
  {b c : Board}

def Scored (b : Board) (arr : List (MoveEval V)) : Prop := ∀ x ∈ arr, spec.moves b x.movement

/-- A search of `b` that gives it back and returns a score. -/
def Meets (b : Board) (val : Search V (Board × V)) : Prop :=
  val.Ensures spec.contract fun r => spec.keep b r.1 ∧ spec.score r.2

theorem orderLoop (reverse : Bool) (ms : List U16) (hms : ∀ m ∈ ms, spec.moves b m)
    (hc : spec.keep b c) (arr : List (MoveEval V)) (harr : spec.Scored b arr) :
    (orderLoop env reverse ms c arr).Ensures spec.contract fun r =>
      spec.keep b r.1 ∧ spec.Scored b r.2 := by
  induction ms generalizing c arr with
  | nil =>
    refine ⟨hc, fun x hx => harr x ?_⟩
    exact (env.sort_perm reverse arr).mem_iff.mp hx
  | cons m ms ih =>
    intro search _
    cases search with
    | false => exact ⟨hc, fun x hx => absurd hx List.not_mem_nil⟩
    | true =>
      intro eval _
      have hm := hms m List.mem_cons_self
      apply ih fun m' hm' => hms m' (List.mem_cons_of_mem _ hm')
      · exact spec.undone b c _ m hc hm (spec.refl _ (spec.played b c m hc hm))
      · intro x hx
        rcases List.mem_append.mp hx with hx | hx
        · exact harr x hx
        · rw [List.mem_singleton.mp hx]
          exact hm

theorem orderChildren (reverse : Bool) (hc : spec.keep b c) :
    (orderChildren env c reverse).Ensures spec.contract fun r =>
      spec.keep b r.1 ∧ spec.Scored b r.2 :=
  spec.orderLoop reverse _ (fun m hm => spec.listed b c hc m (env.order.mem_visit.mp hm)) hc []
    fun _ hx => absurd hx List.not_mem_nil

theorem moveAndEval {val : Board → Search V (Board × V)} (hc : spec.keep b c) {m : U16}
    (hm : spec.moves b m) (hval : ∀ d, spec.good d → spec.Meets d (val d)) :
    spec.Meets b (moveAndEval val c m) := by
  intro search hsearch
  cases search with
  | false => exact ⟨hc, spec.aborted hsearch⟩
  | true =>
    apply (hval (c.doMove m) (spec.played b c m hc hm)).bind
    rintro ⟨d, v⟩ ⟨hd, hv⟩
    exact ⟨spec.undone b c d m hc hm hd, hv⟩

theorem bettered (side : PlayerColor) {d best : V} (hd : spec.score d)
    (hbest : best = side.worst env ∨ spec.score best) :
    spec.score (if side.Beats best d then d else best) := by
  cases side with
  | white => exact spec.raised d best hd hbest
  | black => exact spec.lowered d best hd hbest

theorem sideLoop (side : PlayerColor) {child : Board → U16 → V → V → Search V (Board × V)}
    (hchild : ∀ c m alpha beta, spec.keep b c → spec.moves b m →
      spec.Meets b (child c m alpha beta))
    (arr : List (MoveEval V)) (harr : spec.Scored b arr) (hc : spec.keep b c) (window : V × V)
    (best : V) (hstart : best = side.worst env ∧ arr ≠ [] ∨ spec.score best) :
    spec.Meets b (sideLoop side child arr c window best) := by
  induction arr generalizing c window best with
  | nil => exact ⟨hc, hstart.resolve_left fun h => h.2 rfl⟩
  | cons x xs ih =>
    apply (hchild c x.movement window.1 window.2 hc (harr x List.mem_cons_self)).bind
    rintro ⟨c', d⟩ ⟨hc', hd⟩ search hsearch
    cases search with
    | false => exact ⟨hc', spec.aborted hsearch⟩
    | true =>
      show spec.Meets b (if (side.narrow window d).1 ≥ (side.narrow window d).2 then _ else _)
      split
      · exact ⟨hc', hd⟩
      · apply ih (fun y hy => harr y (List.mem_cons_of_mem _ hy)) hc'
        exact Or.inr (spec.bettered side hd (hstart.imp_left And.left))

theorem level (side : PlayerColor) {loop : Board → List (MoveEval V) → Search V (Board × V)}
    (hb : spec.good b) {i cutoff : Int}
    (hloop : i ≠ cutoff → ∀ c arr, spec.keep b c → spec.Scored b arr → arr ≠ [] →
      spec.Meets b (loop c arr)) : spec.Meets b (level env side loop b i cutoff) := by
  have hkeep := spec.refl b hb
  intro search hsearch
  cases search with
  | false => exact ⟨hkeep, spec.aborted hsearch⟩
  | true =>
    apply (spec.orderChildren (side = .black) hkeep).bind
    rintro ⟨c, legalMoves⟩ ⟨hc, hmoves⟩
    dsimp only
    split
    · exact fun d hd => ⟨hc, spec.answered _ d hd⟩
    rename_i hnonempty
    split
    · exact fun d hd => ⟨hc, spec.answered _ d hd⟩
    rename_i hi
    apply (spec.orderChildren (side = .black) hc).bind
    rintro ⟨c, _⟩ ⟨hc, _⟩ search hsearch
    cases search with
    | false => exact ⟨hc, spec.aborted hsearch⟩
    | true => exact hloop hi c legalMoves hc hmoves (by simpa using hnonempty)

/-- `MAX_VAL` and `MIN_VAL` meet the specification, and with a level of recursion for every `i`
up to `cutoff` they do not run out of fuel. -/
theorem val (side : PlayerColor) (fuel : Nat) (hb : spec.good b) (alpha beta : V) (i cutoff : Int)
    (hfuel : spec.contract.timeouts ∨ i ≤ cutoff ∧ (cutoff - i).toNat < fuel) :
    spec.Meets b (sideVal env side fuel b alpha beta i cutoff) := by
  induction fuel generalizing side b alpha beta i with
  | zero =>
    rw [sideVal_zero]
    exact hfuel.resolve_right fun h => Nat.not_lt_zero _ h.2
  | succ fuel ih =>
    rw [sideVal_succ]
    refine spec.level side hb fun hi c arr hc harr hne => ?_
    refine spec.sideLoop side ?_ arr harr hc _ _ (Or.inl ⟨rfl, hne⟩)
    intro c m alpha beta hc hm
    refine spec.moveAndEval hc hm fun d hd => ih side.other hd alpha beta (i + 1) ?_
    apply hfuel.imp_right
    omega

theorem sideChild (side : PlayerColor) {cutoff : Int}
    (hfuel : spec.contract.timeouts ∨ 0 ≤ cutoff) (hc : spec.keep b c) {m : U16}
    (hm : spec.moves b m) (alpha beta : V) :
    spec.Meets b (sideChild env side cutoff c m alpha beta) :=
  spec.moveAndEval hc hm fun _ hd => spec.val side.other (levels cutoff) hd alpha beta 0 cutoff
    (hfuel.imp_right fun hcutoff => ⟨hcutoff, by simp [levels]⟩)

theorem roundHead (color : PlayerColor) (s : Progress)
    (hfuel : spec.contract.timeouts ∨ 0 ≤ s.cutoff) (hs : spec.keep b s.board) :
    (roundHead env color s).Ensures spec.contract (Sum.elim (spec.keep b) fun r =>
      spec.keep b r.1 ∧ spec.Scored b r.2.1 ∧ r.2.1 ≠ []) := by
  rw [roundHead_eq]
  intro search _
  cases search with
  | false => exact hs
  | true =>
    apply (spec.orderChildren (color = .black) hs).bind
    rintro ⟨c, _ | ⟨x, xs⟩⟩ ⟨hc, hmoves⟩
    · exact hc
    cases color with
    | white => exact ⟨hc, hmoves, List.cons_ne_nil x xs⟩
    | black =>
      apply (spec.sideChild .black hfuel hc (hmoves x List.mem_cons_self) env.lowest
        env.highest).bind
      rintro ⟨c', d⟩ ⟨hc', _⟩ search _
      cases search with
      | false => exact hc'
      | true => exact ⟨hc', hmoves, List.cons_ne_nil x xs⟩

/-- What the root asks of a specification: the moves of `b` may be stored, and so may the first
`optimum.movement` unless every search at the root improves on it. -/
structure RootSpec (b : Board) (cutoff : Int) : Prop where
  fuel : spec.contract.timeouts ∨ 0 ≤ cutoff
  stores : ∀ m, spec.moves b m → spec.contract.publishes m
  unset : (∀ m, spec.contract.publishes m) ∨
    ¬spec.contract.reads false ∧ ∀ d, spec.score d → env.lowest < d ∧ d < env.highest

section Root

variable {spec} {cutoff : Int} {arr : List (MoveEval V)}

theorem RootSpec.sideRoot (h : spec.RootSpec b cutoff) (side : PlayerColor)
    (harr : spec.Scored b arr) (hc : spec.keep b c) (window : V × V) (optimum : MoveEval V)
    (hstart : optimum.eval = side.worst env ∧ arr ≠ [] ∨
      spec.contract.publishes optimum.movement) :
    (sideRoot env side cutoff arr c window optimum).Ensures spec.contract fun r =>
      spec.keep b r.1 ∧ spec.contract.publishes r.2.movement := by
  induction arr generalizing c window optimum with
  | nil => exact ⟨hc, hstart.resolve_left fun h => h.2 rfl⟩
  | cons x xs ih =>
    have hx := harr x List.mem_cons_self
    have hxs : spec.Scored b xs := fun y hy => harr y (List.mem_cons_of_mem _ hy)
    apply (spec.sideChild side h.fuel hc hx window.1 window.2).bind
    rintro ⟨c', d⟩ ⟨hc', hd⟩ search hsearch
    cases search with
    | false =>
      exact ⟨hc', h.unset.elim (fun hall => hall _) fun hunset => absurd hsearch hunset.1⟩
    | true =>
      show Proc.Ensures _ _ (if side.Beats optimum.eval d then _ else _)
      split
      · exact ⟨h.stores _ hx, ih hxs hc' _ _ (Or.inr (h.stores _ hx))⟩
      · rename_i hbeats
        apply ih hxs hc'
        rcases h.unset with hall | ⟨_, hscore⟩
        · exact Or.inr (hall _)
        · refine Or.inr (hstart.resolve_left fun hworst => hbeats ?_)
          rw [hworst.1]
          exact side.beats_worst env (hscore d hd)

/-- One round of the loop of `search_move` gives the board back and searches two plies deeper
next, whether or not it is the last. -/
theorem RootSpec.round {s : Progress} (h : spec.RootSpec b s.cutoff) (color : PlayerColor)
    (hs : spec.keep b s.board) :
    (searchRound env color s).Ensures spec.contract
      (Sum.elim (fun s' => spec.keep b s'.board ∧ s'.cutoff = s.cutoff + 2) (spec.keep b)) := by
  rw [searchRound_eq]
  apply (spec.roundHead color s h.fuel hs).bind
  rintro (c | ⟨c, arr, bound⟩) hr
  · exact hr
  obtain ⟨hc, hmoves, hne⟩ := hr
  rw [roundRest, rootLoop_eq]
  apply (h.sideRoot color hmoves hc _ _ (Or.inl ⟨rfl, hne⟩)).bind
  rintro ⟨c', optimum⟩ ⟨hc', hoptimum⟩ search _
  cases search with
  | false => exact hc'
  | true => exact ⟨hoptimum, hc', rfl⟩

end Root

end SearchSpec

end Rollerball
