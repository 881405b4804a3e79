import Rollerball.Engine.Root
import Rollerball.Engine.Stores
import Rollerball.Lib.Threshold

/-!
# What the search shows on every board

Taking back a promotion leaves a pawn's byte damaged, so in a tree with promotions the scores of a
board depend on what was searched before it, and there is no minimax value. Whether a score is
winning may still be settled by the position alone. Then `MAX_VAL` and `MIN_VAL` show through
every window whether the position is won, and White's root settles on a winning move.
-/

namespace Rollerball

open Proc (Contract)
open Minimax

/-- Which positions White wins within a number of plies, by backward induction from the last. -/
structure Verdict where
  won : Nat → Position → Prop
  stuck : ∀ depth pos, (¬∃ m, pos.Legal m) → (won depth pos ↔ won 0 pos)
  white : ∀ depth pos, (∃ m, pos.Legal m) → pos.turn = .white →
    (won (depth + 1) pos ↔ ∃ m, pos.Legal m ∧ won depth (pos.next m))
  black : ∀ depth pos, (∃ m, pos.Legal m) → pos.turn = .black →
    (won (depth + 1) pos ↔ ∀ m, pos.Legal m → won depth (pos.next m))

/-- The scores of leaves win exactly in the positions the verdict gives to White. -/
structure Judges {V : Type} [LinearOrder V] (env : Platform V) (eval : Board × Nat → V)
    (verdict : Verdict) (wins : V → Prop) : Prop where
  threshold : Threshold wins env.lowest env.highest
  leaf : ∀ (b : Board) n, b.Wf looseCodes → (n = 0 ↔ b.getLegalMoves env.order = []) →
    (wins (eval (b, n)) ↔ verdict.won 0 b.position)

/-- The flag is never lowered, and the evaluator computes `eval`. -/
def undisturbed {V : Type} (eval : Board × Nat → V) : Contract (Board × Nat) V U16 where
  reads := fun search => search = true
  answers := fun q d => d = eval q
  publishes := fun _ => True
  timeouts := False

namespace Board

variable {b c : Board}

theorem Wf.legal_iff_nonempty (h : b.Wf looseCodes) (ord : VisitOrder) :
    b.getLegalMoves ord = [] ↔ ¬∃ m, b.position.Legal m := by
  rw [h.exists_legal_iff ord, Nat.not_lt, Nat.le_zero, List.length_eq_zero_iff]

theorem Kept.position_doMove (h : b.Kept c) {m : U16} (hm : b.position.Legal m) :
    (c.doMove m).position = b.position.next m := by
  have hlegal := (h.legal_iff VisitOrder.insertion).mpr hm
  rw [h.wf.position_doMove VisitOrder.insertion admissible_looseCodes hlegal, h.alike.position]

theorem Kept.turn_doMove (h : b.Kept c) (m : U16) :
    (c.doMove m).playerToPlay = b.playerToPlay.other := by
  rw [doMove_playerToPlay, h.alike.playerToPlay]

end Board

section Listed

variable {V : Type} {arr : List (MoveEval V)} {pos : Position}

theorem listed_nil_iff (harr : ∀ m, m ∈ arr.map MoveEval.movement ↔ pos.Legal m) :
    arr = [] ↔ ¬∃ m, pos.Legal m := by
  simp only [← harr, not_exists]
  rw [← List.eq_nil_iff_forall_not_mem, List.map_eq_nil_iff]

theorem exists_listed_iff (harr : ∀ m, m ∈ arr.map MoveEval.movement ↔ pos.Legal m)
    (value : U16 → Prop) :
    (∃ x ∈ arr, value x.movement) ↔ ∃ m, pos.Legal m ∧ value m := by
  simp only [← harr, List.mem_map]
  constructor
  · rintro ⟨x, hx, hvalue⟩
    exact ⟨_, ⟨x, hx, rfl⟩, hvalue⟩
  · rintro ⟨_, ⟨x, hx, rfl⟩, hvalue⟩
    exact ⟨x, hx, hvalue⟩

theorem forall_listed_iff (harr : ∀ m, m ∈ arr.map MoveEval.movement ↔ pos.Legal m)
    (value : U16 → Prop) :
    (∀ x ∈ arr, value x.movement) ↔ ∀ m, pos.Legal m → value m := by
  simp only [← harr, List.mem_map]
  constructor
  · rintro hall _ ⟨x, hx, rfl⟩
    exact hall x hx
  · exact fun hall x hx => hall _ ⟨x, hx, rfl⟩

end Listed

section Order

variable {V : Type} [LinearOrder V] {env : Platform V} {eval : Board × Nat → V} {b c : Board}

theorem orderLoop_legal (reverse : Bool) (ms : List U16)
    (hms : ∀ m ∈ ms, b.position.Legal m) (hc : b.Kept c) (arr : List (MoveEval V)) :
    (orderLoop env reverse ms c arr).Ensures (undisturbed eval) fun r =>
      b.Kept r.1 ∧ (r.2.map MoveEval.movement).Perm (arr.map MoveEval.movement ++ ms) := by
  induction ms generalizing c arr with
  | nil =>
    refine ⟨hc, ?_⟩
    rw [List.append_nil]
    exact (env.sort_perm reverse arr).map _
  | cons m ms ih =>
    intro search hsearch
    obtain rfl : search = true := hsearch
    intro d _
    have hpseudo := (hms m List.mem_cons_self).pseudo
    have hundo : b.Kept ((c.doMove m).undoLastMove m) :=
      hc.undo hpseudo (Board.Kept.refl (hc.doMove_wf hpseudo))
    apply (ih (fun m' hm' => hms m' (List.mem_cons_of_mem _ hm')) hundo _).imp
    intro r hr
    rwa [List.map_append, List.append_assoc] at hr

theorem orderChildren_legal (reverse : Bool) (hc : b.Kept c) :
    (orderChildren env c reverse).Ensures (undisturbed eval) fun r =>
      b.Kept r.1 ∧ ∀ m, m ∈ r.2.map MoveEval.movement ↔ b.position.Legal m := by
  have hlist : ∀ m, m ∈ env.order.visit (c.getLegalMoves env.order) ↔ b.position.Legal m := by
    intro m
    rw [env.order.mem_visit, hc.legal_iff]
  apply (orderLoop_legal reverse _ (fun m hm => (hlist m).mp hm) hc []).imp
  intro r hr
  exact ⟨hr.1, fun m => hr.2.mem_iff.trans (hlist m)⟩

theorem Judges.kept {verdict : Verdict} {wins : V → Prop} (h : Judges env eval verdict wins)
    (hc : b.Kept c) {n : Nat} (hn : n = 0 ↔ ¬∃ m, b.position.Legal m) :
    wins (eval (c, n)) ↔ verdict.won 0 b.position := by
  have hmoves := hc.wf.legal_iff_nonempty env.order
  rw [hc.alike.position] at hmoves
  rw [h.leaf c n hc.wf (hn.trans hmoves.symm), hc.alike.position]

end Order

variable {V : Type} [LinearOrder V] [Zero V] {env : Platform V} {eval : Board × Nat → V}
  {verdict : Verdict} {wins : V → Prop} {b c : Board}

/-- In every window, `child` gives a kept board back and shows whether a legal move wins. -/
def ShowsMoves (eval : Board × Nat → V) (wins : V → Prop) (b : Board) (value : U16 → Prop)
    (child : Board → U16 → V → V → Search V (Board × V)) : Prop :=
  ∀ c m alpha beta, b.Kept c → b.position.Legal m → alpha < beta →
    (child c m alpha beta).Ensures (undisturbed eval) fun r =>
      b.Kept r.1 ∧ Shows wins alpha beta (value m) r.2

/-- What the trees of two moves decide together for a player. -/
def PlayerColor.join : PlayerColor → Prop → Prop → Prop
  | .white => Or
  | .black => And

/-- The moves decide a board: one of them for White, and all of them when Black moves. -/
def PlayerColor.Decides (side : PlayerColor) (value : U16 → Prop) (arr : List (MoveEval V)) :
    Prop :=
  match side with
  | .white => ∃ x ∈ arr, value x.movement
  | .black => ∀ x ∈ arr, value x.movement

section Scan

variable {side : PlayerColor} {alpha beta d best : V} {window : V × V} {v w : Prop}
  {value : U16 → Prop} {arr : List (MoveEval V)}

omit [LinearOrder V] [Zero V] in
theorem join_nil : side.join w (side.Decides value ([] : List (MoveEval V))) ↔ w := by
  cases side <;> simp [PlayerColor.join, PlayerColor.Decides]

omit [LinearOrder V] [Zero V] in
theorem join_cons {x : MoveEval V} {xs : List (MoveEval V)} :
    side.join (side.join w (value x.movement)) (side.Decides value xs) ↔
      side.join w (side.Decides value (x :: xs)) := by
  cases side with
  | white =>
    simp only [PlayerColor.join, PlayerColor.Decides, List.mem_cons, exists_eq_or_imp, or_assoc]
  | black => simp only [PlayerColor.join, PlayerColor.Decides, List.forall_mem_cons, and_assoc]

omit [LinearOrder V] [Zero V] in
theorem join_start {p : Prop} : side.join (side = .black) p ↔ p := by
  cases side <;> simp [PlayerColor.join]

/-- What the loop of a player that began with the window `alpha`, `beta` has shown. -/
def Shown (wins : V → Prop) (side : PlayerColor) (alpha beta : V) (w : Prop) (window : V × V)
    (best : V) : Prop :=
  match side with
  | .white => MaxShown wins alpha beta w window.1 best ∧ window.2 = beta
  | .black => MinShown wins alpha beta w window.2 best ∧ window.1 = alpha

omit [Zero V]

theorem Shown.init (hwins : Threshold wins env.lowest env.highest) (side : PlayerColor)
    (hwindow : alpha < beta) :
    Shown wins side alpha beta (side = .black) (alpha, beta) (side.worst env) := by
  cases side with
  | white =>
    refine ⟨?_, rfl⟩
    rw [show (PlayerColor.white = .black) = False by simp]
    exact .init hwins hwindow
  | black =>
    refine ⟨?_, rfl⟩
    rw [eq_self]
    exact .init hwins hwindow

theorem Shown.window_lt (h : Shown wins side alpha beta w window best) : window.1 < window.2 := by
  cases side with
  | white =>
    obtain ⟨hscan, rfl⟩ := h
    exact hscan.window
  | black =>
    obtain ⟨hscan, rfl⟩ := h
    have hwindow : window.1 < window.2 := hscan.window
    exact hwindow

theorem Shown.step (hwins : Threshold wins env.lowest env.highest)
    (h : Shown wins side alpha beta w window best) (hd : Shows wins window.1 window.2 v d)
    (hcut : ¬(side.narrow window d).1 ≥ (side.narrow window d).2) :
    Shown wins side alpha beta (side.join w v) (side.narrow window d)
      (if side.Beats best d then d else best) := by
  cases side with
  | white =>
    obtain ⟨hscan, rfl⟩ := h
    exact ⟨hscan.step hwins hd hcut, rfl⟩
  | black =>
    obtain ⟨hscan, rfl⟩ := h
    exact ⟨hscan.step hwins hd hcut, rfl⟩

/-- A search that empties the window decides for the moves after it. -/
theorem Shown.cut {x : MoveEval V} {xs : List (MoveEval V)}
    (h : Shown wins side alpha beta w window best)
    (hd : Shows wins window.1 window.2 (value x.movement) d)
    (hcut : (side.narrow window d).1 ≥ (side.narrow window d).2) :
    Shows wins alpha beta (side.join w (side.Decides value (x :: xs))) d := by
  cases side with
  | white =>
    obtain ⟨hscan, rfl⟩ := h
    exact hscan.cut hd hcut fun hx => Or.inr ⟨x, List.mem_cons_self, hx⟩
  | black =>
    obtain ⟨hscan, rfl⟩ := h
    exact hscan.cut hd hcut fun hall => hall.2 x List.mem_cons_self

theorem Shown.finish (h : Shown wins side alpha beta w window best) :
    Shows wins alpha beta w best := by
  cases side with
  | white => exact h.1.finish
  | black => exact h.1.finish

end Scan

theorem sideLoop_shows {side : PlayerColor} {value : U16 → Prop}
    {child : Board → U16 → V → V → Search V (Board × V)} {arr : List (MoveEval V)} {alpha beta : V}
    {w : Prop} (hwins : Threshold wins env.lowest env.highest)
    (hchild : ShowsMoves eval wins b value child)
    (harr : ∀ x ∈ arr, b.position.Legal x.movement) (hc : b.Kept c) {window : V × V} {best : V}
    (hscan : Shown wins side alpha beta w window best) :
    (sideLoop side child arr c window best).Ensures (undisturbed eval) fun r =>
      b.Kept r.1 ∧ Shows wins alpha beta (side.join w (side.Decides value arr)) r.2 := by
  induction arr generalizing c w window best with
  | nil => exact ⟨hc, hscan.finish.congr join_nil.symm⟩
  | cons x xs ih =>
    apply (hchild c x.movement window.1 window.2 hc (harr x List.mem_cons_self)
      hscan.window_lt).bind
    rintro ⟨c', d⟩ ⟨hc', hd⟩ search hsearch
    obtain rfl : search = true := hsearch
    show Proc.Ensures _ _ (if (side.narrow window d).1 ≥ (side.narrow window d).2 then _ else _)
    split
    · rename_i hcut
      exact ⟨hc', hscan.cut hd hcut⟩
    · rename_i hcut
      apply (ih (fun y hy => harr y (List.mem_cons_of_mem _ hy)) hc'
        (hscan.step hwins hd hcut)).imp
      intro r hr
      exact ⟨hr.1, hr.2.congr join_cons⟩

omit [LinearOrder V] [Zero V] in
theorem Verdict.won_succ {pos : Position} {side : PlayerColor} {arr : List (MoveEval V)}
    (harr : ∀ m, m ∈ arr.map MoveEval.movement ↔ pos.Legal m) (hlegal : ∃ m, pos.Legal m)
    (hturn : pos.turn = side) (depth : Nat) :
    verdict.won (depth + 1) pos ↔ side.Decides (fun m => verdict.won depth (pos.next m)) arr := by
  cases side with
  | white =>
    rw [verdict.white _ _ hlegal hturn]
    exact (exists_listed_iff harr _).symm
  | black =>
    rw [verdict.black _ _ hlegal hturn]
    exact (forall_listed_iff harr _).symm

section Step

variable {fuel : Nat} {alpha beta : V} {i cutoff : Int} {side : PlayerColor}

def ShowsBoard (eval : Board × Nat → V) (verdict : Verdict) (wins : V → Prop) (b : Board)
    (depth : Nat) (alpha beta : V) (p : Search V (Board × V)) : Prop :=
  p.Ensures (undisturbed eval) fun r =>
    b.Kept r.1 ∧ Shows wins alpha beta (verdict.won depth b.position) r.2

theorem showsMoves_child {depth : Nat} {val : Board → V → V → Search V (Board × V)}
    (hturn : b.playerToPlay = side)
    (hval : ∀ d alpha beta, d.Wf looseCodes → d.playerToPlay = side.other → alpha < beta →
      ShowsBoard eval verdict wins d depth alpha beta (val d alpha beta)) :
    ShowsMoves eval wins b (fun m => verdict.won depth (b.position.next m))
      fun c m alpha beta => moveAndEval (fun c => val c alpha beta) c m := by
  intro c m alpha beta hc hm hwindow search hsearch
  obtain rfl : search = true := hsearch
  have hturn' := hc.turn_doMove m
  rw [hturn] at hturn'
  apply (hval (c.doMove m) alpha beta (hc.doMove_wf hm.pseudo) hturn' hwindow).bind
  rintro ⟨d, v⟩ ⟨hd, hv⟩
  rw [hc.position_doMove hm] at hv
  exact ⟨hc.undo hm.pseudo hd, hv⟩

theorem level_shows (h : Judges env eval verdict wins)
    {loop : Board → List (MoveEval V) → Search V (Board × V)} (hb : b.Wf looseCodes)
    (hloop : i ≠ cutoff → ∀ c arr, b.Kept c → (∃ m, b.position.Legal m) →
      (∀ m, m ∈ arr.map MoveEval.movement ↔ b.position.Legal m) →
        ShowsBoard eval verdict wins b (cutoff - i).toNat alpha beta (loop c arr)) :
    ShowsBoard eval verdict wins b (cutoff - i).toNat alpha beta
      (level env side loop b i cutoff) := by
  intro search hsearch
  obtain rfl : search = true := hsearch
  apply (orderChildren_legal (side = .black) (Board.Kept.refl hb)).bind
  rintro ⟨c, arr⟩ ⟨hc, harr⟩
  have hnil : arr = [] ↔ ¬∃ m, b.position.Legal m := listed_nil_iff harr
  dsimp only
  split
  · rename_i hempty
    have hnone := hnil.mp (by simpa using hempty)
    rintro _ rfl
    refine ⟨hc, Shows.of_iff ?_⟩
    rw [verdict.stuck _ _ hnone]
    exact h.kept hc ⟨fun _ => hnone, fun _ => rfl⟩
  rename_i hne
  split
  · rename_i hi
    rintro _ rfl
    refine ⟨hc, Shows.of_iff ?_⟩
    have hzero : (cutoff - i).toNat = 0 := by rw [hi, Int.sub_self, Int.toNat_zero]
    rw [hzero]
    exact h.kept hc (List.length_eq_zero_iff.trans hnil)
  · rename_i hi
    have hsome : ∃ m, b.position.Legal m := by
      by_contra hnone
      exact hne (by simpa using hnil.mpr hnone)
    apply (orderChildren_legal (side = .black) hc).bind
    rintro ⟨c', _⟩ ⟨hc', _⟩ search hsearch
    obtain rfl : search = true := hsearch
    exact hloop hi c' arr hc' hsome harr

/-- In an undisturbed run `MAX_VAL` and `MIN_VAL` show through every window whether White wins. -/
theorem val_shows (h : Judges env eval verdict wins) (fuel : Nat) (hwindow : alpha < beta)
    (hb : b.Wf looseCodes) (hturn : b.playerToPlay = side) (hi : i ≤ cutoff)
    (hfuel : (cutoff - i).toNat < fuel) :
    ShowsBoard eval verdict wins b (cutoff - i).toNat alpha beta
      (sideVal env side fuel b alpha beta i cutoff) := by
  induction fuel generalizing side b alpha beta i with
  | zero => exact absurd hfuel (Nat.not_lt_zero _)
  | succ fuel ih =>
    rw [sideVal_succ]
    refine level_shows h hb fun hne c arr hc hsome harr => ?_
    have hdepth : (cutoff - i).toNat = (cutoff - (i + 1)).toNat + 1 := by omega
    have hmoves : ShowsMoves eval wins b
        (fun m => verdict.won (cutoff - (i + 1)).toNat (b.position.next m)) fun c m alpha beta =>
          moveAndEval (fun c => sideVal env side.other fuel c alpha beta (i + 1) cutoff) c m :=
      showsMoves_child hturn fun d alpha beta hd hturn' hwindow =>
        ih hwindow hd hturn' (by omega) (by omega)
    apply (sideLoop_shows h.threshold hmoves
      (fun x hx => (harr _).mp (List.mem_map_of_mem hx)) hc
      (.init h.threshold side hwindow)).imp
    intro r hr
    refine ⟨hr.1, hr.2.congr ?_⟩
    rw [hdepth, join_start, verdict.won_succ harr hsome hturn]

end Step

section Root

variable {value : U16 → Prop} {arr : List (MoveEval V)} {cutoff : Int}

theorem undisturbed_of_legalSpec {R : Type} {p : Search V R} {post : R → Prop}
    (heval : Bounded env eval) (hp : p.Ensures (legalSpec env b).contract post) :
    p.Ensures (undisturbed eval) post := by
  refine hp.mono ⟨fun _ => id, ?_, fun _ _ => trivial, id⟩ fun _ => id
  rintro q _ rfl
  exact heval q

theorem whiteChild_shows (h : Judges env eval verdict wins) (heval : Bounded env eval)
    (hcutoff : 0 ≤ cutoff) (hturn : b.playerToPlay = .white) (hc : b.Kept c) {m : U16}
    (hm : b.position.Legal m) {alpha beta : V} (hwindow : alpha < beta) :
    (whiteChild env cutoff c m alpha beta).Ensures (undisturbed eval) fun r =>
      (b.Kept r.1 ∧ Shows wins alpha beta (verdict.won cutoff.toNat (b.position.next m)) r.2) ∧
        env.lowest < r.2 ∧ r.2 < env.highest := by
  have hval : ∀ d alpha beta, d.Wf looseCodes → d.playerToPlay = .black → alpha < beta →
      ShowsBoard eval verdict wins d cutoff.toNat alpha beta
        (minVal env (levels cutoff) d alpha beta 0 cutoff) := by
    intro d alpha beta hd hblack hwindow
    have hshows := val_shows h (levels cutoff) hwindow hd hblack hcutoff (by simp [levels])
    rwa [Int.sub_zero] at hshows
  have hscore := undisturbed_of_legalSpec heval
    ((legalSpec env b).sideChild .white (Or.inr hcutoff) hc hm alpha beta)
  apply ((showsMoves_child hturn hval c m alpha beta hc hm hwindow).and hscore).imp
  intro r hr
  exact ⟨hr.1, hr.2.2⟩

theorem whiteLoop_shows (h : Judges env eval verdict wins) (heval : Bounded env eval)
    (hcutoff : 0 ≤ cutoff) (hturn : b.playerToPlay = .white)
    (harr : ∀ x ∈ arr, b.position.Legal x.movement) (hc : b.Kept c) {alpha : V}
    {optimum : MoveEval V} (halpha : alpha ≤ optimum.eval) (hoptimum : optimum.eval < env.highest)
    (hsound : wins optimum.eval →
      verdict.won cutoff.toNat (b.position.next optimum.movement)) :
    (whiteLoop env cutoff env.highest arr c alpha optimum).Ensures (undisturbed eval) fun r =>
      b.Kept r.1 ∧ ((wins optimum.eval ∨
          ∃ x ∈ arr, verdict.won cutoff.toNat (b.position.next x.movement)) →
        verdict.won cutoff.toNat (b.position.next r.2.movement)) := by
  induction arr generalizing c alpha optimum with
  | nil => exact ⟨hc, fun hwon => hsound (hwon.resolve_right (by simp))⟩
  | cons x xs ih =>
    have hxs : ∀ y ∈ xs, b.position.Legal y.movement := fun y hy =>
      harr y (List.mem_cons_of_mem _ hy)
    apply (whiteChild_shows h heval hcutoff hturn hc (harr x List.mem_cons_self)
      (halpha.trans_lt hoptimum)).bind
    rintro ⟨c', d⟩ ⟨⟨hc', hd⟩, _, hhigh⟩ search hsearch
    obtain rfl : search = true := hsearch
    show Proc.Ensures _ _ (if optimum.eval < d then _ else _)
    split
    · rename_i hlt
      have hbetter : max alpha d ≤ (⟨x.movement, d⟩ : MoveEval V).eval :=
        max_le (halpha.trans hlt.le) le_rfl
      refine ⟨trivial, (ih hxs hc' hbetter hhigh fun hwins =>
        hd.of_wins hwins (halpha.trans_lt hlt)).imp ?_⟩
      intro r hr
      refine ⟨hr.1, fun hwon => hr.2 ?_⟩
      rcases hwon with hwins | ⟨y, hy, hwon⟩
      · exact Or.inl (h.threshold.upward _ _ hlt.le hwins)
      · rcases List.mem_cons.mp hy with rfl | hy
        · exact Or.inl (hd.wins_of h.threshold hwon)
        · exact Or.inr ⟨y, hy, hwon⟩
    · rename_i hge
      have hraised : max alpha d ≤ optimum.eval := max_le halpha (not_lt.mp hge)
      apply (ih hxs hc' hraised hoptimum hsound).imp
      intro r hr
      refine ⟨hr.1, fun hwon => hr.2 ?_⟩
      rcases hwon with hwins | ⟨y, hy, hwon⟩
      · exact Or.inl hwins
      · rcases List.mem_cons.mp hy with rfl | hy
        · exact Or.inl (h.threshold.upward _ _ (not_lt.mp hge) (hd.wins_of h.threshold hwon))
        · exact Or.inr ⟨y, hy, hwon⟩

theorem whiteRound_shows (h : Judges env eval verdict wins) (heval : Bounded env eval)
    (hturn : b.playerToPlay = .white) (hlegal : ∃ m, b.position.Legal m) {s : Progress}
    (hs : Searching b s) :
    (searchRound env .white s).Ensures (undisturbed eval) (Sum.elim (fun s' =>
      (b.Kept s'.board ∧ s'.cutoff = s.cutoff + 2) ∧
        ((∃ m, b.position.Legal m ∧ verdict.won s.cutoff.toNat (b.position.next m)) →
          verdict.won s.cutoff.toNat (b.position.next s'.movement))) fun _ => False) := by
  intro search hsearch
  obtain rfl : search = true := hsearch
  apply (orderChildren_legal false hs.1).bind
  rintro ⟨c, arr⟩ ⟨hc, harr⟩
  have hnil : arr = [] ↔ ¬∃ m, b.position.Legal m := listed_nil_iff harr
  have hne : ¬arr.isEmpty := by
    rw [List.isEmpty_iff, hnil, not_not]
    exact hlegal
  show Proc.Ensures _ _ (if arr.isEmpty then _ else _)
  rw [if_neg hne]
  let start : MoveEval V := ⟨s.movement, env.lowest⟩
  have hlow : env.lowest ≤ start.eval := le_rfl
  have hhigh : start.eval < env.highest := h.threshold.lt
  apply (whiteLoop_shows h heval hs.2 hturn
    (fun x hx => (harr _).mp (List.mem_map_of_mem hx)) hc hlow hhigh
    fun hwins => absurd hwins h.threshold.lowest).bind
  rintro ⟨c', optimum⟩ ⟨hc', hwon⟩ search hsearch
  obtain rfl : search = true := hsearch
  refine ⟨trivial, ⟨hc', rfl⟩, fun hsome => hwon (Or.inr ?_)⟩
  exact (exists_listed_iff harr fun m =>
    verdict.won s.cutoff.toNat (b.position.next m)).mpr hsome

end Root

end Rollerball
