import Rollerball.Engine.Scores
import Rollerball.Engine.Verdict

/-!
# Forced mates

The score of checkmate is far above all others, so the scores of the engine decide which positions
one player can force to checkmate. The moves the search settles on keep every forced mate inside
its horizon, and walk into one only when all moves do.
-/

namespace Rollerball

open Minimax

namespace Position

/-- `c` can force checkmate of the other player within `n` plies. -/
def ForcesMate (c : PlayerColor) : Nat → Position → Prop
  | 0, pos => pos.Mated c.other
  | n + 1, pos => pos.Mated c.other ∨
      if pos.turn = c then ∃ m, pos.Legal m ∧ (pos.next m).ForcesMate c n
      else (∃ m, pos.Legal m) ∧ ∀ m, pos.Legal m → (pos.next m).ForcesMate c n

section ForcesMate

variable {pos : Position} {c : PlayerColor} (n : Nat)

theorem Mated.forcesMate (h : pos.Mated c.other) : pos.ForcesMate c n := by
  cases n with
  | zero => exact h
  | succ n => exact Or.inl h

theorem forcesMate_stuck (h : ¬∃ m, pos.Legal m) :
    pos.ForcesMate c n ↔ pos.ForcesMate c 0 := by
  cases n with
  | zero => exact Iff.rfl
  | succ n =>
    refine or_iff_left ?_
    split_ifs
    · exact fun ⟨m, hm, _⟩ => h ⟨m, hm⟩
    · exact fun hall => h hall.1

theorem forcesMate_own (h : ∃ m, pos.Legal m) (hturn : pos.turn = c) :
    pos.ForcesMate c (n + 1) ↔ ∃ m, pos.Legal m ∧ (pos.next m).ForcesMate c n := by
  rw [ForcesMate, if_pos hturn]
  exact or_iff_right fun hmated => hmated.2.2 h

theorem forcesMate_other (h : ∃ m, pos.Legal m) (hturn : pos.turn = c.other) :
    pos.ForcesMate c (n + 1) ↔ ∀ m, pos.Legal m → (pos.next m).ForcesMate c n := by
  have hne : pos.turn ≠ c := by
    rw [hturn]
    cases c <;> decide
  rw [ForcesMate, if_neg hne, and_iff_right h]
  exact or_iff_right fun hmated => hmated.2.2 h

end ForcesMate

end Position

def Verdict.mates : Verdict where
  won := fun n pos => pos.ForcesMate .white n
  stuck := fun n _ h => Position.forcesMate_stuck n h
  white := fun n _ h hturn => Position.forcesMate_own n h hturn
  black := fun n _ h hturn => Position.forcesMate_other n h hturn

def Verdict.escapes : Verdict where
  won := fun n pos => ¬pos.ForcesMate .black n
  stuck := fun n _ h => not_congr (Position.forcesMate_stuck n h)
  white := fun n _ h hturn => by
    rw [Position.forcesMate_other (c := .black) n h hturn]
    simp only [not_forall, exists_prop]
  black := fun n _ h hturn => by
    rw [Position.forcesMate_own n h hturn]
    simp only [not_exists, not_and]

namespace WSum

/-- The score from which on White wins, and its negative. -/
def mateScore : ℚ := 1000

section Judges

variable {b : Board} {n : Nat} (ord : VisitOrder)

theorem checkFeature_counted (h : n = 0 ↔ b.getLegalMoves ord = []) :
    checkFeature ord b n = checkFeature ord b (b.getLegalMoves ord).length := by
  simp only [checkFeature, h, List.length_eq_zero_iff]

/-- The score is beyond that of all other terms exactly in checkmate. -/
theorem eval_mated (hb : b.Wf looseCodes) (h : n = 0 ↔ b.getLegalMoves ord = []) :
    (mateScore < eval ord (b, n) ↔ b.position.Mated .black) ∧
      (-mateScore ≤ eval ord (b, n) ↔ ¬b.position.Mated .white) := by
  have hnear := eval_near_check ord b n
  have hother := hb.checkFeature_of_not_mated ord
  rw [← checkFeature_counted ord h] at hother
  have hmated : ∀ c, b.position.Mated c →
      checkFeature ord b n = if c = .white then -100000 else 100000 := by
    intro c hc
    have hzero : n = 0 := h.mpr (List.length_eq_zero_iff.mp ((hb.mated_iff ord).mp hc).2.2)
    rw [hzero]
    exact hb.checkFeature_mated ord hc
  unfold mateScore
  constructor
  · constructor
    · intro hscore
      by_contra hnot
      have hcheck := hother.2 hnot
      linarith
    · intro hblack
      have hcheck := hmated .black hblack
      rw [if_neg (by decide)] at hcheck
      linarith
  · constructor
    · intro hscore hwhite
      have hcheck := hmated .white hwhite
      rw [if_pos rfl] at hcheck
      linarith
    · intro hnot
      have hcheck := hother.1 hnot
      linarith

variable {env : Platform ℚ} (hlowest : env.lowest = -dblMax) (hhighest : env.highest = dblMax)

include hlowest hhighest

theorem mateScore_bounds : env.lowest < -mateScore ∧ mateScore < env.highest := by
  have hexp : (1 : ℚ) ≤ 2 ^ 971 := one_le_pow₀ (by norm_num)
  rw [hlowest, hhighest, dblMax, mateScore]
  generalize (2 : ℚ) ^ 971 = scale at hexp ⊢
  constructor <;> linarith

theorem judges_mates :
    Judges env (eval env.order) .mates fun d => mateScore < d where
  threshold := by
    have hbounds := mateScore_bounds hlowest hhighest
    refine ⟨fun x y hxy hx => hx.trans_le hxy, ?_, hbounds.2⟩
    have hpos : (0 : ℚ) < mateScore := by norm_num [mateScore]
    linarith
  leaf := fun b n hb hn => (eval_mated env.order hb hn).1

theorem judges_escapes :
    Judges env (eval env.order) .escapes fun d => -mateScore ≤ d where
  threshold := by
    have hbounds := mateScore_bounds hlowest hhighest
    refine ⟨fun x y hxy hx => hx.trans hxy, not_le.mpr hbounds.1, ?_⟩
    have hpos : (0 : ℚ) < mateScore := by norm_num [mateScore]
    linarith
  leaf := fun b n hb hn => (eval_mated env.order hb hn).2

end Judges

end WSum

section Stores

variable {V : Type} [LinearOrder V] [Zero V] {env : Platform V} {eval : Board × Nat → V}
  {b : Board} {i j : Nat}

theorem searchRound_last {flag : Nat → Bool} {color : PlayerColor} {s s' : Progress} {l : List U16}
    (hrun : (searchRound env color s).run eval flag i = ⟨l, some (.inl s'), j⟩) :
    l.getLast? = some s'.movement := by
  rw [searchRound_eq] at hrun
  rcases hhead : (roundHead env color s).run eval flag i with ⟨l₁, _ | (b | ⟨b, arr, bound⟩), j₁⟩
  · rw [Proc.run_bind_none hhead] at hrun
    simp at hrun
  · rw [Proc.run_bind_some hhead] at hrun
    simp [roundRest] at hrun
  · rw [Proc.run_bind_some hhead] at hrun
    rcases hloop : (rootLoop env color s.cutoff arr b bound s.movement).run eval flag j₁ with
      ⟨l₂, _ | r, j₂⟩
    · simp [roundRest, Proc.run_bind_none hloop] at hrun
    · simp only [roundRest, Proc.bind_eq, Proc.run_bind_some hloop] at hrun
      cases hflag : flag j₂ with
      | false => simp [roundTail, readFlag, hflag] at hrun
      | true =>
        simp only [roundTail, readFlag, store, Proc.bind_eq, Proc.bind_poll, Proc.bind_done,
          Proc.run_poll, hflag, Bool.not_true, Bool.false_eq_true, if_false, Proc.bind_publish,
          Proc.pure_eq, Proc.run_publish, Proc.run_done, Proc.Outcome.mk.injEq, Option.some.injEq,
          Sum.inl.injEq] at hrun
        obtain ⟨rfl, rfl, _⟩ := hrun
        simp

variable {verdict : Verdict} {wins : V → Prop}

def Wins (verdict : Verdict) (depth : Nat) (pos : Position) (m : U16) : Prop :=
  pos.Legal m ∧ ((∃ m', pos.Legal m' ∧ verdict.won depth (pos.next m')) →
    verdict.won depth (pos.next m))

theorem whiteRound_stores (h : Judges env eval verdict wins) (heval : Bounded env eval)
    (hturn : b.playerToPlay = .white) (hlegal : ∃ m, b.position.Legal m) {s : Progress}
    (hs : Searching b s) (i : Nat) :
    ∃ l s' j, (searchRound env .white s).run eval (fun _ => true) i = ⟨l, some (.inl s'), j⟩ ∧
      (Searching b s' ∧ s'.cutoff = s.cutoff + 2) ∧ l.getLast? = some s'.movement ∧
      Wins verdict s.cutoff.toNat b.position s'.movement := by
  obtain ⟨_, hpost, hends⟩ := (whiteRound_shows h heval hturn hlegal hs).run
    (fun _ => rfl) (fun _ => rfl) (i := i)
  obtain ⟨l, r, j, hrun⟩ := Proc.run_of_result hends
  have hr := hpost r (by rw [hrun])
  cases r with
  | inr b' => exact absurd hr id
  | inl s' =>
    obtain ⟨⟨hkept, hcutoff⟩, hwon⟩ := hr
    have hlast := searchRound_last hrun
    have hstored := (((legalSpec_root hs.2).round .white hs.1).run (fun _ => rfl)
      (fun q => heval q) (i := i)).1
    have hmem : s'.movement ∈ ((searchRound env .white s).run eval (fun _ => true) i).stored := by
      rw [hrun]
      exact List.mem_of_getLast? hlast
    have hpos := hs.2
    exact ⟨l, s', j, hrun, ⟨⟨hkept, by omega⟩, hcutoff⟩, hlast, hstored _ hmem, hwon⟩

/-- After `n + 1` rounds of White the last move stored wins if any legal move does. -/
theorem whiteRounds_store (h : Judges env eval verdict wins) (heval : Bounded env eval)
    (hturn : b.playerToPlay = .white) (hlegal : ∃ m, b.position.Legal m) (n : Nat) {s : Progress}
    (hs : Searching b s) (i : Nat) :
    ∃ m, Wins verdict (s.cutoff.toNat + 2 * n) b.position m ∧
      ((Proc.loop (searchRound env .white) (n + 1) s).run eval (fun _ => true)
        i).stored.getLast? = some m := by
  induction n generalizing s i with
  | zero =>
    obtain ⟨l, s', j, hrun, _, hlast, hwins⟩ := whiteRound_stores h heval hturn hlegal hs i
    refine ⟨s'.movement, hwins, ?_⟩
    rw [Proc.loop, Proc.run_bind_some hrun]
    simpa [Proc.loop] using hlast
  | succ n ih =>
    obtain ⟨l, s', j, hrun, ⟨hs', hcutoff⟩, _⟩ := whiteRound_stores h heval hturn hlegal hs i
    obtain ⟨m, hwins, hlast⟩ := ih hs' j
    have hpos := hs.2
    have hdepth : s'.cutoff.toNat + 2 * n = s.cutoff.toNat + 2 * (n + 1) := by omega
    rw [hdepth] at hwins
    refine ⟨m, hwins, ?_⟩
    rw [Proc.loop, Proc.run_bind_some hrun, List.getLast?_append]
    simp only [hlast, Option.some_or]

omit [Zero V] in
/-- The minimax value wins exactly in the positions the verdict gives to White. -/
theorem minimax_wins_iff (h : Judges env eval verdict wins) (hb : b.Wf looseCodes)
    {maximize : Bool} (hturn : maximize = true ↔ b.playerToPlay = .white) (depth : Nat) :
    wins (minimax env eval depth maximize b) ↔ verdict.won depth b.position := by
  have hnone := hb.legal_iff_nonempty env.order
  induction depth generalizing b maximize with
  | zero =>
    by_cases hmoves : b.getLegalMoves env.order = []
    · rw [minimax_leaf _ _ hmoves]
      exact h.leaf b 0 hb (iff_of_true rfl hmoves)
    · rw [minimax_zero _ hmoves]
      have hforget := b.getLegalMoves_forgetKill env.order
      refine h.leaf b.forgetKill _ hb.forgetKill ?_
      rw [hforget, List.length_eq_zero_iff]
  | succ depth ih =>
    by_cases hmoves : b.getLegalMoves env.order = []
    · rw [minimax_leaf _ _ hmoves, verdict.stuck _ _ (hnone.mp hmoves)]
      exact h.leaf b 0 hb (iff_of_true rfl hmoves)
    have hlegal := not_not.mp (mt hnone.mpr hmoves)
    have hmem : ∀ m, m ∈ b.getLegalMoves env.order ↔ b.position.Legal m := fun m =>
      hb.mem_getLegalMoves env.order
    have hchild : ∀ m ∈ b.getLegalMoves env.order, ∀ maximize' : Bool,
        (maximize' = true ↔ b.playerToPlay.other = .white) →
        (wins (minimax env eval depth maximize' (b.doMove m)) ↔
          verdict.won depth (b.position.next m)) := by
      intro m hm maximize' hturn'
      have hwf := hb.doMove env.order admissible_looseCodes hm
      rw [← hb.position_doMove env.order admissible_looseCodes hm]
      rw [← Board.doMove_playerToPlay b m] at hturn'
      exact ih hwf hturn' (hwf.legal_iff_nonempty env.order)
    cases hplayer : b.playerToPlay with
    | white =>
      obtain rfl : maximize = true := hturn.mpr hplayer
      rw [minimax_max _ hmoves, h.threshold.foldl_max, verdict.white _ _ hlegal hplayer]
      simp only [List.mem_map, exists_exists_and_eq_and, h.threshold.lowest, false_or]
      refine exists_congr fun m => ?_
      rw [hmem]
      refine and_congr_right fun hm => hchild m ((hmem m).mpr hm) false ?_
      rw [hplayer]
      decide
    | black =>
      obtain rfl : maximize = false := by
        rw [← Bool.not_eq_true, hturn, hplayer]
        decide
      rw [minimax_min _ hmoves, h.threshold.foldl_min, verdict.black _ _ hlegal hplayer]
      simp only [List.forall_mem_map, h.threshold.highest, true_and]
      refine forall_congr' fun m => ?_
      rw [hmem]
      refine forall_congr' fun hm => hchild m ((hmem m).mpr hm) true ?_
      rw [hplayer]
      decide

omit [Zero V] in
theorem Best.keeps (h : Judges env eval verdict wins) (hb : b.Wf looseCodes)
    (hturn : b.playerToPlay = .black) {depth : Nat} {m : U16} (hm : Best env eval depth b m)
    (hwon : verdict.won depth (b.position.next m)) {m' : U16} (hm' : b.position.Legal m') :
    verdict.won depth (b.position.next m') := by
  obtain ⟨hlegal, hbest⟩ := best_iff.mp hm
  have hmem' := (hb.mem_getLegalMoves env.order).mpr hm'
  have hvalue : ∀ m ∈ b.getLegalMoves env.order,
      (wins (rootValue env eval depth b m) ↔ verdict.won depth (b.position.next m)) := by
    intro m hm
    rw [← hb.position_doMove env.order admissible_looseCodes hm]
    refine minimax_wins_iff h (hb.doMove env.order admissible_looseCodes hm) ?_ depth
    rw [Board.doMove_playerToPlay, hturn]
    decide
  have hle := hbest m' hmem'
  rw [hturn] at hle
  exact (hvalue m' hmem').mp (h.threshold.upward _ _ hle ((hvalue m hlegal).mpr hwon))

end Stores

section Engine

variable {codes : Slot → List U8} {env : Platform ℚ} {b : Board}

/-- `MAX_VAL` for White, `MIN_VAL` for Black, with the full window. -/
def nodeVal (env : Platform ℚ) (fuel : Nat) (b : Board) (i cutoff : Int) :
    Search ℚ (Board × ℚ) :=
  match b.playerToPlay with
  | .white => maxVal env fuel b env.lowest env.highest i cutoff
  | .black => minVal env fuel b env.lowest env.highest i cutoff

theorem nodeVal_eq (fuel : Nat) (i cutoff : Int) : nodeVal env fuel b i cutoff =
    sideVal env b.playerToPlay fuel b env.lowest env.highest i cutoff := by
  unfold nodeVal
  cases b.playerToPlay <;> rfl

/-- In an undisturbed run from any well-formed board, promotions included, the score says which
player, if any, can force mate within the plies searched, and the board comes back. -/
theorem val_decides_mate (hcodes : Admissible codes) (hwf : b.Wf codes)
    (hlowest : env.lowest = -dblMax) (hhighest : env.highest = dblMax) {fuel : Nat}
    {i cutoff : Int} (hi : i ≤ cutoff) (hfuel : (cutoff - i).toNat < fuel) (j : Nat) :
    ∃ c d, ((nodeVal env fuel b i cutoff).run (WSum.eval env.order) (fun _ => true) j).result =
        some (c, d) ∧ b.Kept c ∧
      (WSum.mateScore < d ↔ b.position.ForcesMate .white (cutoff - i).toNat) ∧
      (d < -WSum.mateScore ↔ b.position.ForcesMate .black (cutoff - i).toNat) := by
  have hb := hwf.loose hcodes
  have heval := WSum.bounded hlowest hhighest
  have hmates := WSum.judges_mates hlowest hhighest
  have hescapes := WSum.judges_escapes hlowest hhighest
  have hwindow := hmates.threshold.lt
  have hshows : ∀ verdict wins, Judges env (WSum.eval env.order) verdict wins →
      (nodeVal env fuel b i cutoff).Ensures (undisturbed (WSum.eval env.order)) fun r =>
        b.Kept r.1 ∧ (wins r.2 ↔ verdict.won (cutoff - i).toNat b.position) := by
    intro verdict wins h
    have hval := val_shows h fuel hwindow hb rfl hi hfuel
    have hscore := (legalSpec env b).val b.playerToPlay fuel hb env.lowest env.highest i cutoff
      (Or.inr ⟨hi, hfuel⟩)
    rw [nodeVal_eq]
    apply (hval.and (undisturbed_of_legalSpec heval hscore)).imp
    rintro r ⟨⟨hkept, hr⟩, _, hlow, hhigh⟩
    exact ⟨hkept, hr.iff hlow hhigh⟩
  obtain ⟨_, hpost, hends⟩ := ((hshows _ _ hmates).and (hshows _ _ hescapes)).run
    (fun _ => rfl) (fun _ => rfl) (i := j)
  obtain ⟨⟨c, d⟩, hresult⟩ := Option.ne_none_iff_exists'.mp hends
  obtain ⟨⟨hkept, hwhite⟩, _, hblack⟩ := hpost _ hresult
  refine ⟨c, d, hresult, hkept, hwhite, ?_⟩
  rw [← not_le]
  exact (not_congr hblack).trans not_not

/-- The move an undisturbed search has stored after its round with cutoff `2 * k + 1` starts a
forced mate within `2 * k + 2` plies if there is one, and lets the other player force mate within
that horizon only if every legal move does. For Black, who searches the first root move twice, the
boards of the tree must be restored. -/
theorem search_finds_mate (hcodes : Admissible codes) (hwf : b.Wf codes)
    (hlowest : env.lowest = -dblMax) (hhighest : env.highest = dblMax)
    (hlegal : b.getLegalMoves env.order ≠ []) (k : Nat)
    (hrestores : b.playerToPlay = .black → Board.Restores env.order (2 * k + 3) b) :
    ∃ m ∈ b.getLegalMoves env.order,
      ((searchMove env (k + 1) b).run (WSum.eval env.order) (fun _ => true) 0).stored.getLast? =
        some m ∧
      (b.position.ForcesMate b.playerToPlay (2 * k + 2) →
        (b.position.next m).ForcesMate b.playerToPlay (2 * k + 1)) ∧
      ((b.position.next m).ForcesMate b.playerToPlay.other (2 * k + 1) →
        b.position.ForcesMate b.playerToPlay.other (2 * k + 2)) := by
  have hb := hwf.loose hcodes
  have heval := WSum.bounded hlowest hhighest
  have hmates := WSum.judges_mates hlowest hhighest
  have hescapes := WSum.judges_escapes hlowest hhighest
  have hsome := not_not.mp (mt (hb.legal_iff_nonempty env.order).mpr hlegal)
  have hfirst : (1 : Int).toNat + 2 * k = 2 * k + 1 := by rw [Int.toNat_one]; omega
  cases hturn : b.playerToPlay with
  | white =>
    have hown := Position.forcesMate_own (c := .white) (2 * k + 1) hsome hturn
    have hother := Position.forcesMate_other (c := .black) (2 * k + 1) hsome hturn
    have hs := searching_start hb env.unset
    obtain ⟨m, hwins, hlast⟩ := whiteRounds_store hmates heval hturn hsome k hs 0
    obtain ⟨m', hwins', hlast'⟩ := whiteRounds_store hescapes heval hturn hsome k hs 0
    obtain rfl : m = m' := Option.some.inj (hlast.symm.trans hlast')
    rw [hfirst] at hwins hwins'
    refine ⟨m, (hb.mem_getLegalMoves env.order).mpr hwins.1, ?_, ?_, ?_⟩
    · rw [searchMove, hturn]
      exact hlast
    · intro hforced
      exact hwins.2 (hown.mp hforced)
    · intro hlost
      refine hother.mpr fun m' hm' => ?_
      by_contra hescape
      exact hwins'.2 ⟨m', hm', hescape⟩ hlost
  | black =>
    have hown := Position.forcesMate_own (c := .black) (2 * k + 1) hsome hturn
    have hother := Position.forcesMate_other (c := .white) (2 * k + 1) hsome hturn
    obtain ⟨m, hbest, hlast⟩ := rounds_store heval k (show (0 : Int) ≤ 1 by decide)
      (by rw [hfirst]; exact hrestores hturn) hlegal rfl env.unset 0
    rw [hfirst] at hbest
    refine ⟨m, (best_iff.mp hbest).1, hlast, ?_, ?_⟩
    · intro hforced
      obtain ⟨m', hm', hmate⟩ := hown.mp hforced
      by_contra hescape
      exact hbest.keeps hescapes hb hturn hescape hm' hmate
    · intro hlost
      exact hother.mpr fun m' hm' => hbest.keeps hmates hb hturn hlost hm'

/-- The board of a legal game on which White is one move from checkmate. -/
def mateInOne : { b : Board // b.Reachable VisitOrder.insertion ∧ b.playerToPlay = .white ∧
    b.getLegalMoves VisitOrder.insertion ≠ [] ∧ ∀ n, b.position.ForcesMate .white (n + 1) } :=
  have hplays := (Board.plays_append Board.new (WSum.mateGame.take 8) [move 4 40]).mp
    WSum.mateGame_plays
  have hreach : ((WSum.mateGame.take 8).foldl Board.doMove Board.new).Reachable
      VisitOrder.insertion := .plays .refl _ hplays.1
  have hwf := hreach.wf VisitOrder.insertion
  have hlegal : move 4 40 ∈ ((WSum.mateGame.take 8).foldl Board.doMove
      Board.new).getLegalMoves VisitOrder.insertion := hwf.legal_of_plays hplays.2
  have hloose := hwf.loose admissible_slotCodes
  have hmoves := (hloose.mem_getLegalMoves VisitOrder.insertion).mp hlegal
  have hmated : ((((WSum.mateGame.take 8).foldl Board.doMove Board.new).position).next
      (move 4 40)).Mated .black := by
    rw [← hwf.position_doMove VisitOrder.insertion admissible_slotCodes hlegal]
    exact WSum.blackMated.property.2
  have hturn : ((WSum.mateGame.take 8).foldl Board.doMove Board.new).playerToPlay = .white := by
    simp only [WSum.mateGame, List.take, List.foldl, Board.doMove_playerToPlay]
    decide
  ⟨_, hreach, hturn, List.ne_nil_of_mem hlegal, fun n =>
    (Position.forcesMate_own (c := .white) n ⟨_, hmoves⟩ hturn).mpr
      ⟨_, hmoves, Position.Mated.forcesMate (c := .white) n hmated⟩⟩

theorem val_decides_mate_in_one :
    ∃ c d, ((nodeVal WSum.platform 2 mateInOne.val 0 1).run (WSum.eval WSum.platform.order)
      (fun _ => true) 0).result = some (c, d) ∧ WSum.mateScore < d := by
  have hwf := mateInOne.property.1.wf VisitOrder.insertion
  have hi : (0 : Int) ≤ 1 := by decide
  have hfuel : ((1 : Int) - 0).toNat < 2 := by decide
  obtain ⟨c, d, hresult, _, hwhite, _⟩ := @val_decides_mate _ WSum.platform _
    admissible_slotCodes hwf rfl rfl _ _ _ hi hfuel 0
  exact ⟨c, d, hresult, hwhite.mpr (mateInOne.property.2.2.2 0)⟩

theorem search_finds_mate_in_one :
    ∃ m, ((searchMove WSum.platform 1 mateInOne.val).run (WSum.eval WSum.platform.order)
        (fun _ => true) 0).stored.getLast? = some m ∧
      (mateInOne.val.position.next m).ForcesMate .white 1 := by
  have hwf := mateInOne.property.1.wf VisitOrder.insertion
  have hturn := mateInOne.property.2.1
  have hblack : mateInOne.val.playerToPlay = .black →
      Board.Restores WSum.platform.order (2 * 0 + 3) mateInOne.val := by
    rw [hturn]
    nofun
  obtain ⟨m, _, hlast, hmate, _⟩ := search_finds_mate admissible_slotCodes hwf rfl rfl
    mateInOne.property.2.2.1 0 hblack
  rw [hturn] at hmate
  exact ⟨m, hlast, hmate (mateInOne.property.2.2.2 1)⟩

end Engine

end Rollerball
