import Rollerball.Board.Branching
import Rollerball.Engine.Evaluation
import Rollerball.Engine.Stores
import Rollerball.Lib.Effort

/-!
# How much the search does

A board has at most `w` legal moves, so a level of the search orders at most `w` children twice and
searches each of them at most once. Pruning only shortens the loops. The bounds hold for every
evaluator and every window, and tell after how many reads the first move is stored.
-/

namespace Rollerball

open Proc (Effort)

/-- The questions of a search of a board `depth` plies above its horizon. -/
def nodeAsks (w : Nat) : Nat → Nat
  | 0 => w + 1
  | depth + 1 => 2 * w + 1 + w * nodeAsks w depth

def nodeReads (w : Nat) : Nat → Nat
  | 0 => w + 1
  | depth + 1 => 2 * w + 2 + w * (nodeReads w depth + 2)

def roundAsks (w cutoff : Nat) : Nat := w + (w + 1) * nodeAsks w cutoff

def roundReads (w cutoff : Nat) : Nat := w + 2 + (w + 1) * (nodeReads w cutoff + 2)

section Search

variable {V : Type} [LinearOrder V] [Zero V] {env : Platform V} {root b c : Board} {w : Nat}
  {asks reads : Nat}

theorem orderLoop_effort (reverse : Bool) (ms : List U16) (arr : List (MoveEval V)) :
    (orderLoop env reverse ms b arr).Effort (legalSpec env root).contract ms.length
      ms.length := by
  induction ms generalizing b arr with
  | nil => trivial
  | cons m ms ih =>
    intro search hsearch
    obtain rfl : search = true := hsearch
    exact fun _ _ => ih _

theorem orderChildren_effort (hw : ∀ b : Board, b.Wf looseCodes →
    (b.getLegalMoves env.order).length ≤ w) (hc : b.Kept c) (reverse : Bool) :
    (orderChildren env c reverse).Effort (legalSpec env root).contract w w := by
  have hlength := (env.order.visit_perm (c.getLegalMoves env.order)).length_eq
  have hmoves := hw c hc.wf
  exact (orderLoop_effort reverse _ []).mono (by omega) (by omega)

theorem orderChildren_few (hw : ∀ b : Board, b.Wf looseCodes →
    (b.getLegalMoves env.order).length ≤ w) (hc : b.Kept c) (reverse : Bool) :
    (orderChildren env c reverse).Ensures (legalSpec env root).contract fun r =>
      (b.Kept r.1 ∧ (legalSpec env root).Scored b r.2) ∧ r.2.length ≤ w := by
  apply ((legalSpec env root).orderChildren reverse hc).and
  apply (orderLoop_length (fun _ => id) reverse _ []).imp
  intro r hr
  have hlength := (env.order.visit_perm (c.getLegalMoves env.order)).length_eq
  have hmoves := hw c hc.wf
  rw [List.length_nil] at hr
  omega

def Measured (env : Platform V) (root b : Board) (asks reads : Nat)
    (val : Search V (Board × V)) : Prop :=
  (legalSpec env root).Meets b val ∧ val.Effort (legalSpec env root).contract asks reads

def Affords (env : Platform V) (root b : Board) (asks reads : Nat)
    (child : Board → U16 → V → V → Search V (Board × V)) : Prop :=
  ∀ c m alpha beta, b.Kept c → b.position.Legal m →
    Measured env root b asks reads (child c m alpha beta)

theorem sideLoop_effort {side : PlayerColor} {child : Board → U16 → V → V → Search V (Board × V)}
    {arr : List (MoveEval V)} (hchild : Affords env root b asks reads child)
    (harr : (legalSpec env root).Scored b arr) (hc : b.Kept c) (window : V × V) (best : V) :
    (sideLoop side child arr c window best).Effort (legalSpec env root).contract
      (arr.length * asks) (arr.length * (reads + 1)) := by
  induction arr generalizing c window best with
  | nil => trivial
  | cons x xs ih =>
    obtain ⟨hmeets, heffort⟩ :=
      hchild c x.movement window.1 window.2 hc (harr x List.mem_cons_self)
    rw [List.length_cons, Nat.succ_mul, Nat.succ_mul, Nat.add_comm _ asks,
      Nat.add_comm _ (reads + 1), Nat.add_assoc reads, Nat.add_comm 1]
    apply heffort.bind hmeets
    rintro ⟨c', d⟩ ⟨hc', _⟩ search hsearch
    obtain rfl : search = true := hsearch
    show Effort _ (if (side.narrow window d).1 ≥ (side.narrow window d).2 then _ else _) _ _
    split
    · trivial
    · exact ih (fun y hy => harr y (List.mem_cons_of_mem _ hy)) hc' _ _

section Nodes

variable {fuel : Nat} {i cutoff : Int}

theorem affords_child {val : Board → V → V → Search V (Board × V)}
    (hval : ∀ d alpha beta, d.Wf looseCodes →
      Measured env root d asks reads (val d alpha beta)) :
    Affords env root b asks (reads + 1) fun c m alpha beta =>
      moveAndEval (fun c => val c alpha beta) c m := by
  intro c m alpha beta hc hm
  refine ⟨(legalSpec env root).moveAndEval hc hm fun d hd => (hval d alpha beta hd).1, ?_⟩
  intro search hsearch
  obtain rfl : search = true := hsearch
  obtain ⟨hmeets, heffort⟩ := hval (c.doMove m) alpha beta (hc.doMove_wf hm.pseudo)
  show Effort _ (Proc.bind _ _) (asks + 0) (reads + 0)
  apply heffort.bind hmeets
  exact fun _ _ => trivial

variable (hw : ∀ b : Board, b.Wf looseCodes → (b.getLegalMoves env.order).length ≤ w)

include hw

theorem level_effort {side : PlayerColor}
    {loop : Board → List (MoveEval V) → Search V (Board × V)} (hb : b.Wf looseCodes)
    (hloop : i ≠ cutoff → ∃ depth, (cutoff - i).toNat = depth + 1 ∧
      ∀ c arr, b.Kept c → (legalSpec env root).Scored b arr → arr.length ≤ w →
        (loop c arr).Effort (legalSpec env root).contract (w * nodeAsks w depth)
          (w * (nodeReads w depth + 2))) :
    (level env side loop b i cutoff).Effort (legalSpec env root).contract
      (nodeAsks w (cutoff - i).toNat) (nodeReads w (cutoff - i).toNat) := by
  have hkept := Board.Kept.refl hb
  by_cases hi : i = cutoff
  · have hzero : (cutoff - i).toNat = 0 := by rw [hi, Int.sub_self, Int.toNat_zero]
    rw [hzero]
    intro search hsearch
    obtain rfl : search = true := hsearch
    show Effort _ _ (w + 1) (w + 0)
    apply (orderChildren_effort hw hkept _).bind (orderChildren_few hw hkept _)
    rintro ⟨c, arr⟩ _
    dsimp only
    rw [if_pos hi]
    split <;> exact fun _ _ => trivial
  · obtain ⟨depth, hdepth, hloop⟩ := hloop hi
    have hasks : nodeAsks w (depth + 1) = w + (w + w * nodeAsks w depth + 1) := by
      rw [nodeAsks]
      omega
    have hreads : nodeReads w (depth + 1) =
        w + (w + (w * (nodeReads w depth + 2) + 1)) + 1 := by
      rw [nodeReads]
      omega
    rw [hdepth, hasks, hreads]
    intro search hsearch
    obtain rfl : search = true := hsearch
    apply (orderChildren_effort hw hkept _).bind (orderChildren_few hw hkept _)
    rintro ⟨c, arr⟩ ⟨⟨hc, hmoves⟩, hfew⟩
    dsimp only
    rw [if_neg hi]
    split
    · exact fun _ _ => trivial
    · refine Effort.mono ?_ (Nat.le_succ (w + w * nodeAsks w depth)) le_rfl
      apply (orderChildren_effort hw hc _).bind (orderChildren_few hw hc _)
      rintro ⟨c', _⟩ ⟨⟨hc', _⟩, _⟩ search hsearch
      obtain rfl : search = true := hsearch
      exact hloop c' arr hc' hmoves hfew

variable (root) in
/-- `MAX_VAL` and `MIN_VAL` keep their bounds at every depth. -/
theorem val_measured (side : PlayerColor) (fuel : Nat) (hb : b.Wf looseCodes) (alpha beta : V)
    (hi : i ≤ cutoff) (hfuel : (cutoff - i).toNat < fuel) :
    Measured env root b (nodeAsks w (cutoff - i).toNat) (nodeReads w (cutoff - i).toNat)
      (sideVal env side fuel b alpha beta i cutoff) := by
  refine ⟨(legalSpec env root).val side fuel hb alpha beta i cutoff (Or.inr ⟨hi, hfuel⟩), ?_⟩
  induction fuel generalizing side b alpha beta i with
  | zero => exact absurd hfuel (Nat.not_lt_zero _)
  | succ fuel ih =>
    rw [sideVal_succ]
    refine level_effort hw hb fun hne => ⟨(cutoff - (i + 1)).toNat, by omega, ?_⟩
    intro c arr hc hmoves hfew
    have hbelow : ∀ (d : Board) alpha beta, d.Wf looseCodes →
        Measured env root d (nodeAsks w (cutoff - (i + 1)).toNat)
          (nodeReads w (cutoff - (i + 1)).toNat)
          (sideVal env side.other fuel d alpha beta (i + 1) cutoff) := by
      intro d alpha beta hd
      have hmeets := (legalSpec env root).val side.other fuel hd alpha beta (i + 1) cutoff
        (Or.inr ⟨by omega, by omega⟩)
      exact ⟨hmeets, ih side.other hd alpha beta (by omega) (by omega)⟩
    exact (sideLoop_effort (affords_child hbelow) hmoves hc _ _).mono
      (Nat.mul_le_mul_right _ hfew) (Nat.mul_le_mul_right _ hfew)

end Nodes

section Root

variable {cutoff : Int} {arr : List (MoveEval V)} {s : Progress}

theorem sideRoot_effort {side : PlayerColor}
    (hchild : Affords env root root asks reads (sideChild env side cutoff))
    (harr : (legalSpec env root).Scored root arr) (hc : root.Kept c) (window : V × V)
    (optimum : MoveEval V) :
    (sideRoot env side cutoff arr c window optimum).Effort (legalSpec env root).contract
      (arr.length * asks) (arr.length * (reads + 1)) := by
  induction arr generalizing c window optimum with
  | nil => trivial
  | cons x xs ih =>
    obtain ⟨hmeets, heffort⟩ :=
      hchild c x.movement window.1 window.2 hc (harr x List.mem_cons_self)
    rw [List.length_cons, Nat.succ_mul, Nat.succ_mul, Nat.add_comm _ asks,
      Nat.add_comm _ (reads + 1), Nat.add_assoc reads, Nat.add_comm 1]
    apply heffort.bind hmeets
    rintro ⟨c', d⟩ ⟨hc', _⟩ search hsearch
    obtain rfl : search = true := hsearch
    have hrest := ih (fun y hy => harr y (List.mem_cons_of_mem _ hy)) hc'
    show Effort _ (if side.Beats optimum.eval d then _ else _) _ _
    split
    · exact hrest _ _
    · exact hrest _ _

variable (hw : ∀ b : Board, b.Wf looseCodes → (b.getLegalMoves env.order).length ≤ w)

include hw

variable (root) in
theorem sideChild_affords (hcutoff : 0 ≤ cutoff) (side : PlayerColor) :
    Affords env root root (nodeAsks w cutoff.toNat) (nodeReads w cutoff.toNat + 1)
      (sideChild env side cutoff) := by
  have hfuel : (cutoff - 0).toNat < levels cutoff := by simp [levels]
  have hval := fun (d : Board) alpha beta (hd : d.Wf looseCodes) =>
    val_measured root hw side.other (levels cutoff) hd alpha beta hcutoff hfuel
  rw [Int.sub_zero] at hval
  exact affords_child hval

theorem roundHead_effort (hs : Searching root s) (color : PlayerColor) :
    (roundHead env color s).Effort (legalSpec env root).contract
        (w + nodeAsks w s.cutoff.toNat) (w + (nodeReads w s.cutoff.toNat + 2) + 1) ∧
      (roundHead env color s).Ensures (legalSpec env root).contract
        (Sum.elim (fun _ => True) fun r => r.2.1.length ≤ w) := by
  have hchild := sideChild_affords root hw hs.2 color
  rw [roundHead_eq]
  constructor
  · intro search hsearch
    obtain rfl : search = true := hsearch
    apply (orderChildren_effort hw hs.1 _).bind (orderChildren_few hw hs.1 _)
    rintro ⟨c, _ | ⟨x, xs⟩⟩ ⟨⟨hc, hmoves⟩, _⟩
    · trivial
    cases color with
    | white => trivial
    | black =>
      obtain ⟨hmeets, heffort⟩ := hchild c x.movement env.lowest env.highest hc
        (hmoves x List.mem_cons_self)
      show Effort _ (Proc.bind _ _) (nodeAsks w s.cutoff.toNat + 0)
        (nodeReads w s.cutoff.toNat + 1 + 1)
      apply heffort.bind hmeets
      rintro ⟨c', d⟩ _ search hsearch
      obtain rfl : search = true := hsearch
      trivial
  · intro search hsearch
    obtain rfl : search = true := hsearch
    apply (orderChildren_few hw hs.1 _).bind
    rintro ⟨c, _ | ⟨x, xs⟩⟩ ⟨⟨hc, hmoves⟩, hfew⟩
    · trivial
    cases color with
    | white => exact hfew
    | black =>
      apply (hchild c x.movement env.lowest env.highest hc (hmoves x List.mem_cons_self)).1.bind
      rintro ⟨c', d⟩ _ search hsearch
      obtain rfl : search = true := hsearch
      exact hfew

theorem searchRound_effort (hs : Searching root s) (color : PlayerColor) :
    (searchRound env color s).Effort (legalSpec env root).contract
      (roundAsks w s.cutoff.toNat) (roundReads w s.cutoff.toNat) := by
  have hchild := sideChild_affords root hw hs.2 color
  have hroot : (legalSpec env root).RootSpec root s.cutoff := legalSpec_root hs.2
  obtain ⟨hhead, hfew⟩ := roundHead_effort hw hs color
  have hmoves := (legalSpec env root).roundHead color s (Or.inr hs.2) hs.1
  have hasks : roundAsks w s.cutoff.toNat =
      w + nodeAsks w s.cutoff.toNat + w * nodeAsks w s.cutoff.toNat := by
    rw [roundAsks, Nat.succ_mul]
    omega
  have hreads : roundReads w s.cutoff.toNat = w + (nodeReads w s.cutoff.toNat + 2) + 1 +
      (w * (nodeReads w s.cutoff.toNat + 2) + 1) := by
    rw [roundReads, Nat.succ_mul]
    omega
  rw [searchRound_eq, hasks, hreads]
  apply hhead.bind (hmoves.and hfew)
  rintro (c | ⟨c, arr, bound⟩) hr
  · trivial
  obtain ⟨⟨hc, hscored, hne⟩, hlength⟩ := hr
  rw [roundRest, rootLoop_eq]
  have heffort := (sideRoot_effort hchild hscored hc (color.opening env bound)
    ⟨s.movement, color.worst env⟩).mono (Nat.mul_le_mul_right _ hlength)
    (Nat.mul_le_mul_right _ hlength)
  have hloop := hroot.sideRoot color hscored hc (color.opening env bound)
    ⟨s.movement, color.worst env⟩ (Or.inl ⟨rfl, hne⟩)
  show Effort _ (Proc.bind _ _) (w * nodeAsks w s.cutoff.toNat + 0)
    (w * (nodeReads w s.cutoff.toNat + 2) + 1)
  apply heffort.bind hloop
  rintro ⟨c', optimum⟩ _ search hsearch
  obtain rfl : search = true := hsearch
  trivial

theorem searchMove_effort (hb : root.Wf looseCodes) (rounds : Nat) :
    (searchMove env rounds root).Effort (legalSpec env root).contract
      (∑ k ∈ Finset.range rounds, roundAsks w (2 * k + 1))
      (∑ k ∈ Finset.range rounds, roundReads w (2 * k + 1)) := by
  have hloop := @Effort.loop _ _ _ _ _ (legalSpec env root).contract
    (searchRound env root.playerToPlay)
    (fun n s => root.Kept s.board ∧ s.cutoff = 2 * n + 1)
    (fun n => roundAsks w (2 * n + 1)) (fun n => roundReads w (2 * n + 1))
    (fun n s ⟨hkept, hcutoff⟩ => by
      have hround := searchRound_effort hw ⟨hkept, by omega⟩ root.playerToPlay
      have hdepth : s.cutoff.toNat = 2 * n + 1 := by omega
      rwa [hdepth] at hround)
    (fun n s ⟨hkept, hcutoff⟩ => by
      apply ((legalSpec_root (by omega)).round root.playerToPlay hkept).imp
      rintro (s' | b) hr
      · have hnext : s'.cutoff = s.cutoff + 2 := hr.2
        refine ⟨hr.1, ?_⟩
        omega
      · trivial)
    rounds 0 ⟨root, 1, env.unset⟩ ⟨Board.Kept.refl hb, rfl⟩
  simp only [Nat.zero_add] at hloop
  exact hloop

variable {eval : Board × Nat → V} (heval : Bounded env eval)

include heval

theorem sideRoot_publishesBy {R : Type} {f : Board × MoveEval V → Search V R} {side : PlayerColor}
    (hcutoff : 0 ≤ cutoff) (window : V × V) {x : MoveEval V} {xs : List (MoveEval V)}
    (hx : root.position.Legal x.movement) (hc : root.Kept c) (movement : U16) :
    ((sideRoot env side cutoff (x :: xs) c window ⟨movement, side.worst env⟩).bind f).PublishesBy
      eval (nodeReads w cutoff.toNat + 2) := by
  obtain ⟨hmeets, heffort⟩ :=
    sideChild_affords root hw hcutoff side c x.movement window.1 window.2 hc hx
  rw [sideRoot, Proc.bind_eq, Proc.bind_assoc]
  show Proc.PublishesBy eval (nodeReads w cutoff.toNat + 1 + (0 + 1)) _
  apply heffort.publishesBy hmeets rfl (fun q => heval q)
  rintro ⟨c', d⟩ ⟨_, hd⟩
  apply Proc.PublishesBy.poll
  show Proc.PublishesBy eval 0 (Proc.bind (if side.Beats (side.worst env) d then _ else _) f)
  rw [if_pos (side.beats_worst env hd)]
  exact Proc.publishesBy_publish _ _

/-- A round stores its first move after it has searched one move, for Black twice. -/
theorem searchRound_publishesBy (hb : root.Wf looseCodes)
    (hlegal : root.getLegalMoves env.order ≠ []) (hs : Searching root s) (color : PlayerColor) :
    (searchRound env color s).PublishesBy eval
      (w + 1 + 2 * (nodeReads w s.cutoff.toNat + 2)) := by
  obtain ⟨hhead, _⟩ := roundHead_effort hw hs color
  have hsum : w + 1 + 2 * (nodeReads w s.cutoff.toNat + 2) =
      w + (nodeReads w s.cutoff.toNat + 2) + 1 + (nodeReads w s.cutoff.toNat + 2) := by
    omega
  rw [searchRound_eq, hsum]
  apply hhead.publishesBy (roundHead_lists hb hlegal hs color) rfl (fun q => heval q)
  rintro (c | ⟨c, arr, bound⟩) hr
  · exact absurd hr id
  obtain ⟨hc, hmoves, hne⟩ := hr
  obtain ⟨x, xs, rfl⟩ := List.exists_cons_of_ne_nil hne
  rw [roundRest, rootLoop_eq]
  exact sideRoot_publishesBy hw heval hs.2 _ (hmoves x List.mem_cons_self) hc s.movement

end Root

section Engine

variable {codes : Slot → List U8} {eval : Board × Nat → V}

/-- In its first `rounds` rounds an undisturbed search asks the evaluator and reads the flag at
most as often as a full tree of 79 moves a board has room for. -/
theorem search_cost_le (hcodes : Admissible codes) (hwf : b.Wf codes) (heval : Bounded env eval)
    (rounds i : Nat) :
    ((searchMove env rounds b).cost eval (fun _ => true) i).1 ≤
        ∑ k ∈ Finset.range rounds, roundAsks 79 (2 * k + 1) ∧
      ((searchMove env rounds b).cost eval (fun _ => true) i).2 ≤
        ∑ k ∈ Finset.range rounds, roundReads 79 (2 * k + 1) :=
  (searchMove_effort (fun _ hb => hb.moves_le env.order) (hwf.loose hcodes) rounds).cost_le
    (fun _ _ => rfl) (fun q => heval q)

theorem search_cost_le_start :
    ((searchMove WSum.platform 1 Board.new).cost (WSum.eval WSum.platform.order)
      (fun _ => true) 0).1 ≤ 518399 :=
  (search_cost_le admissible_slotCodes Board.new_wf WSum.evaluator.bounded 1 0).1

end Engine

end Search

end Rollerball
