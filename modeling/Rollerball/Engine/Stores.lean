import Rollerball.Engine.Abort
import Rollerball.Engine.Frame
import Rollerball.Engine.Minimax
import Rollerball.Lib.Thread

/-!
# What the search stores

While the flag reads true the search stores only legal moves of the board it was given, and its
first round does store one. After the flag has fallen it stores nothing more.
-/

namespace Rollerball

open Proc (Falls Stoppable)

variable {V : Type} [LinearOrder V] [Zero V] (env : Platform V)

/-- The search of `root` on reads that give true and bounded scores. -/
def legalSpec (root : Board) : SearchSpec env where
  contract := {
    reads := fun search => search = true
    answers := fun _ d => env.lowest < d ∧ d < env.highest
    publishes := root.position.Legal
    timeouts := False }
  good := fun b => b.Wf looseCodes
  keep := Board.Kept
  moves := fun b => b.position.Legal
  score := fun d => env.lowest < d ∧ d < env.highest
  refl := fun _ hb => Board.Kept.refl hb
  listed := fun _ _ hc _ hm => (hc.legal_iff env.order).mp hm
  played := fun _ _ _ hc hm => hc.doMove_wf hm.pseudo
  undone := fun _ _ _ _ hc hm hd => hc.undo hm.pseudo hd
  aborted := fun h => absurd h Bool.false_ne_true
  answered := fun _ _ => id
  raised := by
    intro d m hd hm
    split_ifs with hlt
    · exact hd
    · exact hm.resolve_left fun h => hlt (h ▸ hd.1)
  lowered := by
    intro d m hd hm
    split_ifs with hgt
    · exact hd
    · exact hm.resolve_left fun h => hgt (h ▸ hd.2)

section Root

variable {env} {root c : Board} {s : Progress}

theorem legalSpec_root {cutoff : Int} (hcutoff : 0 ≤ cutoff) :
    (legalSpec env root).RootSpec root cutoff where
  fuel := Or.inr hcutoff
  stores := fun _ => id
  unset := Or.inr ⟨Bool.false_ne_true, fun _ => id⟩

def Searching (root : Board) (s : Progress) : Prop := root.Kept s.board ∧ 0 ≤ s.cutoff

theorem searching_start (h : root.Wf looseCodes) (movement : U16) :
    Searching root ⟨root, 1, movement⟩ :=
  ⟨Board.Kept.refl h, show (0 : Int) ≤ 1 by decide⟩

theorem searchRound_stoppable (color : PlayerColor) :
    Stoppable (searchRound env color) (legalSpec env root).contract (Searching root) where
  quiet := searchRound_quiet env color
  disciplined := searchRound_disciplined env color
  ensures := by
    intro s hs
    apply ((legalSpec_root hs.2).round color hs.1).imp
    rintro (s' | b') hr
    · refine ⟨hr.1, ?_⟩
      have hcutoff := hs.2
      rw [hr.2]
      omega
    · trivial

section Finds

variable {contract : Proc.Contract (Board × Nat) V U16}
  (hreads : ∀ search, contract.reads search → search = true)

include hreads

omit [Zero V] in
theorem orderLoop_length (reverse : Bool) (ms : List U16) (arr : List (MoveEval V)) :
    (orderLoop env reverse ms c arr).Ensures contract fun r =>
      r.2.length = arr.length + ms.length := by
  induction ms generalizing c arr with
  | nil => exact (env.sort_perm reverse arr).length_eq
  | cons m ms ih =>
    intro search hsearch
    obtain rfl := hreads search hsearch
    intro eval _
    apply Proc.Ensures.imp (ih _)
    intro r hr
    rw [hr]
    simp only [List.length_append, List.length_cons, List.length_nil]
    omega

theorem roundHead_finds (hfuel : contract.timeouts ∨ 0 ≤ s.cutoff) (color : PlayerColor)
    (hlegal : s.board.getLegalMoves env.order ≠ []) :
    (roundHead env color s).Ensures contract (Sum.elim (fun _ => False) fun _ => True) := by
  rw [roundHead_eq]
  intro search hsearch
  obtain rfl := hreads search hsearch
  apply (orderLoop_length hreads (color = .black) _ []).bind
  rintro ⟨b, _ | ⟨x, xs⟩⟩ hlength
  · have hvisit := (env.order.visit_perm (s.board.getLegalMoves env.order)).length_eq
    have hpos := List.length_pos_of_ne_nil hlegal
    simp only [List.length_nil, Nat.zero_add] at hlength
    omega
  cases color with
  | white => trivial
  | black =>
    apply ((anySpec env contract).sideChild (b := b) .black hfuel trivial trivial env.lowest
      env.highest).bind
    rintro ⟨c', d⟩ _ search hsearch
    obtain rfl := hreads search hsearch
    trivial

end Finds

omit [Zero V] in
theorem Board.Kept.legal_ne_nil (hc : root.Kept c) (h : root.Wf looseCodes)
    (hlegal : root.getLegalMoves env.order ≠ []) : c.getLegalMoves env.order ≠ [] := by
  obtain ⟨m, hm⟩ := List.exists_mem_of_ne_nil _ hlegal
  exact List.ne_nil_of_mem
    ((hc.legal_iff env.order).mpr ((h.mem_getLegalMoves env.order).mp hm))

theorem roundHead_lists (h : root.Wf looseCodes) (hlegal : root.getLegalMoves env.order ≠ [])
    (hs : Searching root s) (color : PlayerColor) :
    (roundHead env color s).Ensures (legalSpec env root).contract (Sum.elim (fun _ => False)
      fun r => root.Kept r.1 ∧ (legalSpec env root).Scored root r.2.1 ∧ r.2.1 ≠ []) := by
  have hfinds : (roundHead env color s).Ensures (legalSpec env root).contract
      (Sum.elim (fun _ => False) fun _ => True) :=
    roundHead_finds (fun _ => id) (Or.inr hs.2) color (hs.1.legal_ne_nil h hlegal)
  apply (((legalSpec env root).roundHead color s (Or.inr hs.2) hs.1).and hfinds).imp
  rintro (b | r) hr
  · exact hr.2
  · exact hr.1

variable {eval : Board × Nat → V} (heval : Bounded env eval)

include heval

theorem sideRoot_publishes (side : PlayerColor) {cutoff : Int} (hcutoff : 0 ≤ cutoff)
    (window : V × V) {x : MoveEval V} {xs : List (MoveEval V)}
    (hx : root.position.Legal x.movement) (hc : root.Kept c) (movement : U16) :
    ((sideRoot env side cutoff (x :: xs) c window ⟨movement, side.worst env⟩).firstPublish
      eval).isSome := by
  have hchild := (legalSpec env root).sideChild side (Or.inr hcutoff) hc hx window.1 window.2
  apply hchild.firstPublish_bind rfl (fun q => heval q) id
  rintro ⟨c', d⟩ ⟨_, hd⟩
  apply Proc.firstPublish_poll
  show Option.isSome (Proc.firstPublish eval (if side.Beats (side.worst env) d then _ else _))
  rw [if_pos (side.beats_worst env hd)]
  rfl

theorem searchRound_publishes (h : root.Wf looseCodes)
    (hlegal : root.getLegalMoves env.order ≠ []) (color : PlayerColor) (hs : Searching root s) :
    ((searchRound env color s).firstPublish eval).isSome := by
  rw [searchRound_eq]
  apply (roundHead_lists h hlegal hs color).firstPublish_bind rfl (fun q => heval q) id
  rintro (c | ⟨c, arr, bound⟩) hr
  · exact absurd hr id
  obtain ⟨hc, hmoves, hne⟩ := hr
  obtain ⟨x, xs, rfl⟩ := List.exists_cons_of_ne_nil hne
  rw [roundRest, rootLoop_eq]
  exact Proc.firstPublish_bind
    (sideRoot_publishes heval color hs.2 _ (hmoves x List.mem_cons_self) hc s.movement)

end Root

/-- A search that is stopped at any read of the flag returns, having stored a prefix of what the
search that is never stopped stores. -/
theorem stopped_search_stores_prefix (b : Board) (eval : Board × Nat → V) {flag : Nat → Bool}
    (h : Falls flag) (hstop : ∃ n, flag n = false) :
    ∃ rounds, ∀ rounds' ≥ rounds,
      ((searchMove env rounds' b).run eval flag 0).result ≠ none ∧
        ((searchMove env rounds' b).run eval flag 0).stored =
          ((searchMove env rounds b).run eval flag 0).stored ∧
        ((searchMove env rounds' b).run eval flag 0).stored <+:
          ((searchMove env rounds' b).run eval (fun _ => true) 0).stored := by
  obtain ⟨n, hn⟩ := hstop
  obtain ⟨rounds, hrounds⟩ := searchMove_returns env b eval h hn
  refine ⟨rounds, fun rounds' hle => ⟨(hrounds rounds' hle).1, ?_, ?_⟩⟩
  · rw [(hrounds rounds' hle).2]
  · exact (searchMove_disciplined env rounds' b).stored_initial h

/-- A search of the start position that is stopped once it has stored its first move. -/
theorem stopped_search_stores_prefix_start :
    ∃ n rounds, ∀ rounds' ≥ rounds,
      ((searchMove (Platform.sorted (-1000 : ℤ) 1000) rounds' Board.new).run (fun _ => 0)
        (Proc.fallsAt n) 0).stored ≠ [] ∧
      ((searchMove (Platform.sorted (-1000 : ℤ) 1000) rounds' Board.new).run (fun _ => 0)
        (Proc.fallsAt n) 0).stored <+:
      ((searchMove (Platform.sorted (-1000 : ℤ) 1000) rounds' Board.new).run (fun _ => 0)
        (fun _ => true) 0).stored := by
  have hwf := Board.new_wf.loose admissible_slotCodes
  have heval : Bounded (Platform.sorted (-1000 : ℤ) 1000) fun _ => 0 := fun _ =>
    ⟨show (-1000 : ℤ) < 0 by decide, show (0 : ℤ) < 1000 by decide⟩
  obtain ⟨n, hn⟩ := Option.isSome_iff_exists.mp (searchRound_publishes heval hwf
    (List.ne_nil_of_mem Board.opening_legal) Board.new.playerToPlay (searching_start hwf 0))
  obtain ⟨rounds, hrounds⟩ := stopped_search_stores_prefix (Platform.sorted (-1000 : ℤ) 1000)
    Board.new (fun _ => 0) (Proc.fallsAt_falls n) ⟨n, by simp [Proc.fallsAt]⟩
  have hheld : Proc.Holds (Proc.fallsAt n) 0 (0 + n) :=
    (Proc.holds_fallsAt (Nat.zero_le n)).mpr (Nat.zero_add n).le
  refine ⟨n, rounds + 1, fun rounds' hle => ⟨?_, (hrounds rounds' (by omega)).2.2⟩⟩
  obtain ⟨rounds', rfl⟩ : ∃ k, rounds' = k + 1 := ⟨rounds' - 1, by omega⟩
  exact Proc.stored_of_firstPublish hn hheld

end Rollerball
