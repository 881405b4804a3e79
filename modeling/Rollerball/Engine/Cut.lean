import Rollerball.Engine.Abort
import Rollerball.Lib.Polled

/-!
# Where a round is cut

A round that the flag stops has searched some of its root moves, in their order. It has stored what
the undisturbed round stores over those moves.
-/

namespace Rollerball

open Proc (Falls Holds total)

variable {V : Type} [LinearOrder V] [Zero V] (env : Platform V)

def partRest (color : PlayerColor) (n : Nat) (s : Progress) :
    Board ⊕ Board × List (MoveEval V) × V → Search V (List (MoveEval V))
  | .inl _ => return []
  | .inr (b, legalMoves, bound) => do
    let _ ← rootLoop env color s.cutoff (legalMoves.take n) b bound s.movement
    return legalMoves.take n

/-- A round cut after the first `n` root moves, which it returns. -/
def roundPart (color : PlayerColor) (n : Nat) (s : Progress) : Search V (List (MoveEval V)) :=
  (roundHead env color s).bind (partRest env color n s)

section Parts

variable {env}

theorem roundHead_total (color : PlayerColor) {s : Progress} (hcutoff : 0 ≤ s.cutoff) :
    (roundHead env color s).Ensures total fun _ => True := by
  have hhead := (anySpec env total).roundHead (b := s.board) color s (Or.inr hcutoff) trivial
  exact hhead.imp fun _ _ => trivial

theorem sideRoot_polled (side : PlayerColor) (cutoff : Int) (arr : List (MoveEval V)) (b : Board)
    (window : V × V) (optimum : MoveEval V) :
    sideRoot env side cutoff arr b window optimum =
      Proc.polled (fun (x : MoveEval V) s =>
          sideChild env side cutoff s.1 x.movement s.2.1.1 s.2.1.2)
        (fun x s t => if side.Beats s.2.2.eval t.2 then some x.movement else none)
        (fun x s t => (t.1, side.narrow s.2.1 t.2,
          if side.Beats s.2.2.eval t.2 then ⟨x.movement, t.2⟩ else s.2.2))
        (fun s t => (t.1, s.2.2)) (fun s => (s.1, s.2.2)) arr (b, window, optimum) := by
  induction arr generalizing b window optimum with
  | nil => rfl
  | cons x xs ih =>
    refine congrArg _ (funext fun t => congrArg Proc.poll (funext fun search => ?_))
    rcases t with ⟨c, d⟩
    cases search with
    | false => rfl
    | true =>
      show (if side.Beats optimum.eval d then _ else _) = Proc.publishSome _ _
      by_cases hbeats : side.Beats optimum.eval d
      · simp only [hbeats, if_true, ih]
        rfl
      · simp only [hbeats, if_false, ih]
        rfl

end Parts

section Cut

variable {env} (eval : Board × Nat → V) {flag : Nat → Bool} (h : Falls flag)
  (color : PlayerColor)

theorem sideChild_total {cutoff : Int} (hcutoff : 0 ≤ cutoff) (b : Board) (m : U16)
    (alpha beta : V) (flag : Nat → Bool) (i : Nat) :
    ((sideChild env color cutoff b m alpha beta).run eval flag i).result ≠ none := by
  have hchild : (anySpec env total).Meets b (sideChild env color cutoff b m alpha beta) :=
    (anySpec env total).sideChild color (Or.inr hcutoff) trivial trivial alpha beta
  exact (hchild.run (fun _ => trivial) fun _ => trivial).2.2

theorem rootLoop_total {cutoff : Int} (hcutoff : 0 ≤ cutoff) (arr : List (MoveEval V)) (b : Board)
    (bound : V) (movement : U16) (flag : Nat → Bool) (i : Nat) :
    ((rootLoop env color cutoff arr b bound movement).run eval flag i).result ≠ none := by
  have hroot : (anySpec env total).RootSpec b cutoff :=
    ⟨Or.inr hcutoff, fun _ _ => trivial, Or.inl fun _ => trivial⟩
  have harr : (anySpec env total).Scored b arr := fun _ _ => trivial
  rw [rootLoop_eq]
  have hloop := hroot.sideRoot (c := b) color harr trivial (color.opening env bound)
    ⟨movement, color.worst env⟩ (Or.inr trivial)
  exact (hloop.run (fun _ => trivial) fun _ => trivial).2.2

theorem rootLoop_nil (cutoff : Int) (b : Board) (bound : V) (movement : U16) (flag : Nat → Bool)
    (i : Nat) :
    ((rootLoop env color cutoff [] b bound movement).run eval flag i).stored = [] ∧
      ((rootLoop env color cutoff [] b bound movement).run eval flag i).reads = i := by
  cases color <;> exact ⟨rfl, rfl⟩

theorem rootLoop_reads_lt {cutoff : Int} (hcutoff : 0 ≤ cutoff) {arr : List (MoveEval V)}
    {n n' : Nat} (hlt : n < n') (hn : n < arr.length) (b : Board) (bound : V) (movement : U16)
    (i : Nat) :
    ((rootLoop env color cutoff (arr.take n) b bound movement).run eval (fun _ => true) i).reads <
      ((rootLoop env color cutoff (arr.take n') b bound movement).run eval
        (fun _ => true) i).reads := by
  simp only [rootLoop_eq, sideRoot_polled]
  exact Proc.polled_reads_lt (fun _ _ => sideChild_silent env color _ _ _ _ _)
    (fun _ _ _ => sideChild_total eval color hcutoff _ _ _ _ _ _) hlt hn _ i

include h

theorem rootLoop_cut {cutoff : Int} (hcutoff : 0 ≤ cutoff) (arr : List (MoveEval V)) (b : Board)
    (bound : V) (movement : U16) (i : Nat) :
    let loop := fun arr => rootLoop env color cutoff arr b bound movement
    ∃ n ≤ arr.length,
      ((loop arr).run eval flag i).stored =
          ((loop (arr.take n)).run eval (fun _ => true) i).stored ∧
        (n ≠ 0 → Holds flag i ((loop (arr.take n)).run eval (fun _ => true) i).reads) ∧
        (∀ n', n < n' → n' ≤ arr.length →
          ¬Holds flag i ((loop (arr.take n')).run eval (fun _ => true) i).reads) ∧
        (n < arr.length → flag ((loop arr).run eval flag i).reads = false) := by
  simp only [rootLoop_eq, sideRoot_polled]
  exact Proc.polled_cut (fun _ _ => sideChild_silent env color _ _ _ _ _)
    (fun _ _ _ => sideChild_total eval color hcutoff _ _ _ _ flag _) h arr _ i

private theorem loopTail_cut {cutoff : Int} (hcutoff : 0 ≤ cutoff) (arr : List (MoveEval V))
    (b : Board) (bound : V) (movement : U16) {i : Nat}
    (hduring : ¬Holds flag i (((rootLoop env color cutoff arr b bound movement).bind
      (roundTail cutoff)).run eval (fun _ => true) i).reads) :
    let loop := fun arr => rootLoop env color cutoff arr b bound movement
    ∃ n ≤ arr.length,
      (((loop arr).bind (roundTail cutoff)).run eval flag i).stored =
          ((loop (arr.take n)).run eval (fun _ => true) i).stored ∧
        (n ≠ 0 → Holds flag i ((loop (arr.take n)).run eval (fun _ => true) i).reads) ∧
        ∀ n', n < n' → n' ≤ arr.length →
          ¬Holds flag i ((loop (arr.take n')).run eval (fun _ => true) i).reads := by
  intro loop
  obtain ⟨n, hn, hstored, hheld, hlonger, hend⟩ :=
    rootLoop_cut eval h color hcutoff arr b bound movement i
  obtain ⟨l, r, j, hrun⟩ := Proc.run_of_result
    (rootLoop_total eval color hcutoff arr b bound movement flag i)
  have hj : flag j = false := by
    rcases hn.lt_or_eq with hlt | heq
    · have hfalse := hend hlt
      rwa [hrun] at hfalse
    · -- the loop has searched every root move, so only the last read is left
      have hheld' : Holds flag i ((loop arr).run eval (fun _ => true) i).reads := by
        by_cases hzero : n = 0
        · have hnil : arr = [] := List.eq_nil_of_length_eq_zero (by omega)
          subst hnil
          intro k hik hki
          have hreads : ((loop []).run eval (fun _ => true) i).reads = i :=
            (rootLoop_nil eval color cutoff b bound movement (fun _ => true) i).2
          omega
        · have hall := hheld hzero
          rwa [heq, List.take_length] at hall
      have hsame := Proc.run_of_holds hheld'
      rw [← hsame, hrun] at hheld'
      by_contra htrue
      apply hduring
      rw [Proc.run_bind_some (hsame ▸ hrun)]
      exact hheld'.succ (Bool.not_eq_false _ ▸ htrue)
  refine ⟨n, hn, ?_, hheld, hlonger⟩
  rw [Proc.run_bind_some hrun, (roundTail_quiet cutoff r).stored_nil h hj, List.append_nil,
    ← hstored]
  exact congrArg Proc.Outcome.stored hrun.symm

omit h in
theorem roundPart_run {s : Progress} (hcutoff : 0 ≤ s.cutoff) (n : Nat) {i j : Nat}
    {r : Board ⊕ Board × List (MoveEval V) × V}
    (hhead : (roundHead env color s).run eval flag i = ⟨[], some r, j⟩) :
    (roundPart env color n s).run eval flag i =
      match r with
      | .inl _ => ⟨[], some [], j⟩
      | .inr (b, arr, bound) =>
        let out := (rootLoop env color s.cutoff (arr.take n) b bound s.movement).run eval flag j
        ⟨out.stored, some (arr.take n), out.reads⟩ := by
  rw [roundPart, Proc.run_bind_some hhead]
  rcases r with b | ⟨b, arr, bound⟩
  · rfl
  · obtain ⟨l, r', j', hrun⟩ := Proc.run_of_result
      (rootLoop_total eval color hcutoff (arr.take n) b bound s.movement flag j)
    have hrest : (partRest env color n s (.inr (b, arr, bound))).run eval flag j =
        ⟨l ++ [], some (arr.take n), j'⟩ := Proc.run_bind_some hrun
    rw [hrest, List.append_nil]
    simp only [hrun, List.nil_append]

/-- A round during which the flag falls stores what it stores over its first `n` root moves, where
`n` is the number of root moves it has searched by then. -/
theorem round_cut {s : Progress} (hcutoff : 0 ≤ s.cutoff) {i : Nat}
    (hduring : ¬Holds flag i ((searchRound env color s).run eval (fun _ => true) i).reads) :
    ∃ n, ((searchRound env color s).run eval flag i).stored =
        ((roundPart env color n s).run eval (fun _ => true) i).stored ∧
      (n ≠ 0 → Holds flag i ((roundPart env color n s).run eval (fun _ => true) i).reads) ∧
      ∀ n', Holds flag i ((roundPart env color n' s).run eval (fun _ => true) i).reads →
        n' ≤ n ∨ (roundPart env color n' s).run eval (fun _ => true) i =
          (roundPart env color n s).run eval (fun _ => true) i := by
  have hsilent := roundHead_silent env color s
  have htotal : ∀ flag, ((roundHead env color s).run eval flag i).result ≠ none := fun flag =>
    ((roundHead_total color hcutoff).run (fun _ => trivial) fun _ => trivial).2.2
  obtain ⟨r, j, hhead⟩ := hsilent.run_some (htotal fun _ => true)
  have hpart := fun n => roundPart_run eval color hcutoff n hhead
  rw [searchRound_eq] at hduring ⊢
  rcases hsilent.bind_run (htotal flag) (roundRest_quiet env color s) h with
    ⟨r', j', hhead', hholds, hrun⟩ | ⟨hfall, hstored, _⟩
  · obtain ⟨rfl, rfl⟩ : r = r' ∧ j = j' := by
      simpa using hhead.symm.trans hhead'
    rw [Proc.run_bind_some hhead] at hduring
    rcases r with b | ⟨b, arr, bound⟩
    · exact absurd hholds hduring
    · have hij : i ≤ j := Proc.le_of_run hhead
      obtain ⟨n, hn, hstored, hheld, hlonger⟩ := loopTail_cut eval h color hcutoff arr b bound
        s.movement (fun hheld => hduring (hholds.trans hheld))
      refine ⟨n, ?_, fun hne => ?_, fun n' hheld' => ?_⟩
      · rw [hrun, hpart]
        exact hstored
      · rw [hpart]
        exact hholds.trans (hheld hne)
      · rw [hpart] at hheld'
        by_cases hle : n' ≤ n
        · exact Or.inl hle
        · right
          -- a part longer than the list of moves is the whole list
          have hlong : arr.length < n' := by
            by_contra hshort
            exact hlonger n' (not_le.mp hle) (not_lt.mp hshort) (hheld'.from hij)
          have hall : arr.take n' = arr := List.take_of_length_le hlong.le
          have hlast : n = arr.length := by
            by_contra hne
            have hheld := hheld'.from hij
            simp only [hall] at hheld
            have hstop := hlonger arr.length (by omega) le_rfl
            rw [List.take_length] at hstop
            exact hstop hheld
          rw [hpart, hpart, hlast]
          simp only [hall, List.take_length]
  · refine ⟨0, ?_, fun hne => absurd rfl hne, fun n' hheld' => ?_⟩
    · rw [hstored, hpart]
      rcases r with b | ⟨b, arr, bound⟩
      · rfl
      · exact (rootLoop_nil eval color s.cutoff b bound s.movement (fun _ => true) j).1.symm
    · exact absurd (hheld'.mono Proc.reads_le_bind) hfall

end Cut

end Rollerball
