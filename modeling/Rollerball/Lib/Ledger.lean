import Mathlib.Algebra.BigOperators.Group.Finset.Basic
import Mathlib.Algebra.BigOperators.Group.Finset.Piecewise
import Mathlib.Algebra.Order.BigOperators.Group.Finset

/-!
# Ledgers of runs

What stands on a board is weighed square by square, and a piece that is moved changes the total
only by its own weight and that of what it lands on. A run whose steps each pay out of a total
spends no more than the total it started with.
-/

open scoped BigOperators

namespace Census

variable {σ π M : Type} [Fintype σ] [DecidableEq σ] [AddCommMonoid M]

/-- The weight of all pieces on a board. -/
def census (w : σ → π → M) (cell : σ → Option π) : M := ∑ p, (cell p).elim 0 (w p)

variable {w : σ → π → M} {cell : σ → Option π}

theorem census_update (w : σ → π → M) (cell : σ → Option π) (q : σ) (x : Option π) :
    census w (Function.update cell q x) + (cell q).elim 0 (w q) =
      census w cell + x.elim 0 (w q) := by
  have hsplit : ∀ cell' : σ → Option π, census w cell' =
      (cell' q).elim 0 (w q) + ∑ p ∈ Finset.univ.erase q, (cell' p).elim 0 (w p) := fun cell' =>
    (Finset.add_sum_erase _ _ (Finset.mem_univ q)).symm
  have hrest : ∑ p ∈ Finset.univ.erase q, (Function.update cell q x p).elim 0 (w p) =
      ∑ p ∈ Finset.univ.erase q, (cell p).elim 0 (w p) := by
    refine Finset.sum_congr rfl fun p hp => ?_
    rw [Function.update_of_ne (Finset.ne_of_mem_erase hp)]
  rw [hsplit, hsplit cell, hrest, Function.update_self]
  rw [add_right_comm, add_comm (x.elim 0 (w q)), add_right_comm]

theorem census_move {p q : σ} {a : π} (w : σ → π → M) (hp : cell p = some a) (hpq : p ≠ q)
    (b : π) :
    census w (Function.update (Function.update cell q (some b)) p none) +
        (w p a + (cell q).elim 0 (w q)) = census w cell + w q b := by
  have hleave := census_update w (Function.update cell q (some b)) p none
  have harrive := census_update w cell q (some b)
  rw [Function.update_of_ne hpq, hp, Option.elim_some, Option.elim_none, add_zero] at hleave
  rw [← add_assoc, hleave, harrive, Option.elim_some]

omit [DecidableEq σ] in
/-- The pieces are the same, looked up square by square or through a list of their places. -/
theorem census_of_places {ι : Type} [Fintype ι] {place : ι → σ} {alive : ι → Prop}
    [DecidablePred alive] (w : σ → π → M)
    (hplaces : ∀ p a, cell p = some a → ∃ i, alive i ∧ place i = p)
    (hdistinct : ∀ i j, alive i → alive j → place i = place j → i = j) :
    census w cell =
      ∑ i, if alive i then (cell (place i)).elim 0 (w (place i)) else 0 := by
  rw [← Finset.sum_filter, census]
  symm
  refine Finset.sum_of_injOn place ?_ ?_ ?_ fun i _ => rfl
  · intro i hi j hj hij
    rw [Finset.mem_coe, Finset.mem_filter] at hi hj
    exact hdistinct i j hi.2 hj.2 hij
  · intro i _
    exact Finset.mem_univ _
  · intro p _ hp
    cases hcell : cell p with
    | none => rfl
    | some a =>
      obtain ⟨i, hi, hip⟩ := hplaces p a hcell
      exact absurd ⟨i, Finset.mem_coe.mpr (Finset.mem_filter.mpr ⟨Finset.mem_univ i, hi⟩), hip⟩ hp

end Census

namespace Ledger

variable {S M : Type} (next : S → M → S)

/-- A run all of whose steps are allowed. -/
def Run (ok : S → M → Prop) : S → List M → Prop
  | _, [] => True
  | s, m :: ms => ok s m ∧ Run ok (next s m) ms

def spent (cost : S → M → Nat) : S → List M → Nat
  | _, [] => 0
  | s, m :: ms => cost s m + spent cost (next s m) ms

variable {next} {ok : S → M → Prop} {inv : S → Prop} {value : S → Nat} {cost : S → M → Nat}
  {s : S} {ms : List M}

theorem Run.keeps (hrun : Run next ok s ms)
    (hkeeps : ∀ s m, inv s → ok s m → inv (next s m)) (hs : inv s) : inv (ms.foldl next s) := by
  induction ms generalizing s with
  | nil => exact hs
  | cons m ms ih => exact ih hrun.2 (hkeeps s m hs hrun.1)

theorem spent_add (cost cost' : S → M → Nat) (s : S) (ms : List M) :
    spent next (fun s m => cost s m + cost' s m) s ms =
      spent next cost s ms + spent next cost' s ms := by
  induction ms generalizing s with
  | nil => rfl
  | cons m ms ih =>
    rw [spent, spent, spent, ih]
    exact Nat.add_add_add_comm _ _ _ _

/-- Steps that each pay their cost out of a value, exactly or up to an order, do so together. -/
theorem Run.spent_rel {r : Nat → Nat → Prop} [IsPreorder Nat r]
    (hadd : ∀ a b n, r a b → r (a + n) (b + n)) (hrun : Run next ok s ms)
    (hkeeps : ∀ s m, inv s → ok s m → inv (next s m))
    (hstep : ∀ s m, inv s → ok s m → r (value (next s m) + cost s m) (value s)) (hs : inv s) :
    r (value (ms.foldl next s) + spent next cost s ms) (value s) := by
  induction ms generalizing s with
  | nil => exact refl_of r _
  | cons m ms ih =>
    have hfirst := hstep s m hs hrun.1
    have hrest := hadd _ _ (cost s m) (ih hrun.2 (hkeeps s m hs hrun.1))
    rw [List.foldl_cons, spent, Nat.add_comm (cost s m), ← Nat.add_assoc]
    exact trans_of r hrest hfirst

theorem Run.spent_le (hrun : Run next ok s ms) (hkeeps : ∀ s m, inv s → ok s m → inv (next s m))
    (hstep : ∀ s m, inv s → ok s m → value (next s m) + cost s m ≤ value s) (hs : inv s) :
    value (ms.foldl next s) + spent next cost s ms ≤ value s :=
  hrun.spent_rel (fun _ _ n h => Nat.add_le_add_right h n) hkeeps hstep hs

theorem Run.spent_eq (hrun : Run next ok s ms) (hkeeps : ∀ s m, inv s → ok s m → inv (next s m))
    (hstep : ∀ s m, inv s → ok s m → value (next s m) + cost s m = value s) (hs : inv s) :
    value (ms.foldl next s) + spent next cost s ms = value s :=
  hrun.spent_rel (fun _ _ n h => congrArg (· + n) h) hkeeps hstep hs

end Ledger
