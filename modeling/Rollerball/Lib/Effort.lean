import Rollerball.Lib.Thread
import Mathlib.Algebra.BigOperators.Intervals

/-!
# How much a thread does

Within its contract a thread asks the oracle and reads the flag a bounded number of times. The
bounds of parts that follow each other add up, and the first value a thread publishes comes within
the reads of the parts before it.
-/

universe u

namespace Proc

variable {Q A O R S : Type u}

/-- Within the contract the thread asks at most `asks` questions and reads at most `reads` times. -/
def Effort (c : Contract Q A O) : Proc Q A O R → Nat → Nat → Prop
  | done _, _, _ => True
  | poll _, _, 0 => False
  | poll k, asks, reads + 1 => ∀ search, c.reads search → (k search).Effort c asks reads
  | ask _ _, 0, _ => False
  | ask q k, asks + 1, reads => ∀ a, c.answers q a → (k a).Effort c asks reads
  | publish _ k, asks, reads => k.Effort c asks reads
  | timeout, _, _ => True

section Rules

variable {c : Contract Q A O} {p : Proc Q A O R} {f : R → Proc Q A O S}
  {asks asks' reads reads' : Nat} {mid : R → Prop}

theorem Effort.mono (h : p.Effort c asks reads) (hasks : asks ≤ asks') (hreads : reads ≤ reads') :
    p.Effort c asks' reads' := by
  induction p generalizing asks asks' reads reads' with
  | done r => trivial
  | poll k ih =>
    cases reads with
    | zero => exact absurd h id
    | succ reads =>
      obtain ⟨reads', rfl⟩ : ∃ n, reads' = n + 1 := ⟨reads' - 1, by omega⟩
      exact fun search hsearch => ih search (h search hsearch) hasks (by omega)
  | ask q k ih =>
    cases asks with
    | zero => exact absurd h id
    | succ asks =>
      obtain ⟨asks', rfl⟩ : ∃ n, asks' = n + 1 := ⟨asks' - 1, by omega⟩
      exact fun a ha => ih a (h a ha) (by omega) hreads
  | publish o k ih => exact ih h hasks hreads
  | timeout => trivial

theorem Effort.bind (hp : p.Effort c asks reads) (hmid : p.Ensures c mid)
    (hf : ∀ r, mid r → (f r).Effort c asks' reads') :
    (p.bind f).Effort c (asks + asks') (reads + reads') := by
  induction p generalizing asks reads with
  | done r => exact (hf r hmid).mono (Nat.le_add_left _ _) (Nat.le_add_left _ _)
  | poll k ih =>
    cases reads with
    | zero => exact absurd hp id
    | succ reads =>
      rw [Nat.add_right_comm]
      exact fun search hsearch => ih search (hp search hsearch) (hmid search hsearch)
  | ask q k ih =>
    cases asks with
    | zero => exact absurd hp id
    | succ asks =>
      rw [Nat.add_right_comm]
      exact fun a ha => ih a (hp a ha) (hmid a ha)
  | publish o k ih => exact ih hp hmid.2
  | timeout => trivial

theorem Effort.loop {body : S → Proc Q A O (S ⊕ R)} (inv : Nat → S → Prop) (a r : Nat → Nat)
    (heffort : ∀ n s, inv n s → (body s).Effort c (a n) (r n))
    (hbody : ∀ n s, inv n s → (body s).Ensures c (Sum.elim (inv (n + 1)) fun _ => True))
    (fuel n : Nat) {s : S} (hs : inv n s) :
    (Proc.loop body fuel s).Effort c (∑ k ∈ Finset.range fuel, a (n + k))
      (∑ k ∈ Finset.range fuel, r (n + k)) := by
  induction fuel generalizing n s with
  | zero => trivial
  | succ fuel ih =>
    have hshift : ∀ g : Nat → Nat, ∑ k ∈ Finset.range (fuel + 1), g (n + k) =
        g n + ∑ k ∈ Finset.range fuel, g (n + 1 + k) := by
      intro g
      rw [Finset.sum_range_succ', add_comm]
      simp only [Nat.add_zero, Nat.add_comm 1, Nat.add_assoc]
    rw [hshift a, hshift r]
    apply (heffort n s hs).bind (hbody n s hs)
    rintro (s' | b) hr
    · exact ih (n + 1) hr
    · trivial

end Rules

def cost (eval : Q → A) (flag : Nat → Bool) : Proc Q A O R → Nat → Nat × Nat
  | done _, _ => (0, 0)
  | poll k, i =>
      let rest := (k (flag i)).cost eval flag (i + 1)
      (rest.1, rest.2 + 1)
  | ask q k, i =>
      let rest := (k (eval q)).cost eval flag i
      (rest.1 + 1, rest.2)
  | publish _ k, i => k.cost eval flag i
  | timeout, _ => (0, 0)

section Runs

variable {c : Contract Q A O} {p : Proc Q A O R} {f : R → Proc Q A O S} {eval : Q → A}
  {flag : Nat → Bool} {asks reads : Nat} {mid : R → Prop}

theorem Effort.cost_le {i : Nat} (hp : p.Effort c asks reads) (hflag : ∀ j ≥ i, c.reads (flag j))
    (hanswers : ∀ q, c.answers q (eval q)) :
    (p.cost eval flag i).1 ≤ asks ∧ (p.cost eval flag i).2 ≤ reads := by
  induction p generalizing asks reads i with
  | done r => exact ⟨Nat.zero_le _, Nat.zero_le _⟩
  | poll k ih =>
    cases reads with
    | zero => exact absurd hp id
    | succ reads =>
      have hrest := ih (flag i) (hp _ (hflag i le_rfl)) fun j hj => hflag j (Nat.le_of_succ_le hj)
      exact ⟨hrest.1, Nat.succ_le_succ hrest.2⟩
  | ask q k ih =>
    cases asks with
    | zero => exact absurd hp id
    | succ asks =>
      have hrest := ih (eval q) (hp _ (hanswers q)) hflag
      exact ⟨Nat.succ_le_succ hrest.1, hrest.2⟩
  | publish o k ih => exact ih hp hflag
  | timeout => exact ⟨Nat.zero_le _, Nat.zero_le _⟩

/-- If the flag stays true, at most `need` reads come before the first value published. -/
def PublishesBy (eval : Q → A) (need : Nat) (p : Proc Q A O R) : Prop :=
  ∀ n, p.firstPublish eval = some n → n ≤ need

theorem publishesBy_publish (o : O) (p : Proc Q A O R) : (publish o p).PublishesBy eval 0 := by
  intro n hn
  exact (Option.some.inj hn).ge

theorem PublishesBy.poll {need : Nat} {k : Bool → Proc Q A O R}
    (h : (k true).PublishesBy eval need) : (poll k).PublishesBy eval (need + 1) := by
  intro n hn
  rw [firstPublish, Option.map_eq_some_iff] at hn
  obtain ⟨n, hn, rfl⟩ := hn
  exact Nat.succ_le_succ (h n hn)

/-- The reads of a part that may publish nothing add to those before the first value of the next. -/
theorem Effort.publishesBy {need : Nat} (hp : p.Effort c asks reads) (hmid : p.Ensures c mid)
    (hreads : c.reads true) (hanswers : ∀ q, c.answers q (eval q))
    (hf : ∀ r, mid r → (f r).PublishesBy eval need) :
    (p.bind f).PublishesBy eval (reads + need) := by
  induction p generalizing asks reads with
  | done r => exact fun n hn => (hf r hmid n hn).trans (Nat.le_add_left _ _)
  | poll k ih =>
    cases reads with
    | zero => exact absurd hp id
    | succ reads =>
      rw [Nat.add_right_comm]
      exact (ih true (hp true hreads) (hmid true hreads)).poll
  | ask q k ih =>
    cases asks with
    | zero => exact absurd hp id
    | succ asks => exact ih (eval q) (hp _ (hanswers q)) (hmid _ (hanswers q))
  | publish o k ih => exact fun n hn => (publishesBy_publish o _ n hn).trans (Nat.zero_le _)
  | timeout => nofun

end Runs

end Proc
