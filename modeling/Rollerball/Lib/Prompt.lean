import Rollerball.Lib.Effort

/-!
# Threads that stop promptly

A thread that has read the flag as false may still ask the oracle and read the flag before it
returns. How often it does is bounded rule by rule: a part that is stopped is followed by parts that
start with the flag down.
-/

universe u

namespace Proc

variable {Q A O R S : Type u}

/-- The flag is down, and anything may be published. -/
def down : Contract Q A O := ⟨fun search => search = false, fun _ _ => True, fun _ => True, True⟩

/-- With the flag down, the thread asks at most `asks` questions and reads at most `reads` times. -/
abbrev Settles (p : Proc Q A O R) (asks reads : Nat) : Prop := p.Effort down asks reads

/-- After the first read that gives false the thread asks at most `asks` questions and reads at
most `reads` times. A thread that is not stopped returns a result that satisfies `post`. -/
def Prompt (asks reads : Nat) (post : R → Prop) : Proc Q A O R → Prop
  | done r => post r
  | poll k => (k false).Settles asks reads ∧ (k true).Prompt asks reads post
  | ask _ k => ∀ a, (k a).Prompt asks reads post
  | publish _ k => k.Prompt asks reads post
  | timeout => True

section Rules

variable {p : Proc Q A O R} {f : R → Proc Q A O S} {asks asks' reads reads' : Nat}
  {post mid : R → Prop}

theorem ensures_down (p : Proc Q A O R) : p.Ensures down fun _ => True := by
  induction p with
  | done r => trivial
  | poll k ih => exact fun search _ => ih search
  | ask q k ih => exact fun a _ => ih a
  | publish o k ih => exact ⟨trivial, ih⟩
  | timeout => trivial

theorem Settles.bind (hp : p.Settles asks reads) (hf : ∀ r, (f r).Settles asks' reads') :
    (p.bind f).Settles (asks + asks') (reads + reads') :=
  Effort.bind hp (ensures_down p) fun r _ => hf r

theorem Prompt.mono {post' : R → Prop} (h : p.Prompt asks reads post) (hasks : asks ≤ asks')
    (hreads : reads ≤ reads') (hpost : ∀ r, post r → post' r) : p.Prompt asks' reads' post' := by
  induction p with
  | done r => exact hpost r h
  | poll k ih => exact ⟨h.1.mono hasks hreads, ih true h.2⟩
  | ask q k ih => exact fun a => ih a (h a)
  | publish o k ih => exact ih h
  | timeout => trivial

/-- A thread is followed by a part that settles, wherever it is stopped, and that is prompt itself
on the results of a thread that is not stopped. -/
theorem Prompt.bind {post : S → Prop} (hp : p.Prompt asks reads mid)
    (hsettles : ∀ r, (f r).Settles asks' reads')
    (hf : ∀ r, mid r → (f r).Prompt (asks + asks') (reads + reads') post) :
    (p.bind f).Prompt (asks + asks') (reads + reads') post := by
  induction p with
  | done r => exact hf r hp
  | poll k ih => exact ⟨hp.1.bind hsettles, ih true hp.2⟩
  | ask q k ih => exact fun a => ih a (hp a)
  | publish o k ih => exact ih hp
  | timeout => trivial

theorem Prompt.map (hp : p.Prompt asks reads fun _ => True) (g : R → S) :
    (p.bind fun r => done (g r)).Prompt asks reads fun _ => True := by
  show (p.bind fun r => done (g r)).Prompt (asks + 0) (reads + 0) _
  exact hp.bind (fun _ => trivial) fun _ _ => trivial

theorem Prompt.then {post : S → Prop} (hp : p.Prompt 0 0 mid)
    (hsettles : ∀ r, (f r).Settles asks reads) (hf : ∀ r, mid r → (f r).Prompt asks reads post) :
    (p.bind f).Prompt asks reads post := by
  have hbind : (∀ r, mid r → (f r).Prompt (0 + asks) (0 + reads) post) →
      (p.bind f).Prompt (0 + asks) (0 + reads) post := hp.bind hsettles
  rw [Nat.zero_add, Nat.zero_add] at hbind
  exact hbind hf

theorem Prompt.thenRead {post : S → Prop} (hp : p.Prompt asks reads mid)
    (hstop : ∀ r, (f r).Settles 0 1) (hf : ∀ r, mid r → (f r).Prompt asks (reads + 1) post) :
    (p.bind f).Prompt asks (reads + 1) post := by
  show (p.bind f).Prompt (asks + 0) (reads + 1) post
  exact hp.bind hstop hf

end Rules

def costStopped (eval : Q → A) (flag : Nat → Bool) : Proc Q A O R → Nat → Nat × Nat
  | done _, _ => (0, 0)
  | poll k, i =>
      if flag i then (k true).costStopped eval flag (i + 1)
      else (k false).cost eval flag (i + 1)
  | ask q k, i => (k (eval q)).costStopped eval flag i
  | publish _ k, i => k.costStopped eval flag i
  | timeout, _ => (0, 0)

section Run

variable {eval : Q → A} {flag : Nat → Bool} {p : Proc Q A O R} {i asks reads : Nat}
  {post : R → Prop}

theorem Prompt.costStopped_le (hp : p.Prompt asks reads post) (h : Falls flag) :
    (p.costStopped eval flag i).1 ≤ asks ∧ (p.costStopped eval flag i).2 ≤ reads := by
  induction p generalizing i with
  | done r => exact ⟨Nat.zero_le _, Nat.zero_le _⟩
  | poll k ih =>
    rw [costStopped]
    cases hi : flag i with
    | true => exact ih true hp.2
    | false => exact hp.1.cost_le (fun j hj => h.of_le (Nat.le_of_succ_le hj) hi) fun _ => trivial
  | ask q k ih => exact ih (eval q) (hp _)
  | publish o k ih => exact ih hp
  | timeout => exact ⟨Nat.zero_le _, Nat.zero_le _⟩

end Run

end Proc
