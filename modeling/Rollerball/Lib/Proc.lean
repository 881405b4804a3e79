import Mathlib.Data.List.Infix

/-!
# Interruptible threads

A thread reads a stop flag it does not own, asks an oracle, and publishes values to a shared cell.
Its runs are finite trees of such actions. The rules below reason about every run, about runs in
which the flag falls at some read, and about what is published before it does.
-/

universe u

/-- A thread with questions `Q`, answers `A`, published values `O` and result `R`. -/
inductive Proc (Q A O R : Type u)
  | done (r : R)
  | poll (k : Bool → Proc Q A O R)
  | ask (q : Q) (k : A → Proc Q A O R)
  | publish (o : O) (k : Proc Q A O R)
  | timeout

namespace Proc

variable {Q A O R S T : Type u}

def bind : Proc Q A O R → (R → Proc Q A O S) → Proc Q A O S
  | done r, f => f r
  | poll k, f => poll fun search => (k search).bind f
  | ask q k, f => ask q fun a => (k a).bind f
  | publish o k, f => publish o (k.bind f)
  | timeout, _ => timeout

instance : Monad (Proc Q A O) where
  pure := done
  bind := bind

@[simp] theorem pure_eq (r : R) : (pure r : Proc Q A O R) = done r := rfl

@[simp] theorem bind_eq (p : Proc Q A O R) (f : R → Proc Q A O S) : p >>= f = p.bind f := rfl

@[simp] theorem bind_done (r : R) (f : R → Proc Q A O S) : (done r).bind f = f r := rfl

@[simp] theorem bind_poll (k : Bool → Proc Q A O R) (f : R → Proc Q A O S) :
    (poll k).bind f = poll fun search => (k search).bind f := rfl

@[simp] theorem bind_publish (o : O) (k : Proc Q A O R) (f : R → Proc Q A O S) :
    (publish o k).bind f = publish o (k.bind f) := rfl

theorem bind_assoc (p : Proc Q A O R) (f : R → Proc Q A O S) (g : S → Proc Q A O T) :
    (p.bind f).bind g = p.bind fun r => (f r).bind g := by
  induction p with
  | done r => rfl
  | poll k ih => exact congrArg poll (funext fun search => ih search)
  | ask q k ih => exact congrArg (ask q) (funext fun a => ih a)
  | publish o k ih => exact congrArg (publish o) ih
  | timeout => rfl

/-- What a thread may read and be answered, what it then may publish, and whether it may run out
of fuel. -/
structure Contract (Q A O : Type u) where
  reads : Bool → Prop
  answers : Q → A → Prop
  publishes : O → Prop
  timeouts : Prop

/-- Every run that reads and is answered as the contract says publishes as it says, and returns
only results that satisfy `post`. -/
def Ensures (c : Contract Q A O) (post : R → Prop) : Proc Q A O R → Prop
  | done r => post r
  | poll k => ∀ search, c.reads search → (k search).Ensures c post
  | ask q k => ∀ a, c.answers q a → (k a).Ensures c post
  | publish o k => c.publishes o ∧ k.Ensures c post
  | timeout => c.timeouts

section Ensures

variable {c c' : Contract Q A O} {post post' : R → Prop} {p : Proc Q A O R}

theorem Ensures.bind {mid : R → Prop} {post : S → Prop} {f : R → Proc Q A O S}
    (hp : p.Ensures c mid) (hf : ∀ r, mid r → (f r).Ensures c post) :
    (p.bind f).Ensures c post := by
  induction p with
  | done r => exact hf r hp
  | poll k ih => exact fun search hsearch => ih search (hp search hsearch)
  | ask q k ih => exact fun a ha => ih a (hp a ha)
  | publish o k ih => exact ⟨hp.1, ih hp.2⟩
  | timeout => exact hp

/-- `c'` allows fewer reads and answers than `c`, and at least its effects. -/
structure Contract.Le (c c' : Contract Q A O) : Prop where
  reads : ∀ search, c'.reads search → c.reads search
  answers : ∀ q a, c'.answers q a → c.answers q a
  publishes : ∀ o, c.publishes o → c'.publishes o
  timeouts : c.timeouts → c'.timeouts

theorem Ensures.mono (hp : p.Ensures c post) (hc : c.Le c') (hpost : ∀ r, post r → post' r) :
    p.Ensures c' post' := by
  induction p with
  | done r => exact hpost r hp
  | poll k ih => exact fun search hsearch => ih search (hp search (hc.reads search hsearch))
  | ask q k ih => exact fun a ha => ih a (hp a (hc.answers q a ha))
  | publish o k ih => exact ⟨hc.publishes o hp.1, ih hp.2⟩
  | timeout => exact hc.timeouts hp

theorem Ensures.imp (hp : p.Ensures c post) (hpost : ∀ r, post r → post' r) :
    p.Ensures c post' :=
  hp.mono ⟨fun _ => id, fun _ _ => id, fun _ => id, id⟩ hpost

theorem Ensures.and (hp : p.Ensures c post) (hp' : p.Ensures c post') :
    p.Ensures c fun r => post r ∧ post' r := by
  induction p with
  | done r => exact ⟨hp, hp'⟩
  | poll k ih => exact fun search hsearch => ih search (hp search hsearch) (hp' search hsearch)
  | ask q k ih => exact fun a ha => ih a (hp a ha) (hp' a ha)
  | publish o k ih => exact ⟨hp.1, ih hp.2 hp'.2⟩
  | timeout => exact hp

end Ensures

def anything : Contract Q A O := ⟨fun _ => True, fun _ _ => True, fun _ => True, True⟩

def total : Contract Q A O := ⟨fun _ => True, fun _ _ => True, fun _ => True, False⟩

def noPublish : Contract Q A O := ⟨fun _ => True, fun _ _ => True, fun _ => False, True⟩

/-- The flag has fallen: it is read as false, and nothing is published any more. -/
def stopped : Contract Q A O :=
  ⟨fun search => search = false, fun _ _ => True, fun _ => False, True⟩

/-- A thread that publishes nothing once the flag has fallen. -/
def Quiet (p : Proc Q A O R) : Prop := p.Ensures stopped fun _ => True

/-- A thread that never publishes. -/
def Silent (p : Proc Q A O R) : Prop := p.Ensures noPublish fun _ => True

/-- From whichever read on the flag is false, the thread publishes nothing more. -/
def Disciplined : Proc Q A O R → Prop
  | done _ => True
  | poll k => (k false).Quiet ∧ (k true).Disciplined
  | ask _ k => ∀ a, (k a).Disciplined
  | publish _ k => k.Disciplined
  | timeout => True

section Discipline

variable {p : Proc Q A O R} {f : R → Proc Q A O S}

theorem Silent.quiet (hp : p.Silent) : p.Quiet :=
  hp.mono ⟨fun _ _ => trivial, fun _ _ => id, fun _ => id, id⟩ fun _ => id

theorem Quiet.bind (hp : p.Quiet) (hf : ∀ r, (f r).Quiet) : (p.bind f).Quiet :=
  Ensures.bind hp fun r _ => hf r

theorem Silent.disciplined (hp : p.Silent) : p.Disciplined := by
  induction p with
  | done r => trivial
  | poll k ih => exact ⟨Silent.quiet (hp false trivial), ih true (hp true trivial)⟩
  | ask q k ih => exact fun a => ih a (hp a trivial)
  | publish o k ih => exact absurd hp.1 id
  | timeout => trivial

/-- What follows a thread must be quiet whatever the thread returns, since a thread that is cut
short may return anything. -/
theorem Disciplined.bind (hp : p.Disciplined) (hquiet : ∀ r, (f r).Quiet)
    (hf : ∀ r, (f r).Disciplined) : (p.bind f).Disciplined := by
  induction p with
  | done r => exact hf r
  | poll k ih => exact ⟨hp.1.bind hquiet, ih true hp.2⟩
  | ask q k ih => exact fun a => ih a (hp a)
  | publish o k ih => exact ih hp
  | timeout => trivial

end Discipline

/-- What a run publishes, what it returns if it ends, and the index of the next read. -/
structure Outcome (O R : Type u) where
  stored : List O
  result : Option R
  reads : Nat

/-- The run in which the oracle computes `eval` and read number `i` of the flag gives `flag i`. -/
def run (eval : Q → A) (flag : Nat → Bool) : Proc Q A O R → Nat → Outcome O R
  | done r, i => ⟨[], some r, i⟩
  | poll k, i => (k (flag i)).run eval flag (i + 1)
  | ask q k, i => (k (eval q)).run eval flag i
  | publish o k, i =>
      let out := k.run eval flag i
      { out with stored := o :: out.stored }
  | timeout, i => ⟨[], none, i⟩

section Run

variable {eval : Q → A} {flag : Nat → Bool} {p : Proc Q A O R} {f : R → Proc Q A O S}
  {i j : Nat} {l : List O} {r : R}

@[simp] theorem run_done : (done r : Proc Q A O R).run eval flag i = ⟨[], some r, i⟩ := rfl

@[simp] theorem run_timeout : (timeout : Proc Q A O R).run eval flag i = ⟨[], none, i⟩ := rfl

@[simp] theorem run_poll {k : Bool → Proc Q A O R} :
    (poll k).run eval flag i = (k (flag i)).run eval flag (i + 1) := rfl

@[simp] theorem run_ask {q : Q} {k : A → Proc Q A O R} :
    (ask q k).run eval flag i = (k (eval q)).run eval flag i := rfl

@[simp] theorem run_publish {o : O} {k : Proc Q A O R} :
    (publish o k).run eval flag i =
      ⟨o :: (k.run eval flag i).stored, (k.run eval flag i).result,
        (k.run eval flag i).reads⟩ := rfl

theorem run_bind_some (hp : p.run eval flag i = ⟨l, some r, j⟩) :
    (p.bind f).run eval flag i =
      ⟨l ++ ((f r).run eval flag j).stored, ((f r).run eval flag j).result,
        ((f r).run eval flag j).reads⟩ := by
  induction p generalizing i l with
  | done r' =>
    obtain ⟨rfl, rfl, rfl⟩ := (by simpa using hp : [] = l ∧ r' = r ∧ i = j)
    rfl
  | poll k ih => exact ih (flag i) hp
  | ask q k ih => exact ih (eval q) hp
  | publish o k ih =>
    obtain ⟨rfl, hresult, hreads⟩ := (by simpa using hp :
      o :: (k.run eval flag i).stored = l ∧ (k.run eval flag i).result = some r ∧
        (k.run eval flag i).reads = j)
    have hk : k.run eval flag i = ⟨(k.run eval flag i).stored, some r, j⟩ := by
      rw [← hresult, ← hreads]
    rw [bind_publish, run_publish, ih hk]
    rfl
  | timeout => simp at hp

theorem run_bind_none (hp : p.run eval flag i = ⟨l, none, j⟩) :
    (p.bind f).run eval flag i = ⟨l, none, j⟩ := by
  induction p generalizing i l with
  | done r' => simp at hp
  | poll k ih => exact ih (flag i) hp
  | ask q k ih => exact ih (eval q) hp
  | publish o k ih =>
    obtain ⟨rfl, hresult, hreads⟩ := (by simpa using hp :
      o :: (k.run eval flag i).stored = l ∧ (k.run eval flag i).result = none ∧
        (k.run eval flag i).reads = j)
    have hk : k.run eval flag i = ⟨(k.run eval flag i).stored, none, j⟩ := by
      rw [← hresult, ← hreads]
    rw [bind_publish, run_publish, ih hk]
  | timeout =>
    obtain ⟨rfl, rfl⟩ := (by simpa using hp : l = [] ∧ i = j)
    rfl

theorem le_reads : i ≤ (p.run eval flag i).reads := by
  induction p generalizing i with
  | done r => exact le_rfl
  | poll k ih => exact (Nat.le_succ i).trans (ih (flag i))
  | ask q k ih => exact ih (eval q)
  | publish o k ih => exact ih
  | timeout => exact le_rfl

theorem le_of_run {o : Option R} (hrun : p.run eval flag i = ⟨l, o, j⟩) : i ≤ j := by
  have hle : i ≤ (p.run eval flag i).reads := le_reads
  rwa [hrun] at hle

theorem run_of_result (hresult : (p.run eval flag i).result ≠ none) :
    ∃ l r j, p.run eval flag i = ⟨l, some r, j⟩ := by
  obtain ⟨r, hr⟩ := Option.ne_none_iff_exists'.mp hresult
  exact ⟨_, r, _, by rw [← hr]⟩

/-- A run keeps every guarantee of a contract that allows its reads and answers. -/
theorem Ensures.run {c : Contract Q A O} {post : R → Prop} (hp : p.Ensures c post)
    (hreads : ∀ i, c.reads (flag i)) (hanswers : ∀ q, c.answers q (eval q)) :
    (∀ o ∈ (p.run eval flag i).stored, c.publishes o) ∧
      (∀ r, (p.run eval flag i).result = some r → post r) ∧
      ((p.run eval flag i).result = none → c.timeouts) := by
  induction p generalizing i with
  | done r =>
    refine ⟨fun o ho => absurd ho List.not_mem_nil, fun r' hr' => ?_, fun hr => ?_⟩
    · rwa [← Option.some.inj hr']
    · exact absurd hr (by simp)
  | poll k ih => exact ih (flag i) (hp _ (hreads i))
  | ask q k ih => exact ih (eval q) (hp _ (hanswers q))
  | publish o k ih =>
    obtain ⟨hstored, hresult⟩ := @ih i hp.2
    refine ⟨fun o' ho' => ?_, hresult⟩
    rcases List.mem_cons.mp ho' with rfl | hrest
    · exact hp.1
    · exact hstored o' hrest
  | timeout =>
    exact ⟨fun o ho => absurd ho List.not_mem_nil, fun r hr => by simp at hr, fun _ => hp⟩

/-- The flag, once false, stays false. -/
def Falls (flag : Nat → Bool) : Prop := ∀ i, flag i = false → flag (i + 1) = false

theorem Falls.of_le (h : Falls flag) (hij : i ≤ j) (hi : flag i = false) : flag j = false := by
  induction hij with
  | refl => exact hi
  | step _ ih => exact h _ ih

theorem Quiet.stored_nil (hp : p.Quiet) (h : Falls flag) (hi : flag i = false) :
    (p.run eval flag i).stored = [] := by
  induction p generalizing i with
  | done r => rfl
  | poll k ih => exact ih (flag i) (hp _ hi) (h i hi)
  | ask q k ih => exact ih (eval q) (hp _ trivial) hi
  | publish o k ih => exact absurd hp.1 id
  | timeout => rfl

/-- A disciplined thread that is stopped has published a prefix of what it would have. -/
theorem Disciplined.stored_initial (hp : p.Disciplined) (h : Falls flag) :
    (p.run eval flag i).stored <+: (p.run eval (fun _ => true) i).stored := by
  induction p generalizing i with
  | done r => exact List.prefix_rfl
  | poll k ih =>
    cases hi : flag i with
    | true =>
      rw [run_poll, run_poll, hi]
      exact ih true hp.2
    | false =>
      rw [run_poll, hi, hp.1.stored_nil h (h i hi)]
      exact List.nil_prefix
  | ask q k ih => exact ih (eval q) (hp _)
  | publish o k ih => exact (List.prefix_cons_inj o).mpr (ih hp)
  | timeout => exact List.prefix_rfl

end Run

/-- Run from any read on with the flag always true, the thread publishes `l` and returns `r`. -/
def Yields (eval : Q → A) (p : Proc Q A O R) (l : List O) (r : R) : Prop :=
  ∀ i, ∃ j, p.run eval (fun _ => true) i = ⟨l, some r, j⟩

section Yields

variable {eval : Q → A} {p : Proc Q A O R} {f : R → Proc Q A O S} {l l' : List O} {r : R} {r' : S}

theorem yields_done (r : R) : (done r : Proc Q A O R).Yields eval [] r := fun i => ⟨i, rfl⟩

theorem Yields.poll {k : Bool → Proc Q A O R} (h : (k true).Yields eval l r) :
    (Proc.poll k).Yields eval l r := fun i => h (i + 1)

theorem Yields.ask {q : Q} {k : A → Proc Q A O R} (h : (k (eval q)).Yields eval l r) :
    (Proc.ask q k).Yields eval l r := h

theorem Yields.publish {o : O} {k : Proc Q A O R} (h : k.Yields eval l r) :
    (Proc.publish o k).Yields eval (o :: l) r := by
  intro i
  obtain ⟨j, hj⟩ := h i
  exact ⟨j, by rw [run_publish, hj]⟩

theorem Yields.bind (hp : p.Yields eval l r) (hf : (f r).Yields eval l' r') :
    (p.bind f).Yields eval (l ++ l') r' := by
  intro i
  obtain ⟨j, hj⟩ := hp i
  obtain ⟨j', hj'⟩ := hf j
  exact ⟨j', by rw [run_bind_some hj, hj']⟩

theorem Yields.bind_nil (hp : p.Yields eval [] r) (hf : (f r).Yields eval l' r') :
    (p.bind f).Yields eval l' r' :=
  hp.bind hf

end Yields

/-- A loop whose body decides whether to go round again, for at most `fuel` rounds. -/
def loop (body : S → Proc Q A O (S ⊕ R)) : Nat → S → Proc Q A O R
  | 0, _ => timeout
  | fuel + 1, s => (body s).bind fun
      | .inl s' => loop body fuel s'
      | .inr r => done r

section Loop

variable {body : S → Proc Q A O (S ⊕ R)} {eval : Q → A} {flag : Nat → Bool}

theorem Ensures.loop {c : Contract Q A O} {post : R → Prop} (inv : S → Prop)
    (htimeouts : c.timeouts) (hbody : ∀ s, inv s → (body s).Ensures c (Sum.elim inv post))
    (fuel : Nat) {s : S} (hs : inv s) : (loop body fuel s).Ensures c post := by
  induction fuel generalizing s with
  | zero => exact htimeouts
  | succ fuel ih =>
    apply (hbody s hs).bind
    intro r hr
    cases r with
    | inl s' => exact ih hr
    | inr r => exact hr

theorem Quiet.loop (hquiet : ∀ s, (body s).Quiet) (fuel : Nat) (s : S) :
    (loop body fuel s).Quiet := by
  induction fuel generalizing s with
  | zero => trivial
  | succ fuel ih =>
    apply (hquiet s).bind
    intro r
    cases r with
    | inl s' => exact ih s'
    | inr r => exact trivial

theorem Disciplined.loop (hquiet : ∀ s, (body s).Quiet) (hbody : ∀ s, (body s).Disciplined)
    (fuel : Nat) (s : S) : (loop body fuel s).Disciplined := by
  induction fuel generalizing s with
  | zero => trivial
  | succ fuel ih =>
    apply (hbody s).bind
    · intro r
      cases r with
      | inl s' => exact Quiet.loop hquiet fuel s'
      | inr r => exact trivial
    · intro r
      cases r with
      | inl s' => exact ih s'
      | inr r => exact trivial

theorem run_loop_mono {fuel fuel' : Nat} (hfuel : fuel ≤ fuel') {s : S} {i : Nat}
    (hend : ((loop body fuel s).run eval flag i).result ≠ none) :
    (loop body fuel' s).run eval flag i = (loop body fuel s).run eval flag i := by
  induction fuel generalizing fuel' s i with
  | zero => exact absurd rfl hend
  | succ fuel ih =>
    obtain ⟨fuel', rfl⟩ : ∃ n, fuel' = n + 1 := ⟨fuel' - 1, by omega⟩
    rcases hround : (body s).run eval flag i with ⟨l, _ | r, j⟩
    · simp only [loop, run_bind_none hround]
    · simp only [loop, run_bind_some hround] at hend ⊢
      cases r with
      | inl s' => rw [ih (Nat.le_of_succ_le_succ hfuel) hend]
      | inr r => rfl

/-- A loop whose rounds end, and go on only when they have read the flag as true, ends once the
flag has fallen. -/
theorem loop_ends (inv : S → Prop)
    (hround : ∀ s i, inv s → ((body s).run eval flag i).result ≠ none)
    (hreads : ∀ s i s', inv s → ((body s).run eval flag i).result = some (.inl s') →
      inv s' ∧ flag i = true ∧ i < ((body s).run eval flag i).reads)
    {n : Nat} (h : Falls flag) (hn : flag n = false) {s : S} (hs : inv s) (i : Nat) :
    ∃ fuel, ((loop body fuel s).run eval flag i).result ≠ none := by
  -- the reads that may still give true bound the rounds that are left
  generalize hgap : n - i = gap
  induction gap using Nat.strong_induction_on generalizing i s with
  | _ gap ih =>
    obtain ⟨l, r, j, hrun⟩ := run_of_result (hround s i hs)
    cases r with
    | inl s' =>
      obtain ⟨hs', hflag, hlt⟩ := hreads s i s' hs (by rw [hrun])
      have hi : i < n := by
        by_contra hle
        rw [h.of_le (not_lt.mp hle) hn] at hflag
        exact absurd hflag (by decide)
      rw [hrun] at hlt
      obtain ⟨fuel, hfuel⟩ := ih (n - j) (by simp only at hlt; omega) hs' j rfl
      refine ⟨fuel + 1, ?_⟩
      rw [loop, run_bind_some hrun]
      exact hfuel
    | inr r =>
      refine ⟨1, ?_⟩
      rw [loop, run_bind_some hrun]
      simp

end Loop

end Proc
