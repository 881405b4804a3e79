import Rollerball.Lib.Polled
import Mathlib.Logic.Relation

/-!
# Stepping a thread

A thread that goes round a loop takes one action at a time, while others may lower the flag between
two of its actions. Whether it publishes at all before it ends is decided by how many reads it has
made when the flag falls.
-/

universe u

namespace Proc

variable {Q A O R S : Type u}

/-- The number of reads a thread makes before it first publishes, if the flag stays true. -/
def firstPublish (eval : Q → A) : Proc Q A O R → Option Nat
  | done _ => none
  | poll k => ((k true).firstPublish eval).map (· + 1)
  | ask q k => (k (eval q)).firstPublish eval
  | publish _ _ => some 0
  | timeout => none

section FirstPublish

variable {eval : Q → A} {c : Contract Q A O} {mid : R → Prop} {p : Proc Q A O R}
  {f : R → Proc Q A O S}

theorem firstPublish_poll {k : Bool → Proc Q A O R}
    (h : ((k true).firstPublish eval).isSome) : ((poll k).firstPublish eval).isSome := by
  rw [firstPublish, Option.isSome_map]
  exact h

theorem firstPublish_bind (hp : (p.firstPublish eval).isSome) :
    ((p.bind f).firstPublish eval).isSome := by
  induction p with
  | done r => cases hp
  | poll k ih =>
    rw [firstPublish, Option.isSome_map] at hp
    exact firstPublish_poll (ih true hp)
  | ask q k ih => exact ih (eval q) hp
  | publish o k ih => rfl
  | timeout => cases hp

theorem Ensures.firstPublish_bind (hp : p.Ensures c mid) (hreads : c.reads true)
    (hanswers : ∀ q, c.answers q (eval q)) (htimeouts : ¬c.timeouts)
    (hf : ∀ r, mid r → ((f r).firstPublish eval).isSome) :
    ((p.bind f).firstPublish eval).isSome := by
  induction p with
  | done r => exact hf r hp
  | poll k ih => exact firstPublish_poll (ih true (hp true hreads))
  | ask q k ih => exact ih (eval q) (hp _ (hanswers q))
  | publish o k ih => rfl
  | timeout => exact absurd hp htimeouts

theorem stored_of_firstPublish {flag : Nat → Bool} {i k : Nat}
    (hp : p.firstPublish eval = some k) (hflag : Holds flag i (i + k)) :
    ((p.bind f).run eval flag i).stored ≠ [] := by
  induction p generalizing i k with
  | done r => cases hp
  | poll next ih =>
    obtain ⟨k, hk, rfl⟩ := Option.map_eq_some_iff.mp hp
    rw [bind_poll, run_poll, hflag i le_rfl (by omega)]
    refine ih true hk ((hflag.from (Nat.le_succ i)).mono ?_)
    omega
  | ask q next ih => exact ih (eval q) hp hflag
  | publish o next ih => exact List.cons_ne_nil _ _
  | timeout => cases hp

end FirstPublish

/-- What one action does outside the thread. -/
inductive Effect (O : Type u)
  | read
  | silent
  | store (o : O)

/-- One action of a thread that reads the flag as `flag`, or its return to the start of its loop. -/
inductive Step (body : S → Proc Q A O (S ⊕ R)) (eval : Q → A) (flag : Bool) :
    Proc Q A O (S ⊕ R) → Effect O → Proc Q A O (S ⊕ R) → Prop
  | read (k : Bool → Proc Q A O (S ⊕ R)) : Step body eval flag (poll k) .read (k flag)
  | ask (q : Q) (k : A → Proc Q A O (S ⊕ R)) : Step body eval flag (ask q k) .silent (k (eval q))
  | store (o : O) (k : Proc Q A O (S ⊕ R)) : Step body eval flag (publish o k) (.store o) k
  | round (s : S) : Step body eval flag (done (.inl s)) .silent (body s)

/-- What can be seen of a thread from outside: how many reads gave true, and its last store. -/
structure Seen (O : Type u) where
  reads : Nat
  stored : Option O

namespace Seen

def fresh : Seen O := ⟨0, none⟩

def after (seen : Seen O) (flag : Bool) : Effect O → Seen O
  | .read => { seen with reads := seen.reads + flag.toNat }
  | .silent => seen
  | .store o => { seen with stored := some o }

@[simp] theorem after_reads_false (seen : Seen O) (e : Effect O) :
    (seen.after false e).reads = seen.reads := by
  cases e <;> rfl

end Seen

section Loop

variable {body : S → Proc Q A O (S ⊕ R)} {eval : Q → A} {c : Contract Q A O} {inv : S → Prop}
  {need : Nat} {flag : Bool} {seen : Seen O} {p p' : Proc Q A O (S ⊕ R)}

/-- A body whose rounds keep the invariant on reads that give true, and publish nothing once the
flag has fallen. -/
structure Stoppable (body : S → Proc Q A O (S ⊕ R)) (c : Contract Q A O) (inv : S → Prop) :
    Prop where
  quiet : ∀ s, (body s).Quiet
  disciplined : ∀ s, (body s).Disciplined
  ensures : ∀ s, inv s → (body s).Ensures c (Sum.elim inv fun _ => True)

/-- Where a thread can be that needs `need` reads to publish. -/
inductive Stage (eval : Q → A) (c : Contract Q A O) (inv : S → Prop) (need : Nat) (flag : Bool)
    (seen : Seen O) (p : Proc Q A O (S ⊕ R)) : Prop
  /-- Every read so far gave true. -/
  | undisturbed (hdisciplined : p.Disciplined)
      (hensures : p.Ensures c (Sum.elim inv fun _ => True))
      (hpending : seen.stored = none → ∃ k, p.firstPublish eval = some k ∧ seen.reads + k = need)
  /-- A read has given false. -/
  | interrupted (hflag : flag = false) (hquiet : p.Quiet)
      (hearly : seen.stored = none → seen.reads < need)

/-- What has been stored is allowed, and was stored after the reads it needs. -/
structure Sound (eval : Q → A) (c : Contract Q A O) (inv : S → Prop) (need : Nat) (flag : Bool)
    (seen : Seen O) (p : Proc Q A O (S ⊕ R)) : Prop where
  stored : ∀ o, seen.stored = some o → c.publishes o ∧ need ≤ seen.reads
  stage : Stage eval c inv need flag seen p

theorem Sound.start (hbody : Stoppable body c inv) {s : S} (hs : inv s)
    (hneed : (body s).firstPublish eval = some need) :
    Sound eval c inv need flag .fresh (body s) where
  stored := fun o ho => by cases ho
  stage := .undisturbed (hbody.disciplined s) (hbody.ensures s hs) fun _ =>
    ⟨need, hneed, Nat.zero_add need⟩

theorem Sound.lower (h : Sound eval c inv need flag seen p) :
    Sound eval c inv need false seen p where
  stored := h.stored
  stage := by
    cases h.stage with
    | undisturbed hdisciplined hensures hpending =>
      exact .undisturbed hdisciplined hensures hpending
    | interrupted _ hquiet hearly => exact .interrupted rfl hquiet hearly

section Actions

variable {k : Bool → Proc Q A O (S ⊕ R)} {q : Q} {ka : A → Proc Q A O (S ⊕ R)} {o : O} {s : S}

theorem Sound.read (hreads : c.reads true) (h : Sound eval c inv need flag seen (poll k)) :
    Sound eval c inv need flag (seen.after flag .read) (k flag) where
  stored := by
    intro o ho
    have hstored := h.stored o ho
    exact ⟨hstored.1, hstored.2.trans (Nat.le_add_right _ _)⟩
  stage := by
    cases h.stage with
    | undisturbed hdisciplined hensures hpending =>
      have hnext : seen.stored = none →
          ∃ n, (k true).firstPublish eval = some n ∧ seen.reads + (n + 1) = need := by
        intro hnone
        obtain ⟨n, hn, hneed⟩ := hpending hnone
        rw [firstPublish, Option.map_eq_some_iff] at hn
        obtain ⟨n', hn', rfl⟩ := hn
        exact ⟨n', hn', hneed⟩
      cases flag with
      | true =>
        refine .undisturbed hdisciplined.2 (hensures true hreads) fun hnone => ?_
        obtain ⟨n, hn, hneed⟩ := hnext hnone
        refine ⟨n, hn, ?_⟩
        show seen.reads + 1 + n = need
        omega
      | false =>
        refine .interrupted rfl hdisciplined.1 fun hnone => ?_
        obtain ⟨n, _, hneed⟩ := hnext hnone
        show seen.reads + 0 < need
        omega
    | interrupted hflag hquiet hearly =>
      subst hflag
      exact .interrupted rfl (hquiet false rfl) hearly

theorem Sound.ask (hanswers : ∀ q, c.answers q (eval q))
    (h : Sound eval c inv need flag seen (ask q ka)) :
    Sound eval c inv need flag seen (ka (eval q)) where
  stored := h.stored
  stage := by
    cases h.stage with
    | undisturbed hdisciplined hensures hpending =>
      exact .undisturbed (hdisciplined _) (hensures _ (hanswers q)) hpending
    | interrupted hflag hquiet hearly => exact .interrupted hflag (hquiet _ trivial) hearly

theorem Sound.store (h : Sound eval c inv need flag seen (publish o p)) :
    Sound eval c inv need flag (seen.after flag (.store o)) p := by
  cases h.stage with
  | undisturbed hdisciplined hensures hpending =>
    have hneed : need ≤ seen.reads := by
      cases hstored : seen.stored with
      | none =>
        obtain ⟨n, hn, hneed⟩ := hpending hstored
        obtain rfl : 0 = n := Option.some.inj hn
        exact hneed.ge
      | some o' => exact (h.stored o' hstored).2
    refine ⟨fun o' ho' => ?_, .undisturbed hdisciplined hensures.2 fun hnone => by cases hnone⟩
    obtain rfl : o = o' := Option.some.inj ho'
    exact ⟨hensures.1, hneed⟩
  | interrupted _ hquiet _ => exact absurd hquiet.1 id

theorem Sound.round (hbody : Stoppable body c inv)
    (h : Sound eval c inv need flag seen (done (.inl s) : Proc Q A O (S ⊕ R))) :
    Sound eval c inv need flag seen (body s) where
  stored := h.stored
  stage := by
    cases h.stage with
    | undisturbed _ hensures hpending =>
      refine .undisturbed (hbody.disciplined s) (hbody.ensures s hensures) fun hnone => ?_
      obtain ⟨n, hn, _⟩ := hpending hnone
      cases hn
    | interrupted hflag _ hearly => exact .interrupted hflag (hbody.quiet s) hearly

end Actions

/-- Every step of the thread keeps the invariant. -/
theorem Sound.step (hbody : Stoppable body c inv) (hreads : c.reads true)
    (hanswers : ∀ q, c.answers q (eval q)) (h : Sound eval c inv need flag seen p) {e : Effect O}
    (hstep : Step body eval flag p e p') :
    Sound eval c inv need flag (seen.after flag e) p' := by
  cases hstep with
  | read k => exact h.read hreads
  | ask q k => exact h.ask hanswers
  | store o k => exact h.store
  | round s => exact h.round hbody

/-- A thread that has returned without publishing has not made the reads it needs. -/
theorem Sound.returned {r : R}
    (h : Sound eval c inv need flag seen (done (.inr r) : Proc Q A O (S ⊕ R)))
    (hnone : seen.stored = none) : seen.reads < need := by
  cases h.stage with
  | undisturbed _ _ hpending =>
    obtain ⟨n, hn, _⟩ := hpending hnone
    cases hn
  | interrupted _ _ hearly => exact hearly hnone

theorem Ensures.step
    (hbody : ∀ s, inv s → (body s).Ensures total (Sum.elim inv fun _ => True))
    (h : p.Ensures total (Sum.elim inv fun _ => True)) {e : Effect O}
    (hstep : Step body eval flag p e p') : p'.Ensures total (Sum.elim inv fun _ => True) := by
  cases hstep with
  | read k => exact h flag trivial
  | ask q k => exact h _ trivial
  | store o k => exact h.2
  | round s => exact hbody s h

/-- A thread that always returns comes to the end of its round. -/
theorem Ensures.reaches_done {post : S ⊕ R → Prop} (h : p.Ensures total post) :
    ∃ r, Relation.ReflTransGen (fun p p' => ∃ e, Step body eval flag p e p') p (done r) := by
  induction p with
  | done r => exact ⟨r, .refl⟩
  | poll k ih =>
    obtain ⟨r, hrun⟩ := ih flag (h flag trivial)
    exact ⟨r, .head ⟨_, .read k⟩ hrun⟩
  | ask q k ih =>
    obtain ⟨r, hrun⟩ := ih (eval q) (h _ trivial)
    exact ⟨r, .head ⟨_, .ask q k⟩ hrun⟩
  | publish o k ih =>
    obtain ⟨r, hrun⟩ := ih h.2
    exact ⟨r, .head ⟨_, .store o k⟩ hrun⟩
  | timeout => exact absurd h id

end Loop

end Proc
