import Mathlib.Logic.Basic

/-!
# Learners that live in a file

A learner is loaded at the start of a session, changes with every example and writes itself back.
If loading gives back what was written up to a change, sessions are lived through in memory with
this change between them; if it gives back exactly what was written, it makes no difference where
one session ends and the next begins.
-/

namespace Sessions

variable {L X F : Type} (load : F → L) (update : L → X → F → Option (L × F))

/-- The examples of one session in turn. -/
def session (xs : List X) (s : L × F) : Option (L × F) :=
  xs.foldlM (fun s x => update s.1 x s.2) s

/-- Sessions one after the other, each with a learner loaded anew, and one more load. -/
def sessions : List (List X) → F → Option (L × F)
  | [], f => some (load f, f)
  | xs :: xss, f => (session update xs (load f, f)).bind fun s => sessions xss s.2

/-- Sessions without a file: the learner is changed by a restart after each that learns. -/
def lived (learn : L → X → Option L) (restart : L → L) : List (List X) → L → Option L
  | [], l => some l
  | xs :: xss, l => (xs.foldlM learn l).bind fun l' =>
    lived learn restart xss (if xs = [] then l' else restart l')

theorem lived_id (learn : L → X → Option L) (xss : List (List X)) (l : L) :
    lived learn id xss l = xss.flatten.foldlM learn l := by
  induction xss generalizing l with
  | nil => rfl
  | cons xs xss ih =>
    rw [lived, List.flatten_cons, List.foldlM_append]
    refine Option.bind_congr fun l' _ => ?_
    rw [ih, id, ite_self]

section Kept

variable {load update} {learn : L → X → Option L} {save : L → F → F} {restart : L → L}
  {Valid : L → Prop}

theorem session_cons (x : X) (xs : List X) (s : L × F) :
    session update (x :: xs) s = (update s.1 x s.2).bind (session update xs) := rfl

variable (hupdate : ∀ l x f, update l x f = (learn l x).map fun l' => (l', save l' f))

include hupdate

theorem session_fst (xs : List X) (s : L × F) :
    (session update xs s).map Prod.fst = xs.foldlM learn s.1 := by
  induction xs generalizing s with
  | nil => rfl
  | cons x xs ih =>
    rw [session_cons, hupdate, List.foldlM_cons, Option.map_bind, Option.bind_map]
    exact Option.bind_congr fun l _ => ih (l, save l s.2)

variable (hlearn : ∀ l x l', Valid l → learn l x = some l' → Valid l')
  (hsaved : ∀ l f, Valid l → load (save l f) = restart l)

include hlearn hsaved

theorem session_kept {xs : List X} {s s' : L × F} (hrun : session update xs s = some s')
    (hvalid : Valid s.1) (hxs : xs ≠ []) : load s'.2 = restart s'.1 := by
  induction xs generalizing s with
  | nil => exact absurd rfl hxs
  | cons x xs ih =>
    rw [session_cons, hupdate, Option.bind_map] at hrun
    obtain ⟨l, hl, hrest⟩ := Option.bind_eq_some_iff.mp hrun
    have hvalid' := hlearn _ _ _ hvalid hl
    cases xs with
    | nil =>
      obtain rfl := Option.some.inj hrest
      exact hsaved l s.2 hvalid'
    | cons x' xs => exact ih hrest hvalid' (List.cons_ne_nil _ _)

/-- Through the file the sessions come to the learner they would come to in memory. -/
theorem sessions_eq (hload : ∀ f, Valid (load f)) (xss : List (List X)) (f : F) :
    (sessions load update xss f).map Prod.fst = lived learn restart xss (load f) := by
  induction xss generalizing f with
  | nil => rfl
  | cons xs xss ih =>
    rw [sessions, lived, ← session_fst hupdate xs (load f, f), Option.map_bind, Option.bind_map]
    refine Option.bind_congr fun s hs => ?_
    rw [Function.comp_apply, Function.comp_apply, ih]
    by_cases hxs : xs = []
    · subst hxs
      obtain rfl := Option.some.inj hs
      rw [if_pos rfl]
    · rw [if_neg hxs, session_kept hupdate hlearn hsaved hs (hload f) hxs]

end Kept

end Sessions
