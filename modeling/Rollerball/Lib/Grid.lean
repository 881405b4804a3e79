import Mathlib.Algebra.Group.Prod
import Mathlib.Data.Int.Basic
import Rollerball.Lib.Walk

/-!
# Walks on a grid with walls

A walker on the integer grid goes on in its direction while the next point is free. A wall turns
back the component of the direction that is perpendicular to it, as often as the walker has
rebounds left. The points it meets are defined by an inductive relation, without bounds, and
computed by a path with fuel.
-/

namespace Grid

abbrev Point := ℤ × ℤ

/-- The number of king's steps between two points. -/
def distance (p q : Point) : ℕ := max (p.1 - q.1).natAbs (p.2 - q.2).natAbs

theorem distance_comm (p q : Point) : distance p q = distance q p := by
  have hsub : ∀ a b : ℤ, (a - b).natAbs = (b - a).natAbs := by omega
  rw [distance, distance, hsub p.1, hsub p.2]

/-- Points joined by an edge of the grid. -/
def Adjacent (p q : Point) : Prop := (p.1 - q.1).natAbs + (p.2 - q.2).natAbs = 1

instance decidableAdjacent (p q : Point) : Decidable (Adjacent p q) := by
  unfold Adjacent
  infer_instance

def edges : List Point := [(1, 0), (-1, 0), (0, 1), (0, -1)]

def directions : List Point := edges ++ [(1, 1), (1, -1), (-1, 1), (-1, -1)]

theorem adjacent_iff {p q : Point} : Adjacent p q ↔ ∃ d ∈ edges, q = p + d := by
  obtain ⟨x, y⟩ := p
  obtain ⟨x', y'⟩ := q
  simp only [Adjacent, edges, List.mem_cons, List.not_mem_nil, or_false, exists_eq_or_imp,
    exists_eq_left, Prod.mk_add_mk, Prod.mk.injEq]
  omega

theorem distance_eq_one_iff {p q : Point} :
    distance p q = 1 ↔ ∃ d ∈ directions, q = p + d := by
  obtain ⟨x, y⟩ := p
  obtain ⟨x', y'⟩ := q
  simp only [distance, directions, edges, List.mem_append, List.mem_cons, List.not_mem_nil,
    or_false, or_assoc, exists_eq_or_imp, exists_eq_left, Prod.mk_add_mk, Prod.mk.injEq]
  omega

section Walls

variable (free : Point → Prop) [DecidablePred free]

/-- The direction after a wall. A corner hit head-on, or from inside, turns nothing. -/
def rebound (p d : Point) : Option Point :=
  if free (p.1 + d.1, p.2) then
    if free (p.1, p.2 + d.2) then none else some (d.1, -d.2)
  else
    if free (p.1, p.2 + d.2) then some (-d.1, d.2) else none

/-- The points a walker from `p` in direction `d` meets with `n` rebounds left: it goes on past
points that are not occupied. -/
inductive Meets (occ : Point → Bool) : Nat → Point → Point → Point → Prop
  | here {n : Nat} {d p : Point} (hfree : free (p + d)) : Meets occ n d p (p + d)
  | onward {n : Nat} {d p q : Point} (hfree : free (p + d)) (hocc : occ (p + d) = false)
      (h : Meets occ n d (p + d) q) : Meets occ n d p q
  | rebound {n : Nat} {d d' p q : Point} (hwall : ¬free (p + d))
      (hturn : rebound free p d = some d') (h : Meets occ n d' p q) : Meets occ (n + 1) d p q

/-- The way of a walker on the empty grid, if it comes to an end within the fuel. -/
def path : Nat → Nat → Point → Point → Option (List Point)
  | 0, _, _, _ => none
  | fuel + 1, n, d, p =>
      if free (p + d) then (path fuel n d (p + d)).map fun ray => (p + d) :: ray
      else
        match n, rebound free p d with
        | n + 1, some d' => path fuel n d' p
        | _, _ => some []

variable {free}

theorem path_free {fuel n : Nat} {d p : Point} {ray : List Point}
    (hpath : path free fuel n d p = some ray) : ∀ q ∈ ray, free q := by
  induction fuel generalizing n d p ray with
  | zero => simp [path] at hpath
  | succ fuel ih =>
    by_cases hfree : free (p + d)
    · simp only [path, hfree, if_true, Option.map_eq_some_iff] at hpath
      obtain ⟨rest, hrest, rfl⟩ := hpath
      intro q hq
      rcases List.mem_cons.mp hq with rfl | hq
      · exact hfree
      · exact ih hrest q hq
    · simp only [path, hfree, if_false] at hpath
      split at hpath
      · exact ih hpath
      · obtain rfl := Option.some.inj hpath
        simp

/-- What a walker meets lies on its path, up to the first occupied point. -/
theorem meets_iff {occ : Point → Bool} {fuel n : Nat} {d p : Point} {ray : List Point}
    (hpath : path free fuel n d p = some ray) {q : Point} :
    Meets free occ n d p q ↔ q ∈ Walk.slide occ (fun _ => false) ray := by
  induction fuel generalizing n d p ray with
  | zero => simp [path] at hpath
  | succ fuel ih =>
    by_cases hfree : free (p + d)
    · simp only [path, hfree, if_true, Option.map_eq_some_iff] at hpath
      obtain ⟨rest, hrest, rfl⟩ := hpath
      have ih' := ih hrest
      by_cases hocc : occ (p + d) = true
      · rw [Walk.slide, if_pos hocc]
        simp only [Bool.false_eq_true, if_false, List.mem_singleton]
        constructor
        · intro h
          cases h with
          | here => rfl
          | onward _ hocc' _ => exact absurd hocc (by simp [hocc'])
          | rebound hwall _ _ => exact absurd hfree hwall
        · intro h
          rw [h]
          exact .here hfree
      · rw [Walk.slide, if_neg hocc, List.mem_cons, ← ih']
        constructor
        · intro h
          cases h with
          | here => exact Or.inl rfl
          | onward _ _ h => exact Or.inr h
          | rebound hwall _ _ => exact absurd hfree hwall
        · intro h
          rcases h with rfl | h
          · exact .here hfree
          · exact .onward hfree (Bool.eq_false_iff.mpr hocc) h
    · -- at a wall the walk goes on only with a rebound left and a component to turn
      have hwall : Meets free occ n d p q ↔
          ∃ n' d', n = n' + 1 ∧ rebound free p d = some d' ∧ Meets free occ n' d' p q := by
        constructor
        · intro h
          cases h with
          | here h => exact absurd h hfree
          | onward h _ _ => exact absurd h hfree
          | rebound _ hturn h => exact ⟨_, _, rfl, hturn, h⟩
        · intro h
          rcases h with ⟨n', d', rfl, hturn, h⟩
          exact .rebound hfree hturn h
      rw [hwall]
      simp only [path, hfree, if_false] at hpath
      cases n with
      | zero =>
        obtain rfl := Option.some.inj hpath
        simp
      | succ n =>
        cases hturn : rebound free p d with
        | none =>
          rw [hturn] at hpath
          obtain rfl := Option.some.inj hpath
          simp
        | some d' =>
          rw [hturn] at hpath
          rw [← ih hpath]
          simp

end Walls

end Grid
