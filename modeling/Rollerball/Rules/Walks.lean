import Rollerball.Lib.Grid
import Rollerball.Rules.Position

/-!
# The pieces as walkers on the ring

The code lists the squares of a piece by hand, for the bottom side of a rotated board. Here each
kind of piece is described on the real board by the directions of its side of the ring, and the
lists are shown to be the ways of such walkers.
-/

namespace Rollerball

open Grid (Point)
open Walk (Pattern)

def point (p : Square) : Point := (getx p, gety p)

def squareAt (P : Point) : Square := square P.1.toNat P.2.toNat

def Free (P : Point) : Prop :=
  0 ≤ P.1 ∧ P.1 ≤ 6 ∧ 0 ≤ P.2 ∧ P.2 ≤ 6 ∧ ¬(2 ≤ P.1 ∧ P.1 ≤ 4 ∧ 2 ≤ P.2 ∧ P.2 ≤ 4)

instance : DecidablePred Free := fun P => by unfold Free; infer_instance

@[simp] theorem squareAt_point : ∀ p, squareAt (point p) = p := by decide

theorem free_point (p : Square) : Free (point p) ↔ Playable p := by
  simp only [Free, point, Playable]
  omega

private theorem point_squareAt_small : ∀ x y : Fin 7,
    point (squareAt ((x.val : ℤ), (y.val : ℤ))) = ((x.val : ℤ), (y.val : ℤ)) := by
  decide

theorem point_squareAt {P : Point} (hP : Free P) : point (squareAt P) = P := by
  obtain ⟨x, y⟩ := P
  obtain ⟨hx, hx', hy, hy', _⟩ := hP
  obtain ⟨m, rfl⟩ := Int.eq_ofNat_of_zero_le hx
  obtain ⟨n, rfl⟩ := Int.eq_ofNat_of_zero_le hy
  exact point_squareAt_small ⟨m, by omega⟩ ⟨n, by omega⟩

def Side.forward : Side → Point
  | bottom => (-1, 0)
  | left => (0, 1)
  | top => (1, 0)
  | right => (0, -1)

def Side.inward : Side → Point
  | bottom => (0, 1)
  | left => (1, 0)
  | top => (0, -1)
  | right => (-1, 0)

def Side.corner : Side → Square
  | bottom => square 0 0
  | left => square 0 6
  | top => square 6 6
  | right => square 6 0

def Outer (p : Square) : Prop := getx p = 0 ∨ getx p = 6 ∨ gety p = 0 ∨ gety p = 6

instance : DecidablePred Outer := fun p => by unfold Outer; infer_instance

section Rules

variable (occ own : Square → Bool)

/-- The squares a walker from `p` in direction `d` meets, with `n` rebounds left. -/
def Meets (n : Nat) (d : Point) (p q : Square) : Prop :=
  Grid.Meets Free (occ ∘ squareAt) n d (point p) (point q)

/-- A bishop steps back along either diagonal, and walks forward along either with one rebound. -/
def BishopReaches (p q : Square) : Prop :=
  let f := (side p).forward
  let i := (side p).inward
  own q = false ∧
    ((Playable q ∧ (point q = point p + (-f + i) ∨ point q = point p + (-f - i))) ∨
      Meets occ 1 (f + i) p q ∨ Meets occ 1 (f - i) p q)

/-- A rook slides forward, from the outer row round the corner, and from the square before the
corner along the inner lane; to its other neighbours it steps. -/
def RookReaches (p q : Square) : Prop :=
  let f := (side p).forward
  let i := (side p).inward
  let corner := (side p).corner
  own q = false ∧
    (Meets occ 0 f p q ∨
      (Outer p ∧ Meets occ 0 f p corner ∧ occ corner = false ∧ Meets occ 0 i corner q) ∨
      (Outer p ∧ point corner = point p + f ∧ Meets occ 0 i p q) ∨
      (Playable q ∧ Grid.Adjacent (point p) (point q) ∧ point q ≠ point p + f))

/-- A king steps to the neighbouring squares of the ring. -/
def KingReaches (p q : Square) : Prop :=
  own q = false ∧ Playable q ∧ Grid.distance (point p) (point q) = 1

end Rules

private def way (n : Nat) (d : Point) (p : Square) : List Square :=
  ((Grid.path Free 10 n d (point p)).getD []).map squareAt

private theorem meets_iff_way {occ : Square → Bool} {n : Nat} {d : Point} {p q : Square}
    (hends : (Grid.path Free 10 n d (point p)).isSome) :
    Meets occ n d p q ↔ q ∈ Walk.slide occ (fun _ => false) (way n d p) := by
  obtain ⟨ray, hray⟩ := Option.isSome_iff_exists.mp hends
  rw [Meets, Grid.meets_iff hray, way, hray, Option.getD_some, Walk.slide_map, List.mem_map]
  constructor
  · intro h
    exact ⟨point q, h, squareAt_point q⟩
  · intro h
    rcases h with ⟨P, hP, rfl⟩
    have hfree := Grid.path_free hray P (Walk.slide_subset _ _ _ hP)
    rwa [point_squareAt hfree]

private theorem ways_end : ∀ p, Playable p →
    (Grid.path Free 10 1 ((side p).forward + (side p).inward) (point p)).isSome ∧
      (Grid.path Free 10 1 ((side p).forward - (side p).inward) (point p)).isSome ∧
      (Grid.path Free 10 0 (side p).forward (point p)).isSome ∧
      (Grid.path Free 10 0 (side p).inward (point p)).isSome ∧
      (Grid.path Free 10 0 (side p).inward (point (side p).corner)).isSome := by
  decide

private theorem king_table : ∀ p, Playable p →
    (pattern .king p).rays = [] ∧
      (∀ q ∈ (pattern .king p).steps, Playable q ∧ Grid.distance (point p) (point q) = 1) ∧
      ∀ d ∈ Grid.directions, Free (point p + d) →
        squareAt (point p + d) ∈ (pattern .king p).steps := by
  decide

private theorem bishop_table : ∀ p, Playable p →
    ((∀ ray ∈ (pattern .bishop p).rays,
        ray <+: way 1 ((side p).forward + (side p).inward) p ∨
          ray <+: way 1 ((side p).forward - (side p).inward) p) ∧
      (∃ ray ∈ (pattern .bishop p).rays, way 1 ((side p).forward + (side p).inward) p <+: ray) ∧
      ∃ ray ∈ (pattern .bishop p).rays, way 1 ((side p).forward - (side p).inward) p <+: ray) ∧
    (∀ q ∈ (pattern .bishop p).steps, Playable q ∧
      (point q = point p + (-(side p).forward + (side p).inward) ∨
        point q = point p + (-(side p).forward - (side p).inward))) ∧
      ∀ d ∈ [-(side p).forward + (side p).inward, -(side p).forward - (side p).inward],
        Free (point p + d) → squareAt (point p + d) ∈ (pattern .bishop p).steps := by
  decide

/-- From the outer row the way forward ends at the corner. -/
private theorem rook_table : ∀ p, Playable p →
    (pattern .rook p).rays =
      (if Outer p ∧ point (side p).corner = point p + (side p).forward then
        [way 0 (side p).inward p] else []) ++
      [way 0 (side p).forward p ++
        if Outer p then (side p).corner :: way 0 (side p).inward (side p).corner else []] ∧
    (Outer p →
      way 0 (side p).forward p = (way 0 (side p).forward p).dropLast ++ [(side p).corner] ∧
        (side p).corner ∉ (way 0 (side p).forward p).dropLast) ∧
    (∀ q ∈ (pattern .rook p).steps, Playable q ∧ Grid.Adjacent (point p) (point q) ∧
      point q ≠ point p + (side p).forward) ∧
      ∀ d ∈ Grid.edges, d ≠ (side p).forward → Free (point p + d) →
        squareAt (point p + d) ∈ (pattern .rook p).steps := by
  decide

private theorem king_steps {p : Square} (hp : Playable p) {q : Square} :
    q ∈ (pattern .king p).steps ↔ Playable q ∧ Grid.distance (point p) (point q) = 1 := by
  constructor
  · intro hq
    exact (king_table p hp).2.1 q hq
  · intro h
    rcases h with ⟨hq, hdist⟩
    obtain ⟨d, hd, hpoint⟩ := Grid.distance_eq_one_iff.mp hdist
    have hmem := (king_table p hp).2.2 d hd
    rw [← hpoint, squareAt_point] at hmem
    exact hmem ((free_point q).mpr hq)

private theorem bishop_steps {p : Square} (hp : Playable p) {q : Square} :
    q ∈ (pattern .bishop p).steps ↔ Playable q ∧
      (point q = point p + (-(side p).forward + (side p).inward) ∨
        point q = point p + (-(side p).forward - (side p).inward)) := by
  constructor
  · intro hq
    exact (bishop_table p hp).2.1 q hq
  · intro h
    rcases h with ⟨hq, hback⟩
    have hmem := (bishop_table p hp).2.2
    rcases hback with hpoint | hpoint
    · have hq' := hmem _ List.mem_cons_self
      rw [← hpoint, squareAt_point] at hq'
      exact hq' ((free_point q).mpr hq)
    · have hq' := hmem _ (List.mem_cons_of_mem _ List.mem_cons_self)
      rw [← hpoint, squareAt_point] at hq'
      exact hq' ((free_point q).mpr hq)

private theorem rook_steps {p : Square} (hp : Playable p) {q : Square} :
    q ∈ (pattern .rook p).steps ↔ Playable q ∧ Grid.Adjacent (point p) (point q) ∧
      point q ≠ point p + (side p).forward := by
  constructor
  · intro hq
    exact (rook_table p hp).2.2.1 q hq
  · intro h
    rcases h with ⟨hq, hadj, hne⟩
    obtain ⟨d, hd, hpoint⟩ := Grid.adjacent_iff.mp hadj
    have hd' : d ≠ (side p).forward := by
      intro heq
      exact hne (by rw [hpoint, heq])
    have hmem := (rook_table p hp).2.2.2 d hd hd'
    rw [← hpoint, squareAt_point] at hmem
    exact hmem ((free_point q).mpr hq)

section Reach

variable {occ own : Square → Bool} {p q : Square}

theorem reach_king (hp : Playable p) :
    q ∈ (pattern .king p).reach occ own ↔ KingReaches own p q := by
  rw [Pattern.mem_reach, (king_table p hp).1, king_steps hp, KingReaches]
  simp only [List.not_mem_nil, false_and, exists_false, or_false]
  exact and_comm

/-- What a piece reaches along its rays is what walkers meet that is not its own. -/
private theorem mem_rays (hown : ∀ q, own q = true → occ q = true)
    {rays : List (List Square)} :
    (∃ ray ∈ rays, q ∈ Walk.slide occ own ray) ↔
      own q = false ∧ ∃ ray ∈ rays, q ∈ Walk.slide occ (fun _ => false) ray := by
  simp only [Walk.mem_slide_met hown]
  constructor
  · intro h
    rcases h with ⟨ray, hray, hq, ho⟩
    exact ⟨ho, ray, hray, hq⟩
  · intro h
    rcases h with ⟨ho, ray, hray, hq⟩
    exact ⟨ray, hray, hq, ho⟩

theorem reach_bishop (hown : ∀ q, own q = true → occ q = true) (hp : Playable p) :
    q ∈ (pattern .bishop p).reach occ own ↔ BishopReaches occ own p q := by
  obtain ⟨hleft, hright, _⟩ := ways_end p hp
  obtain ⟨hrays, ⟨ray, hray, hfirst⟩, ray', hray', hsecond⟩ := (bishop_table p hp).1
  have hmeets : (∃ ray ∈ (pattern .bishop p).rays, q ∈ Walk.slide occ (fun _ => false) ray) ↔
      Meets occ 1 ((side p).forward + (side p).inward) p q ∨
        Meets occ 1 ((side p).forward - (side p).inward) p q := by
    rw [meets_iff_way hleft, meets_iff_way hright]
    constructor
    · intro h
      rcases h with ⟨r, hr, hq⟩
      exact (hrays r hr).imp (fun h => Walk.slide_of_isPrefix _ _ h hq)
        fun h => Walk.slide_of_isPrefix _ _ h hq
    · intro h
      rcases h with h | h
      · exact ⟨ray, hray, Walk.slide_of_isPrefix _ _ hfirst h⟩
      · exact ⟨ray', hray', Walk.slide_of_isPrefix _ _ hsecond h⟩
  rw [Pattern.mem_reach, mem_rays hown, hmeets, bishop_steps hp, BishopReaches, and_comm,
    ← and_or_left]

/-- The forward ray of a rook on the outer row, gone round the corner. -/
private theorem mem_round_corner (hp : Playable p) (houter : Outer p) :
    q ∈ Walk.slide occ (fun _ => false)
        (way 0 (side p).forward p ++
          (side p).corner :: way 0 (side p).inward (side p).corner) ↔
      Meets occ 0 (side p).forward p q ∨
        (Meets occ 0 (side p).forward p (side p).corner ∧ occ (side p).corner = false ∧
          Meets occ 0 (side p).inward (side p).corner q) := by
  obtain ⟨_, _, hforward, _, hround⟩ := ways_end p hp
  obtain ⟨hway, hlast⟩ := (rook_table p hp).2.1 houter
  have hclear := @Walk.clear_concat _ occ _ _ hlast
  rw [← hway, ← meets_iff_way hforward] at hclear
  rw [Walk.slide_append, List.mem_append, ← meets_iff_way hforward]
  by_cases hcorner : Walk.clear occ (way 0 (side p).forward p) = true
  · obtain ⟨hmet, hempty⟩ := hclear.mp hcorner
    rw [if_pos hcorner, Walk.slide, if_neg (by simp [hempty]), List.mem_cons,
      ← meets_iff_way hround]
    constructor
    · intro h
      rcases h with h | rfl | h
      · exact Or.inl h
      · exact Or.inl hmet
      · exact Or.inr ⟨hmet, hempty, h⟩
    · intro h
      rcases h with h | ⟨_, _, h⟩
      · exact Or.inl h
      · exact Or.inr (Or.inr h)
  · rw [if_neg hcorner]
    constructor
    · intro h
      rcases h with h | h
      · exact Or.inl h
      · exact absurd h List.not_mem_nil
    · intro h
      rcases h with h | ⟨hmet, hempty, _⟩
      · exact Or.inl h
      · exact absurd (hclear.mpr ⟨hmet, hempty⟩) hcorner

theorem reach_rook (hown : ∀ q, own q = true → occ q = true) (hp : Playable p) :
    q ∈ (pattern .rook p).reach occ own ↔ RookReaches occ own p q := by
  obtain ⟨_, _, hforward, hinward, _⟩ := ways_end p hp
  have hrays : (∃ ray ∈ (pattern .rook p).rays, q ∈ Walk.slide occ (fun _ => false) ray) ↔
      (Outer p ∧ point (side p).corner = point p + (side p).forward ∧
        Meets occ 0 (side p).inward p q) ∨
      Meets occ 0 (side p).forward p q ∨
        (Outer p ∧ Meets occ 0 (side p).forward p (side p).corner ∧ occ (side p).corner = false ∧
          Meets occ 0 (side p).inward (side p).corner q) := by
    rw [(rook_table p hp).1]
    simp only [List.mem_append, List.mem_ite_nil_right, List.mem_singleton, or_and_right,
      exists_or, exists_eq_left, and_assoc, exists_and_left]
    rw [← meets_iff_way hinward]
    apply or_congr_right
    by_cases houter : Outer p
    · rw [if_pos houter, mem_round_corner hp houter]
      simp only [houter, true_and]
    · rw [if_neg houter, List.append_nil, ← meets_iff_way hforward]
      simp only [houter, false_and, or_false]
  rw [Pattern.mem_reach, mem_rays hown, hrays, rook_steps hp, RookReaches, and_comm, ← and_or_left]
  apply and_congr_right
  intro _
  constructor
  · intro h
    rcases h with hstep | hlane | hslide | hround
    · exact Or.inr (Or.inr (Or.inr hstep))
    · exact Or.inr (Or.inr (Or.inl hlane))
    · exact Or.inl hslide
    · exact Or.inr (Or.inl hround)
  · intro h
    rcases h with hslide | hround | hlane | hstep
    · exact Or.inr (Or.inr (Or.inl hslide))
    · exact Or.inr (Or.inr (Or.inr hround))
    · exact Or.inr (Or.inl hlane)
    · exact Or.inl hstep

end Reach

end Rollerball
