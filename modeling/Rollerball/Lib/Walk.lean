import Mathlib.Data.List.Basic

/-!
# Steps and blocked walks

A piece on a board of squares `S` reaches some squares in one step and others along rays that
stop at the first occupied square. This module gives both notions over an arbitrary square
type, with the laws that rules of movement use: what is reached lies on the pattern, is never
own-occupied, depends only on the occupation of the pattern, and is natural in the squares.
-/

namespace Walk

variable {S T U : Type*}

/-- Squares reached along a ray: every square up to the first occupied one, which is
included exactly when it is not own-occupied. -/
def slide (occ own : S → Bool) : List S → List S
  | [] => []
  | q :: ray => if occ q then (if own q then [] else [q]) else q :: slide occ own ray

/-- No square of the ray is occupied. -/
def clear (occ : S → Bool) (ray : List S) : Bool := ray.all fun q => !occ q

@[simp] theorem slide_nil (occ own : S → Bool) : slide occ own [] = [] := rfl

@[simp] theorem clear_nil (occ : S → Bool) : clear occ [] = true := rfl

theorem clear_cons (occ : S → Bool) (q : S) (ray : List S) :
    clear occ (q :: ray) = (!occ q && clear occ ray) := rfl

/-- A walk continues on the second leg exactly when the first leg is clear. -/
theorem slide_append (occ own : S → Bool) (first second : List S) :
    slide occ own (first ++ second) =
      slide occ own first ++ (if clear occ first then slide occ own second else []) := by
  induction first with
  | nil => simp
  | cons q ray ih =>
    by_cases hq : occ q
    · by_cases ho : own q <;> simp [slide, clear_cons, hq, ho]
    · simp [slide, clear_cons, hq, ih]

/-- The squares of a walk are those before which the ray is clear and which are not
own-occupied. -/
theorem mem_slide {occ own : S → Bool} (hown : ∀ q, own q = true → occ q = true)
    {ray : List S} {q : S} :
    q ∈ slide occ own ray ↔
      ∃ before after, ray = before ++ q :: after ∧ clear occ before = true ∧ own q = false := by
  induction ray with
  | nil => simp
  | cons r ray ih =>
    constructor
    · intro hq
      by_cases hr : occ r
      · by_cases ho : own r
        · simp [slide, hr, ho] at hq
        · obtain rfl : q = r := by simpa [slide, hr, ho] using hq
          exact ⟨[], ray, rfl, rfl, by simpa using ho⟩
      · simp only [slide, hr, Bool.false_eq_true, if_false, List.mem_cons] at hq
        rcases hq with rfl | hq
        · refine ⟨[], ray, rfl, rfl, ?_⟩
          by_contra ho
          exact hr (hown q (by simpa using ho))
        · obtain ⟨before, after, rfl, hclear, ho⟩ := ih.mp hq
          exact ⟨r :: before, after, rfl, by simp [clear_cons, hr, hclear], ho⟩
    · intro h
      rcases h with ⟨before, after, hray, hclear, ho⟩
      cases before with
      | nil =>
        obtain ⟨rfl, rfl⟩ := List.cons.inj hray
        by_cases hr : occ r <;> simp [slide, hr, ho]
      | cons s before =>
        obtain ⟨rfl, rfl⟩ := List.cons.inj hray
        simp only [clear_cons, Bool.and_eq_true, Bool.not_eq_true'] at hclear
        simp only [slide, hclear.1, Bool.false_eq_true, if_false, List.mem_cons]
        exact Or.inr (ih.mpr ⟨before, after, rfl, hclear.2, ho⟩)

theorem slide_subset (occ own : S → Bool) (ray : List S) : slide occ own ray ⊆ ray := by
  induction ray with
  | nil => simp
  | cons q ray ih =>
    intro r hr
    by_cases hq : occ q
    · by_cases ho : own q
      · simp [slide, hq, ho] at hr
      · simp only [slide, hq, ho, if_true, Bool.false_eq_true, if_false] at hr
        exact List.mem_cons.mpr (Or.inl (List.mem_singleton.mp hr))
    · simp only [slide, hq, Bool.false_eq_true, if_false, List.mem_cons] at hr
      exact List.mem_cons.mpr (hr.imp id fun h => ih h)

theorem slide_map (f : S → T) (occ own : T → Bool) (ray : List S) :
    slide occ own (ray.map f) = (slide (occ ∘ f) (own ∘ f) ray).map f := by
  induction ray with
  | nil => rfl
  | cons q ray ih =>
    simp only [List.map_cons, slide, Function.comp_apply, ih]
    split_ifs <;> rfl

theorem slide_of_isPrefix (occ own : S → Bool) {ray ray' : List S} (h : ray <+: ray') :
    slide occ own ray ⊆ slide occ own ray' := by
  obtain ⟨rest, rfl⟩ := h
  rw [slide_append]
  exact List.subset_append_left _ _

theorem clear_concat {occ : S → Bool} {ray : List S} {q : S} (hq : q ∉ ray) :
    clear occ (ray ++ [q]) = true ↔
      q ∈ slide occ (fun _ => false) (ray ++ [q]) ∧ occ q = false := by
  have hclear : clear occ (ray ++ [q]) = (clear occ ray && !occ q) := by
    simp [clear]
  have hslide : q ∈ slide occ (fun _ => false) (ray ++ [q]) ↔ clear occ ray = true := by
    have hray : q ∉ slide occ (fun _ => false) ray := fun h => hq (slide_subset _ _ _ h)
    rw [slide_append, List.mem_append]
    cases hr : clear occ ray <;> cases ho : occ q <;> simp [hray, slide, ho]
  rw [hclear, hslide, Bool.and_eq_true, Bool.not_eq_true']

theorem mem_slide_met {occ own : S → Bool} (hown : ∀ q, own q = true → occ q = true)
    {ray : List S} {q : S} :
    q ∈ slide occ own ray ↔ q ∈ slide occ (fun _ => false) ray ∧ own q = false := by
  rw [mem_slide hown, mem_slide fun _ h => absurd h Bool.false_ne_true]
  constructor
  · intro h
    rcases h with ⟨before, after, hray, hclear, hq⟩
    exact ⟨⟨before, after, hray, hclear, rfl⟩, hq⟩
  · intro h
    rcases h with ⟨⟨before, after, hray, hclear, _⟩, hq⟩
    exact ⟨before, after, hray, hclear, hq⟩

/-- The ways a piece can leave one square. -/
structure Pattern (S : Type*) where
  steps : List S
  rays : List (List S)
  deriving DecidableEq

namespace Pattern

def squares (pat : Pattern S) : List S := pat.steps ++ pat.rays.flatten

def reach (pat : Pattern S) (occ own : S → Bool) : List S :=
  (pat.steps.filter fun q => !own q) ++ pat.rays.flatMap (slide occ own)

def map (f : S → T) (pat : Pattern S) : Pattern T :=
  ⟨pat.steps.map f, pat.rays.map (List.map f)⟩

@[simp] theorem squares_map (f : S → T) (pat : Pattern S) :
    (pat.map f).squares = pat.squares.map f := by
  simp only [squares, map, List.map_append, List.map_flatten]

theorem map_map (f : S → T) (g : T → U) (pat : Pattern S) :
    (pat.map f).map g = pat.map (g ∘ f) := by
  simp [map, Function.comp_def]

theorem mem_reach {pat : Pattern S} {occ own : S → Bool} {q : S} :
    q ∈ pat.reach occ own ↔
      (q ∈ pat.steps ∧ own q = false) ∨ ∃ ray ∈ pat.rays, q ∈ slide occ own ray := by
  simp [reach, List.mem_flatMap]

theorem reach_subset (pat : Pattern S) (occ own : S → Bool) :
    pat.reach occ own ⊆ pat.squares := by
  intro q hq
  rcases mem_reach.mp hq with ⟨hs, _⟩ | ⟨ray, hray, hs⟩
  · exact List.mem_append_left _ hs
  · exact List.mem_append_right _ (List.mem_flatten.mpr ⟨ray, hray, slide_subset _ _ _ hs⟩)

theorem reach_not_own {pat : Pattern S} {occ own : S → Bool}
    (hown : ∀ q, own q = true → occ q = true) {q : S} (hq : q ∈ pat.reach occ own) :
    own q = false := by
  rcases mem_reach.mp hq with ⟨_, ho⟩ | ⟨ray, _, hs⟩
  · exact ho
  · obtain ⟨_, _, _, _, ho⟩ := (mem_slide hown).mp hs
    exact ho

theorem reach_map (f : S → T) (pat : Pattern S) (occ own : T → Bool) :
    (pat.map f).reach occ own = (pat.reach (occ ∘ f) (own ∘ f)).map f := by
  simp only [reach, map, List.map_append, List.flatMap_map, List.map_flatMap, List.filter_map,
    slide_map, Function.comp_def]

end Pattern

end Walk
