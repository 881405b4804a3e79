import Mathlib.Data.List.Basic

/-!
# Painting a text

A program fills a prepared text by writing single characters at computed places. Writes at
different places do not disturb each other, so the finished text is told place by place.
-/

namespace Paint

section Paint

variable {ι α : Type} (place : ι → Nat) (v : ι → α)

/-- Write `v i` at `place i` for the indices of a list in turn. -/
def paint (is : List ι) (s : List α) : List α :=
  is.foldl (fun s i => s.set (place i) (v i)) s

@[simp] theorem paint_cons (i : ι) (is : List ι) (s : List α) :
    paint place v (i :: is) s = paint place v is (s.set (place i) (v i)) := rfl

variable {place v}

theorem paint_kept {is : List ι} {j : Nat} (hj : ∀ i ∈ is, place i ≠ j) (s : List α) :
    (paint place v is s)[j]? = s[j]? := by
  induction is generalizing s with
  | nil => rfl
  | cons i is ih =>
    have hi : place i ≠ j := hj i List.mem_cons_self
    have hrest : ∀ i' ∈ is, place i' ≠ j := fun i' hi' => hj i' (List.mem_cons_of_mem i hi')
    rw [paint_cons, ih hrest, List.getElem?_set_ne hi]

theorem paint_written {is : List ι} (hplaces : ∀ i ∈ is, ∀ j ∈ is, place i = place j → i = j)
    {i : ι} (hi : i ∈ is) {s : List α} (hlt : place i < s.length) :
    (paint place v is s)[place i]? = some (v i) := by
  induction is generalizing s with
  | nil => cases hi
  | cons i' is ih =>
    rw [paint_cons]
    by_cases hlater : i ∈ is
    · have hrest : ∀ i ∈ is, ∀ j ∈ is, place i = place j → i = j := fun i hi j hj =>
        hplaces i (List.mem_cons_of_mem i' hi) j (List.mem_cons_of_mem i' hj)
      exact ih hrest hlater (by rwa [List.length_set])
    · obtain rfl : i = i' := (List.mem_cons.mp hi).resolve_right hlater
      have hkept : ∀ j ∈ is, place j ≠ place i := fun j hj heq =>
        hlater (hplaces j (List.mem_cons_of_mem i hj) i hi heq ▸ hj)
      rw [paint_kept hkept, List.getElem?_set_self hlt]

theorem paint_inj {v' : ι → α} {is : List ι}
    (hplaces : ∀ i ∈ is, ∀ j ∈ is, place i = place j → i = j) {s : List α}
    (hlt : ∀ i ∈ is, place i < s.length) :
    paint place v is s = paint place v' is s ↔ ∀ i ∈ is, v i = v' i := by
  constructor
  · intro h i hi
    have hread := congrArg (fun t : List α => t[place i]?) h
    simp only [paint_written hplaces hi (hlt i hi), Option.some.injEq] at hread
    exact hread
  · intro h
    clear hplaces hlt
    induction is generalizing s with
    | nil => rfl
    | cons i is ih =>
      rw [paint_cons, paint_cons, h i List.mem_cons_self,
        ih fun i' hi' => h i' (List.mem_cons_of_mem i hi')]

theorem foldl_paint {κ : Type} (place : κ × ι → Nat) (v : κ × ι → α) (ks : List κ)
    (is : List ι) (s : List α) :
    ks.foldl (fun s k => paint (fun i => place (k, i)) (fun i => v (k, i)) is s) s =
      paint place v (ks.flatMap fun k => is.map fun i => (k, i)) s := by
  simp only [paint, List.foldl_flatMap, List.foldl_map]

/-- A loop that skips the indices its own text blanks out paints the others, when no write
changes what is blanked out. -/
theorem foldl_skip {blank : List α → ι → Prop} [∀ s, DecidablePred (blank s)] {is : List ι}
    {s₀ : List α} (hblank : ∀ s, (∀ i ∈ is, blank s i ↔ blank s₀ i) → ∀ i ∈ is, ¬blank s₀ i →
      ∀ i' ∈ is, blank (s.set (place i) (v i)) i' ↔ blank s₀ i') :
    is.foldl (fun s i => if blank s i then s else s.set (place i) (v i)) s₀ =
      paint place v (is.filter fun i => ¬blank s₀ i) s₀ := by
  suffices hrun : ∀ js, js ⊆ is → ∀ s, (∀ i ∈ is, blank s i ↔ blank s₀ i) →
      js.foldl (fun s i => if blank s i then s else s.set (place i) (v i)) s =
        paint place v (js.filter fun i => ¬blank s₀ i) s from
    hrun is (List.Subset.refl is) s₀ fun _ _ => Iff.rfl
  intro js
  induction js with
  | nil => exact fun _ _ _ => rfl
  | cons i js ih =>
    intro hsub s hs
    have hi : i ∈ is := hsub List.mem_cons_self
    have hrest : js ⊆ is := fun i' hi' => hsub (List.mem_cons_of_mem i hi')
    rw [List.foldl_cons]
    by_cases h : blank s₀ i
    · rw [if_pos ((hs i hi).mpr h), ih hrest s hs, List.filter_cons_of_neg (by simpa using h)]
    · rw [if_neg fun hb => h ((hs i hi).mp hb), ih hrest _ (hblank s hs i hi h),
        List.filter_cons_of_pos (by simpa using h), paint_cons]

end Paint

end Paint
