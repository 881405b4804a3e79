import Mathlib.Order.MinMax
import Mathlib.Order.OrderDual

/-!
# Won trees seen through a window

Where scores only matter for being winning or not, a search through a window need not return the
value of a tree, and two searches of one tree need not agree. What it returns for a won tree is
winning or reaches the upper end, and for a lost tree is not winning or stays at the lower end. The
rules say when a running maximum over such searches shows whether one of the trees is won. A
running minimum is a running maximum in the dual order, with won and lost exchanged.
-/

namespace Minimax

open OrderDual

variable {V : Type*} [LinearOrder V]

/-- The scores above a winning one win as well; `lo` does not win and `hi` does. -/
structure Threshold (wins : V → Prop) (lo hi : V) : Prop where
  upward : ∀ x y, x ≤ y → wins x → wins y
  lowest : ¬wins lo
  highest : wins hi

def loses (wins : V → Prop) (d : Vᵒᵈ) : Prop := ¬wins (ofDual d)

section Threshold

variable {wins : V → Prop} {lo hi : V}

theorem Threshold.lt (h : Threshold wins lo hi) : lo < hi := by
  by_contra hle
  exact h.lowest (h.upward hi lo (not_lt.mp hle) h.highest)

theorem Threshold.dual (h : Threshold wins lo hi) :
    Threshold (loses wins) (toDual hi) (toDual lo) where
  upward := fun x y hxy hx hy => hx (h.upward (ofDual y) (ofDual x) hxy hy)
  lowest := not_not.mpr h.highest
  highest := h.lowest

theorem Threshold.max (h : Threshold wins lo hi) (x y : V) :
    wins (max x y) ↔ wins x ∨ wins y := by
  constructor
  · intro hmax
    rcases le_total x y with hle | hle
    · exact Or.inr (by rwa [max_eq_right hle] at hmax)
    · exact Or.inl (by rwa [max_eq_left hle] at hmax)
  · rintro (hx | hy)
    · exact h.upward x _ (le_max_left x y) hx
    · exact h.upward y _ (le_max_right x y) hy

theorem Threshold.foldl_max (h : Threshold wins lo hi) (l : List V) (m : V) :
    wins (l.foldl Max.max m) ↔ wins m ∨ ∃ v ∈ l, wins v := by
  induction l generalizing m with
  | nil => simp
  | cons v l ih =>
    rw [List.foldl_cons, ih, h.max, or_assoc]
    simp only [List.mem_cons, exists_eq_or_imp]

theorem Threshold.foldl_min (h : Threshold wins lo hi) (l : List V) (m : V) :
    wins (l.foldl Min.min m) ↔ wins m ∧ ∀ v ∈ l, wins v := by
  have hdual : ¬wins (l.foldl Min.min m) ↔ ¬wins m ∨ ∃ v ∈ l, ¬wins v :=
    @Threshold.foldl_max Vᵒᵈ _ (loses wins) (toDual hi) (toDual lo) h.dual l m
  rw [← not_iff_not, hdual, not_and_or]
  simp

end Threshold

/-- `d` is what a search with window `α`, `β` may return for a tree that is won if `w` holds. -/
structure Shows (wins : V → Prop) (α β : V) (w : Prop) (d : V) : Prop where
  won : w → wins d ∨ β ≤ d
  lost : ¬w → ¬wins d ∨ d ≤ α

section Shows

variable {wins : V → Prop} {lo hi α β α' d m : V} {v w : Prop}

theorem Shows.of_iff (h : wins d ↔ w) : Shows wins α β w d :=
  ⟨fun hw => Or.inl (h.mpr hw), fun hw => Or.inl (mt h.mp hw)⟩

theorem Shows.congr (h : Shows wins α β v d) (hvw : v ↔ w) : Shows wins α β w d :=
  ⟨fun hw => h.won (hvw.mpr hw), fun hw => h.lost (mt hvw.mp hw)⟩

theorem shows_toDual : Shows (loses wins) (toDual β) (toDual α) (¬w) (toDual d) ↔
    Shows wins α β w d := by
  constructor
  · intro h
    exact ⟨fun hw => (h.lost (not_not.mpr hw)).imp_left not_not.mp, h.won⟩
  · intro h
    exact ⟨h.lost, fun hw => (h.won (not_not.mp hw)).imp_left not_not.mpr⟩

/-- A score strictly inside the full window shows exactly whether the tree is won. -/
theorem Shows.iff (h : Shows wins lo hi w d) (hlo : lo < d) (hhi : d < hi) : wins d ↔ w := by
  constructor
  · intro hd
    by_contra hw
    exact (h.lost hw).elim (fun hlost => hlost hd) fun hle => absurd hle (not_le.mpr hlo)
  · intro hw
    exact (h.won hw).resolve_right (not_le.mpr hhi)

theorem Shows.of_wins (h : Shows wins α β w d) (hd : wins d) (hα : α < d) : w := by
  by_contra hw
  exact (h.lost hw).elim (fun hlost => hlost hd) fun hle => absurd hle (not_le.mpr hα)

theorem Shows.wins_of (hwins : Threshold wins lo hi) (h : Shows wins α hi w d) (hw : w) :
    wins d :=
  (h.won hw).elim id fun hle => hwins.upward hi d hle hwins.highest

end Shows

/-- The state of a running maximum `m` with window `α`, `β`: the lower end has risen to `α'`, and
one of the trees so far is won if `w` holds. -/
structure MaxShown (wins : V → Prop) (α β : V) (w : Prop) (α' m : V) : Prop where
  window : α' < β
  raised : α' ≤ max α m
  won : w → wins m
  lost : ¬w → ¬wins m ∨ m ≤ α

section MaxShown

variable {wins : V → Prop} {lo hi α β α' m d : V} {v w w' : Prop}

theorem MaxShown.init (hwins : Threshold wins lo hi) (hwindow : α < β) :
    MaxShown wins α β False α lo where
  window := hwindow
  raised := le_max_left α lo
  won := False.elim
  lost := fun _ => Or.inl hwins.lowest

theorem MaxShown.step (hwins : Threshold wins lo hi) (h : MaxShown wins α β w α' m)
    (hd : Shows wins α' β v d) (hcut : ¬β ≤ max α' d) :
    MaxShown wins α β (w ∨ v) (max α' d) (if m < d then d else m) := by
  have hdβ : d < β := (le_max_right _ _).trans_lt (not_le.mp hcut)
  rw [← max_def_lt]
  refine ⟨not_le.mp hcut, ?_, ?_, ?_⟩
  · exact max_le (h.raised.trans (max_le_max_left α (le_max_left m d)))
      ((le_max_right m d).trans (le_max_right α _))
  · intro hwv
    rcases hwv with hw | hv
    · exact hwins.upward m _ (le_max_left m d) (h.won hw)
    · have hwinning := (hd.won hv).resolve_right (not_le.mpr hdβ)
      exact hwins.upward d _ (le_max_right m d) hwinning
  · intro hwv
    obtain ⟨hw, hv⟩ := not_or.mp hwv
    rcases le_or_gt d m with hle | hlt
    · rw [max_eq_left hle]
      exact h.lost hw
    · rw [max_eq_right hlt.le]
      -- a score at the risen lower end is at the first one, unless `m` has raised it
      refine (hd.lost hv).imp_right fun hdα => ?_
      exact (le_max_iff.mp (hdα.trans h.raised)).resolve_right (not_le.mpr hlt)

theorem MaxShown.cut (h : MaxShown wins α β w α' m) (hd : Shows wins α' β v d)
    (hcut : β ≤ max α' d) (hv : v → w') : Shows wins α β w' d := by
  have hβd : β ≤ d := (le_max_iff.mp hcut).resolve_left (not_le.mpr h.window)
  refine ⟨fun _ => Or.inr hβd, fun hw' => Or.inl ?_⟩
  exact (hd.lost (mt hv hw')).resolve_right (not_le.mpr (h.window.trans_le hβd))

theorem MaxShown.finish (h : MaxShown wins α β w α' m) : Shows wins α β w m :=
  ⟨fun hw => Or.inl (h.won hw), h.lost⟩

end MaxShown

/-- The state of a running minimum `m` with window `α`, `β`: the upper end has fallen to `β'`,
and all trees so far are won if `w` holds. -/
def MinShown (wins : V → Prop) (α β : V) (w : Prop) (β' m : V) : Prop :=
  MaxShown (loses wins) (toDual β) (toDual α) (¬w) (toDual β') (toDual m)

section MinShown

variable {wins : V → Prop} {lo hi α β β' m d : V} {v w w' : Prop}

theorem MinShown.init (hwins : Threshold wins lo hi) (hwindow : α < β) :
    MinShown wins α β True β hi := by
  rw [MinShown, not_true]
  exact MaxShown.init hwins.dual (toDual_lt_toDual.mpr hwindow)

theorem MinShown.step (hwins : Threshold wins lo hi) (h : MinShown wins α β w β' m)
    (hd : Shows wins α β' v d) (hcut : ¬α ≥ min β' d) :
    MinShown wins α β (w ∧ v) (min β' d) (if m > d then d else m) := by
  rw [MinShown, not_and_or]
  exact MaxShown.step hwins.dual h (shows_toDual.mpr hd) hcut

theorem MinShown.cut (h : MinShown wins α β w β' m) (hd : Shows wins α β' v d)
    (hcut : α ≥ min β' d) (hv : w' → v) : Shows wins α β w' d :=
  shows_toDual.mp (MaxShown.cut h (shows_toDual.mpr hd) hcut (mt hv))

theorem MinShown.finish (h : MinShown wins α β w β' m) : Shows wins α β w m :=
  shows_toDual.mp (MaxShown.finish h)

end MinShown

end Minimax
