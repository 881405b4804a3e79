import Mathlib.Order.MinMax
import Mathlib.Order.OrderDual

/-!
# Values seen through a window

A search with a window from `α` to `β` returns the exact value inside the window and a bound
outside it. The rules say when a running maximum over searches with a rising lower end is again
such a value. A running minimum is a running maximum in the dual order.
-/

namespace Minimax

open OrderDual

variable {V : Type*} [LinearOrder V]

/-- `d` is what a search with window `α`, `β` may return for a tree of value `v`. -/
structure Approx (α β v d : V) : Prop where
  exact : α < v → v < β → d = v
  high : β ≤ v → β ≤ d ∧ d ≤ v
  low : v ≤ α → v ≤ d ∧ d ≤ α

theorem Approx.of_eq {α β v : V} : Approx α β v v :=
  ⟨fun _ _ => rfl, fun h => ⟨h, le_rfl⟩, fun h => ⟨le_rfl, h⟩⟩

theorem approx_toDual {α β v d : V} :
    Approx (toDual β) (toDual α) (toDual v) (toDual d) ↔ Approx α β v d := by
  constructor
  · intro h
    exact ⟨fun hα hβ => h.exact hβ hα, fun hβ => (h.low hβ).symm, fun hα => (h.high hα).symm⟩
  · intro h
    exact ⟨fun hβ hα => h.exact hα hβ, fun hα => (h.low hα).symm, fun hβ => (h.high hβ).symm⟩

theorem Approx.lt_of_lt {α β v d : V} (h : Approx α β v d) (hd : d < β) : v < β := by
  by_contra hv
  exact absurd (h.high (not_lt.mp hv)).1 (not_le.mpr hd)

theorem Approx.le_of_le {α β v d : V} (hwindow : α < β) (h : Approx α β v d) (hd : β ≤ d) :
    β ≤ v ∧ d ≤ v := by
  rcases lt_or_ge v β with hv | hv
  · exfalso
    rcases lt_or_ge α v with hα | hα
    · rw [h.exact hα hv] at hd
      exact absurd hd (not_le.mpr hv)
    · exact absurd (hd.trans (h.low hα).2) (not_le.mpr hwindow)
  · exact ⟨hv, (h.high hv).2⟩

section Folds

variable {l : List V} {lo hi : V}

theorem le_foldl_max (l : List V) (lo : V) : lo ≤ l.foldl max lo := by
  induction l generalizing lo with
  | nil => exact le_rfl
  | cons v l ih => exact (le_max_left lo v).trans (ih _)

theorem le_foldl_max_of_mem {v : V} (hv : v ∈ l) (lo : V) : v ≤ l.foldl max lo := by
  induction l generalizing lo with
  | nil => exact absurd hv List.not_mem_nil
  | cons w l ih =>
    rcases List.mem_cons.mp hv with rfl | hrest
    · exact (le_max_right lo v).trans (le_foldl_max l _)
    · exact ih hrest _

theorem foldl_max_lt (hl : ∀ v ∈ l, v < hi) (hlo : lo < hi) : l.foldl max lo < hi := by
  induction l generalizing lo with
  | nil => exact hlo
  | cons v l ih =>
    exact ih (fun w hw => hl w (List.mem_cons_of_mem _ hw)) (max_lt hlo (hl v List.mem_cons_self))

theorem lt_foldl_max (hne : l ≠ []) (hl : ∀ v ∈ l, lo < v) : lo < l.foldl max lo := by
  obtain ⟨v, hv⟩ := List.exists_mem_of_ne_nil l hne
  exact (hl v hv).trans_le (le_foldl_max_of_mem hv lo)

theorem foldl_min_le_of_mem {v : V} (hv : v ∈ l) (hi : V) : l.foldl min hi ≤ v :=
  @le_foldl_max_of_mem Vᵒᵈ _ l v hv hi

theorem lt_foldl_min (hl : ∀ v ∈ l, lo < v) (hhi : lo < hi) : lo < l.foldl min hi :=
  @foldl_max_lt Vᵒᵈ _ l hi lo hl hhi

theorem foldl_min_lt (hne : l ≠ []) (hl : ∀ v ∈ l, v < hi) : l.foldl min hi < hi :=
  @lt_foldl_max Vᵒᵈ _ l hi hne hl

end Folds

/-- The state of a running maximum `m` that started at `lo` with window `α`, `β`: the lower end
has risen to `α'`, and `w` is the true maximum so far. -/
structure MaxScan (lo α β w α' m : V) : Prop where
  window : α' < β
  lower : α ≤ α'
  floor : lo ≤ m
  raised : max α' lo = max α m
  exact : α < w → m = w
  low : w ≤ α → w ≤ m ∧ m ≤ α

section MaxScan

variable {lo α β w α' m v d : V}

theorem MaxScan.init (hwindow : α < β) : MaxScan lo α β lo α lo where
  window := hwindow
  lower := le_rfl
  floor := le_rfl
  raised := rfl
  exact := fun _ => rfl
  low := fun h => ⟨le_rfl, h⟩

/-- The running maximum after a search that does not reach the upper end. -/
theorem MaxScan.step (h : MaxScan lo α β w α' m) (hd : Approx α' β v d) (hv : lo < v)
    (hcut : ¬β ≤ max α' d) :
    MaxScan lo α β (max w v) (max α' d) (if m < d then d else m) := by
  have hdβ : d < β := (le_max_right _ _).trans_lt (not_le.mp hcut)
  have hvβ : v < β := hd.lt_of_lt hdβ
  have hmax : (if m < d then d else m) = max m d := by
    rw [max_def_lt]
  -- a value up to the floor or the risen lower end is only bounded, not computed
  have hcases : (d = v ∧ α < v ∧ m < v) ∨ (v ≤ d ∧ v ≤ max α m ∧ d ≤ max α m) := by
    rcases lt_or_ge α' v with hα | hα
    · have hlow : max α m < v := by
        rw [← h.raised]
        exact max_lt hα hv
      exact Or.inl ⟨hd.exact hα hvβ, (le_max_left _ _).trans_lt hlow,
        (le_max_right _ _).trans_lt hlow⟩
    · have hα' : α' ≤ max α m := by
        rw [← h.raised]
        exact le_max_left _ _
      exact Or.inr ⟨(hd.low hα).1, hα.trans hα', (hd.low hα).2.trans hα'⟩
  rw [hmax]
  refine ⟨not_le.mp hcut, h.lower.trans (le_max_left _ _), h.floor.trans (le_max_left _ _),
    ?_, ?_, ?_⟩
  · rw [max_right_comm, h.raised, max_assoc]
  · intro hα
    rcases hcases with ⟨rfl, hαv, hmv⟩ | ⟨hvd, hvm, hdm⟩
    · have hwv : w ≤ d := by
        rcases lt_or_ge α w with hαw | hαw
        · rw [← h.exact hαw]
          exact hmv.le
        · exact hαw.trans hαv.le
      rw [max_eq_right hmv.le, max_eq_right hwv]
    · rcases lt_or_ge α w with hαw | hαw
      · have hm := h.exact hαw
        rw [hm, max_eq_right hαw.le] at hvm hdm
        rw [hm, max_eq_left hdm, max_eq_left hvm]
      · exfalso
        have hαv : α < v := (lt_max_iff.mp hα).resolve_left (not_lt.mpr hαw)
        rw [max_eq_left (h.low hαw).2] at hvm
        exact absurd hvm (not_le.mpr hαv)
  · intro hα
    obtain ⟨hwα, hvα⟩ := max_le_iff.mp hα
    obtain ⟨hwm, hmα⟩ := h.low hwα
    rcases hcases with ⟨_, hαv, _⟩ | ⟨hvd, _, hdm⟩
    · exact absurd hvα (not_le.mpr hαv)
    · rw [max_eq_left hmα] at hdm
      exact ⟨max_le_max hwm hvd, max_le hmα hdm⟩

/-- A search that reaches the upper end decides the whole maximum `v'`. -/
theorem MaxScan.cut (h : MaxScan lo α β w α' m) (hd : Approx α' β v d) (hcut : β ≤ max α' d)
    {v' : V} (hv' : v ≤ v') : Approx α β v' d := by
  have hβd : β ≤ d := (le_max_iff.mp hcut).resolve_left (not_le.mpr h.window)
  obtain ⟨hβv, hdv⟩ := hd.le_of_le h.window hβd
  refine ⟨fun _ hlt => absurd (hβv.trans hv') (not_le.mpr hlt),
    fun _ => ⟨hβd, hdv.trans hv'⟩, fun hle => ?_⟩
  have hwindow : α < β := h.lower.trans_lt h.window
  exact absurd ((hβv.trans hv').trans hle) (not_le.mpr hwindow)

theorem MaxScan.finish (h : MaxScan lo α β w α' m) (hlo : lo < β) : Approx α β w m := by
  have hm : m < β := by
    have hle : m ≤ max α' lo := by
      rw [h.raised]
      exact le_max_right _ _
    exact hle.trans_lt (max_lt h.window hlo)
  refine ⟨fun hα _ => h.exact hα, fun hβ => ?_, h.low⟩
  have hα : α < w := (h.lower.trans_lt h.window).trans_le hβ
  rw [h.exact hα] at hm
  exact absurd hβ (not_le.mpr hm)

/-- A search whose lower end is at most the running maximum improves it exactly when the tree
does, and then computes the value of the tree. -/
theorem Approx.above {hi : V} (hd : Approx α' hi v d) (hα : α' ≤ m) (hv : v < hi) :
    (m < d → d = v) ∧ (¬m < d → v ≤ m) := by
  constructor
  · intro hmd
    rcases lt_or_ge α' v with hlt | hle
    · exact hd.exact hlt hv
    · exact absurd ((hd.low hle).2.trans hα) (not_le.mpr hmd)
  · intro hmd
    by_contra hmv
    rw [not_le] at hmv
    rw [hd.exact (hα.trans_lt hmv) hv] at hmd
    exact hmd hmv

end MaxScan

/-- The state of a running minimum `m` that started at `hi` with window `α`, `β`: the upper end
has fallen to `β'`, and `w` is the true minimum so far. -/
def MinScan (hi α β w β' m : V) : Prop :=
  MaxScan (toDual hi) (toDual β) (toDual α) (toDual w) (toDual β') (toDual m)

section MinScan

variable {hi α β w β' m v d : V}

theorem MinScan.init (hwindow : α < β) : MinScan hi α β hi β hi :=
  MaxScan.init (toDual_lt_toDual.mpr hwindow)

theorem MinScan.step (h : MinScan hi α β w β' m) (hd : Approx α β' v d) (hv : v < hi)
    (hcut : ¬α ≥ min β' d) :
    MinScan hi α β (min w v) (min β' d) (if m > d then d else m) :=
  MaxScan.step h (approx_toDual.mpr hd) (toDual_lt_toDual.mpr hv) hcut

theorem MinScan.cut (h : MinScan hi α β w β' m) (hd : Approx α β' v d) (hcut : α ≥ min β' d)
    {v' : V} (hv' : v' ≤ v) : Approx α β v' d :=
  approx_toDual.mp (MaxScan.cut h (approx_toDual.mpr hd) hcut (toDual_le_toDual.mpr hv'))

theorem MinScan.finish (h : MinScan hi α β w β' m) (hhi : α < hi) : Approx α β w m :=
  approx_toDual.mp (MaxScan.finish h (toDual_lt_toDual.mpr hhi))

theorem Approx.below {lo : V} (hd : Approx lo β' v d) (hβ : m ≤ β') (hv : lo < v) :
    (m > d → d = v) ∧ (¬m > d → m ≤ v) :=
  (approx_toDual.mpr hd).above (toDual_le_toDual.mpr hβ) (toDual_lt_toDual.mpr hv)

end MinScan

end Minimax
