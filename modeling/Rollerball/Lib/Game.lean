import Mathlib.Data.Finset.Lattice.Fold
import Mathlib.Order.OrderDual

/-!
# Values of finite games

The value of a game of two players to a given depth: the player who maximizes takes the greatest
value of a move, the other the least. Exchanging the players turns the order around.
-/

variable {S M V : Type} [LinearOrder V]

/-- A game with finitely many moves in each state. -/
structure Game (S M : Type) where
  maximizes : S → Prop
  moves : S → Finset M
  next : S → M → S

namespace Game

open Classical in
/-- The value of a state `depth` moves deep, where states without moves and the states at that
depth count as `leaf` says. -/
noncomputable def value (g : Game S M) (leaf : S → V) : Nat → S → V
  | 0, s => leaf s
  | depth + 1, s =>
    if h : (g.moves s).Nonempty then
      if g.maximizes s then (g.moves s).sup' h fun m => value g leaf depth (g.next s m)
      else (g.moves s).inf' h fun m => value g leaf depth (g.next s m)
    else leaf s

section Value

variable {g : Game S M} {leaf : S → V} {s : S} (depth : Nat)

theorem value_stuck (h : g.moves s = ∅) : g.value leaf depth s = leaf s := by
  cases depth with
  | zero => rfl
  | succ depth => rw [value, dif_neg (Finset.not_nonempty_iff_eq_empty.mpr h)]

theorem value_max (h : (g.moves s).Nonempty) (hmax : g.maximizes s) :
    g.value leaf (depth + 1) s =
      (g.moves s).sup' h fun m => g.value leaf depth (g.next s m) := by
  rw [value, dif_pos h, if_pos hmax]

theorem value_min (h : (g.moves s).Nonempty) (hmin : ¬g.maximizes s) :
    g.value leaf (depth + 1) s =
      (g.moves s).inf' h fun m => g.value leaf depth (g.next s m) := by
  rw [value, dif_pos h, if_neg hmin]

end Value

section Lists

variable {l : List M} {moves : Finset M} {f : M → V} {lo hi : V}

theorem foldl_max_eq_sup' (hmem : ∀ m, m ∈ l ↔ m ∈ moves) (hmoves : moves.Nonempty)
    (hlo : ∀ m ∈ moves, lo ≤ f m) : (l.map f).foldl max lo = moves.sup' hmoves f := by
  have hfold : ∀ (l : List M) (v : V), (∀ m ∈ l, m ∈ moves) → v ≤ moves.sup' hmoves f →
      (l.map f).foldl max v ≤ moves.sup' hmoves f ∧ v ≤ (l.map f).foldl max v ∧
        ∀ m ∈ l, f m ≤ (l.map f).foldl max v := by
    intro l
    induction l with
    | nil => exact fun v _ hv => ⟨hv, le_rfl, fun m hm => absurd hm List.not_mem_nil⟩
    | cons m l ih =>
      intro v hl hv
      have hm := Finset.le_sup' f (hl m List.mem_cons_self)
      obtain ⟨hle, hstart, hall⟩ := ih (max v (f m)) (fun m hm => hl m (List.mem_cons_of_mem _ hm))
        (max_le hv hm)
      refine ⟨hle, (le_max_left _ _).trans hstart, ?_⟩
      intro m' hm'
      rcases List.mem_cons.mp hm' with rfl | hm'
      · exact (le_max_right _ _).trans hstart
      · exact hall m' hm'
  obtain ⟨m, hm⟩ := hmoves
  have hstart := (hlo m hm).trans (Finset.le_sup' f hm)
  obtain ⟨hle, _, hall⟩ := hfold l lo (fun m hm => (hmem m).mp hm) hstart
  exact le_antisymm hle (Finset.sup'_le _ _ fun m hm => hall m ((hmem m).mpr hm))

theorem foldl_min_eq_inf' (hmem : ∀ m, m ∈ l ↔ m ∈ moves) (hmoves : moves.Nonempty)
    (hhi : ∀ m ∈ moves, f m ≤ hi) : (l.map f).foldl min hi = moves.inf' hmoves f :=
  foldl_max_eq_sup' (V := Vᵒᵈ) hmem hmoves hhi

end Lists

section Mirror

variable {W : Type} [LinearOrder W]

/-- `σ` and `ρ` carry the states and moves of `g` to those of `g'`, with the players exchanged,
as long as the states satisfy the invariant. -/
structure Mirrors [DecidableEq M] (g g' : Game S M) (inv : S → Prop) (σ : S → S) (ρ : M → M) :
    Prop where
  keeps : ∀ s m, inv s → m ∈ g.moves s → inv (g.next s m)
  maximizes : ∀ s, g'.maximizes (σ s) ↔ ¬g.maximizes s
  moves : ∀ s, inv s → g'.moves (σ s) = (g.moves s).image ρ
  next : ∀ s m, inv s → m ∈ g.moves s → g'.next (σ s) (ρ m) = σ (g.next s m)

variable [DecidableEq M] {g g' : Game S M} {inv : S → Prop} {σ : S → S} {ρ : M → M}
  {leaf : S → V} {leaf' : S → W} {rev : V → W}

/-- Reversing the values of the leaves reverses the values of the game. -/
theorem Mirrors.value (h : g.Mirrors g' inv σ ρ) (hrev : Antitone rev)
    (hleaf : ∀ s, inv s → leaf' (σ s) = rev (leaf s)) (depth : Nat) {s : S} (hs : inv s) :
    g'.value leaf' depth (σ s) = rev (g.value leaf depth s) := by
  induction depth generalizing s with
  | zero => exact hleaf s hs
  | succ depth ih =>
    rcases (g.moves s).eq_empty_or_nonempty with hnone | hmoves
    · have hnone' : g'.moves (σ s) = ∅ := by rw [h.moves s hs, hnone, Finset.image_empty]
      rw [value_stuck _ hnone, value_stuck _ hnone', hleaf s hs]
    have hmoves' : (g'.moves (σ s)).Nonempty := by
      rw [h.moves s hs]
      exact hmoves.image ρ
    have hbelow : ∀ m ∈ g.moves s,
        g'.value leaf' depth (g'.next (σ s) (ρ m)) = rev (g.value leaf depth (g.next s m)) := by
      intro m hm
      rw [h.next s m hs hm]
      exact ih (h.keeps s m hs hm)
    by_cases hmax : g.maximizes s
    · rw [value_min _ hmoves' (fun hmax' => (h.maximizes s).mp hmax' hmax),
        value_max _ hmoves hmax]
      obtain ⟨m₀, hm₀, hbest⟩ := Finset.exists_mem_eq_sup' hmoves
        fun m => g.value leaf depth (g.next s m)
      refine le_antisymm ?_ (Finset.le_inf' _ _ fun m' hm' => ?_)
      · rw [hbest, ← hbelow m₀ hm₀]
        refine Finset.inf'_le (fun m' => g'.value leaf' depth (g'.next (σ s) m')) ?_
        rw [h.moves s hs]
        exact Finset.mem_image_of_mem ρ hm₀
      · rw [h.moves s hs] at hm'
        obtain ⟨m, hm, rfl⟩ := Finset.mem_image.mp hm'
        rw [hbelow m hm]
        exact hrev (Finset.le_sup' (fun m => g.value leaf depth (g.next s m)) hm)
    · rw [value_max _ hmoves' ((h.maximizes s).mpr hmax), value_min _ hmoves hmax]
      obtain ⟨m₀, hm₀, hbest⟩ := Finset.exists_mem_eq_inf' hmoves
        fun m => g.value leaf depth (g.next s m)
      refine le_antisymm (Finset.sup'_le _ _ fun m' hm' => ?_) ?_
      · rw [h.moves s hs] at hm'
        obtain ⟨m, hm, rfl⟩ := Finset.mem_image.mp hm'
        rw [hbelow m hm]
        exact hrev (Finset.inf'_le (fun m => g.value leaf depth (g.next s m)) hm)
      · rw [hbest, ← hbelow m₀ hm₀]
        refine Finset.le_sup' (fun m' => g'.value leaf' depth (g'.next (σ s) m')) ?_
        rw [h.moves s hs]
        exact Finset.mem_image_of_mem ρ hm₀

end Mirror

end Game
