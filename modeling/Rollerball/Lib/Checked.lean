import Mathlib.Data.List.Basic
import Mathlib.Data.Option.Basic

/-!
# Loops over vectors with checked indices

Reading or writing a vector out of its range has no result, so that a program with a result has
used no index out of range. A loop is run by its body; an invariant gives its result, and a body
that fails at one turn makes the whole loop fail.
-/

namespace Checked

variable {α β σ : Type}

/-- `xs[i] = x` -/
def store (xs : List α) (i : Nat) (x : α) : Option (List α) :=
  if i < xs.length then some (xs.set i x) else none

/-- `xss[k][i]` -/
def at2 (xss : List (List α)) (k i : Nat) : Option α := do (← xss[k]?)[i]?

/-- `xsss[k][i][j]` -/
def at3 (xsss : List (List (List α))) (k i j : Nat) : Option α := do (← at2 xsss k i)[j]?

/-- `xss[k][i] = x` -/
def store2 (xss : List (List α)) (k i : Nat) (x : α) : Option (List (List α)) := do
  let xs ← xss[k]?
  store xss k (← store xs i x)

theorem store_of_lt {xs : List α} {i : Nat} (h : i < xs.length) (x : α) :
    store xs i x = some (xs.set i x) := if_pos h

theorem store2_of_lt {xss : List (List α)} {k i : Nat} {xs : List α} (hk : xss[k]? = some xs)
    (hi : i < xs.length) (x : α) : store2 xss k i x = some (xss.set k (xs.set i x)) := by
  obtain ⟨hlt, _⟩ := List.getElem?_eq_some_iff.mp hk
  simp [store2, hk, store_of_lt hi, store_of_lt hlt]

theorem at2_isSome_iff {xss : List (List α)} {k i : Nat} :
    (at2 xss k i).isSome ↔ ∃ n, (xss.map List.length)[k]? = some n ∧ i < n := by
  rw [at2, List.getElem?_map]
  cases xss[k]? with
  | none => simp
  | some xs => simp

theorem at3_isSome_iff {xsss : List (List (List α))} {k i j : Nat} :
    (at3 xsss k i j).isSome ↔
      ∃ ns, (xsss.map (List.map List.length))[k]? = some ns ∧ ∃ n, ns[i]? = some n ∧ j < n := by
  rw [at3, at2, List.getElem?_map]
  cases xsss[k]? with
  | none => simp
  | some xss =>
    cases hi : xss[i]? with
    | none => simp [hi]
    | some xs => simp [hi]

/-- `for (i = 0; i < n; i++)` -/
def loopUp : Nat → (Nat → σ → Option σ) → σ → Option σ
  | 0, _, s => some s
  | n + 1, body, s => (loopUp n body s).bind (body n)

/-- `for (i = n - 1; i >= 0; i--)` -/
def loopDown : Nat → (Nat → σ → Option σ) → σ → Option σ
  | 0, _, s => some s
  | n + 1, body, s => (body n s).bind (loopDown n body)

section Rules

variable {body : Nat → σ → Option σ} {n : Nat} {s : σ}

theorem loopUp_spec {Inv : Nat → σ → Prop} (h : Inv 0 s)
    (hbody : ∀ i < n, ∀ s, Inv i s → ∃ s', body i s = some s' ∧ Inv (i + 1) s') :
    ∃ s', loopUp n body s = some s' ∧ Inv n s' := by
  induction n with
  | zero => exact ⟨s, rfl, h⟩
  | succ n ih =>
    obtain ⟨s₁, hloop, h₁⟩ := ih fun i hi => hbody i (Nat.lt_succ_of_lt hi)
    obtain ⟨s₂, hstep, h₂⟩ := hbody n (Nat.lt_succ_self n) s₁ h₁
    exact ⟨s₂, by rw [loopUp, hloop, Option.bind_some, hstep], h₂⟩

theorem loopDown_spec {Inv : Nat → σ → Prop} (h : Inv n s)
    (hbody : ∀ i < n, ∀ s, Inv (i + 1) s → ∃ s', body i s = some s' ∧ Inv i s') :
    ∃ s', loopDown n body s = some s' ∧ Inv 0 s' := by
  induction n generalizing s with
  | zero => exact ⟨s, rfl, h⟩
  | succ n ih =>
    obtain ⟨s₁, hstep, h₁⟩ := hbody n (Nat.lt_succ_self n) s h
    obtain ⟨s₂, hloop, h₂⟩ := ih h₁ fun i hi => hbody i (Nat.lt_succ_of_lt hi)
    exact ⟨s₂, by rw [loopDown, hstep, Option.bind_some, hloop], h₂⟩

theorem loopUp_first {s' : σ} (h : loopUp (n + 1) body s = some s') : ∃ s₁, body 0 s = some s₁ := by
  induction n generalizing s' with
  | zero => exact ⟨s', h⟩
  | succ n ih =>
    obtain ⟨s₁, hloop, _⟩ := Option.bind_eq_some_iff.mp h
    exact ih hloop

end Rules

theorem loopUp_sum [Add α] {n : Nat} {term : Nat → Option α} {g : Nat → α}
    (h : ∀ j < n, term j = some (g j)) (init : α) :
    loopUp n (fun j sum => do return sum + (← term j)) init =
      some ((List.range n).foldl (fun sum j => sum + g j) init) := by
  induction n with
  | zero => rfl
  | succ n ih =>
    rw [loopUp, ih fun j hj => h j (Nat.lt_succ_of_lt hj), List.range_succ, List.foldl_append]
    simp [h n (Nat.lt_succ_self n)]

theorem set_overwritten {xs ys : List α} (h : ys.length < xs.length) (y : α) :
    (ys ++ xs.drop ys.length).set ys.length y = ys ++ [y] ++ xs.drop (ys.length + 1) := by
  rw [List.set_append_right _ _ (Nat.le_refl _), Nat.sub_self, List.drop_eq_getElem_cons h,
    List.set_cons_zero, List.append_assoc, List.singleton_append]

/-- A loop that fills the vector at `k` with values that do not depend on that vector. -/
theorem loopUp_fill {xss : List (List α)} {k : Nat} {xs : List α} (hk : xss[k]? = some xs)
    (value : Nat → List (List α) → Option α) (g : Nat → α)
    (hvalue : ∀ i < xs.length, ∀ ys, value i (xss.set k ys) = some (g i)) :
    loopUp xs.length (fun i xss => do store2 xss k i (← value i xss)) xss =
      some (xss.set k ((List.range xs.length).map g)) := by
  obtain ⟨hlt, hget⟩ := List.getElem?_eq_some_iff.mp hk
  have hpart : ∀ m ≤ xs.length,
      loopUp m (fun i xss => do store2 xss k i (← value i xss)) xss =
        some (xss.set k ((List.range m).map g ++ xs.drop m)) := by
    intro m hm
    induction m with
    | zero => simp [loopUp, ← hget]
    | succ m ih =>
      have hfilled : ((List.range m).map g).length = m := by simp
      have hm' : ((List.range m).map g).length < xs.length := hfilled.symm ▸ hm
      have hset := set_overwritten hm' (g m)
      rw [hfilled] at hset
      have hentry : (xss.set k ((List.range m).map g ++ xs.drop m))[k]? =
          some ((List.range m).map g ++ xs.drop m) := List.getElem?_set_self hlt
      rw [loopUp, ih (by omega), Option.bind_some, hvalue m (by omega)]
      simp only [Option.bind_eq_bind, Option.bind_some]
      rw [store2_of_lt hentry (by simp; omega), List.set_set, hset, List.range_succ,
        List.map_append, List.map_singleton]
  have hall := hpart xs.length (Nat.le_refl _)
  rwa [List.drop_length, List.append_nil] at hall

/-- `for (i = 0; i < xs.size(); i++) xs[i] = f(i, xs[i])`, from the turn `i` on. -/
def forEachFrom (f : Nat → α → Option α) : Nat → List α → Option (List α)
  | _, [] => some []
  | i, x :: xs => do
    let y ← f i x
    let ys ← forEachFrom f (i + 1) xs
    return y :: ys

def forEach (f : Nat → α → Option α) (xs : List α) : Option (List α) := forEachFrom f 0 xs

theorem forEachFrom_cons_eq_some {f : Nat → α → Option α} {i : Nat} {x : α} {xs zs : List α} :
    forEachFrom f i (x :: xs) = some zs ↔
      ∃ y ys, f i x = some y ∧ forEachFrom f (i + 1) xs = some ys ∧ zs = y :: ys := by
  simp only [forEachFrom, Option.bind_eq_bind, Option.bind_eq_some_iff, Option.pure_def,
    Option.some.injEq]
  constructor
  · rintro ⟨y, hy, ys, hys, rfl⟩
    exact ⟨y, ys, hy, hys, rfl⟩
  · rintro ⟨y, ys, hy, hys, rfl⟩
    exact ⟨y, hy, ys, hys, rfl⟩

theorem forEachFrom_eq_some_iff {f : Nat → α → Option α} {i : Nat} {xs ys : List α} :
    forEachFrom f i xs = some ys ↔
      xs.length = ys.length ∧
        ∀ m x, xs[m]? = some x → ∃ y, f (i + m) x = some y ∧ ys[m]? = some y := by
  induction xs generalizing i ys with
  | nil =>
    simp only [forEachFrom, Option.some.injEq]
    constructor
    · rintro rfl
      exact ⟨rfl, fun m x hx => by simp at hx⟩
    · rintro ⟨hlength, _⟩
      exact (List.length_eq_zero_iff.mp hlength.symm).symm
  | cons x xs ih =>
    rw [forEachFrom_cons_eq_some]
    constructor
    · rintro ⟨y, ys, hy, hys, rfl⟩
      obtain ⟨hlength, hrest⟩ := ih.mp hys
      refine ⟨by rw [List.length_cons, List.length_cons, hlength], fun m x' hx' => ?_⟩
      cases m with
      | zero => exact ⟨y, by simpa [← Option.some.inj hx'] using hy, rfl⟩
      | succ m =>
        rw [show i + (m + 1) = i + 1 + m by omega]
        exact hrest m x' hx'
    · rintro ⟨hlength, hall⟩
      obtain ⟨y, hy, hget⟩ := hall 0 x rfl
      cases ys with
      | nil => simp at hlength
      | cons y' ys =>
        obtain rfl : y' = y := Option.some.inj hget
        refine ⟨y', ys, hy, ih.mpr ⟨by simpa using hlength, fun m x' hx' => ?_⟩, rfl⟩
        rw [show i + 1 + m = i + (m + 1) by omega]
        exact hall (m + 1) x' hx'

theorem forEach_eq_some_iff {f : Nat → α → Option α} {xs ys : List α} :
    forEach f xs = some ys ↔
      xs.length = ys.length ∧ ∀ m x, xs[m]? = some x → ∃ y, f m x = some y ∧ ys[m]? = some y := by
  rw [forEach, forEachFrom_eq_some_iff]
  simp only [Nat.zero_add]

theorem forEachFrom_isSome_iff {f : Nat → α → Option α} {i : Nat} {xs : List α} :
    (forEachFrom f i xs).isSome ↔ ∀ m x, xs[m]? = some x → (f (i + m) x).isSome := by
  constructor
  · intro h m x hx
    obtain ⟨ys, hys⟩ := Option.isSome_iff_exists.mp h
    obtain ⟨y, hy, _⟩ := (forEachFrom_eq_some_iff.mp hys).2 m x hx
    rw [hy]
    rfl
  · intro h
    induction xs generalizing i with
    | nil => rfl
    | cons x xs ih =>
      obtain ⟨y, hy⟩ : ∃ y, f i x = some y := Option.isSome_iff_exists.mp (h 0 x rfl)
      have hrest := ih (i := i + 1) fun m x' hx' => by
        rw [show i + 1 + m = i + (m + 1) by omega]
        exact h (m + 1) x' hx'
      obtain ⟨ys, hys⟩ := Option.isSome_iff_exists.mp hrest
      rw [forEachFrom_cons_eq_some.mpr ⟨y, ys, hy, hys, rfl⟩]
      rfl

theorem forEach_isSome_iff {f : Nat → α → Option α} {xs : List α} :
    (forEach f xs).isSome ↔ ∀ m x, xs[m]? = some x → (f m x).isSome := by
  rw [forEach, forEachFrom_isSome_iff]
  simp only [Nat.zero_add]

theorem forEach_getElem? {f : Nat → α → Option α} {xs ys : List α} (h : forEach f xs = some ys)
    (m : Nat) : ys[m]? = xs[m]?.bind (f m) := by
  obtain ⟨hlength, hall⟩ := forEach_eq_some_iff.mp h
  cases hx : xs[m]? with
  | none =>
    rw [List.getElem?_eq_none_iff] at hx
    exact List.getElem?_eq_none_iff.mpr (by omega)
  | some x =>
    obtain ⟨y, hy, hget⟩ := hall m x hx
    rw [hget, Option.bind_some, hy]

theorem forEach_map {f : Nat → α → Option α} (g : α → β) {xs ys : List α}
    (h : forEach f xs = some ys) (hkeep : ∀ m x y, f m x = some y → g y = g x) :
    ys.map g = xs.map g := by
  refine List.ext_getElem? fun m => ?_
  have hget := forEach_getElem? h m
  rw [List.getElem?_map, List.getElem?_map]
  cases hx : xs[m]? with
  | none =>
    rw [hx] at hget
    rw [hget]
    rfl
  | some x =>
    obtain ⟨y, hy, hget⟩ := (forEach_eq_some_iff.mp h).2 m x hx
    rw [hget, Option.map_some, Option.map_some, hkeep m x y hy]

theorem forEach_length {f : Nat → α → Option α} {xs ys : List α} (h : forEach f xs = some ys) :
    ys.length = xs.length := (forEach_eq_some_iff.mp h).1.symm

theorem forEach_zipWith {f : Nat → α → Option α} {g : α → β → α} {xs : List α} {ys : List β}
    (hlength : xs.length = ys.length)
    (h : ∀ m x y, xs[m]? = some x → ys[m]? = some y → f m x = some (g x y)) :
    forEach f xs = some (List.zipWith g xs ys) := by
  refine forEach_eq_some_iff.mpr ⟨by simp [hlength], fun m x hx => ?_⟩
  obtain ⟨hlt, _⟩ := List.getElem?_eq_some_iff.mp hx
  have hy : ys[m]? = some ys[m] := List.getElem?_eq_getElem (hlength ▸ hlt)
  exact ⟨g x ys[m], h m x _ hx hy, by rw [List.getElem?_zipWith, hx, hy]⟩

/-- The loop over all entries `xsss[k][i][j]`. -/
def forEach3 (f : Nat → Nat → Nat → α → Option α) (xsss : List (List (List α))) :
    Option (List (List (List α))) :=
  forEach (fun k => forEach fun i => forEach fun j => f k i j) xsss

section Nested

variable {f : Nat → Nat → Nat → α → Option α} {xsss ysss : List (List (List α))}

theorem at3_eq_some_iff {k i j : Nat} {x : α} : at3 xsss k i j = some x ↔
    ∃ xss, xsss[k]? = some xss ∧ ∃ xs, xss[i]? = some xs ∧ xs[j]? = some x := by
  simp only [at3, at2, Option.bind_eq_bind, Option.bind_eq_some_iff]
  constructor
  · rintro ⟨xs, ⟨xss, hk, hi⟩, hj⟩
    exact ⟨xss, hk, xs, hi, hj⟩
  · rintro ⟨xss, hk, xs, hi, hj⟩
    exact ⟨xs, ⟨xss, hk, hi⟩, hj⟩

theorem forEach3_isSome_iff :
    (forEach3 f xsss).isSome ↔ ∀ k i j x, at3 xsss k i j = some x → (f k i j x).isSome := by
  simp only [forEach3, forEach_isSome_iff]
  constructor
  · intro h k i j x hx
    obtain ⟨xss, hk, xs, hi, hj⟩ := at3_eq_some_iff.mp hx
    exact h k xss hk i xs hi j x hj
  · intro h k xss hk i xs hi j x hj
    exact h k i j x (at3_eq_some_iff.mpr ⟨xss, hk, xs, hi, hj⟩)

theorem forEach3_at3 (h : forEach3 f xsss = some ysss) (k i j : Nat) :
    at3 ysss k i j = (at3 xsss k i j).bind (f k i j) := by
  have hrows := forEach_getElem? h k
  simp only [at3, at2, hrows, Option.bind_eq_bind]
  cases hk : xsss[k]? with
  | none => rfl
  | some xss =>
    obtain ⟨yss, hyss, _⟩ := (forEach_eq_some_iff.mp h).2 k xss hk
    rw [Option.bind_some, Option.bind_some, hyss, Option.bind_some, forEach_getElem? hyss i]
    cases hi : xss[i]? with
    | none => rfl
    | some xs =>
      obtain ⟨ys, hys, _⟩ := (forEach_eq_some_iff.mp hyss).2 i xs hi
      rw [Option.bind_some, Option.bind_some, hys, Option.bind_some, forEach_getElem? hys j]

theorem forEach3_lengths (h : forEach3 f xsss = some ysss) :
    ysss.map (List.map List.length) = xsss.map (List.map List.length) :=
  forEach_map _ h fun _ _ _ hrows => forEach_map _ hrows fun _ _ _ hrow => forEach_length hrow

end Nested

end Checked
