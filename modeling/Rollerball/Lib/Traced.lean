import Mathlib.Algebra.BigOperators.Group.List.Basic

/-!
# Programs with the indices they read

A traced program returns a value together with the indices at which it has read a memory, in the
order of its reads. The memory answers at every index, so nothing is assumed of the reads.
-/

structure Traced (ι α : Type) where
  value : α
  indices : List ι

namespace Traced

variable {ι α β : Type}

instance : Monad (Traced ι) where
  pure a := ⟨a, []⟩
  bind x f := ⟨(f x.value).value, x.indices ++ (f x.value).indices⟩

def read (memory : ι → α) (i : ι) : Traced ι α := ⟨memory i, [i]⟩

@[simp] theorem value_pure (a : α) : (pure a : Traced ι α).value = a := rfl

@[simp] theorem indices_pure (a : α) : (pure a : Traced ι α).indices = [] := rfl

@[simp] theorem value_bind (x : Traced ι α) (f : α → Traced ι β) :
    (x >>= f).value = (f x.value).value := rfl

@[simp] theorem indices_bind (x : Traced ι α) (f : α → Traced ι β) :
    (x >>= f).indices = x.indices ++ (f x.value).indices := rfl

@[simp] theorem value_read (memory : ι → α) (i : ι) : (read memory i).value = memory i := rfl

@[simp] theorem indices_read (memory : ι → α) (i : ι) : (read memory i).indices = [i] := rfl

@[simp] theorem value_ite (c : Prop) [Decidable c] (x y : Traced ι α) :
    (if c then x else y).value = if c then x.value else y.value := apply_ite _ _ _ _

/-- Every read of the program is at an index with the property. -/
def Within (P : ι → Prop) (x : Traced ι α) : Prop := ∀ i ∈ x.indices, P i

variable {P : ι → Prop}

@[simp] theorem within_pure (a : α) : (pure a : Traced ι α).Within P := fun _ hi =>
  absurd hi List.not_mem_nil

@[simp] theorem within_read (memory : ι → α) (i : ι) : (read memory i).Within P ↔ P i :=
  List.forall_mem_singleton

@[simp] theorem within_bind (x : Traced ι α) (f : α → Traced ι β) :
    (x >>= f).Within P ↔ x.Within P ∧ (f x.value).Within P :=
  List.forall_mem_append

def total [Zero β] [Add β] (f : α → Traced ι β) : List α → Traced ι β
  | [] => pure 0
  | a :: as => do
    let n ← f a
    let rest ← total f as
    return n + rest

theorem value_total [Zero β] [Add β] (f : α → Traced ι β) (as : List α) :
    (total f as).value = (as.map fun a => (f a).value).sum := by
  induction as with
  | nil => rfl
  | cons a as ih => rw [total, value_bind, value_bind, value_pure, ih, List.map_cons, List.sum_cons]

theorem within_total [Zero β] [Add β] (f : α → Traced ι β) {as : List α}
    (h : ∀ a ∈ as, (f a).Within P) : (total f as).Within P := by
  induction as with
  | nil => exact within_pure _
  | cons a as ih =>
    rw [total, within_bind, within_bind]
    exact ⟨h a List.mem_cons_self, ih fun a' ha' => h a' (List.mem_cons_of_mem _ ha'),
      within_pure _⟩

end Traced
