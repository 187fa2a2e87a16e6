import Mathlib.Order.BooleanAlgebra.Set
import Mathlib.Logic.Function.Basic

/-!
# Tables of pointers

A table has in each slot a pointer, which is null or leads to something that belongs to the slot
alone.  Null is 0.

* `targets f` : what the pointers of the table `f` lead to;
* `Distinct f` : no two pointers lead to the same;
* `Distinct.update`, `targets_update`, `targets_update_null` : assigning to a slot.
-/

namespace Cinux

variable {ι : Type*} {f : ι → ℕ} {i j : ι} {q : ℕ}

/-- What the pointers of a table lead to. -/
def targets (f : ι → ℕ) : Set ℕ := {q | q ≠ 0 ∧ ∃ i, f i = q}

/-- Pointers of different slots lead to different things. -/
def Distinct (f : ι → ℕ) : Prop := ∀ i j, f i ≠ 0 → f i = f j → i = j

theorem mem_targets (h : f i ≠ 0) : f i ∈ targets f := ⟨h, i, rfl⟩

theorem zero_notMem_targets : 0 ∉ targets f := fun h => h.1 rfl

theorem targets_null : targets (fun _ : ι => 0) = ∅ :=
  Set.eq_empty_iff_forall_notMem.2 fun _ h => h.1 (h.2.elim fun _ he => he.symm)

variable [DecidableEq ι]

theorem Distinct.update (h : Distinct f) (hq : q ∉ targets f) :
    Distinct (Function.update f i q) := by
  intro a b ha hab
  rw [Function.update_apply, Function.update_apply] at *
  split_ifs at ha hab with hai hbi hbi
  · rw [hai, hbi]
  · exact absurd ⟨ha, b, hab.symm⟩ hq
  · exact absurd ⟨hab ▸ ha, a, hab⟩ hq
  · exact h a b ha hab

theorem Distinct.update_null (h : Distinct f) : Distinct (Function.update f i 0) :=
  h.update zero_notMem_targets

theorem targets_update_null (h : Distinct f) :
    targets (Function.update f i 0) = targets f \ {f i} := by
  ext q
  constructor
  · rintro ⟨hq, j, rfl⟩
    rw [Function.update_apply] at hq ⊢
    split_ifs at hq ⊢ with hj
    · exact absurd rfl hq
    · exact ⟨mem_targets hq, fun he => hj (h j i hq he)⟩
  · rintro ⟨⟨hq, j, rfl⟩, hne⟩
    have hj : j ≠ i := fun he => hne (congrArg f he)
    exact ⟨hq, j, Function.update_of_ne hj _ _⟩

theorem targets_update (h : f i = 0) (hq : q ≠ 0) :
    targets (Function.update f i q) = insert q (targets f) := by
  ext x
  constructor
  · rintro ⟨hx, j, rfl⟩
    rw [Function.update_apply] at hx ⊢
    split_ifs at hx ⊢
    · exact Set.mem_insert _ _
    · exact Set.mem_insert_of_mem _ (mem_targets hx)
  · rintro (rfl | ⟨hx, j, rfl⟩)
    · exact ⟨hq, i, Function.update_self _ _ _⟩
    · have hj : j ≠ i := fun he => hx (he ▸ h)
      exact ⟨hx, j, Function.update_of_ne hj _ _⟩

theorem targets_replace (h : Distinct f) (hq : q ≠ 0) (hne : q ≠ f i) :
    targets (Function.update f i q) = insert q (targets f) \ {f i} := by
  have hnull : Function.update f i 0 i = 0 := Function.update_self _ _ _
  rw [← Function.update_idem 0 q f, targets_update hnull hq, targets_update_null h,
    Set.insert_sdiff_singleton_comm hne]

end Cinux
