import Mathlib.Algebra.BigOperators.Group.Finset.Piecewise
import Mathlib.Data.Fintype.Card

/-!
# Counting references

A table of references is a function `g : α → Option β` on a finite type: entry `a` may refer to some
`b`.  `occ g b` is the number of entries that refer to `b`, and `occ_update` says how it changes
when one entry does.
-/

namespace Cinux

open Function

open Finset

variable {α β : Type} [Fintype α] [DecidableEq β]

/-- The number of entries of `g` that refer to `b`. -/
def occ (g : α → Option β) (b : β) : ℕ := (Finset.univ.filter fun a => g a = some b).card

/-- One if `r` refers to `b`. -/
def refers (r : Option β) (b : β) : ℕ := if r = some b then 1 else 0

@[simp] theorem refers_none (b : β) : refers none b = 0 := by simp [refers]

theorem occ_eq_sum (g : α → Option β) (b : β) : occ g b = ∑ a, refers (g a) b := card_filter _ _

/-- **Changing one entry** moves one reference. -/
theorem occ_update [DecidableEq α] (g : α → Option β) (a : α) (r : Option β) (b : β) :
    occ (update g a r) b + refers (g a) b = occ g b + refers r b := by
  have hrest : ∑ x ∈ univ.erase a, refers (update g a r x) b =
      ∑ x ∈ univ.erase a, refers (g x) b := by
    refine sum_congr rfl fun x hx => ?_
    rw [update_of_ne (ne_of_mem_erase hx)]
  have hself : refers (update g a r a) b = refers r b := by
    rw [update_self]
  rw [occ_eq_sum, occ_eq_sum, ← add_sum_erase _ _ (mem_univ a),
    ← add_sum_erase univ (fun x => refers (g x) b) (mem_univ a), hrest, hself]
  omega

theorem occ_le_card (g : α → Option β) (b : β) : occ g b ≤ Fintype.card α := card_le_univ _

theorem card_eq_occ {g : α → Option β} {b : β} {P : α → Prop} [DecidablePred P]
    (h : ∀ a, P a ↔ g a = some b) : (univ.filter P).card = occ g b :=
  congrArg card (filter_congr fun a _ => h a)

theorem occ_pos {g : α → Option β} {a : α} {b : β} (h : g a = some b) : 0 < occ g b :=
  card_pos.2 ⟨a, mem_filter.2 ⟨mem_univ a, h⟩⟩

end Cinux
