import Mathlib.Data.List.Basic
import Mathlib.Data.Nat.ModEq
import Mathlib.Logic.Function.Basic

/-!
# Rings with free-running counters

A ring buffer of `c` slots whose two counters are never reset: they count modulo `M`, the range of
the machine integer they are kept in, and only the index into the ring is taken modulo `c`. This is
sound when `c` divides `M`, as it does for powers of two.

* `gap M r w` : the number of slots between the reading counter `r` and the writing counter `w`, the
  difference `w - r` as the machine computes it.
* `slots M data r w` : what stands in these slots, oldest first.
* `slots_store`, `slots_advance` : storing at `w` leaves the entries alone, and advancing `w`
  appends what was stored.
* `slots_append` : the entries up to a third counter and those from it on.
* `slots_push`, `slots_pop` : storing at `w` and advancing it appends; advancing `r` drops the
  oldest entry, also when a counter wraps around.
-/

namespace Cinux

open Function

open List Nat

variable {α : Type*} {c M r w : ℕ}

/-- The difference of two counters modulo `M`. -/
def gap (M r w : ℕ) : ℕ := (w + M - r) % M

theorem gap_of_le (hw : w < M) (h : r ≤ w) : gap M r w = w - r := by
  rw [gap, show w + M - r = (w - r) + M by omega, add_mod_right]
  exact mod_eq_of_lt (by omega)

theorem gap_of_lt (hr : r < M) (h : w < r) : gap M r w = w + M - r := mod_eq_of_lt (by omega)

@[simp] theorem gap_self (hr : r < M) : gap M r r = 0 := by
  rw [gap_of_le hr le_rfl, Nat.sub_self]

theorem gap_eq_zero (hr : r < M) (hw : w < M) : gap M r w = 0 ↔ r = w := by
  rcases le_or_gt r w with h | h
  · rw [gap_of_le hw h]; omega
  · rw [gap_of_lt hr h]; omega

/-- Advancing a counter by one, with or without wrapping around. -/
theorem succ_mod_cases (hw : w < M) :
    (w + 1) % M = w + 1 ∧ w + 1 < M ∨ (w + 1) % M = 0 ∧ w + 1 = M := by
  rcases Nat.lt_or_ge (w + 1) M with h | h
  · exact .inl ⟨mod_eq_of_lt h, h⟩
  · have : w + 1 = M := by omega
    exact .inr ⟨by rw [this, mod_self], this⟩

theorem gap_succ_right (hr : r < M) (hw : w < M) (h : gap M r w + 1 < M) :
    gap M r ((w + 1) % M) = gap M r w + 1 := by
  rcases le_or_gt r w with hrw | hrw
  · rw [gap_of_le hw hrw] at h ⊢
    rcases succ_mod_cases hw with ⟨e, hlt⟩ | ⟨e, hM⟩
    · rw [e, gap_of_le hlt (by omega)]; omega
    · rw [e, gap_of_lt hr (by omega)]; omega
  · rw [gap_of_lt hr hrw] at h ⊢
    rw [mod_eq_of_lt (by omega : w + 1 < M), gap_of_lt hr (by omega)]
    omega

theorem gap_succ_left (hr : r < M) (hw : w < M) (h : r ≠ w) :
    gap M r w = gap M ((r + 1) % M) w + 1 := by
  rcases le_or_gt r w with hrw | hrw
  · rw [gap_of_le hw hrw, mod_eq_of_lt (by omega : r + 1 < M), gap_of_le hw (by omega)]
    omega
  · rw [gap_of_lt hr hrw]
    rcases succ_mod_cases hr with ⟨e, hlt⟩ | ⟨e, hM⟩
    · rw [e, gap_of_lt hlt (by omega)]; omega
    · rw [e, gap_of_le hw (by omega)]; omega

theorem gap_pred_right (hr : r < M) (hw : w < M) (h : r ≠ w) :
    gap M r w = gap M r ((w + M - 1) % M) + 1 := by
  rcases Nat.eq_zero_or_pos w with h0 | h0
  · rw [h0, Nat.zero_add, mod_eq_of_lt (by omega : M - 1 < M), gap_of_lt hr (by omega),
      gap_of_le (by omega) (by omega)]
    omega
  · rw [show w + M - 1 = w - 1 + M by omega, add_mod_right, mod_eq_of_lt (by omega : w - 1 < M)]
    rcases Nat.lt_or_gt_of_ne h with hlt | hlt
    · rw [gap_of_le hw hlt.le, gap_of_le (by omega) (by omega)]
      omega
    · rw [gap_of_lt hr hlt, gap_of_lt hr (by omega)]
      omega

/-- A counter that is set back by one. -/
theorem succ_pred_mod (hw : w < M) : ((w + M - 1) % M + 1) % M = w := by
  rcases Nat.eq_zero_or_pos w with h | h
  · rw [h, Nat.zero_add, mod_eq_of_lt (by omega : M - 1 < M), Nat.sub_add_cancel (by omega),
      mod_self]
  · rw [show w + M - 1 = w - 1 + M by omega, add_mod_right,
      mod_eq_of_lt (by omega : w - 1 < M), Nat.sub_add_cancel h, mod_eq_of_lt hw]

theorem pred_succ_mod (hr : r < M) : ((r + 1) % M + M - 1) % M = r := by
  rcases succ_mod_cases hr with ⟨e, -⟩ | ⟨e, hM⟩
  · rw [e, show r + 1 + M - 1 = r + M by omega, add_mod_right, mod_eq_of_lt hr]
  · rw [e, show 0 + M - 1 = r by omega, mod_eq_of_lt hr]

/-- The test for a full ring compares the counters themselves. -/
theorem eq_add_mod_iff_gap {k : ℕ} (hr : r < M) (hw : w < M) (hk : k < M) :
    w = (r + k) % M ↔ gap M r w = k := by
  have hmod : (r + k) % M = if r + k < M then r + k else r + k - M := by
    split_ifs with h
    · exact mod_eq_of_lt h
    · rw [mod_eq_sub_mod (by omega), mod_eq_of_lt (by omega)]
  rw [hmod]
  rcases le_or_gt r w with h | h
  · rw [gap_of_le hw h]; split_ifs <;> omega
  · rw [gap_of_lt hr h]; split_ifs <;> omega

section Slots

variable [NeZero c]

/-- The slot that the counter value `k` refers to. -/
def slot (c : ℕ) [NeZero c] (k : ℕ) : Fin c := Fin.ofNat c k

theorem slot_eq_iff {j k : ℕ} : slot c j = slot c k ↔ j % c = k % c := by
  simp [slot, Fin.ext_iff]

theorem slot_mod (h : c ∣ M) (k : ℕ) : slot c (k % M) = slot c k := by
  rw [slot_eq_iff, mod_mod_of_dvd _ h]

theorem slot_mod_add (h : c ∣ M) (k i : ℕ) : slot c (k % M + i) = slot c (k + i) := by
  rw [slot_eq_iff, add_mod, mod_mod_of_dvd _ h, ← add_mod]

theorem slot_ne {k i : ℕ} (hi : i < c) (h0 : 0 < i) : slot c (k + i) ≠ slot c k := by
  rw [Ne, slot_eq_iff]
  intro h
  have : (k + i) ≡ k + 0 [MOD c] := h
  have h' : i ≡ 0 [MOD c] := Nat.ModEq.add_left_cancel' k this
  rw [Nat.ModEq, mod_eq_of_lt hi, zero_mod] at h'
  omega

/-- The entries between the two counters, oldest first. -/
def slots (M : ℕ) (data : Fin c → α) (r w : ℕ) : List α :=
  (List.range (gap M r w)).map fun i => data (slot c (r + i))

@[simp] theorem length_slots (data : Fin c → α) : (slots M data r w).length = gap M r w := by
  simp [slots]

theorem slots_self (data : Fin c → α) (hr : r < M) : slots M data r r = [] := by
  rw [slots, gap_self hr]; rfl

/-- The writing counter is `gap` steps ahead of the reading one, up to wrapping around. -/
theorem slot_add_gap (h : c ∣ M) (hr : r < M) (hw : w < M) :
    slot c (r + gap M r w) = slot c w := by
  rcases le_or_gt r w with hrw | hrw
  · rw [gap_of_le hw hrw, show r + (w - r) = w by omega]
  · rw [gap_of_lt hr hrw, show r + (w + M - r) = w + M by omega, ← slot_mod h (w + M),
      add_mod_right, slot_mod h]

theorem slot_ne_of_gap (h : c ∣ M) (hr : r < M) (hw : w < M) (hc : gap M r w < c) {i : ℕ}
    (hi : i < gap M r w) : slot c (r + i) ≠ slot c w := by
  intro he
  rw [← slot_add_gap h hr hw, show r + gap M r w = r + i + (gap M r w - i) by omega] at he
  exact slot_ne (by omega) (by omega) he.symm

/-- Storing at the writing counter, before it is advanced, leaves the entries alone. -/
theorem slots_store (h : c ∣ M) (hr : r < M) (hw : w < M) (hc : gap M r w < c)
    (data : Fin c → α) (x : α) :
    slots M (update data (slot c w) x) r w = slots M data r w := by
  refine map_congr_left fun i hi => ?_
  exact update_of_ne (slot_ne_of_gap h hr hw hc (mem_range.1 hi)) _ _

theorem slots_store_ahead {e : ℕ} (h : c ∣ M) (hr : r < M) (he : e < M)
    (hle : gap M r w ≤ gap M r e)
    (hc : gap M r e < c) (data : Fin c → α) (x : α) :
    slots M (update data (slot c e) x) r w = slots M data r w := by
  refine map_congr_left fun i hi => ?_
  have hlt := mem_range.1 hi
  exact update_of_ne (slot_ne_of_gap h hr he hc (by omega)) _ _

theorem slots_append {e : ℕ} (h : c ∣ M) (hr : r < M) (hw : w < M)
    (hsum : gap M r w + gap M w e = gap M r e) (data : Fin c → α) :
    slots M data r e = slots M data r w ++ slots M data w e := by
  rw [slots, slots, slots, ← hsum, range_add, map_append, map_map]
  congr 1
  refine map_congr_left fun i _ => ?_
  have hslot := slot_eq_iff.1 (slot_add_gap h hr hw)
  rw [Function.comp_apply]
  congr 1
  rw [slot_eq_iff, ← Nat.add_assoc, add_mod, hslot, ← add_mod]

theorem slots_advance (h : c ∣ M) (hr : r < M) (hw : w < M) (hgap : gap M r w + 1 < M)
    (data : Fin c → α) :
    slots M data r ((w + 1) % M) = slots M data r w ++ [data (slot c w)] := by
  rw [slots, gap_succ_right hr hw hgap, range_succ, map_append, map_singleton, slot_add_gap h hr hw]
  rfl

/-- **Storing**: an entry stored at the writing counter is the newest one. -/
theorem slots_push (h : c ∣ M) (hr : r < M) (hw : w < M) (hc : gap M r w < c) (hM : c < M)
    (data : Fin c → α) (x : α) :
    slots M (update data (slot c w) x) r ((w + 1) % M) = slots M data r w ++ [x] := by
  rw [slots_advance h hr hw (by omega), slots_store h hr hw hc, update_self]

/-- **Taking**: the oldest entry stands at the reading counter. -/
theorem slots_pop (h : c ∣ M) (hr : r < M) (hw : w < M) (hne : r ≠ w) (data : Fin c → α) :
    slots M data r w = data (slot c r) :: slots M data ((r + 1) % M) w := by
  rw [slots, gap_succ_left hr hw hne, range_succ_eq_map, map_cons, map_map]
  refine congrArg₂ _ rfl (map_congr_left fun i _ => ?_)
  rw [slot_mod_add h, Function.comp_apply, show r + i.succ = r + 1 + i by omega]

end Slots

end Cinux
