import Cinux.Kernel.Param
import Mathlib.Algebra.Order.Ring.Nat
import Mathlib.Data.List.TakeWhile
import Mathlib.Logic.Function.Basic

/-!
# C strings

The functions of `string.c` on strings.  A string is the list of bytes from its start on, with a
NUL after the last one; `cstr` is what a C program takes the string to be, the bytes before the
first NUL.  `memmove` is on a memory with 64-bit addresses.
-/

namespace Cinux

open Function

/-- The bytes before the first NUL. -/
def cstr (s : Bytes) : Bytes := s.takeWhile (· ≠ 0)

/-- `strlen`. -/
def strlen (s : Bytes) : ℕ := (cstr s).length

/-- The `n` bytes that `strncpy(s, t, n)` stores at `s`. -/
def strncpy : ℕ → Bytes → Bytes
  | 0, _ => []
  | n + 1, [] => List.replicate (n + 1) 0
  | n + 1, c :: t => if c = 0 then List.replicate (n + 1) 0 else c :: strncpy n t

/-- `strncmp(p, q, n)`. -/
def strncmp : ℕ → Bytes → Bytes → ℤ
  | 0, _, _ => 0
  | n + 1, p, q =>
    if p.headD 0 ≠ 0 ∧ p.headD 0 = q.headD 0 then strncmp n p.tail q.tail
    else (p.headD 0).toNat - (q.headD 0).toNat

theorem cstr_of_not_mem {s : Bytes} (h : (0 : UInt8) ∉ s) : cstr s = s :=
  List.takeWhile_eq_self_iff.2 fun c hc => by
    have : c ≠ 0 := fun h0 => h (h0 ▸ hc)
    simpa using this

theorem cstr_append_zero {s : Bytes} (h : (0 : UInt8) ∉ s) (t : Bytes) :
    cstr (s ++ 0 :: t) = s := by
  unfold cstr
  rw [List.takeWhile_append_of_pos]
  · simp
  · intro c hc
    have : c ≠ 0 := fun h0 => h (h0 ▸ hc)
    simpa using this

theorem length_strncpy (n : ℕ) (t : Bytes) : (strncpy n t).length = n := by
  induction n generalizing t with
  | zero => rfl
  | succ n ih =>
    cases t with
    | nil => simp [strncpy]
    | cons c t =>
      unfold strncpy
      split_ifs
      · simp
      · simp [ih]

theorem strncpy_of_le {n : ℕ} {t : Bytes} (h : (0 : UInt8) ∉ t.take n)
    (hn : n ≤ t.length) : strncpy n t = t.take n := by
  induction n generalizing t with
  | zero => simp [strncpy]
  | succ n ih =>
    cases t with
    | nil => simp at hn
    | cons c t =>
      simp only [List.take_succ_cons, List.mem_cons, not_or] at h
      rw [strncpy, if_neg (Ne.symm h.1), ih h.2 (by simpa using hn), List.take_succ_cons]

theorem strncpy_of_ge {n : ℕ} {t : Bytes} (h : (0 : UInt8) ∉ t) (hn : t.length ≤ n) :
    strncpy n t = t ++ List.replicate (n - t.length) 0 := by
  induction n generalizing t with
  | zero =>
    have : t = [] := List.eq_nil_of_length_eq_zero (Nat.le_zero.1 hn)
    simp [this, strncpy]
  | succ n ih =>
    cases t with
    | nil => simp [strncpy]
    | cons c t =>
      simp only [List.mem_cons, not_or] at h
      rw [strncpy, if_neg (Ne.symm h.1), ih h.2 (by simpa using hn)]
      simp

/-- `strncmp` finds no difference exactly when the strings agree up to the bound. -/
theorem strncmp_eq_zero_iff (n : ℕ) (p q : Bytes) :
    strncmp n p q = 0 ↔ (cstr p).take n = (cstr q).take n := by
  induction n generalizing p q with
  | zero => simp [strncmp]
  | succ n ih =>
    unfold strncmp
    cases p with
    | nil =>
      cases q with
      | nil => simp [cstr]
      | cons b q =>
        by_cases hb : b = 0
        · simp [cstr, hb]
        · have : ¬ b.toNat = 0 := fun h => hb (UInt8.toNat_inj.1 h)
          simp [cstr, hb, this]
    | cons a p =>
      by_cases ha : a = 0
      · cases q with
        | nil => simp [cstr, ha]
        | cons b q =>
          by_cases hb : b = 0
          · simp [cstr, ha, hb]
          · have : ¬ b.toNat = 0 := fun h => hb (UInt8.toNat_inj.1 h)
            simp [cstr, ha, hb, this]
      · have hne : ¬ a.toNat = 0 := fun h => ha (UInt8.toNat_inj.1 h)
        cases q with
        | nil => simp [cstr, ha, hne]
        | cons b q =>
          by_cases hab : a = b
          · subst hab
            simpa [cstr, ha] using ih p q
          · have hnat : ¬ a.toNat = b.toNat := fun h => hab (UInt8.toNat_inj.1 h)
            by_cases hb : b = 0
            · simp [cstr, ha, hb, hne]
            · simp [cstr, ha, hb, hab]
              omega

/-! ### `memmove` -/

/-- The loop of `memmove` from the first byte on, with `k` bytes to copy. -/
def copyUp : ℕ → ℕ → ℕ → (ℕ → UInt8) → ℕ → UInt8
  | 0, _, _, m => m
  | k + 1, d, s, m => copyUp k ((d + 1) % 2 ^ 64) ((s + 1) % 2 ^ 64) (update m d (m s))

/-- The loop from the last byte on; `d` and `s` are behind what is to be copied. -/
def copyDown : ℕ → ℕ → ℕ → (ℕ → UInt8) → ℕ → UInt8
  | 0, _, _, m => m
  | k + 1, d, s, m =>
    let d := (d + 2 ^ 64 - 1) % 2 ^ 64
    let s := (s + 2 ^ 64 - 1) % 2 ^ 64
    copyDown k d s (update m d (m s))

/-- `memmove`: what it returns, and the memory it leaves. -/
def memmove (dst src n : ℕ) (m : ℕ → UInt8) : ℕ × (ℕ → UInt8) :=
  if n = 0 then (dst, m)
  else if src < dst ∧ (src + n) % 2 ^ 64 > dst then
    (dst, copyDown n ((dst + n) % 2 ^ 64) ((src + n) % 2 ^ 64) m)
  else (dst, copyUp n dst src m)

theorem copyUp_eq {k d s : ℕ} (hd : d + k ≤ 2 ^ 64) (hs : s + k ≤ 2 ^ 64)
    (h : d ≤ s ∨ s + k ≤ d) (m : ℕ → UInt8) (a : ℕ) :
    copyUp k (d % 2 ^ 64) (s % 2 ^ 64) m a =
      if d ≤ a ∧ a < d + k then m (s + (a - d)) else m a := by
  induction k generalizing d s m with
  | zero => rw [copyUp, if_neg (by omega)]
  | succ k ih =>
    rw [copyUp, Nat.mod_add_mod, Nat.mod_add_mod, Nat.mod_eq_of_lt (show d < 2 ^ 64 by omega),
      Nat.mod_eq_of_lt (show s < 2 ^ 64 by omega), ih (by omega) (by omega) (by omega)]
    rcases eq_or_ne a d with rfl | hne
    · rw [if_neg (by omega), if_pos (by omega), update_self, Nat.sub_self, Nat.add_zero]
    · by_cases hin : d ≤ a ∧ a < d + (k + 1)
      · rw [if_pos (by omega), if_pos hin, update_of_ne (by omega),
          show s + 1 + (a - (d + 1)) = s + (a - d) by omega]
      · rw [if_neg (by omega), if_neg hin, update_of_ne hne]

theorem copyDown_eq {k d s : ℕ} (hd : d + k ≤ 2 ^ 64) (h : s < d) (m : ℕ → UInt8) (a : ℕ) :
    copyDown k ((d + k) % 2 ^ 64) ((s + k) % 2 ^ 64) m a =
      if d ≤ a ∧ a < d + k then m (s + (a - d)) else m a := by
  induction k generalizing m with
  | zero => rw [copyDown, if_neg (by omega)]
  | succ k ih =>
    have hlast : ∀ x, x + (k + 1) ≤ 2 ^ 64 →
        ((x + (k + 1)) % 2 ^ 64 + 2 ^ 64 - 1) % 2 ^ 64 = (x + k) % 2 ^ 64 := fun x hx => by omega
    rw [copyDown, hlast d hd, hlast s (by omega), ih (by omega),
      Nat.mod_eq_of_lt (show d + k < 2 ^ 64 by omega),
      Nat.mod_eq_of_lt (show s + k < 2 ^ 64 by omega)]
    rcases eq_or_ne a (d + k) with rfl | hne
    · rw [if_neg (by omega), if_pos (by omega), update_self, Nat.add_sub_cancel_left]
    · by_cases hin : d ≤ a ∧ a < d + (k + 1)
      · rw [if_pos (by omega), if_pos hin, update_of_ne (by omega)]
      · rw [if_neg (by omega), if_neg hin, update_of_ne hne]

/-- **`memmove` moves the bytes**, however the two ranges overlap, if neither of them wraps around:
each byte of the destination is the one that was in the source, and no other byte changes. -/
theorem memmove_moves (dst src n : ℕ) (m : ℕ → UInt8) (hd : dst + n ≤ 2 ^ 64)
    (hs : src + n ≤ 2 ^ 64) :
    (memmove dst src n m).1 = dst ∧ (∀ i < n, (memmove dst src n m).2 (dst + i) = m (src + i)) ∧
      ∀ a, ¬(dst ≤ a ∧ a < dst + n) → (memmove dst src n m).2 a = m a := by
  have h : ∀ a, (memmove dst src n m).2 a =
      if dst ≤ a ∧ a < dst + n then m (src + (a - dst)) else m a := by
    intro a
    unfold memmove
    by_cases h0 : n = 0
    · rw [if_pos h0, if_neg (by omega)]
    rw [if_neg h0]
    by_cases hover : src < dst ∧ (src + n) % 2 ^ 64 > dst
    · rw [if_pos hover]
      exact copyDown_eq hd hover.1 m a
    · have hup := copyUp_eq hd hs (by omega) m a
      rw [Nat.mod_eq_of_lt (show dst < 2 ^ 64 by omega),
        Nat.mod_eq_of_lt (show src < 2 ^ 64 by omega)] at hup
      rw [if_neg hover]
      exact hup
  refine ⟨by unfold memmove; split_ifs <;> rfl, fun i hi => ?_, fun a ha => ?_⟩
  · rw [h, if_pos (by omega), Nat.add_sub_cancel_left]
  · rw [h, if_neg ha]

/-- Four bytes move up by one. -/
theorem memmove_moves_overlap : (1 + 4 ≤ 2 ^ 64 ∧ 0 + 4 ≤ 2 ^ 64) ∧
    ∀ i < 4, (memmove 1 0 4 UInt8.ofNat).2 (1 + i) = UInt8.ofNat (0 + i) :=
  ⟨by decide, (memmove_moves 1 0 4 _ (by decide) (by decide)).2.1⟩

end Cinux
