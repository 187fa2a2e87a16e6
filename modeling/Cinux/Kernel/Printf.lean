import Mathlib.Data.Nat.Digits.Lemmas
import Mathlib.Logic.Function.Basic

/-!
# Numbers on the console

`printint` stores the digits of a number in a buffer of 20 bytes, the last one first, and a sign
after them, and prints the buffer from its end.  `printint_numeral` says that it prints the numeral
of the number, with `Nat.toDigits` for the digits.
-/

namespace Cinux

open Function

/-- `digits`. -/
def digits : List Char :=
  ['0', '1', '2', '3', '4', '5', '6', '7', '8', '9', 'a', 'b', 'c', 'd', 'e', 'f']

/-- `buf[i] = c`; there is no store behind `char buf[20]`. -/
def storeChar (buf : ℕ → Char) (i : ℕ) (c : Char) : Option (ℕ → Char) :=
  if i < 20 then some (update buf i c) else none

/-- The loop of `printint` that stores the digits of `x`, in at most `fuel` rounds. -/
def digitLoop (base : ℕ) : ℕ → ℕ → (ℕ → Char) → ℕ → Option ((ℕ → Char) × ℕ)
  | 0, _, _, _ => none
  | fuel + 1, x, buf, i => do
    let buf ← storeChar buf i (digits.getD (x % base) '\x00')
    if x / base ≠ 0 then digitLoop base fuel (x / base) buf (i + 1) else some (buf, i + 1)

/-- The loop that prints `buf[i - 1]` down to `buf[0]`: what `consputc` is called with. -/
def emitLoop (buf : ℕ → Char) : ℕ → Option (List Char)
  | 0 => some []
  | i + 1 => if i < 20 then (emitLoop buf i).map (buf i :: ·) else none

/-- `printint`, with what is on its stack in `buf`.  The loop gets one round more than `x` has
units; `-xx` is `xx` again for the most negative number. -/
def printint (buf : ℕ → Char) (xx : BitVec 64) (base : ℕ) (sign : Bool) : Option (List Char) := do
  let sign := sign && xx.toInt < 0
  let x := (if sign then -xx else xx).toNat
  let (buf, i) ← digitLoop base (x + 1) x buf 0
  if sign then emitLoop (← storeChar buf i '-') (i + 1) else emitLoop buf i

/-- The call of `printint` that `printf` makes for the characters after a `%`. -/
def printfInt (c0 c1 c2 : Char) (arg : BitVec 64) : Option (BitVec 64 × ℕ × Bool) :=
  if c0 = 'd' then some ((arg.setWidth 32).signExtend 64, 10, true)
  else if c0 = 'l' ∧ c1 = 'd' then some (arg, 10, true)
  else if c0 = 'l' ∧ c1 = 'l' ∧ c2 = 'd' then some (arg, 10, true)
  else if c0 = 'u' then some ((arg.setWidth 32).setWidth 64, 10, false)
  else if c0 = 'l' ∧ c1 = 'u' then some (arg, 10, false)
  else if c0 = 'l' ∧ c1 = 'l' ∧ c2 = 'u' then some (arg, 10, false)
  else if c0 = 'x' then some ((arg.setWidth 32).setWidth 64, 16, false)
  else if c0 = 'l' ∧ c1 = 'x' then some (arg, 16, false)
  else if c0 = 'l' ∧ c1 = 'l' ∧ c2 = 'x' then some (arg, 16, false)
  else none

/-- The numeral of an integer: a sign if it is negative, then the digits from the first one that is
not zero, or `0`. -/
def numeral (base : ℕ) (v : ℤ) : List Char :=
  if v < 0 then '-' :: base.toDigits v.natAbs else base.toDigits v.natAbs

theorem getD_digits {d : ℕ} (hd : d < 16) : digits.getD d '\x00' = d.digitChar := by
  have h : ∀ d : Fin 16, digits.getD d.val '\x00' = d.val.digitChar := by decide
  exact h ⟨d, hd⟩

theorem emitLoop_update (buf : ℕ → Char) (i : ℕ) (c : Char) {j : ℕ} (hj : j ≤ i) :
    emitLoop (update buf i c) j = emitLoop buf j := by
  induction j with
  | zero => rfl
  | succ j ih => rw [emitLoop, emitLoop, ih (by omega), update_of_ne (by omega)]

theorem emitLoop_store {buf : ℕ → Char} {i : ℕ} {l : List Char} (h : emitLoop buf i = some l)
    (hi : i < 20) (c : Char) : emitLoop (update buf i c) (i + 1) = some (c :: l) := by
  rw [emitLoop, if_pos hi, emitLoop_update buf i c le_rfl, h, update_self]
  rfl

/-- The loop ends and stays in the buffer, if there is room for the digits; they are printed in
front of what the buffer held. -/
theorem digitLoop_eq {base : ℕ} (hb : 1 < base) (hb' : base ≤ 16) {fuel x i : ℕ} {buf : ℕ → Char}
    {l : List Char} (hx : x < fuel) (hi : i + (base.toDigits x).length ≤ 20)
    (hl : emitLoop buf i = some l) :
    ∃ buf', digitLoop base fuel x buf i = some (buf', i + (base.toDigits x).length) ∧
      emitLoop buf' (i + (base.toDigits x).length) = some (base.toDigits x ++ l) := by
  induction fuel generalizing x i buf l with
  | zero => omega
  | succ fuel ih =>
    have hdigit := getD_digits (lt_of_lt_of_le (Nat.mod_lt x (by omega)) hb')
    have hpos : 0 < (base.toDigits x).length := Nat.length_toDigits_pos
    have hst := emitLoop_store hl (by omega) (x % base).digitChar
    rw [digitLoop, hdigit, storeChar, if_pos (by omega)]
    dsimp only [Option.bind_eq_bind, Option.bind_some]
    rcases Nat.lt_or_ge x base with hlt | hge
    · rw [if_neg (by simp [Nat.div_eq_of_lt hlt]), Nat.toDigits_of_lt_base hlt]
      rw [Nat.mod_eq_of_lt hlt] at hst ⊢
      exact ⟨_, rfl, hst⟩
    · have hx' : x / base < fuel := by
        have := Nat.div_lt_self (show 0 < x by omega) hb
        omega
      rw [Nat.toDigits_of_base_le hb hge, List.length_append, List.length_singleton] at hi ⊢
      rw [if_pos (Nat.div_pos hge (by omega)).ne']
      obtain ⟨buf', hrun, hemit⟩ := ih hx' (by omega) hst
      rw [show i + 1 + (base.toDigits (x / base)).length =
        i + ((base.toDigits (x / base)).length + 1) by omega] at hrun hemit
      exact ⟨buf', hrun, by rw [hemit, List.append_assoc, List.singleton_append]⟩

theorem digitLoop_first {base x : ℕ} (hb : 1 < base) (hb' : base ≤ 16)
    (hx : (base.toDigits x).length ≤ 20) (buf : ℕ → Char) :
    ∃ buf', digitLoop base (x + 1) x buf 0 = some (buf', (base.toDigits x).length) ∧
      emitLoop buf' (base.toDigits x).length = some (base.toDigits x) := by
  have hnone : emitLoop buf 0 = some [] := rfl
  have h := digitLoop_eq hb hb' x.lt_succ_self ((Nat.zero_add _).le.trans hx) hnone
  rwa [Nat.zero_add, List.append_nil] at h

theorem printfInt_cases {c0 c1 c2 : Char} {arg v : BitVec 64} {base : ℕ} {sign : Bool}
    (h : printfInt c0 c1 c2 arg = some (v, base, sign)) :
    base = 10 ∨ base = 16 ∧ sign = false := by
  unfold printfInt at h
  split_ifs at h <;> cases h <;> simp

/-- **`printint` prints the numeral** of every 64-bit value, with each base and sign that `printf`
passes to it: its loop ends, no access is outside the buffer, and the characters are those of the
value as a signed or as an unsigned number. -/
theorem printint_numeral {c0 c1 c2 : Char} {arg v : BitVec 64} {base : ℕ} {sign : Bool}
    (h : printfInt c0 c1 c2 arg = some (v, base, sign)) (buf : ℕ → Char) (xx : BitVec 64) :
    printint buf xx base sign =
      some (numeral base (if sign then xx.toInt else (xx.toNat : ℤ))) := by
  have hbase := printfInt_cases h
  have hx := xx.toInt_eq_toNat_cond
  unfold printint numeral
  by_cases hneg : sign = true ∧ xx.toInt < 0
  · -- the sign takes the place of the twentieth digit
    obtain ⟨rfl, hlt⟩ := hneg
    obtain rfl : base = 10 := hbase.resolve_right fun hb => nomatch hb.2
    have habs : (-xx).toNat = xx.toInt.natAbs := by
      rw [BitVec.toNat_neg]
      split_ifs at hx <;> omega
    have hroom : (Nat.toDigits 10 xx.toInt.natAbs).length < 20 := Nat.lt_succ_of_le <|
      (Nat.length_toDigits_le_iff (by decide) (by decide)).2 (by split_ifs at hx <;> omega)
    obtain ⟨buf', hrun, hemit⟩ := digitLoop_first (by decide) (by decide) hroom.le buf
    simp only [hlt, decide_true, Bool.and_self, if_true, habs, hrun, storeChar,
      Option.bind_eq_bind, Option.bind_some, hroom]
    exact emitLoop_store hemit hroom '-'
  · have hval : (if sign then xx.toInt else (xx.toNat : ℤ)) = xx.toNat := by
      split_ifs with hs
      · have := not_and.1 hneg hs
        split_ifs at hx <;> omega
      · rfl
    have hlen : (base.toDigits xx.toNat).length ≤ 20 := by
      refine (Nat.length_toDigits_le_iff (by omega) (by decide)).2 (lt_of_lt_of_le xx.isLt ?_)
      obtain rfl | ⟨rfl, -⟩ := hbase <;> norm_num
    obtain ⟨buf', hrun, hemit⟩ := digitLoop_first (by omega) (by omega) hlen buf
    have hsign : (sign && decide (xx.toInt < 0)) = false := by simpa using hneg
    simp only [hsign, Bool.false_eq_true, if_false, hrun, Option.bind_eq_bind, Option.bind_some,
      hval, Int.natAbs_natCast, if_neg (Int.natCast_nonneg xx.toNat).not_gt]
    exact hemit

/-- The most negative number, which has as many characters as the buffer has places. -/
theorem printint_numeral_intMin : printfInt 'l' 'd' '\x00' 0 = some (0, 10, true) ∧
    printint (fun _ => '?') (BitVec.intMin 64) 10 true =
      some (numeral 10 (if true then (BitVec.intMin 64).toInt else (BitVec.intMin 64).toNat)) :=
  have h : printfInt 'l' 'd' '\x00' 0 = some (0, 10, true) := by decide
  ⟨h, printint_numeral h _ _⟩

example : numeral 10 (BitVec.intMin 64).toInt = "-9223372036854775808".toList := by
  decide +kernel

end Cinux
