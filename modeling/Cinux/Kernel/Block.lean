import Cinux.Kernel.Param
import Mathlib.Algebra.Order.Ring.Nat
import Mathlib.Tactic.Ring
import Mathlib.Tactic.IntervalCases

/-!
# Disk blocks

A block is `BSIZE` bytes, the `data` field of a buffer.  The kernel reads and writes 16- and
32-bit fields in it through casts, little-endian; `le16`, `le32` read them from any sequence of
bytes, and `Block.word`, `Block.setWord` are `((uint *)data)[k]` as a value and as an
assignment.
-/

namespace Cinux

/-- The value of an `int` after arithmetic. -/
def toInt32 (n : ℤ) : ℤ := Int.bmod n (2 ^ 32)

theorem toInt32_of_fits {n : ℕ} (h : n < 2 ^ 31) : toInt32 n = n := by
  unfold toInt32
  rw [Int.bmod_eq_of_le] <;> omega

/-- The value of a `short` after arithmetic. -/
def toInt16 (n : ℤ) : ℤ := Int.bmod n (2 ^ 16)

theorem toInt16_of_fits {n : ℕ} (h : n < 2 ^ 15) : toInt16 n = n := by
  unfold toInt16
  rw [Int.bmod_eq_of_le] <;> omega

/-- The contents of a block: `uchar data[BSIZE]`. -/
abbrev Block := Fin BSIZE → UInt8

/-- The little-endian 16-bit field at offset `i`. -/
def le16 (f : ℕ → UInt8) (i : ℕ) : ℕ := (f i).toNat + 256 * (f (i + 1)).toNat

/-- The little-endian 32-bit field at offset `i`. -/
def le32 (f : ℕ → UInt8) (i : ℕ) : ℕ :=
  (f i).toNat + 256 * (f (i + 1)).toNat + 65536 * (f (i + 2)).toNat +
    16777216 * (f (i + 3)).toNat

/-- Byte `i` of the little-endian representation of `v`. -/
def byteOf (v i : ℕ) : UInt8 := UInt8.ofNat (v / 256 ^ i)

theorem le16_lt (f : ℕ → UInt8) (i : ℕ) : le16 f i < 2 ^ 16 := by
  have h0 := (f i).toNat_lt
  have h1 := (f (i + 1)).toNat_lt
  simp only [le16]
  omega

theorem le32_lt (f : ℕ → UInt8) (i : ℕ) : le32 f i < 2 ^ 32 := by
  have h0 := (f i).toNat_lt
  have h1 := (f (i + 1)).toNat_lt
  have h2 := (f (i + 2)).toNat_lt
  have h3 := (f (i + 3)).toNat_lt
  simp only [le32]
  omega

theorem toNat_byteOf (v i : ℕ) : (byteOf v i).toNat = v / 256 ^ i % 256 := by
  simp [byteOf]

namespace Block

/-- The zeroed block. -/
def zero : Block := fun _ => 0

/-- `data[i]`; offsets outside the block read as zero. -/
def byte (d : Block) (i : ℕ) : UInt8 := if h : i < BSIZE then d ⟨i, h⟩ else 0

/-- `data[i] = v`. -/
def setByte (d : Block) (i : ℕ) (v : UInt8) : Block := fun j => if j.val = i then v else d j

/-- `((uint *)data)[k]`. -/
def word (d : Block) (k : ℕ) : ℕ := le32 d.byte (4 * k)

/-- `((uint *)data)[k] = v`. -/
def setWord (d : Block) (k v : ℕ) : Block :=
  fun j => if j.val / 4 = k then byteOf v (j.val % 4) else d j

/-- `memmove(data + o, src, m)`. -/
def memmove (d : Block) (o m : ℕ) (src : ℕ → UInt8) : Block :=
  fun j => if o ≤ j.val ∧ j.val < o + m then src (j.val - o) else d j

theorem byte_of_lt (d : Block) {i : ℕ} (h : i < BSIZE) : d.byte i = d ⟨i, h⟩ := by
  simp [byte, h]

@[simp] theorem byte_zero (i : ℕ) : zero.byte i = 0 := by
  unfold byte zero; split <;> rfl

theorem byte_setByte (d : Block) {i : ℕ} (h : i < BSIZE) (v : UInt8) (j : ℕ) :
    (d.setByte i v).byte j = if j = i then v else d.byte j := by
  unfold byte setByte
  by_cases hj : j < BSIZE
  · simp [hj]
  · have : j ≠ i := by omega
    simp [hj, this]

theorem byte_memmove (d : Block) {o m : ℕ} (h : o + m ≤ BSIZE) (src : ℕ → UInt8) (j : ℕ) :
    (d.memmove o m src).byte j = if o ≤ j ∧ j < o + m then src (j - o) else d.byte j := by
  unfold byte memmove
  by_cases hj : j < BSIZE
  · simp [hj]
  · have : ¬(o ≤ j ∧ j < o + m) := by omega
    simp [hj, this]

theorem ext_byte {d e : Block} (h : ∀ i < BSIZE, d.byte i = e.byte i) : d = e := by
  funext j
  have := h j j.isLt
  simpa [byte, j.isLt] using this

@[simp] theorem word_zero (k : ℕ) : zero.word k = 0 := by simp [word, le32]

theorem byte_setWord (d : Block) {k : ℕ} (hk : k < BSIZE / 4) (v j : ℕ) :
    (d.setWord k v).byte j = if j / 4 = k then byteOf v (j % 4) else d.byte j := by
  unfold byte setWord
  simp only [BSIZE] at *
  by_cases hj : j < 1024
  · simp [hj]
  · have : j / 4 ≠ k := by omega
    simp [hj, this]

theorem word_setWord_self (d : Block) {k v : ℕ} (hk : k < BSIZE / 4) (hv : v < 2 ^ 32) :
    (d.setWord k v).word k = v := by
  have e0 : 4 * k / 4 = k ∧ 4 * k % 4 = 0 := by omega
  have e1 : (4 * k + 1) / 4 = k ∧ (4 * k + 1) % 4 = 1 := by omega
  have e2 : (4 * k + 2) / 4 = k ∧ (4 * k + 2) % 4 = 2 := by omega
  have e3 : (4 * k + 3) / 4 = k ∧ (4 * k + 3) % 4 = 3 := by omega
  simp only [word, le32, byte_setWord d hk, e0, e1, e2, e3, if_true, toNat_byteOf]
  omega

theorem word_setWord_ne (d : Block) {k j v : ℕ} (hk : k < BSIZE / 4) (hj : j ≠ k) :
    (d.setWord k v).word j = d.word j := by
  have e0 : 4 * j / 4 ≠ k := by omega
  have e1 : (4 * j + 1) / 4 ≠ k := by omega
  have e2 : (4 * j + 2) / 4 ≠ k := by omega
  have e3 : (4 * j + 3) / 4 ≠ k := by omega
  simp only [word, le32, byte_setWord d hk, e0, e1, e2, e3, if_false]

end Block

end Cinux
