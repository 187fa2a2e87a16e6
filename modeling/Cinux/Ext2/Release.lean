import Cinux.Ext2.Coherence

/-!
# Releasing a block that was allocated

`ext2fs_bfree` clears a bit of a bitmap, and it computes group, byte and bit from the number of the
block with the macros for inode numbers.  It takes back an allocation by `ext2fs_balloc` only where
this happens to lead to the bit that `ext2fs_balloc` has set: `Io.bfreeUndoes_iff`.

* `Io.Coherent.clear_ok`, `clear_panic` : clearing a bit of a bitmap block;
* `Io.Coherent.bfree_runs`, `bfree_disk` : what `ext2fs_bfree` does;
* `Io.bfree_undoes_balloc` : when it takes back an allocation.
-/

namespace Cinux

open Program Block

open Function

/-! ### Bits of a block -/

theorem lt_of_testBit_byte {v : UInt8} {t : ℕ} (h : v.toNat.testBit t = true) : t < 8 := by
  by_contra hge
  have hpow : 2 ^ 8 ≤ 2 ^ t := Nat.pow_le_pow_right (by decide) (by omega)
  rw [Nat.testBit_lt_two_pow (v.toNat_lt.trans_le hpow)] at h
  cases h

theorem testBit_byte_of_le (v : UInt8) {t : ℕ} (h : 8 ≤ t) : v.toNat.testBit t = false :=
  Bool.eq_false_of_not_eq_true fun ht => absurd (lt_of_testBit_byte ht) (by omega)

theorem Block.ext_bit {d e : Block} (h : ∀ k < 8 * BSIZE, d.bit k = e.bit k) : d = e := by
  refine ext_byte fun i hi => UInt8.toNat_inj.1 (Nat.eq_of_testBit_eq fun t => ?_)
  rcases Nat.lt_or_ge t 8 with ht | ht
  · have hk := h (i * 8 + t) (by omega)
    have hdiv : (i * 8 + t) / 8 = i := by omega
    have hmod : (i * 8 + t) % 8 = t := by omega
    unfold bit at hk
    rwa [hdiv, hmod] at hk
  · rw [testBit_byte_of_le _ ht, testBit_byte_of_le _ ht]

theorem testBit_sub_ofNat {v : UInt8} {t : ℕ} (h : v.toNat.testBit t = true) (u : ℕ) :
    (UInt8.ofNat (v.toNat - 2 ^ t)).toNat.testBit u = (v.toNat.testBit u && !decide (u = t)) := by
  have hall : ∀ n < 256, ∀ t < 8, n.testBit t = true → ∀ u < 8,
      ((n - 2 ^ t) % 256).testBit u = (n.testBit u && !decide (u = t)) := by
    decide +kernel
  rcases Nat.lt_or_ge u 8 with hu | hu
  · simpa using hall v.toNat v.toNat_lt t (lt_of_testBit_byte h) h u hu
  · rw [testBit_byte_of_le _ hu, testBit_byte_of_le _ hu, Bool.false_and]

namespace Io

/-- Block `d` with bit `t` of byte `i` cleared. -/
def unmarkBit (d : Block) (i t : ℕ) : Block :=
  d.setByte i (UInt8.ofNat ((d.byte i).toNat - 2 ^ t))

end Io

theorem Block.bit_unmarkBit {d : Block} {i t : ℕ} (hi : i < BSIZE)
    (ht : (d.byte i).toNat.testBit t = true) (k : ℕ) :
    (Io.unmarkBit d i t).bit k = (d.bit k && !decide (k = i * 8 + t)) := by
  have hlt := lt_of_testBit_byte ht
  unfold Io.unmarkBit bit
  rw [byte_setByte d hi]
  by_cases hk : k / 8 = i
  · have hsame : k % 8 = t ↔ k = i * 8 + t := by omega
    rw [if_pos hk, testBit_sub_ofNat ht, hk, decide_eq_decide.2 hsame]
  · have hne : ¬k = i * 8 + t := by omega
    rw [if_neg hk, decide_eq_false hne, Bool.not_false, Bool.and_true]

namespace Io

variable {s s' : Io} {held : List (Fin NBUF)} {n i j a inum : ℕ} {sb : Super}

theorem unmarkBit_markBit {d : Block} (hi : i < BSIZE) (hj : j < 8)
    (hclear : d.bit (i * 8 + (7 - j)) = false) : unmarkBit (markBit d i j) i (7 - j) = d := by
  have hdiv : (i * 8 + (7 - j)) / 8 = i := by omega
  have hmod : (i * 8 + (7 - j)) % 8 = 7 - j := by omega
  have hset : (markBit d i j).bit (i * 8 + (7 - j)) = true := by
    rw [bit_markBit d hi hj]
    simp
  unfold bit at hset
  rw [hdiv, hmod] at hset
  refine ext_bit fun k _ => ?_
  rw [bit_unmarkBit hi hset, bit_markBit d hi hj]
  by_cases hk : k = i * 8 + (7 - j)
  · subst hk
    simp [hclear]
  · simp [hk]

/-! ### Clearing a bit of a bitmap block -/

section Clear

variable {α : Type} (f : IoM α) (index : ℤ) (msg : String) (h : s.Coherent held ∅)
  (hlen : held.length < NBUF) (hn : ∀ b ∈ held, (s.cache.buf b).blockno ≠ n)
include h hlen hn

theorem Coherent.clear_panic
    (hclear : (s.blockByte n (index.tdiv 8)).toNat.testBit (maskBit index) = false) :
    (do let bp ← bread n; clearBitmap bp index msg; brelse bp; f) s = .error (.panic msg) := by
  obtain ⟨bp, s1, h1⟩ := h.exists_bread hn hlen
  obtain ⟨-, hc1, hd1, ho1, hbno, -, -⟩ := h.bread_ok h1
  have hget : getByteAt bp (index.tdiv 8) s1 = .ok (s1.byteAt bp (index.tdiv 8), s1) := rfl
  rw [bind_ok h1]
  refine bind_error ?_
  unfold clearBitmap
  rw [bind_ok hget, hc1.byteAt_eq (by simp) (Set.notMem_empty bp), hbno,
    blockByte_congr hd1 ho1, if_neg (by simp [hclear])]
  rfl

/-- The bit is set: it is cleared on the disk, if it lies inside the block. -/
theorem Coherent.clear_ok
    (hset : (s.blockByte n (index.tdiv 8)).toNat.testBit (maskBit index) = true) :
    ∃ s', (∀ {α : Type} (f : IoM α),
        (do let bp ← bread n; clearBitmap bp index msg; brelse bp; f) s = f s') ∧
      s'.Coherent held ∅ ∧
      s'.disk = update s.disk n
        (if 0 ≤ index.tdiv 8 ∧ index.tdiv 8 < BSIZE then
          unmarkBit (s.disk n) (index.tdiv 8).toNat (maskBit index) else s.disk n) ∧
      ∀ x ∈ held, (s'.cache.buf x).blockno = (s.cache.buf x).blockno := by
  obtain ⟨bp, s1, h1⟩ := h.exists_bread hn hlen
  obtain ⟨hout, hc1, hd1, ho1, hbno, -, hsame⟩ := h.bread_ok h1
  have hbyte : s1.byteAt bp (index.tdiv 8) = s.blockByte n (index.tdiv 8) := by
    rw [hc1.byteAt_eq (by simp) (Set.notMem_empty bp), hbno, blockByte_congr hd1 ho1]
  have hget : getByteAt bp (index.tdiv 8) s1 = .ok (s.blockByte n (index.tdiv 8), s1) := by
    rw [← hbyte]
    rfl
  obtain ⟨s2, s3, h2, h3, hc3, hd3, -, hbno3⟩ := hc1.setByteAt_bwrite (b := bp) (by simp)
    (index.tdiv 8) (UInt8.ofNat ((s.blockByte n (index.tdiv 8)).toNat - 2 ^ maskBit index))
  obtain ⟨s4, h4, hc4, hd4, -, hsame4⟩ := hc3.brelse_head
  refine ⟨s4, fun f => ?_, hc4, ?_, fun x hx => ?_⟩
  · have hclear : clearBitmap bp index msg s1 = .ok ((), s3) := by
      unfold clearBitmap
      rw [bind_ok hget, if_pos hset, bind_ok h2, h3]
    rw [bind_ok h1, bind_ok hclear, bind_ok h4]
  · rw [hd4, hd3, hbno, hd1]
    unfold unmarkBit blockByte
    split_ifs <;> rfl
  · have hxb : x ≠ bp := fun e => hout (e ▸ hx)
    rw [hsame4 x hxb, hbno3, hsame x hx]

end Clear

/-! ### What `ext2fs_bfree` does -/

/-- The bit that `ext2fs_bfree` is to clear is set. -/
def FreeBit (s : Io) (sb : Super) (a : ℕ) : Bool :=
  (s.blockByte (s.groupBitmap sb a) ((s.freeIndex sb a).tdiv 8)).toNat.testBit
    (maskBit (s.freeIndex sb a))

/-- The bitmap block after `ext2fs_bfree`. -/
def freed (s : Io) (sb : Super) (a : ℕ) : Block :=
  if 0 ≤ (s.freeIndex sb a).tdiv 8 ∧ (s.freeIndex sb a).tdiv 8 < BSIZE then
    unmarkBit (s.disk (s.groupBitmap sb a)) ((s.freeIndex sb a).tdiv 8).toNat
      (maskBit (s.freeIndex sb a))
  else s.disk (s.groupBitmap sb a)

section Bfree

variable (h : s.Coherent [] ∅)
include h

theorem Coherent.bfree_start (sb : Super) (a : ℕ) :
    ∃ bp1 s1, s1.Coherent [bp1] ∅ ∧ (s1.cache.buf bp1).blockno = 2 ∧ s1.disk = s.disk ∧
      s1.outside = s.outside ∧
      ext2fsBfree sb a s = (do
        let bp2 ← bread (s.groupBitmap sb a)
        clearBitmap bp2 (s.freeIndex sb a) "ext2fs_bfree: block already free"
        brelse bp2
        brelse bp1 : IoM Unit) s1 := by
  obtain ⟨bp1, s1, h1, hc1, hd1, ho1, hbno1, -⟩ := h.bread_first 2
  have hload : load bp1 (sb.groupNo a * groupDescWords + bgBlockBitmap) s1 =
      .ok (s.groupBitmap sb a, s1) := h.load_of_bread h1 _
  refine ⟨bp1, s1, hc1, hbno1, hd1, ho1, ?_⟩
  unfold ext2fsBfree
  rw [bind_ok h1, bind_ok hload]
  rfl

theorem Coherent.bfree_runs (hbm : s.groupBitmap sb a ≠ 2) (hset : s.FreeBit sb a = true) :
    ∃ s', ext2fsBfree sb a s = .ok ((), s') ∧
      s'.disk = update s.disk (s.groupBitmap sb a) (s.freed sb a) := by
  obtain ⟨bp1, s1, hc1, hbno1, hd1, ho1, hrun⟩ := h.bfree_start sb a
  have hn : ∀ b ∈ [bp1], (s1.cache.buf b).blockno ≠ s.groupBitmap sb a := by
    intro b hb
    rw [List.mem_singleton.1 hb, hbno1]
    exact hbm.symm
  unfold FreeBit at hset
  rw [← blockByte_congr hd1 ho1] at hset
  obtain ⟨s2, h2, hc2, hd2, -⟩ := hc1.clear_ok (s.freeIndex sb a)
    "ext2fs_bfree: block already free" (by decide : 1 < NBUF) hn hset
  obtain ⟨s3, h3, -, hd3, -⟩ := hc2.brelse_ok (b := bp1) (by simp) (Set.notMem_empty bp1)
  refine ⟨s3, ?_, ?_⟩
  · rw [hrun, h2, h3]
  · rw [hd3, hd2, hd1]
    rfl

theorem Coherent.bfree_disk (hr : ext2fsBfree sb a s = .ok ((), s')) :
    s.groupBitmap sb a ≠ 2 ∧ s.FreeBit sb a = true ∧
      s'.disk = update s.disk (s.groupBitmap sb a) (s.freed sb a) := by
  obtain ⟨bp1, s1, hc1, hbno1, hd1, ho1, hrun⟩ := h.bfree_start sb a
  have hbm : s.groupBitmap sb a ≠ 2 := by
    intro he
    rw [hrun, he, bind_error (hc1.bread_held (by simp) hbno1)] at hr
    cases hr
  have hn : ∀ b ∈ [bp1], (s1.cache.buf b).blockno ≠ s.groupBitmap sb a := by
    intro b hb
    rw [List.mem_singleton.1 hb, hbno1]
    exact hbm.symm
  have hset : s.FreeBit sb a = true := by
    by_contra hclear
    rw [Bool.not_eq_true, FreeBit, ← blockByte_congr hd1 ho1] at hclear
    rw [hrun, hc1.clear_panic _ _ _ (by decide : 1 < NBUF) hn hclear] at hr
    cases hr
  obtain ⟨s2, h2, hd2⟩ := h.bfree_runs hbm hset
  rw [h2] at hr
  cases hr
  exact ⟨hbm, hset, hd2⟩

end Bfree

/-! ### Taking back an allocation -/

/-- The block that `ext2fs_balloc` returns for position `j` from the top of byte `i`. -/
def target (s : Io) (sb : Super) (inum i j : ℕ) : ℕ :=
  (s.groupBitmap sb inum + (i * 8 + j)) % 2 ^ 32

/-- The driver takes block `n` for the bitmap of a group. -/
def IsBitmap (s : Io) (sb : Super) (n : ℕ) : Prop :=
  ∃ x, sb.groupNo x < sb.groups ∧ s.groupBitmap sb x = n

/-- If `ext2fs_balloc(ROOTDEV, inum)` returns, `ext2fs_bfree` of the result returns, and the bitmaps
are as they were. -/
def BfreeUndoes (s : Io) (sb : Super) (inum : ℕ) : Prop :=
  ∀ b s₁, ext2fsBalloc sb inum s = .ok (b, s₁) →
    ∃ s₂, ext2fsBfree sb b s₁ = .ok ((), s₂) ∧ ∀ n, s.IsBitmap sb n → s₂.disk n = s.disk n

/-- What `ext2fs_bfree` computes from block `b` leads to bit `7 - j` of byte `i` of the bitmap
from which `ext2fs_balloc` took `b`; and `b`, which has been zeroed, was neither the descriptor
block nor a bitmap with a bit set. -/
structure BfreeMeets (s : Io) (sb : Super) (inum i j : ℕ) : Prop where
  bitmap_ne : s.groupBitmap sb inum ≠ 2
  target_ne : s.target sb inum i j ≠ 2
  bitmap : s.groupBitmap sb (s.target sb inum i j) = s.groupBitmap sb inum
  byte : (s.freeIndex sb (s.target sb inum i j)).tdiv 8 = i
  bit : maskBit (s.freeIndex sb (s.target sb inum i j)) = 7 - j
  zero : s.IsBitmap sb (s.target sb inum i j) → s.disk (s.target sb inum i j) = Block.zero

theorem Coherent.balloc_target (h : s.Coherent [] ∅) (hscan : s.scan sb inum = some (i, j))
    (hi : i < BSIZE) (hz : s.target sb inum i j ≠ s.groupBitmap sb inum) :
    ∃ s1, ext2fsBalloc sb inum s = .ok (s.target sb inum i j, s1) ∧ s1.Coherent [] ∅ ∧
      s1.disk (s.groupBitmap sb inum) = markBit (s.disk (s.groupBitmap sb inum)) i j ∧
      s1.disk (s.target sb inum i j) = zero ∧
      (∀ n, n ≠ s.groupBitmap sb inum → n ≠ s.target sb inum i j → s1.disk n = s.disk n) ∧
      s1.outside = s.outside := by
  obtain ⟨s1, hrun, hc, hd, ho⟩ := h.balloc_ok hscan hz
  change s1.disk = update _ (s.target sb inum i j) zero at hd
  refine ⟨s1, hrun, hc, ?_, ?_, fun n hn hn' => ?_, ho hi⟩ <;> rw [hd]
  · rw [update_of_ne (Ne.symm hz), update_self]
  · exact update_self ..
  · rw [update_of_ne hn', update_of_ne hn]

theorem le32_blockByte {k : ℕ} (hk : k < BSIZE / 4) :
    le32 (fun i => s.blockByte n i) (4 * k) = (s.disk n).word k := by
  have hbyte : ∀ i < 4, s.blockByte n (4 * k + i : ℕ) = (s.disk n).byte (4 * k + i) := by
    intro i hi
    unfold blockByte
    rw [if_pos (by simp only [BSIZE] at *; omega), Int.toNat_natCast]
  have h0 := hbyte 0 (by decide)
  rw [Nat.add_zero] at h0
  unfold word le32
  dsimp only
  rw [h0, hbyte 1 (by decide), hbyte 2 (by decide), hbyte 3 (by decide)]

theorem groupBitmap_two (sb : Super) (hd : s.disk 2 = zero) : s.groupBitmap sb 2 = 0 := by
  have hgroup : sb.groupNo 2 ≤ 1 := Nat.div_le_self _ _
  have hword : sb.groupNo 2 * groupDescWords + bgBlockBitmap < BSIZE / 4 := by
    simp only [groupDescWords, bgBlockBitmap, BSIZE]
    omega
  unfold groupBitmap
  rw [le32_blockByte hword, hd, word_zero]

theorem target_ne_two {s1 : Io} (hj : j < 8) (hd : s1.disk 2 = zero)
    (hbm : s1.groupBitmap sb 2 = s.groupBitmap sb inum)
    (hbit : maskBit (s1.freeIndex sb 2) = 7 - j) : s.target sb inum i j ≠ 2 := by
  intro ht
  have hzero := groupBitmap_two sb hd
  have hindex : sb.inodeIndex 2 ≤ 1 := Nat.mod_le _ _
  unfold target at ht
  obtain rfl : j = 2 := by omega
  unfold freeIndex at hbit
  rw [hzero, Nat.cast_zero, Int.sub_zero, toInt32_of_fits (by omega)] at hbit
  unfold maskBit at hbit
  omega

/-- The bit that `ext2fs_balloc` set is cleared again only if `ext2fs_bfree` hits it. -/
theorem FreeBit.hit {s1 : Io} {n : ℕ} {d : Block} (hj : j < 8) (hi : i < BSIZE)
    (hclear : d.bit (i * 8 + (7 - j)) = false) (hn : s1.disk n = markBit d i j)
    (hset : s1.FreeBit sb a = true)
    (hback : update s1.disk (s1.groupBitmap sb a) (s1.freed sb a) n = d) :
    s1.groupBitmap sb a = n ∧ (s1.freeIndex sb a).tdiv 8 = i ∧
      maskBit (s1.freeIndex sb a) = 7 - j := by
  have hmark : (s1.disk n).bit (i * 8 + (7 - j)) = true := by
    rw [hn, bit_markBit d hi hj]
    simp
  have hbm : s1.groupBitmap sb a = n := by
    by_contra hne
    rw [update_of_ne (Ne.symm hne)] at hback
    rw [hback, hclear] at hmark
    cases hmark
  rw [hbm, update_self] at hback
  unfold freed at hback
  split_ifs at hback with hin
  · unfold FreeBit blockByte at hset
    rw [if_pos hin] at hset
    rw [← hback, bit_unmarkBit (by omega) hset, hbm, hmark, Bool.true_and,
      Bool.not_eq_false', decide_eq_true_eq] at hclear
    have hlt := lt_of_testBit_byte hset
    exact ⟨hbm, by omega, by omega⟩
  · rw [hbm] at hback
    rw [hback, hclear] at hmark
    cases hmark

theorem bfreeMeets_of_undoes (h : s.Coherent [] ∅) (hgroup : sb.groupNo inum < sb.groups)
    (hscan : s.scan sb inum = some (i, j)) (hi : i < BSIZE)
    (hz : s.target sb inum i j ≠ s.groupBitmap sb inum) (hundo : s.BfreeUndoes sb inum) :
    s.BfreeMeets sb inum i j := by
  obtain ⟨-, hj, -⟩ := firstClear_spec hscan
  obtain ⟨s1, hrun, hc, hbm, htarget, hother, ho⟩ := h.balloc_target hscan hi hz
  obtain ⟨s2, hrun2, hback⟩ := hundo _ s1 hrun
  obtain ⟨hne, hset, hd2⟩ := hc.bfree_disk hrun2
  have hself := hback _ ⟨inum, hgroup, rfl⟩
  rw [hd2] at hself
  obtain ⟨hbm1, hbyte, hbit⟩ := FreeBit.hit hj hi (bit_scan hi hscan) hbm hset hself
  rw [hbm1] at hne
  have htwo : s.target sb inum i j ≠ 2 := by
    intro ht
    rw [ht] at hbm1 hbit htarget
    exact target_ne_two hj htarget hbm1 hbit ht
  -- the descriptors are as they were, so the same bit is found before the allocation
  have hdesc : s1.disk 2 = s.disk 2 := hother 2 hne.symm htwo.symm
  have hsame : ∀ a, s1.groupBitmap sb a = s.groupBitmap sb a := groupBitmap_congr hdesc ho
  unfold freeIndex at hbyte hbit
  rw [hsame] at hbm1 hbyte hbit
  refine ⟨hne, htwo, hbm1, hbyte, hbit, fun hb => ?_⟩
  rw [← hback _ hb, hd2, hsame, hbm1, update_of_ne hz, htarget]

theorem undoes_of_bfreeMeets (h : s.Coherent [] ∅) (hscan : s.scan sb inum = some (i, j))
    (hi : i < BSIZE) (hz : s.target sb inum i j ≠ s.groupBitmap sb inum)
    (hmeets : s.BfreeMeets sb inum i j) : s.BfreeUndoes sb inum := by
  obtain ⟨-, hj, -⟩ := firstClear_spec hscan
  obtain ⟨s1, hrun, hc, hbm, htarget, hother, ho⟩ := h.balloc_target hscan hi hz
  intro b s1' hrun'
  rw [hrun] at hrun'
  cases hrun'
  have hdesc : s1.disk 2 = s.disk 2 := hother 2 hmeets.bitmap_ne.symm hmeets.target_ne.symm
  have hsame : ∀ a, s1.groupBitmap sb a = s.groupBitmap sb a := groupBitmap_congr hdesc ho
  have hindex : s1.freeIndex sb (s.target sb inum i j) = s.freeIndex sb (s.target sb inum i j) := by
    unfold freeIndex
    rw [hsame]
  have hbitmap : s1.groupBitmap sb (s.target sb inum i j) = s.groupBitmap sb inum := by
    rw [hsame, hmeets.bitmap]
  have hin : 0 ≤ (s1.freeIndex sb (s.target sb inum i j)).tdiv 8 ∧
      (s1.freeIndex sb (s.target sb inum i j)).tdiv 8 < BSIZE := by
    rw [hindex, hmeets.byte]
    omega
  have hset : s1.FreeBit sb (s.target sb inum i j) = true := by
    have hmark : (s1.disk (s.groupBitmap sb inum)).bit (i * 8 + (7 - j)) = true := by
      rw [hbm, bit_markBit _ hi hj]
      simp
    have hdiv : (i * 8 + (7 - j)) / 8 = i := by omega
    have hmod : (i * 8 + (7 - j)) % 8 = 7 - j := by omega
    unfold bit at hmark
    rw [hdiv, hmod] at hmark
    unfold FreeBit blockByte
    rwa [if_pos hin, hbitmap, hindex, hmeets.byte, hmeets.bit, Int.toNat_natCast]
  obtain ⟨s2, hrun2, hd2⟩ := hc.bfree_runs (by rw [hbitmap]; exact hmeets.bitmap_ne) hset
  refine ⟨s2, hrun2, fun n hn => ?_⟩
  rw [hd2, hbitmap]
  by_cases hself : n = s.groupBitmap sb inum
  · rw [hself, update_self, freed, if_pos hin, hbitmap, hindex, hmeets.byte, hmeets.bit,
      Int.toNat_natCast, hbm]
    exact unmarkBit_markBit hi hj (bit_scan hi hscan)
  · rw [update_of_ne hself]
    by_cases ht : n = s.target sb inum i j
    · rw [ht, htarget]
      exact (hmeets.zero (ht ▸ hn)).symm
    · exact hother n hself ht

theorem scan_of_clear (hsize : sb.sBlocksPerGroup ≤ 8 * BSIZE)
    (hclear : ∃ k < sb.sBlocksPerGroup, (s.disk (s.groupBitmap sb inum)).bit k = false) :
    ∃ i j, s.scan sb inum = some (i, j) ∧ i < BSIZE := by
  obtain ⟨k, hk, hbit⟩ := hclear
  have hbytes : k / 8 < sb.scanBytes := by
    unfold Super.scanBytes
    rw [toInt32_of_fits (by simp only [BSIZE] at hsize; omega), Int.toNat_natCast]
    omega
  have hbyte : (s.blockByte (s.groupBitmap sb inum) (k / 8 : ℕ)).toNat.testBit (k % 8) = false := by
    unfold blockByte
    rwa [if_pos (by omega), Int.toNat_natCast]
  obtain ⟨i, j, hscan, hi⟩ : ∃ i j, s.scan sb inum = some (i, j) ∧ i ≤ k / 8 := by
    unfold scan
    exact firstClear_of_clear (Nat.zero_le _) (by omega) (Nat.mod_lt k (by decide)) hbyte
  exact ⟨i, j, hscan, by omega⟩

/-- **Freeing takes back an allocation exactly where it hits the same bit.**  On an image of any
geometry, if the group of inode `inum` has a clear bit, then a block that `ext2fs_balloc` returns
can be freed so that all bitmaps are as they were, exactly if the first clear bit of the scan is
such that `ext2fs_bfree` finds it again, or is the first of all (then `ext2fs_balloc` does not
return). -/
theorem bfree_undoes_balloc (s : Io) (sb : Super) (inum : ℕ) (h : s.Coherent [] ∅)
    (hgroup : sb.groupNo inum < sb.groups) (hsize : sb.sBlocksPerGroup ≤ 8 * BSIZE)
    (hclear : ∃ k < sb.sBlocksPerGroup, (s.disk (s.groupBitmap sb inum)).bit k = false) :
    s.BfreeUndoes sb inum ↔
      ∀ i j, s.scan sb inum = some (i, j) →
        s.target sb inum i j = s.groupBitmap sb inum ∨ s.BfreeMeets sb inum i j := by
  obtain ⟨i, j, hscan, hi⟩ := scan_of_clear hsize hclear
  constructor
  · intro hundo i' j' hscan'
    obtain ⟨rfl, rfl⟩ : i = i' ∧ j = j' := by simpa using hscan.symm.trans hscan'
    by_cases hz : s.target sb inum i j = s.groupBitmap sb inum
    · exact .inl hz
    · exact .inr (bfreeMeets_of_undoes h hgroup hscan hi hz hundo)
  · intro hmeets
    by_cases hz : s.target sb inum i j = s.groupBitmap sb inum
    · intro b s1 hrun
      rw [h.balloc_first hscan hz] at hrun
      cases hrun
    · exact undoes_of_bfreeMeets h hscan hi hz ((hmeets i j hscan).resolve_left hz)

theorem scan_sampleIo_fifth : (sampleIo 8 247).groupBitmap sampleSuper 2 = 8 ∧
    (sampleIo 8 247).scan sampleSuper 2 = some (1, 4) ∧
    (sampleIo 8 247).groupBitmap sampleSuper 20 = 8 ∧
    ((sampleIo 8 247).disk 8).bit 11 = false := by
  decide +kernel

/-- With the bitmap in block 8 and bit 3 of byte 1 the first one clear, block 20 is allocated and
freed. -/
theorem bfree_undoes_balloc_fifth : (sampleIo 8 247).BfreeUndoes sampleSuper 2 := by
  obtain ⟨hbm, hscan, hbm', hbit⟩ := scan_sampleIo_fifth
  refine (bfree_undoes_balloc (sampleIo 8 247) sampleSuper 2 (coherent_binit _ _) (by decide)
    (by decide) ⟨11, by decide, by rw [hbm]; exact hbit⟩).2 fun i j h => .inr ?_
  rw [hscan] at h
  obtain ⟨rfl, rfl⟩ : 1 = i ∧ 4 = j := by simpa using h
  have htarget : (sampleIo 8 247).target sampleSuper 2 1 4 = 20 := by
    unfold target
    rw [hbm]
    decide
  refine ⟨by rw [hbm]; decide, by rw [htarget]; decide, by rw [htarget, hbm', hbm], ?_, ?_, ?_⟩
  · rw [htarget, freeIndex, hbm']
    decide
  · rw [htarget, freeIndex, hbm']
    decide
  · rintro -
    rw [htarget]
    rfl

/-- **With bit 7 of byte 1 the first one clear, block 16 is allocated, and freeing it clears bit 7
of byte 0**, which stands for a block in use. -/
theorem bfree_clears_other :
    (sampleIo 8 127).Coherent [] ∅ ∧ sampleSuper.Standard (sampleIo 8 127).disk (fun _ => True) ∧
      ((sampleIo 8 127).disk ((sampleIo 8 127).groupBitmap sampleSuper 2)).bit 15 = false ∧
      Program.returns (do let b ← ext2fsBalloc sampleSuper 2; ext2fsBfree sampleSuper b)
        (sampleIo 8 127) (fun _ s => (s.disk 8).bit 7 == false && (s.disk 8).bit 15) = true ∧
      ((sampleIo 8 127).disk 8).bit 7 = true ∧ ¬(sampleIo 8 127).BfreeUndoes sampleSuper 2 := by
  have hrun : Program.returns (do let b ← ext2fsBalloc sampleSuper 2; ext2fsBfree sampleSuper b)
      (sampleIo 8 127) (fun _ s => (s.disk 8).bit 7 == false && (s.disk 8).bit 15) = true := by
    decide +kernel
  have hbit : ((sampleIo 8 127).disk 8).bit 7 = true := by decide +kernel
  refine ⟨coherent_binit _ _, standard_sampleDisk_good, by decide +kernel, hrun, hbit, ?_⟩
  intro hundo
  obtain ⟨_, s2, h2, hbits⟩ := exists_of_returns hrun
  obtain ⟨b, s1, h1, hfree⟩ := bind_eq_ok.1 h2
  obtain ⟨s2', hfree', hback⟩ := hundo b s1 h1
  rw [hfree'] at hfree
  cases hfree
  rw [hback 8 ⟨2, by decide, scan_sampleIo.2.2.1⟩, hbit] at hbits
  cases hbits

end Io

end Cinux
