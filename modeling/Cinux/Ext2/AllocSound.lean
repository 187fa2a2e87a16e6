import Cinux.Ext2.Alloc

/-!
# When the block allocator is sound

In an ext2 image bit `k` of the bitmap of group `g`, counted from the least significant bit of
each byte, stands for block `s_first_data_block + g * s_blocks_per_group + k`.  `ext2fs_balloc`
counts the bits of a byte from the most significant one, and adds the position of the bit to the
number of the bitmap block.  So it marks one block as used and zeroes and returns another, unless
the two errors cancel out: `Io.ballocSound_iff` gives the exact condition.

* `Io.Coherent.balloc_full`, `balloc_first`, `balloc_ok` : what the function does in each case;
* `Super.Standard` : the images considered; `Super.Allocated` : what an allocation has to do;
* `Io.balloc_sound` : the condition for one call, and sequences of calls that meet it.
-/

namespace Cinux

open Program Nat

open Function

namespace Io

variable {s s' : Io} {held : List (Fin NBUF)} {b : Fin NBUF} {n i j : ℕ} {sb : Super}

/-! ### What the allocator does -/

theorem Coherent.ext2fsBzero_ok (h : s.Coherent held ∅)
    (hn : ∀ b ∈ held, (s.cache.buf b).blockno ≠ n) (hlen : held.length < NBUF) :
    ∃ s', ext2fsBzero n s = .ok ((), s') ∧ s'.Coherent held ∅ ∧
      s'.disk = update s.disk n Block.zero ∧ s'.outside = s.outside ∧
      ∀ x ∈ held, s'.cache.buf x = s.cache.buf x :=
  h.rewrite_ok hn hlen fun _ => Block.zero

/-- What `ext2fs_balloc` takes for `bg_block_bitmap`. -/
def groupBitmap (s : Io) (sb : Super) (inum : ℕ) : ℕ :=
  le32 (fun i => s.blockByte 2 i) (4 * (sb.groupNo inum * groupDescWords + bgBlockBitmap))

/-- The first clear bit in the order of the scan: byte and position from the top. -/
def scan (s : Io) (sb : Super) (inum : ℕ) : Option (ℕ × ℕ) :=
  firstClear (fun i => s.blockByte (s.groupBitmap sb inum) i) sb.scanBytes 0

/-- Block `d` with bit `7 - j` of byte `i` set, if it has a byte `i`. -/
def markBit (d : Block) (i j : ℕ) : Block :=
  if i < BSIZE then d.setByte i (d.byte i ||| UInt8.ofNat (2 ^ (7 - j))) else d

theorem Coherent.scanBitmap_eq (h : s.Coherent held ∅) (hb : b ∈ held) (sb : Super) :
    scanBitmap sb b s =
      .ok (firstClear (fun i => s.blockByte (s.cache.buf b).blockno i) sb.scanBytes 0, s) := by
  have hmem : (fun i : ℕ => s.byteAt b i) = fun i : ℕ => s.blockByte (s.cache.buf b).blockno i :=
    funext fun i => h.byteAt_eq hb (Set.notMem_empty b) i
  unfold scanBitmap
  rw [hmem]

/-- `ext2fs_free_block` on a clean buffer, followed by `bwrite`. -/
theorem Coherent.freeBlock_ok (h : s.Coherent held ∅) (hb : b ∈ held)
    (hscan : firstClear (fun i => s.blockByte (s.cache.buf b).blockno i) sb.scanBytes 0 =
      some (i, j)) :
    ∃ s₁ s2, ext2fsFreeBlock sb b s = .ok (some (i * 8 + j), s₁) ∧ bwrite b s₁ = .ok ((), s2) ∧
      s2.Coherent held ∅ ∧
      s2.disk = update s.disk (s.cache.buf b).blockno
        (markBit (s.disk (s.cache.buf b).blockno) i j) ∧
      (i < BSIZE → s2.outside = s.outside) ∧
      ∀ x, (s2.cache.buf x).blockno = (s.cache.buf x).blockno := by
  have hstart := h.scanBitmap_eq hb sb
  rw [hscan] at hstart
  obtain ⟨s₁, s2, h1, h2, hc, hd, ho, hbno⟩ :=
    h.setByteAt_bwrite hb i (s.byteAt b i ||| UInt8.ofNat (2 ^ (7 - j)))
  refine ⟨s₁, s2, ?_, h2, hc, ?_, fun hi => ho (by omega), hbno⟩
  · have hget : getByteAt b i s = .ok (s.byteAt b i, s) := rfl
    unfold ext2fsFreeBlock
    rw [bind_ok hstart]
    dsimp only
    rw [bind_ok hget, bind_ok h1]
    rfl
  · rw [hd]
    unfold markBit
    by_cases hi : i < BSIZE
    · have hi' : (0 : ℤ) ≤ i ∧ (i : ℤ) < BSIZE := by omega
      rw [if_pos hi, if_pos hi', Int.toNat_natCast, h.byteAt_eq hb (Set.notMem_empty b), blockByte,
        if_pos hi', Int.toNat_natCast]
    · rw [if_neg hi, if_neg (by omega)]

section Balloc

variable {inum : ℕ} (h : s.Coherent [] ∅)
include h

theorem Coherent.balloc_start (sb : Super) (inum : ℕ) :
    ∃ bp2 s₁, s₁.Coherent [bp2] ∅ ∧ (s₁.cache.buf bp2).blockno = s.groupBitmap sb inum ∧
      s₁.disk = s.disk ∧ s₁.outside = s.outside ∧
      ext2fsBalloc sb inum s = takeBlock sb (s.groupBitmap sb inum) bp2 s₁ := by
  obtain ⟨bp1, t1, h1, hc1, hd1, ho1, -⟩ := h.bread_first 2
  have h2 : load bp1 (sb.groupNo inum * groupDescWords + bgBlockBitmap) t1 =
      .ok (s.groupBitmap sb inum, t1) := h.load_of_bread h1 _
  obtain ⟨t3, h3, hc3, hd3, ho3, -⟩ := hc1.brelse_head
  obtain ⟨bp2, t4, h4, hc4, hd4, ho4, hbno4, -⟩ := hc3.bread_first (s.groupBitmap sb inum)
  refine ⟨bp2, t4, hc4, hbno4, ?_, ?_, ?_⟩
  · rw [hd4, hd3, hd1]
  · rw [ho4, ho3, ho1]
  · unfold ext2fsBalloc
    rw [bind_ok h1, bind_ok h2, bind_ok h3, bind_ok h4]

theorem Coherent.balloc_full (hscan : s.scan sb inum = none) :
    ext2fsBalloc sb inum s = .error (.panic "ext2_balloc: out of blocks") := by
  obtain ⟨bp2, s₁, hc1, hbno, hd1, ho1, hrun⟩ := h.balloc_start sb inum
  have hfree : ext2fsFreeBlock sb bp2 s₁ = .ok (none, s₁) := by
    have hstart := hc1.scanBitmap_eq (b := bp2) (by simp) sb
    rw [hbno, blockByte_congr hd1 ho1] at hstart
    rw [scan] at hscan
    rw [hscan] at hstart
    unfold ext2fsFreeBlock
    rw [bind_ok hstart]
    rfl
  obtain ⟨s2, h2, -⟩ := hc1.brelse_ok (by simp) (Set.notMem_empty bp2)
  rw [hrun, takeBlock, bind_ok hfree]
  dsimp only
  rw [bind_ok h2]
  rfl

theorem Coherent.balloc_first (hscan : s.scan sb inum = some (i, j))
    (hz : (s.groupBitmap sb inum + (i * 8 + j)) % 2 ^ 32 = s.groupBitmap sb inum) :
    ext2fsBalloc sb inum s = .error .deadlock := by
  obtain ⟨bp2, s₁, hc1, hbno, hd1, ho1, hrun⟩ := h.balloc_start sb inum
  rw [scan, ← hbno, ← blockByte_congr hd1 ho1] at hscan
  obtain ⟨s2, s3, h2, h3, hc3, -, -, hbno3⟩ := hc1.freeBlock_ok (by simp) hscan
  have hbread : bread (s.groupBitmap sb inum) s3 = .error .deadlock := by
    refine hc3.bread_held (b := bp2) (by simp) ?_
    rw [hbno3, hbno]
  rw [hrun, takeBlock, bind_ok h2]
  dsimp only
  rw [bind_ok h3, hz]
  refine bind_error ?_
  exact bind_error hbread

/-- The block that is returned has been zeroed, and the bit that was clear has been set. -/
theorem Coherent.balloc_ok (hscan : s.scan sb inum = some (i, j))
    (hz : (s.groupBitmap sb inum + (i * 8 + j)) % 2 ^ 32 ≠ s.groupBitmap sb inum) :
    ∃ s', ext2fsBalloc sb inum s = .ok ((s.groupBitmap sb inum + (i * 8 + j)) % 2 ^ 32, s') ∧
      s'.Coherent [] ∅ ∧
      s'.disk = update
        (update s.disk (s.groupBitmap sb inum)
          (markBit (s.disk (s.groupBitmap sb inum)) i j))
        ((s.groupBitmap sb inum + (i * 8 + j)) % 2 ^ 32) Block.zero ∧
      (i < BSIZE → s'.outside = s.outside) := by
  obtain ⟨bp2, s₁, hc1, hbno, hd1, ho1, hrun⟩ := h.balloc_start sb inum
  rw [scan, ← hbno, ← blockByte_congr hd1 ho1] at hscan
  obtain ⟨s2, s3, h2, h3, hc3, hd3, ho3, hbno3⟩ := hc1.freeBlock_ok (by simp) hscan
  have hother : ∀ b ∈ [bp2], (s3.cache.buf b).blockno ≠
      (s.groupBitmap sb inum + (i * 8 + j)) % 2 ^ 32 := by
    intro b hb
    rw [List.mem_singleton.1 hb, hbno3, hbno]
    exact hz.symm
  obtain ⟨s4, h4, hc4, hd4, ho4, -⟩ := hc3.ext2fsBzero_ok hother (by decide : 1 < NBUF)
  obtain ⟨s5, h5, hc5, hd5, ho5, -⟩ := hc4.brelse_head
  refine ⟨s5, ?_, hc5, ?_, fun hi => ?_⟩
  · rw [hrun, takeBlock, bind_ok h2]
    dsimp only
    rw [bind_ok h3, bind_ok h4, bind_ok h5]
    rfl
  · rw [hd5, hd4, hd3, hbno, hd1]
  · rw [ho5, ho4, ho3 hi, ho1]

end Balloc

end Io

/-! ### The first clear bit -/

theorem clearBit_spec {v : UInt8} {j : ℕ} (h : clearBit v = some j) :
    j < 8 ∧ v.toNat.testBit (7 - j) = false := by
  have hmem := List.mem_of_find?_eq_some h
  have htest := List.find?_some h
  exact ⟨List.mem_range.1 hmem, by simpa using htest⟩

variable {mem : ℕ → UInt8}

theorem firstClear_found {n k i j : ℕ} (h : firstClear mem n k = some (i, j)) :
    (k ≤ i ∧ i < k + n) ∧ clearBit (mem i) = some j ∧
      ∀ m, k ≤ m → m < i → clearBit (mem m) = none := by
  induction n generalizing k with
  | zero => cases h
  | succ n ih =>
    unfold firstClear at h
    cases hb : clearBit (mem k) with
    | some j' =>
      rw [hb] at h
      obtain ⟨rfl, rfl⟩ : k = i ∧ j' = j := by simpa using h
      exact ⟨by omega, hb, by omega⟩
    | none =>
      rw [hb] at h
      obtain ⟨hi, hj, hbefore⟩ := ih h
      refine ⟨by omega, hj, fun m hk hm => ?_⟩
      rcases Nat.eq_or_lt_of_le hk with rfl | hlt
      · exact hb
      · exact hbefore m hlt hm

theorem firstClear_spec {n k i j : ℕ} (h : firstClear mem n k = some (i, j)) :
    i < k + n ∧ j < 8 ∧ (mem i).toNat.testBit (7 - j) = false := by
  obtain ⟨hi, hj, -⟩ := firstClear_found h
  exact ⟨hi.2, clearBit_spec hj⟩

theorem clearBit_of_clear {v : UInt8} {t : ℕ} (ht : t < 8) (h : v.toNat.testBit t = false) :
    ∃ j, clearBit v = some j := by
  refine Option.isSome_iff_exists.1 (List.find?_isSome.2 ⟨7 - t, List.mem_range.2 (by omega), ?_⟩)
  rw [show 7 - (7 - t) = t by omega, h]
  rfl

theorem firstClear_of_clear {n k m t : ℕ} (hk : k ≤ m) (hm : m < k + n)
    (ht : t < 8) (h : (mem m).toNat.testBit t = false) :
    ∃ i j, firstClear mem n k = some (i, j) ∧ i ≤ m := by
  induction n generalizing k with
  | zero => omega
  | succ n ih =>
    unfold firstClear
    cases hb : clearBit (mem k) with
    | some j => exact ⟨k, j, rfl, hk⟩
    | none =>
      have hne : k ≠ m := by
        rintro rfl
        obtain ⟨j, hj⟩ := clearBit_of_clear ht h
        rw [hj] at hb
        cases hb
      exact ih (by omega) (by omega)

theorem clearBit_first {v : UInt8} {j t : ℕ} (h : clearBit v = some j) (ht : 7 - j < t)
    (ht8 : t < 8) : v.toNat.testBit t = true := by
  have hbefore := (List.find?_range_eq_some.1 h).2.2 (7 - t) (by omega)
  simpa [show 7 - (7 - t) = t by omega] using hbefore

theorem firstClear_first {n k i j i' t : ℕ}
    (h : firstClear mem n k = some (i, j)) (hk : k ≤ i') (ht : t < 8)
    (hbefore : i' < i ∨ i' = i ∧ 7 - j < t) : (mem i').toNat.testBit t = true := by
  obtain ⟨-, hj, hnone⟩ := firstClear_found h
  rcases hbefore with hlt | ⟨rfl, hbit⟩
  · by_contra hclear
    obtain ⟨j', hj'⟩ := clearBit_of_clear ht (Bool.eq_false_of_not_eq_true hclear)
    rw [hnone i' hk hlt] at hj'
    cases hj'
  · exact clearBit_first hj hbit ht

/-! ### Images -/

/-- Bit `k` of a bitmap block, the least significant bit of each byte first. -/
def Block.bit (d : Block) (k : ℕ) : Bool := (d.byte (k / 8)).toNat.testBit (k % 8)

theorem testBit_or_ofNat (v : UInt8) {m : ℕ} (hm : m < 8) (t : ℕ) :
    (v ||| UInt8.ofNat (2 ^ m)).toNat.testBit t = (v.toNat.testBit t || decide (t = m)) := by
  have hlt : 2 ^ m < 256 := Nat.pow_lt_pow_right (by decide) hm
  simp [mod_eq_of_lt hlt, testBit_two_pow, eq_comm]

theorem Block.bit_markBit (d : Block) {i j : ℕ} (hi : i < BSIZE) (hj : j < 8) (k : ℕ) :
    (Io.markBit d i j).bit k = (d.bit k || decide (k = i * 8 + (7 - j))) := by
  unfold Io.markBit bit
  rw [if_pos hi, byte_setByte d hi]
  by_cases hk : k / 8 = i
  · rw [if_pos hk, testBit_or_ofNat _ (by omega), hk]
    have : (k % 8 = 7 - j) ↔ (k = i * 8 + (7 - j)) := by omega
    simp [this]
  · rw [if_neg hk]
    have : ¬k = i * 8 + (7 - j) := by omega
    simp [this]

namespace Super

variable (sb : Super) (disk : ℕ → Block) (backup : ℕ → Prop)

/-- Number of block groups. -/
def groups : ℕ :=
  (sb.sBlocksCount - sb.sFirstDataBlock + sb.sBlocksPerGroup - 1) / sb.sBlocksPerGroup

/-- The block that bit `k` of the bitmap of group `g` stands for. -/
def blockOf (g k : ℕ) : ℕ := sb.sFirstDataBlock + g * sb.sBlocksPerGroup + k

end Super

theorem Super.blockOf_inj {sb : Super} {g g' k k' : ℕ} (hk : k < sb.sBlocksPerGroup)
    (hk' : k' < sb.sBlocksPerGroup) (h : sb.blockOf g k = sb.blockOf g' k') :
    g = g' ∧ k = k' := by
  unfold blockOf at h
  have hsum : sb.sBlocksPerGroup * g + k = sb.sBlocksPerGroup * g' + k' := by
    rw [Nat.mul_comm _ g, Nat.mul_comm _ g']
    omega
  have hg := congrArg (· / sb.sBlocksPerGroup) hsum
  have hk2 := congrArg (· % sb.sBlocksPerGroup) hsum
  have hpos : 0 < sb.sBlocksPerGroup := by omega
  simp only [mul_add_div hpos, div_eq_of_lt hk, div_eq_of_lt hk', Nat.add_zero] at hg
  simp only [mul_add_mod, mod_eq_of_lt hk, mod_eq_of_lt hk'] at hk2
  exact ⟨hg, hk2⟩

/-- Word `w` of the descriptor of group `g`, in the table that starts at block 2. -/
def descWord (disk : ℕ → Block) (g w : ℕ) : ℕ :=
  (disk (2 + g / 32)).word (g % 32 * groupDescWords + w)

/-- The bitmap block of group `g`. -/
def blockBitmap (disk : ℕ → Block) (g : ℕ) : ℕ := descWord disk g bgBlockBitmap

namespace Super

variable (sb : Super) (disk : ℕ → Block) (backup : ℕ → Prop)

/-- Block `b` holds a superblock, group descriptors, a bitmap or part of an inode table.  The groups
with a copy of the superblock and the descriptors are given by `backup`. -/
def Metadata (b : ℕ) : Prop :=
  ∃ g < sb.groups,
    backup g ∧ sb.blockOf g 0 ≤ b ∧ b ≤ sb.blockOf g ((sb.groups * 32 + 1023) / 1024) ∨
    b = blockBitmap disk g ∨ b = descWord disk g bgInodeBitmap ∨
    descWord disk g bgInodeTable ≤ b ∧
      b < descWord disk g bgInodeTable + (sb.sInodesPerGroup * sb.sInodeSize + 1023) / 1024

/-- Block `b` is free: its bit is clear. -/
def Free (b : ℕ) : Prop :=
  ∃ g < sb.groups, ∃ k < sb.sBlocksPerGroup,
    b = sb.blockOf g k ∧ (disk (blockBitmap disk g)).bit k = false

/-- An image in the standard layout with blocks of 1024 bytes. -/
structure Standard : Prop where
  first : sb.sFirstDataBlock = 1
  perGroup_pos : 0 < sb.sBlocksPerGroup
  perGroup_le : sb.sBlocksPerGroup ≤ 8 * BSIZE
  primary : backup 0
  /-- The groups have their own bitmaps, outside the descriptor table. -/
  bitmap_inj : ∀ g < sb.groups, ∀ g' < sb.groups,
    blockBitmap disk g = blockBitmap disk g' → g = g'
  bitmap_table : ∀ g < sb.groups, ∀ g' < sb.groups, blockBitmap disk g ≠ 2 + g' / 32
  /-- Only bits of blocks that exist and hold no metadata are clear. -/
  clear : ∀ g < sb.groups, ∀ k < 8 * BSIZE, (disk (blockBitmap disk g)).bit k = false →
    k < sb.sBlocksPerGroup ∧ sb.blockOf g k < sb.sBlocksCount ∧
      ¬sb.Metadata disk backup (sb.blockOf g k)

/-- The change from `disk` to `disk'` is the allocation of block `b`. -/
structure Allocated (disk' : ℕ → Block) (b : ℕ) : Prop where
  wasFree : sb.Free disk b
  lt : b < sb.sBlocksCount
  notMetadata : ¬sb.Metadata disk backup b
  /-- Exactly the bit of `b` is newly set. -/
  bits : ∀ g < sb.groups, ∀ k < 8 * BSIZE, (disk' (blockBitmap disk g)).bit k =
    ((disk (blockBitmap disk g)).bit k ||
      decide (k < sb.sBlocksPerGroup ∧ sb.blockOf g k = b))
  /-- Of the blocks that are not bitmaps only `b` has changed. -/
  others : ∀ x, x ≠ b → (∀ g < sb.groups, x ≠ blockBitmap disk g) → disk' x = disk x

variable {sb disk backup} {disk' : ℕ → Block} {b : ℕ}

theorem Allocated.descWord_eq (hst : sb.Standard disk backup)
    (h : sb.Allocated disk backup disk' b) {g : ℕ} (hg : g < sb.groups) (w : ℕ) :
    descWord disk' g w = descWord disk g w := by
  have htable : 2 + g / 32 ≠ b := by
    rintro rfl
    refine h.notMetadata ⟨0, by omega, .inl ⟨hst.primary, ?_, ?_⟩⟩ <;>
      simp only [blockOf, hst.first, Nat.zero_mul]
    · omega
    · omega
  unfold descWord
  rw [h.others _ htable fun g' hg' => (hst.bitmap_table g' hg' g hg).symm]

theorem Allocated.standard (hst : sb.Standard disk backup)
    (h : sb.Allocated disk backup disk' b) : sb.Standard disk' backup := by
  have hdesc := fun {g : ℕ} (hg : g < sb.groups) (w : ℕ) => h.descWord_eq hst hg w
  have hbitmap : ∀ g < sb.groups, blockBitmap disk' g = blockBitmap disk g := fun g hg => hdesc hg _
  refine ⟨hst.first, hst.perGroup_pos, hst.perGroup_le, hst.primary, fun g hg g' hg' he => ?_,
    fun g hg g' hg' => ?_, fun g hg k hk hclear => ?_⟩
  · rw [hbitmap g hg, hbitmap g' hg'] at he
    exact hst.bitmap_inj g hg g' hg' he
  · rw [hbitmap g hg]
    exact hst.bitmap_table g hg g' hg'
  · rw [hbitmap g hg, h.bits g hg k hk, Bool.or_eq_false_iff] at hclear
    obtain ⟨h1, h2, h3⟩ := hst.clear g hg k hk hclear.1
    refine ⟨h1, h2, ?_⟩
    rintro ⟨g', hg', hm⟩
    refine h3 ⟨g', hg', ?_⟩
    rwa [hbitmap g' hg', hdesc hg', hdesc hg'] at hm

theorem Allocated.free_iff (hst : sb.Standard disk backup)
    (h : sb.Allocated disk backup disk' b) (x : ℕ) :
    sb.Free disk' x ↔ sb.Free disk x ∧ x ≠ b := by
  have hbitmap : ∀ g < sb.groups, blockBitmap disk' g = blockBitmap disk g :=
    fun g hg => h.descWord_eq hst hg _
  constructor
  · rintro ⟨g, hg, k, hk, rfl, hclear⟩
    rw [hbitmap g hg, h.bits g hg k (hk.trans_le hst.perGroup_le), Bool.or_eq_false_iff] at hclear
    exact ⟨⟨g, hg, k, hk, rfl, hclear.1⟩, fun he => of_decide_eq_false hclear.2 ⟨hk, he⟩⟩
  · rintro ⟨⟨g, hg, k, hk, rfl, hclear⟩, hne⟩
    refine ⟨g, hg, k, hk, rfl, ?_⟩
    rw [hbitmap g hg, h.bits g hg k (hk.trans_le hst.perGroup_le), hclear, Bool.false_or]
    exact decide_eq_false fun he => hne he.2

end Super

namespace Io

variable (s : Io) (sb : Super) (backup : ℕ → Prop) (inum : ℕ)

/-- `ext2fs_balloc(ROOTDEV, inum)`, if it returns, has allocated the block it returns. -/
def BallocSound : Prop :=
  ∀ b s', ext2fsBalloc sb inum s = .ok (b, s') → sb.Allocated s.disk backup s'.disk b

/-- The states in which `ext2fs_balloc` is sound: the scan finds no clear bit, or the very first
bit, or one inside the bitmap of a group whose block number happens to be what is computed. -/
def BallocFits : Prop :=
  ∀ i j, s.scan sb inum = some (i, j) →
    i = 0 ∧ j = 0 ∨
      i < BSIZE ∧ ∃ g < sb.groups, s.groupBitmap sb inum = blockBitmap s.disk g ∧
        (s.groupBitmap sb inum + (i * 8 + j)) % 2 ^ 32 = sb.blockOf g (i * 8 + (7 - j))

variable {s sb backup inum}

theorem groupBitmap_lt (s : Io) (sb : Super) (inum : ℕ) : s.groupBitmap sb inum < 2 ^ 32 :=
  le32_lt _ _

theorem scanBytes_le (hst : sb.Standard s.disk backup) : sb.scanBytes ≤ 65536 := by
  have hle := hst.perGroup_le
  have hfits : sb.sBlocksPerGroup * 8 < 2 ^ 31 := by
    simp only [BSIZE] at hle
    omega
  unfold Super.scanBytes
  rw [toInt32_of_fits hfits, Int.toNat_natCast]
  simp only [BSIZE] at hle
  omega

theorem bit_scan {i j : ℕ} (hi : i < BSIZE) (h : s.scan sb inum = some (i, j)) :
    (s.disk (s.groupBitmap sb inum)).bit (i * 8 + (7 - j)) = false := by
  obtain ⟨-, hj, hclear⟩ := firstClear_spec h
  have hin : (0 : ℤ) ≤ i ∧ (i : ℤ) < BSIZE := by omega
  have hdiv : (i * 8 + (7 - j)) / 8 = i := by omega
  have hmod : (i * 8 + (7 - j)) % 8 = 7 - j := by omega
  unfold Block.bit
  rw [hdiv, hmod]
  rwa [blockByte, if_pos hin, Int.toNat_natCast] at hclear

theorem target_ne {i j : ℕ} (hst : sb.Standard s.disk backup) (h : s.scan sb inum = some (i, j))
    (hne : ¬(i = 0 ∧ j = 0)) :
    (s.groupBitmap sb inum + (i * 8 + j)) % 2 ^ 32 ≠ s.groupBitmap sb inum := by
  obtain ⟨hi, hj, -⟩ := firstClear_spec h
  have hlt := groupBitmap_lt s sb inum
  have hle := scanBytes_le hst
  omega

/-- The good case: the block computed is the one whose bit is set. -/
theorem allocated_of_fits {i j g : ℕ} (hst : sb.Standard s.disk backup)
    (hscan : s.scan sb inum = some (i, j)) (hi : i < BSIZE) (hg : g < sb.groups)
    (hv : s.groupBitmap sb inum = blockBitmap s.disk g) :
    sb.Allocated s.disk backup (update (update s.disk (blockBitmap s.disk g)
      (markBit (s.disk (blockBitmap s.disk g)) i j)) (sb.blockOf g (i * 8 + (7 - j))) Block.zero)
      (sb.blockOf g (i * 8 + (7 - j))) := by
  obtain ⟨-, hj, -⟩ := firstClear_spec hscan
  have hbit := bit_scan hi hscan
  rw [hv] at hbit
  have hk : i * 8 + (7 - j) < 8 * BSIZE := by omega
  obtain ⟨hper, hlt, hmeta⟩ := hst.clear g hg _ hk hbit
  have hnot : ∀ g' < sb.groups, blockBitmap s.disk g' ≠ sb.blockOf g (i * 8 + (7 - j)) :=
    fun g' hg' he => hmeta ⟨g', hg', .inr (.inl he.symm)⟩
  refine ⟨⟨g, hg, _, hper, rfl, hbit⟩, hlt, hmeta, fun g' hg' k hk' => ?_, fun x hx hx' => ?_⟩
  · rw [update_of_ne (hnot g' hg')]
    by_cases he : g' = g
    · subst he
      have hsame : k = i * 8 + (7 - j) ↔
          k < sb.sBlocksPerGroup ∧ sb.blockOf g' k = sb.blockOf g' (i * 8 + (7 - j)) := by
        unfold Super.blockOf
        omega
      rw [update_self, Block.bit_markBit _ hi hj, decide_eq_decide.2 hsame]
    · have hne : blockBitmap s.disk g' ≠ blockBitmap s.disk g :=
        fun e => he (hst.bitmap_inj g' hg' g hg e)
      rw [update_of_ne hne]
      have hother : ¬(k < sb.sBlocksPerGroup ∧
          sb.blockOf g' k = sb.blockOf g (i * 8 + (7 - j))) := by
        rintro ⟨hk'', e⟩
        exact he (Super.blockOf_inj hk'' hper e).1
      simp [hother]
  · rw [update_of_ne hx, update_of_ne (hx' g hg)]

/-- **`ext2fs_balloc` is sound exactly when the state fits.** -/
theorem ballocSound_iff (h : s.Coherent [] ∅) (hst : sb.Standard s.disk backup) :
    s.BallocSound sb backup inum ↔ s.BallocFits sb inum := by
  constructor
  · intro hsound i j hscan
    by_cases hzero : i = 0 ∧ j = 0
    · exact .inl hzero
    · obtain ⟨s', hrun, -, hdisk, -⟩ := h.balloc_ok hscan (target_ne hst hscan hzero)
      obtain ⟨⟨g, hg, k, hk, hb, hclear⟩, -, -, hbits, -⟩ := hsound _ s' hrun
      have hset := hbits g hg k (hk.trans_le hst.perGroup_le)
      rw [hclear, hb, decide_eq_true ⟨hk, rfl⟩, Bool.false_or, hdisk] at hset
      -- the bit of the returned block is set now, so it is the one that was marked
      have hne : blockBitmap s.disk g ≠ (s.groupBitmap sb inum + (i * 8 + j)) % 2 ^ 32 := by
        intro e
        rw [e, update_self] at hset
        simp [Block.bit] at hset
      rw [update_of_ne hne] at hset
      have hv : blockBitmap s.disk g = s.groupBitmap sb inum := by
        by_contra e
        rw [update_of_ne e, hclear] at hset
        cases hset
      rw [hv] at hclear
      rw [hv, update_self] at hset
      by_cases hi : i < BSIZE
      · obtain ⟨-, hj, -⟩ := firstClear_spec hscan
        rw [Block.bit_markBit _ hi hj, hclear, Bool.false_or, decide_eq_true_eq] at hset
        rw [hset] at hb
        exact .inr ⟨hi, g, hg, hv.symm, hb⟩
      · rw [markBit, if_neg hi, hclear] at hset
        cases hset
  · intro hfits b s' hrun
    cases hscan : s.scan sb inum with
    | none =>
      rw [h.balloc_full hscan] at hrun
      cases hrun
    | some r =>
      obtain ⟨i, j⟩ := r
      by_cases hz : (s.groupBitmap sb inum + (i * 8 + j)) % 2 ^ 32 = s.groupBitmap sb inum
      · rw [h.balloc_first hscan hz] at hrun
        cases hrun
      · obtain ⟨s'', hrun', -, hdisk, -⟩ := h.balloc_ok hscan hz
        rw [hrun'] at hrun
        cases hrun
        rcases hfits i j hscan with ⟨rfl, rfl⟩ | ⟨hi, g, hg, hv, htarget⟩
        · refine absurd ?_ hz
          rw [Nat.zero_mul, Nat.add_zero]
          exact mod_eq_of_lt (groupBitmap_lt s sb inum)
        · rw [hdisk, htarget, hv]
          exact allocated_of_fits hst hscan hi hg hv

/-! ### Sequences of allocations -/

/-- Allocations one after the other, each from a state that fits, with the blocks returned.  In
between anything may happen that leaves the disk alone and the buffers released and clean. -/
inductive Allocs (sb : Super) : Io → List ℕ → Io → Prop
  | nil {s : Io} : Allocs sb s [] s
  | other {s s₁ s' : Io} {bs : List ℕ} : s₁.Coherent [] ∅ → s₁.disk = s.disk →
      Allocs sb s₁ bs s' → Allocs sb s bs s'
  | alloc {s s₁ s' : Io} {inum b : ℕ} {bs : List ℕ} : s.BallocFits sb inum →
      ext2fsBalloc sb inum s = .ok (b, s₁) → Allocs sb s₁ bs s' → Allocs sb s (b :: bs) s'

theorem Coherent.balloc (h : s.Coherent [] ∅) {b : ℕ} {s' : Io}
    (hrun : ext2fsBalloc sb inum s = .ok (b, s')) :
    s'.Coherent [] ∅ ∧
      ((∀ i j, s.scan sb inum = some (i, j) → i < BSIZE) → s'.outside = s.outside) := by
  cases hscan : s.scan sb inum with
  | none =>
    rw [h.balloc_full hscan] at hrun
    cases hrun
  | some r =>
    obtain ⟨i, j⟩ := r
    by_cases hz : (s.groupBitmap sb inum + (i * 8 + j)) % 2 ^ 32 = s.groupBitmap sb inum
    · rw [h.balloc_first hscan hz] at hrun
      cases hrun
    · obtain ⟨s'', hrun', hc, -, ho⟩ := h.balloc_ok hscan hz
      rw [hrun'] at hrun
      cases hrun
      exact ⟨hc, fun hin => ho (hin i j rfl)⟩

theorem Allocs.sound {bs : List ℕ} {s' : Io} (hruns : Allocs sb s bs s') (h : s.Coherent [] ∅)
    (hst : sb.Standard s.disk backup) :
    bs.Nodup ∧ (∀ x ∈ bs, sb.Free s.disk x) ∧
      ∀ x, ¬sb.Free s.disk x → (∀ g < sb.groups, x ≠ blockBitmap s.disk g) →
        s'.disk x = s.disk x := by
  induction hruns with
  | nil => exact ⟨List.nodup_nil, by simp, fun _ _ _ => rfl⟩
  | other hc hd _ ih =>
    rw [← hd] at hst ⊢
    exact ih hc hst
  | @alloc s s₁ _ inum b bs hfits hrun _ ih =>
    have halloc := (ballocSound_iff h hst).2 hfits b s₁ hrun
    obtain ⟨hnodup, hfree, hkeep⟩ := ih (h.balloc hrun).1 (halloc.standard hst)
    have hfree_iff := fun x => halloc.free_iff hst x
    refine ⟨List.nodup_cons.2 ⟨fun hb => ((hfree_iff b).1 (hfree b hb)).2 rfl, hnodup⟩,
      fun x hx => ?_, fun x hx hx' => ?_⟩
    · rcases List.mem_cons.1 hx with rfl | hx
      · exact halloc.wasFree
      · exact ((hfree_iff x).1 (hfree x hx)).1
    · have hxb : x ≠ b := fun e => hx (e ▸ halloc.wasFree)
      rw [hkeep x (fun hf => hx ((hfree_iff x).1 hf).1) fun g hg => ?_, halloc.others x hxb hx']
      have hbitmap : blockBitmap s₁.disk g = blockBitmap s.disk g := halloc.descWord_eq hst hg _
      rw [hbitmap]
      exact hx' g hg

/-- **The block allocator.**  From a state in which all buffers are released and clean, on an
image in the standard layout, `ext2fs_balloc` is sound exactly when the state fits; and a
sequence of allocations that all start from states that fit never hands out a block twice, nor
one that is in use, and never changes a block in use other than a bitmap. -/
theorem balloc_sound (s : Io) (sb : Super) (backup : ℕ → Prop) (h : s.Coherent [] ∅)
    (hst : sb.Standard s.disk backup) :
    (∀ inum, s.BallocSound sb backup inum ↔ s.BallocFits sb inum) ∧
      ∀ bs s', Allocs sb s bs s' →
        bs.Nodup ∧ (∀ x ∈ bs, sb.Free s.disk x) ∧
          ∀ x, ¬sb.Free s.disk x → (∀ g < sb.groups, x ≠ blockBitmap s.disk g) →
            s'.disk x = s.disk x :=
  ⟨fun _ => ballocSound_iff h hst, fun _ _ hruns => hruns.sound h hst⟩

/-! ### Two images -/

/-- A file system of 64 blocks in one group. -/
def sampleSuper : Super := ⟨64, 1, 8192, 32, 128⟩

/-- A disk with bitmap block `v`, inode bitmap 4 and inode table 9.  The blocks from 17 to 63 are
free, those below 9 are in use; `c` is the byte of the bitmap for the blocks in between. -/
def sampleDisk (v : ℕ) (c : UInt8) : ℕ → Block := fun n j =>
  if n = 2 then [UInt8.ofNat v, 0, 0, 0, 4, 0, 0, 0, 9].getD j.val 0
  else if n = v then
    if j.val = 1 then c else if 2 ≤ j.val ∧ j.val < 7 then 0
    else if j.val = 7 then 128 else 255
  else 0

/-- The state after boot with that disk. -/
def sampleIo (v : ℕ) (c : UInt8) : Io := ⟨Bcache.binit, sampleDisk v c, fun _ _ => 255⟩

theorem coherent_binit (disk : ℕ → Block) (outside : ℕ → ℤ → UInt8) :
    Coherent ⟨Bcache.binit, disk, outside⟩ [] ∅ where
  wf := ⟨_, Bcache.wf_binit⟩
  nodup := List.nodup_nil
  locked b hb := by simp at hb
  free b _ := ⟨rfl, rfl⟩
  dev b hb := by simp [Bcache.binit, Bcache.bootBuf] at hb
  dirty_held b hb := absurd hb (Set.notMem_empty b)
  clean b hb := by simp [Bcache.binit, Bcache.bootBuf] at hb

theorem bit_sampleDisk_high {v k : ℕ} (hv : v ≠ 2) (c : UInt8) (hk : k < 8 * BSIZE)
    (h : 64 ≤ k) : (sampleDisk v c v).bit k = true := by
  have hlt : k / 8 < BSIZE := by omega
  have hbyte : (sampleDisk v c v).byte (k / 8) = 255 := by
    rw [Block.byte_of_lt _ hlt]
    unfold sampleDisk
    rw [if_neg hv, if_pos rfl]
    simp only
    rw [if_neg (by omega), if_neg (by omega), if_neg (by omega)]
  have hall : ∀ m < 8, (255 : UInt8).toNat.testBit m = true := by decide
  unfold Block.bit
  rw [hbyte]
  exact hall _ (mod_lt _ (by decide))

/-- The images are in the standard layout. -/
theorem standard_sampleDisk {v : ℕ} {c : UInt8} (hv : 3 ≤ v ∧ v ≤ 8)
    (hdesc : blockBitmap (sampleDisk v c) 0 = v ∧ descWord (sampleDisk v c) 0 bgInodeBitmap = 4 ∧
      descWord (sampleDisk v c) 0 bgInodeTable = 9)
    (hlow : ∀ k < 64, (sampleDisk v c v).bit k = false → 13 ≤ k ∧ k < 63) :
    sampleSuper.Standard (sampleDisk v c) fun _ => True := by
  have hgroups : sampleSuper.groups = 1 := by decide
  have hbitmap : ∀ g < sampleSuper.groups, g = 0 ∧ blockBitmap (sampleDisk v c) g = v := by
    intro g hg
    obtain rfl : g = 0 := by omega
    exact ⟨rfl, hdesc.1⟩
  refine ⟨rfl, by decide, by decide, trivial, fun g hg g' hg' _ => ?_, fun g hg g' hg' => ?_,
    fun g hg k hk hclear => ?_⟩
  · rw [(hbitmap g hg).1, (hbitmap g' hg').1]
  · rw [(hbitmap g hg).2, (hbitmap g' hg').1]
    omega
  · obtain ⟨rfl, hb⟩ := hbitmap g hg
    rw [hb] at hclear
    have hk64 : k < 64 := by
      by_contra hge
      rw [bit_sampleDisk_high (by omega) c hk (by omega)] at hclear
      cases hclear
    obtain ⟨h1, h2⟩ := hlow k hk64 hclear
    refine ⟨?_, ?_, ?_⟩
    · simp only [sampleSuper]
      omega
    · simp only [Super.blockOf, sampleSuper]
      omega
    · rintro ⟨g', hg', hm⟩
      obtain ⟨rfl, hb'⟩ := hbitmap g' hg'
      rw [hb', hdesc.2.1, hdesc.2.2, hgroups] at hm
      simp only [Super.blockOf, sampleSuper] at hm
      omega

theorem standard_sampleDisks : sampleSuper.Standard (sampleIo 3 31).disk (fun _ => True) ∧
    sampleSuper.Standard (sampleIo 8 127).disk fun _ => True :=
  ⟨standard_sampleDisk (by decide) (by decide +kernel) (by decide +kernel),
    standard_sampleDisk (by decide) (by decide +kernel) (by decide +kernel)⟩

theorem standard_sampleDisk_bad :
    sampleSuper.Standard (sampleIo 3 31).disk fun _ => True :=
  standard_sampleDisks.1

theorem standard_sampleDisk_good :
    sampleSuper.Standard (sampleIo 8 127).disk fun _ => True :=
  standard_sampleDisks.2

theorem scan_sampleIo : (sampleIo 3 31).groupBitmap sampleSuper 2 = 3 ∧
    (sampleIo 3 31).scan sampleSuper 2 = some (1, 0) ∧
    (sampleIo 8 127).groupBitmap sampleSuper 2 = 8 ∧
    (sampleIo 8 127).scan sampleSuper 2 = some (1, 0) := by
  decide +kernel

/-- With the bitmap in block 8 the first allocation is sound. -/
theorem balloc_sound_sampleIo : (sampleIo 8 127).BallocFits sampleSuper 2 ∧
    (sampleIo 8 127).BallocSound sampleSuper (fun _ => True) 2 := by
  have hfits : (sampleIo 8 127).BallocFits sampleSuper 2 := by
    intro i j h
    rw [scan_sampleIo.2.2.2] at h
    obtain ⟨rfl, rfl⟩ : 1 = i ∧ 0 = j := by simpa using h
    refine .inr ⟨by decide, 0, by decide, ?_, ?_⟩
    · decide +kernel
    · decide
  exact ⟨hfits, ((balloc_sound (sampleIo 8 127) sampleSuper (fun _ => True) (coherent_binit _ _)
    standard_sampleDisk_good).1 2).2 hfits⟩

/-- **With the bitmap in block 3, where `mke2fs` puts it, the first allocation returns block 11,
which is in use, and zeroes it.** -/
theorem balloc_returns_used_block :
    (sampleIo 3 31).Coherent [] ∅ ∧
      sampleSuper.Standard (sampleIo 3 31).disk (fun _ => True) ∧
      ¬sampleSuper.Free (sampleIo 3 31).disk 11 ∧
      (∃ s', ext2fsBalloc sampleSuper 2 (sampleIo 3 31) = .ok (11, s') ∧ s'.disk 11 = Block.zero) ∧
      ¬(sampleIo 3 31).BallocSound sampleSuper (fun _ => True) 2 := by
  have hc : (sampleIo 3 31).Coherent [] ∅ := coherent_binit _ _
  have hst := standard_sampleDisk_bad
  obtain ⟨hv, hscan, -⟩ := scan_sampleIo
  refine ⟨hc, hst, ?_, ?_, ?_⟩
  · rintro ⟨g, hg, k, -, hb, hclear⟩
    obtain rfl : g = 0 := lt_one_iff.1 hg
    obtain rfl : k = 10 := by
      simp only [Super.blockOf, sampleSuper] at hb
      omega
    revert hclear
    decide +kernel
  · obtain ⟨s', hrun, -, hdisk, -⟩ := hc.balloc_ok hscan (by rw [hv]; decide)
    exact ⟨s', hrun, by rw [hdisk]; exact update_self _ _ _⟩
  · intro hsound
    rcases (ballocSound_iff hc hst).1 hsound 1 0 hscan with h | ⟨-, g, hg, -, h⟩
    · exact absurd h (by decide)
    · obtain rfl : g = 0 := lt_one_iff.1 hg
      exact absurd h (by decide)

end Io

end Cinux
