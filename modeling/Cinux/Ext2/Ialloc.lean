import Cinux.Ext2.Owned
import Cinux.Ext2.Release

/-!
# Allocating inodes

`ext2fs_ialloc` takes the first clear bit of the inode bitmaps, with the scan of
`ext2fs_free_block`, and clears and stamps a record of the inode table.  It divides the table into
records of `sizeof(struct ext2_inode)` = 132 bytes, seven to a block; all other functions divide it
into records of `s_inode_size` bytes.

* `Io.Coherent.ialloc_ok` : what the function does;
* `Io.ialloc_place` : when it clears the record of the inode that it returns and no other;
* `Io.ialloc_ifree` : when `ext2fs_ifree` finds the bit again.
-/

namespace Cinux

open Program Nat Super

open Function

/-- Byte `k` of the record of a new inode: zero but for `i_mode`. -/
def newInode (type : InodeType) (k : ℕ) : UInt8 :=
  if k < 2 then
    match type with
    | .dir => byteOf 0x4000 k
    | .file => byteOf 0x8000 k
    | .none => 0
  else 0

/-- `EXT2_BSIZE / sizeof(struct ext2_inode)`. -/
def dinodesPerBlock : ℕ := BSIZE / sizeofExt2Inode

namespace Io

/-- The end of a round of `ext2fs_ialloc`: the record for bit `fbit`, and the
bitmap, are written. -/
def stampInode (type : InodeType) (table fbit : ℕ) (bp2 : Fin NBUF) : IoM Unit := do
  let bp3 ← bread ((table + fbit / dinodesPerBlock) % 2 ^ 32)
  modifyData bp3 fun d =>
    d.memmove (fbit % dinodesPerBlock * sizeofExt2Inode) sizeofExt2Inode (newInode type)
  bwrite bp3
  bwrite bp2
  brelse bp3
  brelse bp2

/-- A round of the loop of `ext2fs_ialloc`: the number of the inode, if group `i` has one. -/
def iallocGroup (sb : Super) (type : InodeType) (i : ℕ) : IoM (Option ℕ) := do
  let bp1 ← bread 2
  let bitmap ← load bp1 (i * groupDescWords + bgInodeBitmap)
  let table ← load bp1 (i * groupDescWords + bgInodeTable)
  brelse bp1
  let bp2 ← bread bitmap
  match ← ext2fsFreeBlock sb bp2 with
  | none =>
    brelse bp2
    pure none
  | some fbit =>
    stampInode type table fbit bp2
    pure (some ((i * sb.sInodesPerGroup + fbit + 1) % 2 ^ 32))

/-- `ext2fs_ialloc` from group `i` on, for `n` groups: the number of the inode. -/
def ext2fsIallocLoop (sb : Super) (type : InodeType) : ℕ → ℕ → IoM ℕ
  | 0, _ => throw (.panic "ext2_ialloc: no inodes")
  | n + 1, i => do
    match ← iallocGroup sb type i with
    | some inum => pure inum
    | none => ext2fsIallocLoop sb type n (i + 1)

/-- `ext2fs_ialloc`. -/
def ext2fsIalloc (sb : Super) (type : InodeType) : IoM ℕ :=
  ext2fsIallocLoop sb type (sb.sBlocksCount / sb.sBlocksPerGroup + 1) 0

variable {s s' : Io} {held : List (Fin NBUF)} {dirty : Set (Fin NBUF)} {b : Fin NBUF}
  {n i j g a inum : ℕ} {sb : Super} {type : InodeType}

/-! ### What the function does -/

/-- What the driver takes for `bg_inode_bitmap` of group `g`. -/
def inodeBitmap (s : Io) (g : ℕ) : ℕ :=
  le32 (fun i => s.blockByte 2 i) (4 * (g * groupDescWords + bgInodeBitmap))

/-- What the driver takes for `bg_inode_table` of group `g`. -/
def inodeTable (s : Io) (g : ℕ) : ℕ :=
  le32 (fun i => s.blockByte 2 i) (4 * (g * groupDescWords + bgInodeTable))

/-- The first clear bit of the inode bitmap of group `g`, in the order of the scan. -/
def inodeScan (s : Io) (sb : Super) (g : ℕ) : Option (ℕ × ℕ) :=
  firstClear (fun i => s.blockByte (s.inodeBitmap g) i) sb.scanBytes 0

/-- The block in which `ext2fs_ialloc` stores the record for bit `fbit` of group `g`. -/
def newBlock (s : Io) (g fbit : ℕ) : ℕ := (s.inodeTable g + fbit / dinodesPerBlock) % 2 ^ 32

/-- The offset of that record. -/
def newOffset (fbit : ℕ) : ℕ := fbit % dinodesPerBlock * sizeofExt2Inode

/-- Block `d` with the record of a new inode at offset `o`. -/
def stamp (type : InodeType) (d : Block) (o : ℕ) : Block :=
  d.memmove o sizeofExt2Inode (newInode type)

theorem Coherent.mono {dirty' : Set (Fin NBUF)} (h : s.Coherent held dirty)
    (hsub : dirty ⊆ dirty') (hheld : ∀ b ∈ dirty', b ∈ held) : s.Coherent held dirty' :=
  h.holds.coherent hheld fun b hb hd => h.clean b hb fun hm => hd (hsub hm)

/-- `ext2fs_free_block` on a clean buffer. -/
theorem Coherent.freeBlock_dirty (h : s.Coherent held ∅) (hb : b ∈ held)
    (hscan : firstClear (fun i => s.blockByte (s.cache.buf b).blockno i) sb.scanBytes 0 =
      some (i, j)) :
    ∃ s1, ext2fsFreeBlock sb b s = .ok (some (i * 8 + j), s1) ∧ s1.Coherent held {b} ∧
      s1.disk = s.disk ∧
      (s1.cache.buf b).data = markBit (s.disk (s.cache.buf b).blockno) i j ∧
      (∀ x, (s1.cache.buf x).blockno = (s.cache.buf x).blockno) ∧
      (∀ n, n ≠ (s.cache.buf b).blockno → s1.outside n = s.outside n) := by
  have hstart := h.scanBitmap_eq hb sb
  rw [hscan] at hstart
  have hget : getByteAt b i s = .ok (s.byteAt b i, s) := rfl
  have hrun : ∀ s1, setByteAt b i (s.byteAt b i ||| UInt8.ofNat (2 ^ (7 - j))) s = .ok ((), s1) →
      ext2fsFreeBlock sb b s = .ok (some (i * 8 + j), s1) := by
    intro s1 h1
    unfold ext2fsFreeBlock
    rw [bind_ok hstart]
    dsimp only
    rw [bind_ok hget, bind_ok h1]
    rfl
  have hdata := h.clean b (h.locked b hb).2.2 (Set.notMem_empty b)
  unfold markBit
  by_cases hi : i < BSIZE
  · have hi' : (0 : ℤ) ≤ i ∧ (i : ℤ) < BSIZE := by omega
    have hbyte : s.byteAt b i = (s.disk (s.cache.buf b).blockno).byte i := by
      rw [byteAt, if_pos hi', hdata, Int.toNat_natCast]
    have hc := h.modify_data hb (·.setByte i (s.byteAt b i ||| UInt8.ofNat (2 ^ (7 - j))))
    rw [show insert b (∅ : Set (Fin NBUF)) = {b} by simp] at hc
    refine ⟨_, hrun _ ?_, hc, rfl, ?_, fun x => ?_, fun _ _ => rfl⟩
    · unfold setByteAt
      rw [if_pos hi', Int.toNat_natCast]
      rfl
    · rw [if_pos hi, ← hbyte]
      simp [hdata]
    · by_cases hx : x = b
      · subst hx
        simp
      · simp [Bcache.modify_ne _ hx]
  · have hi' : ¬((0 : ℤ) ≤ i ∧ (i : ℤ) < BSIZE) := by omega
    have hc := (h.with_outside (update s.outside (s.cache.buf b).blockno
      (update (s.outside (s.cache.buf b).blockno) i
        (s.byteAt b i ||| UInt8.ofNat (2 ^ (7 - j)))))).mono (Set.empty_subset {b})
        fun x hx => (Set.mem_singleton_iff.1 hx) ▸ hb
    refine ⟨_, hrun _ (if_neg hi'), hc, rfl, ?_, fun x => rfl, fun n hn => ?_⟩
    · rw [if_neg hi]
      exact hdata
    · exact update_of_ne hn _ _

/-- The record and the bitmap are written, unless they are in the same block. -/
theorem Coherent.stampInode_ok (h : s.Coherent [b] {b}) (type : InodeType) {table fbit : ℕ}
    (hne : (s.cache.buf b).blockno ≠ (table + fbit / dinodesPerBlock) % 2 ^ 32) :
    ∃ s', stampInode type table fbit b s = .ok ((), s') ∧ s'.Coherent [] ∅ ∧ s'.disk = update
        (update s.disk ((table + fbit / dinodesPerBlock) % 2 ^ 32)
          (stamp type (s.disk ((table + fbit / dinodesPerBlock) % 2 ^ 32)) (newOffset fbit)))
        (s.cache.buf b).blockno (s.cache.buf b).data ∧
      s'.outside = s.outside := by
  obtain ⟨bp3, s1, h1⟩ : ∃ b s',
      bread ((table + fbit / dinodesPerBlock) % 2 ^ 32) s = .ok (b, s') :=
    h.exists_bread (by simpa using hne) (by decide : 1 < NBUF)
  obtain ⟨hout, hc1, hd1, ho1, hbno1, hdata1, hsame1⟩ := h.bread_ok h1
  have hb : b ≠ bp3 := fun e => hout (by simp [e])
  have hc2 := hc1.modify_data (b := bp3) (by simp) fun d =>
    d.memmove (fbit % dinodesPerBlock * sizeofExt2Inode) sizeofExt2Inode (newInode type)
  obtain ⟨h3, hc3⟩ := hc2.bwrite_ok (b := bp3) (by simp)
  obtain ⟨h4, hc4⟩ := hc3.bwrite_ok (b := b) (by simp)
  have hempty : ((insert bp3 {b} : Set (Fin NBUF)) \ {bp3}) \ {b} = ∅ := by
    ext x
    simp
  rw [hempty] at hc4
  obtain ⟨s5, h5, hc5, hd5, ho5, hsame5⟩ := hc4.brelse_head
  obtain ⟨s6, h6, hc6, hd6, ho6, -⟩ := hc5.brelse_head
  refine ⟨s6, ?_, hc6, ?_, ?_⟩
  · unfold stampInode
    rw [bind_ok h1, bind_ok rfl, bind_ok h3, bind_ok h4, bind_ok h5, h6]
  · rw [hd6, hd5]
    dsimp only
    rw [Bcache.modify_ne _ hb, hsame1 b (by simp)]
    simp only [Bcache.modify_self, hbno1, hdata1, hd1]
    rfl
  · rw [ho6, ho5]
    exact ho1

/-- What `ext2fs_ialloc` has done, when it took position `j` from the top of byte `a` of the bitmap
of group `g`. -/
structure Ialloced (s s' : Io) (sb : Super) (type : InodeType) (g a j : ℕ) : Prop where
  scan : s.inodeScan sb g = some (a, j)
  coherent : s'.Coherent [] ∅
  ne : s.inodeBitmap g ≠ s.newBlock g (a * 8 + j)
  disk : s'.disk = update
    (update s.disk (s.newBlock g (a * 8 + j))
      (stamp type (s.disk (s.newBlock g (a * 8 + j))) (newOffset (a * 8 + j))))
    (s.inodeBitmap g) (markBit (s.disk (s.inodeBitmap g)) a j)
  outside : ∀ n, n ≠ s.inodeBitmap g → s'.outside n = s.outside n

/-- A round in a group without a clear bit changes nothing. -/
theorem Coherent.iallocGroup_ok (h : s.Coherent [] ∅) {r : Option ℕ}
    (hr : iallocGroup sb type g s = .ok (r, s')) :
    (s.inodeScan sb g = none ∧ r = none ∧ s'.Coherent [] ∅ ∧ s'.disk = s.disk ∧
        s'.outside = s.outside) ∨
      ∃ a j, r = some ((g * sb.sInodesPerGroup + (a * 8 + j) + 1) % 2 ^ 32) ∧
        Ialloced s s' sb type g a j := by
  unfold iallocGroup at hr
  obtain ⟨bp1, s1, h1, hr⟩ := bind_eq_ok.1 hr
  obtain ⟨-, hc1, hd1, ho1, hbno1, -, -⟩ := h.bread_ok h1
  rw [bind_ok (h.load_of_bread h1 _), bind_ok (h.load_of_bread h1 _)] at hr
  obtain ⟨s₂, h2, hc2, hd2, ho2, -⟩ := hc1.brelse_head
  rw [bind_ok h2] at hr
  obtain ⟨bp2, s3, h3, hr⟩ := bind_eq_ok.1 hr
  obtain ⟨-, hc3, hd3, ho3, hbno3, -, -⟩ := hc2.bread_ok h3
  have hdisk : s3.disk = s.disk := by rw [hd3, hd2, hd1]
  have hout : s3.outside = s.outside := by rw [ho3, ho2, ho1]
  change (s3.cache.buf bp2).blockno = s.inodeBitmap g at hbno3
  have hscan : firstClear (fun i => s3.blockByte (s3.cache.buf bp2).blockno i) sb.scanBytes 0 =
      s.inodeScan sb g := by
    rw [hbno3, blockByte_congr hdisk hout]
    rfl
  cases hfound : s.inodeScan sb g with
  | none =>
    have hfree : ext2fsFreeBlock sb bp2 s3 = .ok (none, s3) := by
      have hstart := hc3.scanBitmap_eq (b := bp2) (by simp) sb
      rw [hscan, hfound] at hstart
      unfold ext2fsFreeBlock
      rw [bind_ok hstart]
      rfl
    obtain ⟨s4, h4, hc4, hd4, ho4, -⟩ := hc3.brelse_head
    rw [bind_ok hfree] at hr
    dsimp only at hr
    rw [bind_ok h4] at hr
    cases hr
    exact .inl ⟨rfl, rfl, hc4, hd4.trans hdisk, ho4.trans hout⟩
  | some r =>
    obtain ⟨a, j⟩ := r
    rw [hfound] at hscan
    obtain ⟨s4, h4, hc4, hd4, hdata4, hbno4, ho4⟩ := hc3.freeBlock_dirty (by simp) hscan
    rw [bind_ok h4] at hr
    dsimp only at hr
    change (stampInode type (s.inodeTable g) (a * 8 + j) bp2 >>= _) s4 = _ at hr
    have hbm : (s4.cache.buf bp2).blockno = s.inodeBitmap g := by rw [hbno4, hbno3]
    have hne : (s4.cache.buf bp2).blockno ≠ s.newBlock g (a * 8 + j) := by
      intro he
      have hstop : stampInode type (s.inodeTable g) (a * 8 + j) bp2 s4 = .error .deadlock :=
        bind_error (hc4.bread_held (b := bp2) (by simp) he)
      rw [bind_error hstop] at hr
      cases hr
    obtain ⟨s5, h5, hc5, hd5, ho5⟩ := hc4.stampInode_ok type hne
    rw [bind_ok h5] at hr
    cases hr
    refine .inr ⟨a, j, rfl, hfound, hc5, hbm ▸ hne, ?_, fun n hn => ?_⟩
    · rw [hd5, hdata4, hbno4, hbno3, hd4, hdisk]
      rfl
    · rw [ho5, ho4 n (by rwa [hbno3]), hout]

theorem inodeScan_congr (hd : s'.disk = s.disk) (ho : s'.outside = s.outside) :
    s'.inodeScan = s.inodeScan := by
  unfold inodeScan inodeBitmap
  rw [blockByte_congr hd ho]

theorem Ialloced.congr {t : Io} (h : Ialloced t s' sb type g a j) (hd : t.disk = s.disk)
    (ho : t.outside = s.outside) : Ialloced s s' sb type g a j := by
  obtain ⟨hscan, hc, hne, hdisk, hout⟩ := h
  rw [inodeScan_congr hd ho] at hscan
  unfold inodeBitmap at hne hdisk hout
  unfold newBlock inodeTable at hne hdisk
  rw [blockByte_congr hd ho] at hne hdisk hout
  rw [hd] at hdisk
  rw [ho] at hout
  exact ⟨hscan, hc, hne, hdisk, hout⟩

/-- The bit that `ext2fs_ialloc` takes: the first one, in the first group that has one. -/
structure Chosen (s : Io) (sb : Super) (g a j : ℕ) : Prop where
  group : g ≤ sb.sBlocksCount / sb.sBlocksPerGroup
  before : ∀ i < g, s.inodeScan sb i = none
  scan : s.inodeScan sb g = some (a, j)

theorem Coherent.iallocLoop_ok (h : s.Coherent [] ∅)
    (hr : ext2fsIallocLoop sb type n i s = .ok (inum, s')) :
    ∃ g a j, i ≤ g ∧ g < i + n ∧ (∀ k, i ≤ k → k < g → s.inodeScan sb k = none) ∧
      inum = (g * sb.sInodesPerGroup + (a * 8 + j) + 1) % 2 ^ 32 ∧
      Ialloced s s' sb type g a j := by
  induction n generalizing i s with
  | zero => cases hr
  | succ n ih =>
    unfold ext2fsIallocLoop at hr
    obtain ⟨r, s1, h1, hr⟩ := bind_eq_ok.1 hr
    obtain ⟨hnone, rfl, hc1, hd1, ho1⟩ | ⟨a, j, rfl, hdone⟩ := h.iallocGroup_ok h1
    · obtain ⟨g, a, j, hlo, hhi, hskip, hinum, hdone⟩ := ih hc1 hr
      refine ⟨g, a, j, by omega, by omega, fun k hk hkg => ?_, hinum, hdone.congr hd1 ho1⟩
      rcases Nat.eq_or_lt_of_le hk with rfl | hk
      · exact hnone
      · have := hskip k hk hkg
        rwa [inodeScan_congr hd1 ho1] at this
    · cases hr
      exact ⟨i, a, j, le_refl i, by omega, fun k hk hk' => by omega, rfl, hdone⟩

/-- **What `ext2fs_ialloc` has done** if it returns: a bit has been set, and a record cleared. -/
theorem Coherent.ialloc_ok (h : s.Coherent [] ∅) (hr : ext2fsIalloc sb type s = .ok (inum, s')) :
    ∃ g a j, s.Chosen sb g a j ∧ inum = (g * sb.sInodesPerGroup + (a * 8 + j) + 1) % 2 ^ 32 ∧
      Ialloced s s' sb type g a j := by
  obtain ⟨g, a, j, -, hg, hskip, hinum, hdone⟩ := h.iallocLoop_ok hr
  exact ⟨g, a, j, ⟨by omega, fun i hi => hskip i (Nat.zero_le _) hi, hdone.scan⟩, hinum, hdone⟩

theorem Chosen.unique {g' a' j' : ℕ} (h : s.Chosen sb g a j) (h' : s.Chosen sb g' a' j') :
    g = g' ∧ a = a' ∧ j = j' := by
  obtain rfl : g = g' := by
    rcases Nat.lt_trichotomy g g' with hlt | rfl | hlt
    · exact absurd ((h'.before g hlt).symm.trans h.scan) (by simp)
    · rfl
    · exact absurd ((h.before g' hlt).symm.trans h'.scan) (by simp)
  simpa using h.scan.symm.trans h'.scan

/-! ### Images -/

/-- An image with the inodes from 1 to `count`, as the driver sees its descriptors. -/
structure InodeImage (s : Io) (sb : Super) (count : ℕ) : Prop where
  perGroup_pos : 0 < sb.sInodesPerGroup
  count_le : count ≤ sb.groups * sb.sInodesPerGroup
  /-- The inode numbers that the loop can compute have 32 bits. -/
  fits : (sb.sBlocksCount / sb.sBlocksPerGroup + 1) * sb.sInodesPerGroup +
    64 * sb.sBlocksPerGroup ≤ 2 ^ 32
  /-- The groups have their own inode bitmaps, outside the descriptors and the inode tables. -/
  bitmap_inj : ∀ g < sb.groups, ∀ g' < sb.groups, s.inodeBitmap g = s.inodeBitmap g' → g = g'
  bitmap_ne : ∀ g < sb.groups, s.inodeBitmap g ≠ 2
  bitmap_table : ∀ g < sb.groups, ∀ x, 1 ≤ x → x ≤ count → s.inodeBlock sb x ≠ s.inodeBitmap g
  /-- The inode tables lie behind the descriptors. -/
  table : ∀ g < sb.groups, 2 < s.inodeTable g ∧
    s.inodeTable g + 64 * sb.sBlocksPerGroup ≤ 2 ^ 32

section Image

variable {count : ℕ} (himg : s.InodeImage sb count)
include himg

theorem Chosen.lt (h : s.Chosen sb g a j) : a * 8 + j < 64 * sb.sBlocksPerGroup ∧ j < 8 := by
  obtain ⟨ha, hj, -⟩ := firstClear_spec h.scan
  have hfits := himg.fits
  unfold scanBytes at ha
  rw [toInt32_of_fits (by omega), Int.toNat_natCast] at ha
  omega

theorem Chosen.inum_eq (h : s.Chosen sb g a j)
    (hinum : inum = (g * sb.sInodesPerGroup + (a * 8 + j) + 1) % 2 ^ 32) :
    inum = g * sb.sInodesPerGroup + (a * 8 + j) + 1 ∧
      sb.groupNo inum = g + (a * 8 + j) / sb.sInodesPerGroup ∧
      sb.inodeIndex inum = (a * 8 + j) % sb.sInodesPerGroup := by
  have hlt := (h.lt himg).1
  have hfits := himg.fits
  have hpos := himg.perGroup_pos
  have hg : g * sb.sInodesPerGroup ≤ sb.sBlocksCount / sb.sBlocksPerGroup * sb.sInodesPerGroup :=
    Nat.mul_le_mul_right _ h.group
  rw [Nat.add_mul, Nat.one_mul] at hfits
  have hno : inum = g * sb.sInodesPerGroup + (a * 8 + j) + 1 := by
    rw [hinum]
    exact mod_eq_of_lt (by omega)
  have hpred : (inum + (2 ^ 32 - 1)) % 2 ^ 32 = a * 8 + j + sb.sInodesPerGroup * g := by
    rw [Nat.mul_comm _ g]
    omega
  unfold groupNo inodeIndex
  rw [hpred, add_mul_div_left _ _ hpos, add_mul_mod_self_left]
  exact ⟨hno, Nat.add_comm _ _, rfl⟩

theorem Chosen.group_lt (h : s.Chosen sb g a j)
    (hinum : inum = (g * sb.sInodesPerGroup + (a * 8 + j) + 1) % 2 ^ 32) (hle : inum ≤ count) :
    g < sb.groups ∧ sb.groupNo inum < sb.groups := by
  obtain ⟨hno, hgroup, -⟩ := h.inum_eq himg hinum
  have hpos := himg.perGroup_pos
  have hlt : a * 8 + j + sb.sInodesPerGroup * g < sb.groups * sb.sInodesPerGroup := by
    have := himg.count_le
    rw [Nat.mul_comm _ g]
    omega
  have hdiv := (Nat.div_lt_iff_lt_mul hpos).2 hlt
  rw [add_mul_div_left _ _ hpos] at hdiv
  refine ⟨(Nat.le_add_left g _).trans_lt hdiv, ?_⟩
  rwa [hgroup, Nat.add_comm]

theorem Chosen.newBlock_ne (h : s.Chosen sb g a j) (hg : g < sb.groups) :
    s.newBlock g (a * 8 + j) ≠ 2 := by
  obtain ⟨htwo, hle⟩ := himg.table g hg
  have hlt := (h.lt himg).1
  have hdiv : (a * 8 + j) / dinodesPerBlock ≤ a * 8 + j := div_le_self _ _
  unfold newBlock
  generalize (a * 8 + j) / dinodesPerBlock = q at hdiv ⊢
  rw [mod_eq_of_lt (by omega)]
  omega

theorem Ialloced.desc (hdone : Ialloced s s' sb type g a j) (h : s.Chosen sb g a j)
    (hg : g < sb.groups) : s'.blockByte 2 = s.blockByte 2 := by
  have hbm := himg.bitmap_ne g hg
  have hnew := h.newBlock_ne himg hg
  have hdisk : s'.disk 2 = s.disk 2 := by
    rw [hdone.disk, update_of_ne hbm.symm, update_of_ne hnew.symm]
  unfold blockByte
  rw [hdisk, hdone.outside 2 hbm.symm]

end Image

/-! ### The record of the inode -/

theorem newInode_of_le {k : ℕ} (hk : 2 ≤ k) : newInode type k = 0 := by
  unfold newInode
  rw [if_neg (by omega)]

theorem newInode_one (htype : type ≠ .none) : newInode type 1 ≠ 0 := by
  cases type with
  | none => exact absurd rfl htype
  | dir => decide
  | file => decide

/-- Byte `k` of the record of inode `x`, where `ext2fs_ilock` and `ext2fs_iupdate` find it. -/
def recordByte (s : Io) (sb : Super) (x k : ℕ) : UInt8 :=
  (s.disk (s.inodeBlock sb x)).byte (sb.inodeOffset x + k)

/-- Byte `k` of the record of inode `x` is among those that `ext2fs_ialloc` stores for bit `fbit` of
group `g`. -/
def Covers (s : Io) (sb : Super) (g fbit x k : ℕ) : Prop :=
  s.inodeBlock sb x = s.newBlock g fbit ∧ newOffset fbit ≤ sb.inodeOffset x + k ∧
    sb.inodeOffset x + k < newOffset fbit + sizeofExt2Inode

instance (sb : Super) (g fbit x k : ℕ) : Decidable (s.Covers sb g fbit x k) :=
  inferInstanceAs (Decidable (_ ∧ _ ∧ _))

/-- The record of `inum` is that of a new inode, and no other record has changed. -/
def OnePlace (s s' : Io) (sb : Super) (type : InodeType) (count inum : ℕ) : Prop :=
  (∀ k < sb.sInodeSize, s'.recordByte sb inum k = newInode type k) ∧
    ∀ x, 1 ≤ x → x ≤ count → x ≠ inum → ∀ k < sb.sInodeSize,
      s'.recordByte sb x k = s.recordByte sb x k

/-- The record that is stored is at the place of the record of `inum`. -/
def SamePlace (s : Io) (sb : Super) (inum g fbit : ℕ) : Prop :=
  s.inodeBlock sb inum = s.newBlock g fbit ∧ sb.inodeOffset inum = newOffset fbit

/-- The images on which the call does no harm: either it stores the record in its place, or the
record of `inum` is apart from what is stored and that of a new inode already; and what is stored
over the records of other inodes is there already. -/
structure PlaceFits (s : Io) (sb : Super) (type : InodeType) (count inum g fbit : ℕ) : Prop where
  own : s.SamePlace sb inum g fbit ∨ ∀ k < sb.sInodeSize,
    ¬s.Covers sb g fbit inum k ∧ s.recordByte sb inum k = newInode type k
  others : ∀ x, 1 ≤ x → x ≤ count → x ≠ inum → ∀ k < sb.sInodeSize, s.Covers sb g fbit x k →
    s.recordByte sb x k = newInode type (sb.inodeOffset x + k - newOffset fbit)

theorem newOffset_le (fbit : ℕ) : newOffset fbit + sizeofExt2Inode ≤ BSIZE := by
  have : fbit % dinodesPerBlock < 7 := mod_lt _ (by decide)
  simp only [newOffset, sizeofExt2Inode, BSIZE]
  omega

section Place

variable {count x : ℕ} (himg : s.InodeImage sb count)

include himg in
theorem Ialloced.recordByte_eq (hdone : Ialloced s s' sb type g a j) (h : s.Chosen sb g a j)
    (hg : g < sb.groups) (hx : 1 ≤ x) (hx' : x ≤ count) (k : ℕ) :
    s'.recordByte sb x k = if s.Covers sb g (a * 8 + j) x k then
        newInode type (sb.inodeOffset x + k - newOffset (a * 8 + j))
      else s.recordByte sb x k := by
  have hblock : s'.inodeBlock sb x = s.inodeBlock sb x := by
    unfold inodeBlock
    rw [hdone.desc himg h hg]
  unfold recordByte
  rw [hblock, hdone.disk, update_of_ne (himg.bitmap_table g hg x hx hx')]
  by_cases hnew : s.inodeBlock sb x = s.newBlock g (a * 8 + j)
  · have hiff : s.Covers sb g (a * 8 + j) x k ↔ newOffset (a * 8 + j) ≤ sb.inodeOffset x + k ∧
        sb.inodeOffset x + k < newOffset (a * 8 + j) + sizeofExt2Inode := and_iff_right hnew
    simp only [hiff]
    rw [hnew, update_self, stamp, Block.byte_memmove _ (newOffset_le _)]
  · rw [update_of_ne hnew, if_neg fun hc => hnew hc.1]

include himg in
theorem samePlace_iff {fbit : ℕ} (hsize : sb.sInodeSize = 128) (hg : g < sb.groups)
    (hlt : fbit < 64 * sb.sBlocksPerGroup) (hgroup : sb.groupNo inum = g)
    (hindex : sb.inodeIndex inum = fbit) : s.SamePlace sb inum g fbit ↔ fbit = 0 := by
  obtain ⟨-, hle⟩ := himg.table g hg
  have hper : sb.inodesPerBlock = 8 := by
    unfold inodesPerBlock
    rw [hsize]
    rfl
  have hblock : s.inodeBlock sb inum = (s.inodeTable g + fbit / 8) % 2 ^ 32 := by
    unfold inodeBlock
    rw [hgroup, hindex, hper]
    rfl
  have hblock' : s.newBlock g fbit = (s.inodeTable g + fbit / 7) % 2 ^ 32 := rfl
  have hoff : sb.inodeOffset inum = fbit % 8 * 128 := by
    unfold inodeOffset
    rw [hindex, hper, hsize]
  have hoff' : newOffset fbit = fbit % 7 * 132 := rfl
  unfold SamePlace
  rw [hblock, hblock', hoff, hoff']
  omega

theorem not_covers {k fbit : ℕ} (hsize : sb.sInodeSize = 128) (htype : type ≠ .none)
    (hne : ¬s.SamePlace sb inum g fbit)
    (hnew : ∀ k < 128, s.Covers sb g fbit inum k →
      newInode type (sb.inodeOffset inum + k - newOffset fbit) = newInode type k)
    (hk : k < 128) : ¬s.Covers sb g fbit inum k := by
  rintro ⟨hblock, hlo, hhi⟩
  have hoff : sb.inodeOffset inum % 4 = 0 := by
    unfold inodeOffset
    rw [hsize]
    omega
  have hoff' : newOffset fbit % 4 = 0 := by
    unfold newOffset sizeofExt2Inode
    omega
  have hdiff : sb.inodeOffset inum ≠ newOffset fbit := fun he => hne ⟨hblock, he⟩
  simp only [sizeofExt2Inode] at hhi
  rcases Nat.lt_or_gt_of_ne hdiff with hlt | hgt
  · -- the mode that is stored falls behind the mode of the record
    have hat := hnew (newOffset fbit - sb.inodeOffset inum + 1) (by omega)
      ⟨hblock, by omega, by simp only [sizeofExt2Inode]; omega⟩
    rw [show sb.inodeOffset inum + (newOffset fbit - sb.inodeOffset inum + 1) - newOffset fbit = 1
      by omega, newInode_of_le (k := newOffset fbit - sb.inodeOffset inum + 1) (by omega)] at hat
    exact newInode_one htype hat
  · have hat := hnew 1 (by omega) ⟨hblock, by omega, by simp only [sizeofExt2Inode]; omega⟩
    rw [newInode_of_le (by omega)] at hat
    exact newInode_one htype hat.symm

end Place

/-- **The place of a new inode.**  On an image with `s_inode_size` 128, an inode of the image that
`ext2fs_ialloc` returns has the record of a new inode of its type, and all other records are as they
were, exactly if the image is one on which the call does no harm.  For a bit of its own group the
record is stored in its place only if the bit is the first one. -/
theorem ialloc_place (s s' : Io) (sb : Super) (type : InodeType) (count inum : ℕ)
    (h : s.Coherent [] ∅) (himg : s.InodeImage sb count) (hsize : sb.sInodeSize = 128)
    (htype : type ≠ .none) (hr : ext2fsIalloc sb type s = .ok (inum, s')) (hle : inum ≤ count) :
    (OnePlace s s' sb type count inum ↔
        ∀ g a j, s.Chosen sb g a j → s.PlaceFits sb type count inum g (a * 8 + j)) ∧
      ∀ g a j, s.Chosen sb g a j → a * 8 + j < sb.sInodesPerGroup →
        (s.SamePlace sb inum g (a * 8 + j) ↔ a * 8 + j = 0) := by
  obtain ⟨g, a, j, hch, hinum, hdone⟩ := h.ialloc_ok hr
  obtain ⟨hno, hgroup, hindex⟩ := hch.inum_eq himg hinum
  have hg := (hch.group_lt himg hinum hle).1
  have hbytes := fun {x : ℕ} (hx : 1 ≤ x) (hx' : x ≤ count) (k : ℕ) =>
    hdone.recordByte_eq himg hch hg hx hx' k
  have hone : 1 ≤ inum := by omega
  refine ⟨⟨fun hplace g' a' j' hch' => ?_, fun hfits => ?_⟩, fun g' a' j' hch' hlt => ?_⟩
  · obtain ⟨rfl, rfl, rfl⟩ := hch.unique hch'
    obtain ⟨hown, hothers⟩ := hplace
    refine ⟨?_, fun x hx hx' hxi k hk hc => ?_⟩
    · by_cases hsame : s.SamePlace sb inum g (a * 8 + j)
      · exact .inl hsame
      · refine .inr fun k hk => ?_
        have hnot := not_covers (k := k) hsize htype hsame (fun k hk hc => by
          rw [← hown k (by omega), hbytes hone hle, if_pos hc]) (by omega)
        refine ⟨hnot, ?_⟩
        rw [← hown k hk, hbytes hone hle, if_neg hnot]
    · rw [← hothers x hx hx' hxi k hk, hbytes hx hx', if_pos hc]
  · obtain ⟨hown, hothers⟩ := hfits g a j hch
    refine ⟨fun k hk => ?_, fun x hx hx' hxi k hk => ?_⟩
    · rw [hbytes hone hle]
      rcases hown with ⟨hblock, hoff⟩ | happart
      · have hc : s.Covers sb g (a * 8 + j) inum k :=
          ⟨hblock, by omega, by simp only [sizeofExt2Inode]; omega⟩
        rw [if_pos hc, hoff, Nat.add_sub_cancel_left]
      · rw [if_neg (happart k hk).1, (happart k hk).2]
    · rw [hbytes hx hx']
      split_ifs with hc
      · exact (hothers x hx hx' hxi k hk hc).symm
      · rfl
  · obtain ⟨rfl, rfl, rfl⟩ := hch.unique hch'
    rw [div_eq_of_lt hlt, Nat.add_zero] at hgroup
    rw [mod_eq_of_lt hlt] at hindex
    exact samePlace_iff himg hsize hg (hch.lt himg).1 hgroup hindex

/-- An image with 32 inodes whose table is empty; `c` is the first byte of the inode bitmap, in
which all other bits are clear. -/
def inodeIo (c : UInt8) : Io :=
  ⟨Bcache.binit, fun n j => if n = 4 then if j.val = 0 then c else 0 else sampleDisk 8 255 n j,
    fun _ _ => 255⟩

theorem inodeIo_desc (c : UInt8) : (inodeIo c).inodeBitmap 0 = 4 ∧ (inodeIo c).inodeTable 0 = 9 :=
  ⟨rfl, rfl⟩

theorem inodeBlock_inodeIo (c : UInt8) {x : ℕ} (hx : 1 ≤ x) (hx' : x ≤ 32) :
    (inodeIo c).inodeBlock sampleSuper x = 9 + (x - 1) / 8 ∧
      sampleSuper.inodeOffset x = (x - 1) % 8 * 128 := by
  have hgroup : sampleSuper.groupNo x = 0 := by
    simp only [groupNo, sampleSuper]
    omega
  have hindex : sampleSuper.inodeIndex x = x - 1 := by
    simp only [inodeIndex, sampleSuper]
    omega
  have htable : (inodeIo c).inodeBlock sampleSuper x = (9 + (x - 1) / 8) % 2 ^ 32 := by
    unfold inodeBlock
    rw [hgroup, hindex]
    rfl
  refine ⟨by omega, ?_⟩
  unfold inodeOffset
  rw [hindex]
  rfl

theorem inodeImage_inodeIo (c : UInt8) : (inodeIo c).InodeImage sampleSuper 32 := by
  have hgroups : sampleSuper.groups = 1 := by decide
  have hbm : ∀ g < sampleSuper.groups, (inodeIo c).inodeBitmap g = 4 := by
    intro g hg
    obtain rfl : g = 0 := by omega
    rfl
  refine ⟨by decide, by decide, by decide, fun g hg g' hg' _ => by omega, fun g hg => ?_,
    fun g hg x hx hx' => ?_, fun g hg => ?_⟩
  · rw [hbm g hg]
    decide
  · rw [hbm g hg, (inodeBlock_inodeIo c hx hx').1]
    omega
  · obtain rfl : g = 0 := by omega
    rw [(inodeIo_desc c).2]
    decide

/-- The first inode of the group gets its own record. -/
theorem ialloc_place_first : ∃ s', ext2fsIalloc sampleSuper .dir (inodeIo 0) = .ok (1, s') ∧
    OnePlace (inodeIo 0) s' sampleSuper .dir 32 1 := by
  obtain ⟨inum, s', hr, hinum⟩ := exists_of_returns
    (show Program.returns (ext2fsIalloc sampleSuper .dir) (inodeIo 0)
      (fun inum _ => inum == 1) = true by decide +kernel)
  obtain rfl : inum = 1 := by simpa using hinum
  refine ⟨s', hr, (ialloc_place (inodeIo 0) s' sampleSuper .dir 32 1 (coherent_binit _ _)
    (inodeImage_inodeIo 0) rfl (by decide) hr (by decide)).1.2 fun g a j hch => ?_⟩
  have hscan : (inodeIo 0).inodeScan sampleSuper 0 = some (0, 0) := by decide +kernel
  obtain ⟨rfl, rfl, rfl⟩ := hch.unique ⟨Nat.zero_le _, by simp, hscan⟩
  refine ⟨.inl ⟨rfl, rfl⟩, fun x hx hx' hne k hk hc => ?_⟩
  -- the next record is covered, by zeros that are there already
  obtain ⟨hblock, hoff⟩ := inodeBlock_inodeIo 0 hx hx'
  obtain ⟨hsame, -, -⟩ := hc
  have hnine : (x - 1) / 8 = 0 := by
    have : (inodeIo 0).newBlock 0 (0 * 8 + 0) = 9 := rfl
    omega
  rw [newInode_of_le (by rw [hoff, show newOffset (0 * 8 + 0) = 0 from rfl]; omega)]
  unfold recordByte Block.byte
  rw [hblock, hnine]
  split_ifs <;> rfl

/-- **Inode 9 is returned, and the record of inode 10 gets its type.** -/
theorem ialloc_stamps_other : (inodeIo 255).Coherent [] ∅ ∧
    (inodeIo 255).InodeImage sampleSuper 32 ∧ sampleSuper.sInodeSize = 128 ∧
    ∃ s', ext2fsIalloc sampleSuper .dir (inodeIo 255) = .ok (9, s') ∧
      s'.recordByte sampleSuper 9 1 ≠ newInode .dir 1 ∧
      s'.recordByte sampleSuper 10 5 ≠ (inodeIo 255).recordByte sampleSuper 10 5 ∧
      ¬OnePlace (inodeIo 255) s' sampleSuper .dir 32 9 := by
  obtain ⟨inum, s', hr, hbytes⟩ := exists_of_returns
    (show Program.returns (ext2fsIalloc sampleSuper .dir) (inodeIo 255)
      (fun inum s' => inum == 9 && s'.recordByte sampleSuper 9 1 == 0 &&
        s'.recordByte sampleSuper 10 5 == 64) = true by decide +kernel)
  simp only [Bool.and_eq_true, beq_iff_eq] at hbytes
  obtain ⟨⟨rfl, hnine⟩, hten⟩ := hbytes
  refine ⟨coherent_binit _ _, inodeImage_inodeIo 255, rfl, s', hr, ?_, ?_, fun hplace => ?_⟩
  · rw [hnine]
    decide
  · rw [hten]
    decide +kernel
  · have hmode := hplace.1 1 (by decide)
    rw [hnine] at hmode
    exact absurd hmode (by decide)

/-! ### The bit of the inode -/

/-- The bit of inode `inum`, as `ext2fs_ifree` locates it, was clear and is the only one that has
been set in an inode bitmap; the inode exists; and `ext2fs_ifree` returns and restores the
bitmaps. -/
structure Agrees (s s' : Io) (sb : Super) (count inum : ℕ) : Prop where
  le : inum ≤ count
  clear : (s.disk (s.inodeBitmap (sb.groupNo inum))).bit (sb.inodeIndex inum) = false
  only : ∀ g < sb.groups, ∀ k, (s'.disk (s.inodeBitmap g)).bit k =
    ((s.disk (s.inodeBitmap g)).bit k || decide (g = sb.groupNo inum ∧ k = sb.inodeIndex inum))
  restores : ∀ ip : InCore, ip.inum = inum → ∃ s₂, ext2fsIfree sb ip s' = .ok ((), s₂) ∧
    ∀ g < sb.groups, s₂.disk (s.inodeBitmap g) = s.disk (s.inodeBitmap g)

/-- The bit of `i_mode` that is set in the record of a new inode, counted from the start of the
record. -/
def modeBit : InodeType → Option ℕ
  | .none => none
  | .dir => some 14
  | .file => some 15

/-- The scan has left the bitmap of group `g`, which is full, and the record that is then stored
hits the bitmap of the group of `inum`: where there were only zeros, its mode sets the very bit of
`inum`. -/
structure StampHits (s : Io) (sb : Super) (type : InodeType) (count inum g a j : ℕ) : Prop where
  past : BSIZE ≤ a
  le : inum ≤ count
  block : s.newBlock g (a * 8 + j) = s.inodeBitmap (sb.groupNo inum)
  zero : ∀ k < sizeofExt2Inode,
    (s.disk (s.newBlock g (a * 8 + j))).byte (newOffset (a * 8 + j) + k) = 0
  bit : ∃ m ∈ modeBit type, sb.inodeIndex inum = newOffset (a * 8 + j) * 8 + m

theorem testBit_newInode (type : InodeType) {k t : ℕ} (ht : t < 8) :
    (newInode type k).toNat.testBit t = decide (k * 8 + t ∈ modeBit type) := by
  have hall : ∀ k < 2, ∀ t < 8, ∀ type : InodeType, (newInode type k).toNat.testBit t =
      decide (k * 8 + t ∈ modeBit type) := by
    intro k hk t ht type
    cases type <;> revert k t <;> decide
  rcases Nat.lt_or_ge k 2 with hk | hk
  · exact hall k hk t ht type
  · rw [newInode_of_le hk]
    cases type with
    | none => simp [modeBit]
    | dir => simp [modeBit, show 14 ≠ k * 8 + t by omega]
    | file => simp [modeBit, show 15 ≠ k * 8 + t by omega]

theorem bit_stamp {d : Block} {o : ℕ} (ho : o + sizeofExt2Inode ≤ BSIZE) (k : ℕ) :
    (stamp type d o).bit k =
      if o * 8 ≤ k ∧ k < o * 8 + sizeofExt2Inode * 8 then decide (k - o * 8 ∈ modeBit type)
      else d.bit k := by
  unfold Block.bit stamp
  rw [Block.byte_memmove _ ho]
  by_cases hk : o ≤ k / 8 ∧ k / 8 < o + sizeofExt2Inode
  · rw [if_pos hk, if_pos (by omega), testBit_newInode type (mod_lt k (by decide)),
      show (k / 8 - o) * 8 + k % 8 = k - o * 8 by omega]
  · rw [if_neg hk, if_neg (by omega)]

theorem Ialloced.disk_past (hdone : Ialloced s s' sb type g a j) (ha : BSIZE ≤ a) :
    s'.disk = update s.disk (s.newBlock g (a * 8 + j))
      (stamp type (s.disk (s.newBlock g (a * 8 + j))) (newOffset (a * 8 + j))) := by
  have hmark : markBit (s.disk (s.inodeBitmap g)) a j = s.disk (s.inodeBitmap g) :=
    if_neg (by omega)
  have hsame : update s.disk (s.newBlock g (a * 8 + j))
      (stamp type (s.disk (s.newBlock g (a * 8 + j))) (newOffset (a * 8 + j)))
      (s.inodeBitmap g) = s.disk (s.inodeBitmap g) := update_of_ne hdone.ne _ _
  rw [hdone.disk, hmark]
  exact Function.update_eq_self_iff.2 hsame.symm

section Bits

variable {count : ℕ} (himg : s.InodeImage sb count) (hdone : Ialloced s s' sb type g a j)
  (hch : s.Chosen sb g a j)
  (hinum : inum = (g * sb.sInodesPerGroup + (a * 8 + j) + 1) % 2 ^ 32)
include himg hdone hch hinum

theorem Agrees.past (h : Agrees s s' sb count inum) : BSIZE ≤ a := by
  by_contra hin
  have ha : a < BSIZE := by omega
  have hj := (hch.lt himg).2
  have hg := (hch.group_lt himg hinum h.le).1
  obtain ⟨-, hgroup, hindex⟩ := hch.inum_eq himg hinum
  have hclear : (s.disk (s.inodeBitmap g)).bit (a * 8 + (7 - j)) = false := by
    obtain ⟨-, -, htest⟩ := firstClear_spec hdone.scan
    have hdiv : (a * 8 + (7 - j)) / 8 = a := by omega
    have hmod : (a * 8 + (7 - j)) % 8 = 7 - j := by omega
    unfold Block.bit
    rw [hdiv, hmod]
    rwa [blockByte, if_pos (by omega), Int.toNat_natCast] at htest
  have hset := h.only g hg (a * 8 + (7 - j))
  rw [hdone.disk, update_self, Block.bit_markBit _ ha hj, hclear] at hset
  simp only [decide_true, Bool.or_true, Bool.false_or] at hset
  obtain ⟨hsame, hbit⟩ := of_decide_eq_true hset.symm
  -- the inode is in the group whose bitmap was scanned, so its index is the position of the bit
  have hquot : (a * 8 + j) / sb.sInodesPerGroup = 0 := by
    rw [← hsame] at hgroup
    exact Nat.left_eq_add.1 hgroup
  rw [hindex, mod_eq_of_lt ((div_eq_zero_iff_lt himg.perGroup_pos).1 hquot)] at hbit
  omega

theorem Agrees.stampHits (h : Agrees s s' sb count inum) :
    s.StampHits sb type count inum g a j := by
  have ha := h.past himg hdone hch hinum
  have hdisk := hdone.disk_past ha
  have hgroup := (hch.group_lt himg hinum h.le).2
  have hset := h.only _ hgroup (sb.inodeIndex inum)
  rw [h.clear] at hset
  simp only [and_self, decide_true, Bool.false_or] at hset
  have hblock : s.newBlock g (a * 8 + j) = s.inodeBitmap (sb.groupNo inum) := by
    by_contra hne
    rw [hdisk, update_of_ne (Ne.symm hne), h.clear] at hset
    cases hset
  have hbits : ∀ k, (s'.disk (s.inodeBitmap (sb.groupNo inum))).bit k =
      if newOffset (a * 8 + j) * 8 ≤ k ∧ k < newOffset (a * 8 + j) * 8 + sizeofExt2Inode * 8 then
        decide (k - newOffset (a * 8 + j) * 8 ∈ modeBit type)
      else (s.disk (s.inodeBitmap (sb.groupNo inum))).bit k := by
    intro k
    rw [hdisk, ← hblock, update_self, bit_stamp (newOffset_le _)]
  rw [hbits] at hset
  split_ifs at hset with hin
  · have hmode := of_decide_eq_true hset
    refine ⟨ha, h.le, hblock, fun k hk => ?_,
      ⟨sb.inodeIndex inum - newOffset (a * 8 + j) * 8, hmode, by omega⟩⟩
    -- any other bit set in the record would have been cleared
    refine UInt8.toNat_inj.1 (eq_of_testBit_eq fun t => ?_)
    rw [UInt8.toNat_zero, zero_testBit]
    rcases Nat.lt_or_ge t 8 with ht | ht
    · have hother := h.only _ hgroup ((newOffset (a * 8 + j) + k) * 8 + t)
      rw [hbits, if_pos (by omega)] at hother
      have hbyte : (s.disk (s.inodeBitmap (sb.groupNo inum))).bit
          ((newOffset (a * 8 + j) + k) * 8 + t) =
          ((s.disk (s.newBlock g (a * 8 + j))).byte
            (newOffset (a * 8 + j) + k)).toNat.testBit t := by
        have hdiv : ((newOffset (a * 8 + j) + k) * 8 + t) / 8 = newOffset (a * 8 + j) + k := by
          omega
        have hmod : ((newOffset (a * 8 + j) + k) * 8 + t) % 8 = t := by omega
        unfold Block.bit
        rw [hdiv, hmod, hblock]
      by_contra htrue
      rw [Bool.not_eq_false] at htrue
      rw [hbyte, htrue, Bool.true_or] at hother
      have hsame := Option.mem_unique (of_decide_eq_true hother) hmode
      have hpos : (newOffset (a * 8 + j) + k) * 8 + t = sb.inodeIndex inum := by omega
      rw [← hbyte, hpos, h.clear] at htrue
      cases htrue
    · exact testBit_byte_of_le _ ht
  · rw [h.clear] at hset
    cases hset

/-- The mode of the record sets the bit of the inode, and nothing else changes. -/
theorem StampHits.bit_eq (h : s.StampHits sb type count inum g a j) {g' : ℕ} (hg' : g' < sb.groups)
    (k : ℕ) : (s.disk (s.inodeBitmap (sb.groupNo inum))).bit (sb.inodeIndex inum) = false ∧
      (s'.disk (s.inodeBitmap g')).bit k = ((s.disk (s.inodeBitmap g')).bit k ||
        decide (g' = sb.groupNo inum ∧ k = sb.inodeIndex inum)) := by
  have hgroup := (hch.group_lt himg hinum h.le).2
  obtain ⟨m, hm, hindex⟩ := h.bit
  have hmode : m < sizeofExt2Inode * 8 := by
    have hle : ∀ type : InodeType, ∀ m ∈ modeBit type, m < sizeofExt2Inode * 8 := by
      intro type
      cases type <;> decide
    exact hle type m hm
  -- the record lies in zeros
  have hzero : ∀ k, newOffset (a * 8 + j) * 8 ≤ k ∧
      k < newOffset (a * 8 + j) * 8 + sizeofExt2Inode * 8 →
      (s.disk (s.inodeBitmap (sb.groupNo inum))).bit k = false := by
    intro k hk
    have hbyte := h.zero (k / 8 - newOffset (a * 8 + j)) (by omega)
    rw [show newOffset (a * 8 + j) + (k / 8 - newOffset (a * 8 + j)) = k / 8 by omega] at hbyte
    unfold Block.bit
    rw [← h.block, hbyte, UInt8.toNat_zero, zero_testBit]
  refine ⟨hzero _ (by omega), ?_⟩
  rw [hdone.disk_past h.past]
  by_cases hsame : g' = sb.groupNo inum
  · subst hsame
    rw [← h.block, update_self, bit_stamp (newOffset_le _), h.block]
    split_ifs with hk
    · rw [hzero k hk, Bool.false_or, decide_eq_decide]
      constructor
      · intro hk'
        have := Option.mem_unique hk' hm
        omega
      · rintro ⟨-, hk'⟩
        rw [hk', hindex, Nat.add_sub_cancel_left]
        exact hm
    · have hne : k ≠ sb.inodeIndex inum := by omega
      simp [hne]
  · have hne : s.inodeBitmap g' ≠ s.newBlock g (a * 8 + j) := by
      rw [h.block]
      exact fun he => hsame (himg.bitmap_inj g' hg' _ hgroup he)
    rw [update_of_ne hne]
    simp [hsame]

end Bits

/-- `ext2fs_ifree` of an inode whose bit is set. -/
theorem Coherent.ifree_runs (h : s.Coherent [] ∅) {ip : InCore} {k : ℕ}
    (hindex : sb.inodeIndex ip.inum = k) (hk : k < 8 * BSIZE)
    (hset : (s.disk (s.inodeBitmap (sb.groupNo ip.inum))).bit k = true) :
    ∃ s', ext2fsIfree sb ip s = .ok ((), s') ∧
      s'.disk = update s.disk (s.inodeBitmap (sb.groupNo ip.inum))
        (unmarkBit (s.disk (s.inodeBitmap (sb.groupNo ip.inum))) (k / 8) (k % 8)) := by
  obtain ⟨bp1, s1, h1, hc1, hd1, ho1, -⟩ := h.bread_first 2
  have hload : load bp1 (sb.groupNo ip.inum * groupDescWords + bgInodeBitmap) s1 =
      .ok (s.inodeBitmap (sb.groupNo ip.inum), s1) := h.load_of_bread h1 _
  obtain ⟨s₂, h2, hc2, hd2, ho2, -⟩ := hc1.brelse_head
  have hdisk : s₂.disk = s.disk := hd2.trans hd1
  have hint : toInt32 (sb.inodeIndex ip.inum) = (k : ℤ) := by
    simp only [BSIZE] at hk
    rw [hindex, toInt32_of_fits (by omega)]
  have hbyte : (k : ℤ).tdiv 8 = (k / 8 : ℕ) := rfl
  have hmask : maskBit (k : ℤ) = k % 8 := by
    unfold maskBit
    omega
  have hin : (0 : ℤ) ≤ (k / 8 : ℕ) ∧ ((k / 8 : ℕ) : ℤ) < BSIZE := by omega
  have hbit : (s₂.blockByte (s.inodeBitmap (sb.groupNo ip.inum)) ((k : ℤ).tdiv 8)).toNat.testBit
      (maskBit k) = true := by
    rw [hbyte, hmask]
    unfold blockByte
    rw [if_pos hin, hdisk, Int.toNat_natCast]
    exact hset
  obtain ⟨s3, h3, -, hd3, -⟩ := hc2.clear_ok k "ext2fs_ifree: inode already free" (by decide)
    (by simp) hbit
  refine ⟨s3, ?_, ?_⟩
  · have hend := h3 (pure ())
    simp only [bind_pure_unit] at hend
    unfold ext2fsIfree
    rw [bind_ok h1, bind_ok hload, bind_ok h2, hint]
    exact hend
  · rw [hd3, hbyte, hmask, if_pos hin, Int.toNat_natCast, hdisk]

/-- **The bit of a new inode.**  On an image with its inode bitmaps apart, the bit of an inode that
`ext2fs_ialloc` returns is the one that it has set, and `ext2fs_ifree` can restore the bitmaps, only
in one case: the bit was not found inside a bitmap, and the record of the inode was stored into the
bitmap where `ext2fs_ifree` looks, just so that its mode sets that bit. -/
theorem ialloc_ifree (s s' : Io) (sb : Super) (type : InodeType) (count inum : ℕ)
    (h : s.Coherent [] ∅) (himg : s.InodeImage sb count)
    (hr : ext2fsIalloc sb type s = .ok (inum, s')) :
    Agrees s s' sb count inum ↔
      ∀ g a j, s.Chosen sb g a j → s.StampHits sb type count inum g a j := by
  obtain ⟨g, a, j, hch, hinum, hdone⟩ := h.ialloc_ok hr
  constructor
  · intro hagree g' a' j' hch'
    obtain ⟨rfl, rfl, rfl⟩ := hch.unique hch'
    exact hagree.stampHits himg hdone hch hinum
  · intro hall
    have hhits := hall g a j hch
    have hbits := fun {g' : ℕ} (hg' : g' < sb.groups) => hhits.bit_eq himg hdone hch hinum hg'
    obtain ⟨hg, hgroup⟩ := hch.group_lt himg hinum hhits.le
    refine ⟨hhits.le, (hbits hgroup 0).1, fun g' hg' k => (hbits hg' k).2, fun ip hip => ?_⟩
    have hbm : s'.inodeBitmap (sb.groupNo ip.inum) = s.inodeBitmap (sb.groupNo inum) := by
      unfold inodeBitmap
      rw [hdone.desc himg hch hg, hip]
    have hset : (s'.disk (s'.inodeBitmap (sb.groupNo ip.inum))).bit (sb.inodeIndex inum) =
        true := by
      rw [hbm, (hbits hgroup _).2]
      simp
    have hlt : sb.inodeIndex inum < 8 * BSIZE := by
      by_contra hge
      have hbyte : (s'.disk (s'.inodeBitmap (sb.groupNo ip.inum))).byte
          (sb.inodeIndex inum / 8) = 0 := dif_neg (by omega)
      unfold Block.bit at hset
      rw [hbyte, UInt8.toNat_zero, zero_testBit] at hset
      cases hset
    obtain ⟨s₂, hrun, hd2⟩ := hdone.coherent.ifree_runs (by rw [hip]) hlt hset
    refine ⟨s₂, hrun, fun g' hg' => Block.ext_bit fun k _ => ?_⟩
    rw [hd2, hbm]
    rw [hbm] at hset
    by_cases hsame : g' = sb.groupNo inum
    · subst hsame
      rw [update_self, Block.bit_unmarkBit (by omega) hset, (hbits hgroup k).2,
        show sb.inodeIndex inum / 8 * 8 + sb.inodeIndex inum % 8 = sb.inodeIndex inum by omega]
      by_cases hk : k = sb.inodeIndex inum
      · rw [hk, (hbits hgroup 0).1]
        simp
      · simp [hk]
    · have hne : s.inodeBitmap g' ≠ s.inodeBitmap (sb.groupNo inum) :=
        fun he => hsame (himg.bitmap_inj g' hg' _ hgroup he)
      rw [update_of_ne hne, (hbits hg' k).2]
      simp [hsame]

/-- An image with two groups of 6066 inodes.  The inode bitmap of the first one, block 4, is full;
that of the second one is block 1179, which the code takes for part of the first inode table. -/
def hitSuper : Super := ⟨10000, 1, 8192, 6066, 128⟩

@[inherit_doc hitSuper]
def hitIo : Io :=
  ⟨Bcache.binit, fun n j =>
    if n = 2 then
      if j.val = 4 then 4 else if j.val = 8 then 9
      else if j.val = 36 then 0x9b else if j.val = 37 then 4 else if j.val = 41 then 8 else 0
    else if n = 4 then 255 else 0, fun _ _ => 0⟩

theorem inodeImage_hitIo : hitIo.InodeImage hitSuper 12132 := by
  have hgroups : hitSuper.groups = 2 := by decide
  have hdesc : ∀ g < hitSuper.groups, g = 0 ∧ hitIo.inodeBitmap g = 4 ∧ hitIo.inodeTable g = 9 ∨
      g = 1 ∧ hitIo.inodeBitmap g = 1179 ∧ hitIo.inodeTable g = 2048 := by
    intro g hg
    rcases (by omega : g = 0 ∨ g = 1) with rfl | rfl
    · exact .inl ⟨rfl, rfl, rfl⟩
    · exact .inr ⟨rfl, rfl, rfl⟩
  refine ⟨by decide, by decide, by decide, fun g hg g' hg' he => ?_, fun g hg => ?_,
    fun g hg x hx hx' => ?_, fun g hg => ?_⟩
  · have := hdesc g hg
    have := hdesc g' hg'
    omega
  · have := hdesc g hg
    omega
  · have hx1 : (x + (2 ^ 32 - 1)) % 2 ^ 32 = x - 1 := by omega
    have hblock : hitIo.inodeBlock hitSuper x =
        (hitIo.inodeTable ((x - 1) / 6066) + (x - 1) % 6066 / 8) % 2 ^ 32 := by
      unfold inodeBlock inodeTable groupNo inodeIndex
      rw [hx1]
      rfl
    have := hdesc g hg
    have := hdesc ((x - 1) / 6066) (by omega)
    rw [hblock]
    omega
  · have := hdesc g hg
    simp only [hitSuper]
    omega

/-- The one case: directory 8193 gets its bit from its own record. -/
theorem ialloc_ifree_hit : ∃ s', ext2fsIalloc hitSuper .dir hitIo = .ok (8193, s') ∧
    Agrees hitIo s' hitSuper 12132 8193 := by
  obtain ⟨inum, s', hr, hinum⟩ := exists_of_returns
    (show Program.returns (ext2fsIalloc hitSuper .dir) hitIo (fun inum _ => inum == 8193) = true by
      decide +kernel)
  obtain rfl : inum = 8193 := by simpa using hinum
  refine ⟨s', hr, (ialloc_ifree hitIo s' hitSuper .dir 12132 8193 (coherent_binit _ _)
    inodeImage_hitIo hr).2 fun g a j hch => ?_⟩
  have hscan : hitIo.inodeScan hitSuper 0 = some (1024, 0) := by decide +kernel
  obtain ⟨rfl, rfl, rfl⟩ := hch.unique ⟨Nat.zero_le _, by simp, hscan⟩
  refine ⟨by decide, by decide, rfl, fun k hk => ?_, ⟨14, rfl, rfl⟩⟩
  have hblock : hitIo.newBlock 0 (1024 * 8 + 0) = 1179 := rfl
  unfold Block.byte
  rw [hblock]
  split_ifs <;> rfl

/-- **Inode 1 is returned, with bit 7 of the bitmap set for it; `ext2fs_ifree` finds
bit 0 clear.** -/
theorem ialloc_sets_other_bit : (inodeIo 0).Coherent [] ∅ ∧
    (inodeIo 0).InodeImage sampleSuper 32 ∧
    ∃ s', ext2fsIalloc sampleSuper .dir (inodeIo 0) = .ok (1, s') ∧
      (s'.disk 4).bit 7 = true ∧ (s'.disk 4).bit 0 = false ∧
      ext2fsIfree sampleSuper ⟨1, .dir, 0, 1, true, 0, fun _ => 0⟩ s' =
        .error (.panic "ext2fs_ifree: inode already free") ∧
      ¬Agrees (inodeIo 0) s' sampleSuper 32 1 := by
  obtain ⟨inum, s', hr, hbits⟩ := exists_of_returns
    (show Program.returns (ext2fsIalloc sampleSuper .dir) (inodeIo 0) (fun inum s' => inum == 1 &&
      (s'.disk 4).bit 7 && !(s'.disk 4).bit 0 &&
      match ext2fsIfree sampleSuper ⟨1, .dir, 0, 1, true, 0, fun _ => 0⟩ s' with
      | .error e => decide (e = .panic "ext2fs_ifree: inode already free")
      | .ok _ => false) = true by decide +kernel)
  simp only [Bool.and_eq_true, beq_iff_eq, Bool.not_eq_true'] at hbits
  obtain ⟨⟨⟨rfl, hset⟩, hclear⟩, hfree⟩ := hbits
  cases hrun : ext2fsIfree sampleSuper ⟨1, .dir, 0, 1, true, 0, fun _ => 0⟩ s' with
  | ok r =>
    rw [hrun] at hfree
    cases hfree
  | error e =>
    rw [hrun] at hfree
    refine ⟨coherent_binit _ _, inodeImage_inodeIo 0, s', hr, hset, hclear, ?_, fun hagree => ?_⟩
    · rw [hrun, of_decide_eq_true hfree]
    · obtain ⟨s₂, hok, -⟩ := hagree.restores ⟨1, .dir, 0, 1, true, 0, fun _ => 0⟩ rfl
      rw [hrun] at hok
      cases hok

end Io

end Cinux
