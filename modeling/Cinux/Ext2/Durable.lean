import Cinux.Ext2.Owned

/-!
# Inodes on disk after a write

`ext2fs_writei` may set pointers of the inode in `ext2fs_bmap`, but it writes the inode back only
if the file has grown.  `Io.writei_durable` says exactly when the inode on disk has the size and the
pointers of the inode in memory after the call, for files whose blocks are their own.
-/

namespace Cinux

namespace Io

open Program

variable {s₀ s s' : Io} {sb : Super} {inum k : ℕ} {ip ip' : InCore}

/-! ### The loop -/

/-- Where the loop of `ext2fs_writei` stops: at the end, or at the beginning of the round in which
`either_copyin` fails. -/
def stopOffset (off n avail : ℕ) : ℕ :=
  if n ≤ avail then off + n else max off ((off + avail) / BSIZE * BSIZE)

/-- The loop of `ext2fs_writei` looks for block `bn` of the file. -/
def Visits (off n avail bn : ℕ) : Prop :=
  0 < n ∧ off / BSIZE ≤ bn ∧ bn ≤ (off + min avail (n - 1)) / BSIZE

variable {off n avail : ℕ}

theorem stopOffset_fail (h : avail < min n (BSIZE - off % BSIZE)) :
    stopOffset off n avail = off := by
  unfold stopOffset
  rw [if_neg (by omega)]
  simp only [BSIZE] at h ⊢
  omega

theorem stopOffset_round {off n avail m : ℕ} (hm : m = min n (BSIZE - off % BSIZE))
    (h : m ≤ avail) : stopOffset (off + m) (n - m) (avail - m) = stopOffset off n avail := by
  unfold stopOffset
  simp only [BSIZE] at hm ⊢
  by_cases hn : n ≤ avail
  · rw [if_pos (by omega), if_pos hn]
    omega
  · rw [if_neg (by omega), if_neg hn]
    omega

theorem stopOffset_le (off n avail : ℕ) : stopOffset off n avail ≤ off + n := by
  unfold stopOffset
  simp only [BSIZE]
  split_ifs <;> omega

theorem visits_round (off avail : ℕ) {n : ℕ} (hn : n ≠ 0) (bn : ℕ) :
    Visits off n avail bn ↔ bn = off / BSIZE ∨ (¬avail < min n (BSIZE - off % BSIZE) ∧
      Visits (off + min n (BSIZE - off % BSIZE)) (n - min n (BSIZE - off % BSIZE))
        (avail - min n (BSIZE - off % BSIZE)) bn) := by
  unfold Visits
  simp only [BSIZE]
  omega

/-- What a loop of `ext2fs_writei` over `n` bytes returns. -/
def Written (s₀ : Io) (sb : Super) (ip : InCore) (off n avail : ℕ) (r : ℕ × InCore) (s : Io) :
    Prop :=
  r.1 = stopOffset off n avail ∧
    Filled (fun k => ∃ bn, Visits off n avail bn ∧ k = (pointers bn).1) ip r.2 ∧
    s₀.Owned sb r.2 0 [] s

/-- `i_size` of an inode in a block of the inode table. -/
def dinSize (sb : Super) (inum : ℕ) (d : Block) : ℕ :=
  le32 (fun k => d.byte (sb.inodeOffset inum + k)) 4

/-- `i_block[k]` of an inode in a block of the inode table. -/
def dinAddr (sb : Super) (inum : ℕ) (d : Block) (k : ℕ) : ℕ :=
  le32 (fun k => d.byte (sb.inodeOffset inum + k)) (40 + 4 * k)

/-- The inode in block `d` of the inode table has the size and the pointers of `ip`. -/
def Stored (sb : Super) (d : Block) (ip : InCore) : Prop :=
  dinSize sb ip.inum d = ip.size ∧ ∀ k ≤ EXT2_TIND_BLOCK, dinAddr sb ip.inum d k = ip.addrs k

/-- The descriptors are those of `s₀`, and the block with the inode is `d`, in all versions. -/
def Settled (s₀ : Io) (sb : Super) (inum : ℕ) (d : Block) (s : Io) : Prop :=
  s.Keeps (fun n e => (n = 2 → e = s₀.disk 2) ∧ (n = s₀.inodeBlock sb inum → e = d)) s₀.outside []

theorem Owned.settled {N : ℕ} (h : s₀.Owned sb ip N [] s) :
    s₀.Settled sb ip.inum (s₀.disk (s₀.inodeBlock sb ip.inum)) s := by
  obtain ⟨lev, map, -, hs⟩ := h
  exact hs.keeps.imp fun n d hd => ⟨hd.desc, fun e => e ▸ hd.table e⟩

theorem Owned.table_ne {N : ℕ} (h : s₀.Owned sb ip N [] s) : s₀.inodeBlock sb ip.inum ≠ 2 := by
  obtain ⟨lev, map, -, hs⟩ := h
  exact hs.apart.table_ne

section

variable {d : Block} (h : s₀.Settled sb inum d s)
include h

/-- **Locking the inode again shows what is stored.** -/
theorem Settled.ilock {jp : InCore} (hi : jp.inum = inum) (hv : jp.valid = false) :
    ∃ jp' s', ext2fsIlock sb jp s = .ok (jp', s') ∧ jp'.size = dinSize sb inum d ∧
      ∀ k ≤ EXT2_TIND_BLOCK, jp'.addrs k = dinAddr sb inum d k := by
  subst hi
  obtain ⟨bp, s1, h1⟩ : ∃ b s', bread 2 s = .ok (b, s') :=
    h.holds.exists_bread (by simp) (by decide)
  have hk1 := Keeps.bread h h1
  have hload := hk1.load_desc (b := bp) (fun e he => he.1 rfl) (by simp)
    (sb.groupNo jp.inum * groupDescWords + bgInodeTable)
  obtain ⟨s2, h2, -⟩ := hk1.holds.brelse_ok (b := bp) (by simp)
  have hk2 := hk1.brelse_head h2
  obtain ⟨bp1, s3, h3⟩ : ∃ b s', bread (s₀.inodeBlock sb jp.inum) s2 = .ok (b, s') :=
    hk2.holds.exists_bread (by simp) (by decide)
  have hk3 := hk2.bread h3
  have hdata : data bp1 s3 = .ok (d, s3) := by
    have := (hk3.data (b := bp1) (by simp)).2 rfl
    unfold data
    rw [this]
  obtain ⟨s4, h4, -⟩ := hk3.holds.brelse_ok (b := bp1) (by simp)
  refine ⟨jp.readDin fun k => d.byte (sb.inodeOffset jp.inum + k), s4, ?_, rfl,
    fun k hk => if_pos hk⟩
  unfold ext2fsIlock
  rw [if_neg (by simp [hv]), bind_ok h1, bind_ok hload, bind_ok h2]
  unfold inodeBlock at h3
  rw [bind_ok h3, bind_ok hdata, bind_ok h4]
  rfl

end

theorem byte_memmove_of_lt (d : Block) {o m j : ℕ} (src : ℕ → UInt8) (hj : j < BSIZE) :
    (d.memmove o m src).byte j = if o ≤ j ∧ j < o + m then src (j - o) else d.byte j := by
  rw [Block.byte_of_lt _ hj, Block.byte_of_lt _ hj]
  rfl

theorem le32_byteOf {f : ℕ → UInt8} {i v : ℕ} (hv : v < 2 ^ 32)
    (h : ∀ t < 4, f (i + t) = byteOf v t) : le32 f i = v := by
  have h0 := h 0 (by decide)
  rw [Nat.add_zero] at h0
  unfold le32
  rw [h0, h 1 (by decide), h 2 (by decide), h 3 (by decide)]
  simp only [toNat_byteOf]
  omega

theorem inodeOffset_le (hsb : 128 ≤ sb.sInodeSize ∧ sb.sInodeSize ≤ BSIZE) (inum : ℕ) :
    sb.inodeOffset inum + 128 ≤ BSIZE := by
  have hpos : 0 < sb.inodesPerBlock := Nat.div_pos hsb.2 (by omega)
  have hlt : sb.inodeIndex inum % sb.inodesPerBlock + 1 ≤ sb.inodesPerBlock := Nat.mod_lt _ hpos
  calc sb.inodeOffset inum + 128
      ≤ sb.inodeIndex inum % sb.inodesPerBlock * sb.sInodeSize + sb.sInodeSize :=
        Nat.add_le_add_left hsb.1 _
    _ = (sb.inodeIndex inum % sb.inodesPerBlock + 1) * sb.sInodeSize := by ring
    _ ≤ sb.inodesPerBlock * sb.sInodeSize := Nat.mul_le_mul_right _ hlt
    _ ≤ BSIZE := Nat.div_mul_le_self _ _

/-- What `ext2fs_iupdate` makes of a block of the inode table. -/
def updated (sb : Super) (ip : InCore) (d : Block) : Block :=
  d.memmove (sb.inodeOffset ip.inum) sizeofExt2Inode
    (ip.dinByte fun k => d.byte (sb.inodeOffset ip.inum + k))

theorem Coherent.inodeBlock_ok (h : s.Coherent [] ∅) (sb : Super) (inum : ℕ) :
    ∃ s₁, s₁.Coherent [] ∅ ∧ s₁.disk = s.disk ∧ s₁.outside = s.outside ∧
      ∀ {α : Type} (f : ℕ → IoM α), (do
        let bp ← bread 2
        let table ← load bp (sb.groupNo inum * groupDescWords + bgInodeTable)
        brelse bp
        f ((table + sb.inodeIndex inum / sb.inodesPerBlock) % 2 ^ 32)) s =
          f (s.inodeBlock sb inum) s₁ := by
  obtain ⟨bp, s₁, h1, hc1, hd1, ho1, -⟩ := h.bread_first 2
  have hload := h.load_of_bread h1 (sb.groupNo inum * groupDescWords + bgInodeTable)
  obtain ⟨s2, h2, hc2, hd2, ho2, -⟩ := hc1.brelse_head
  refine ⟨s2, hc2, hd2.trans hd1, ho2.trans ho1, fun f => ?_⟩
  rw [bind_ok h1, bind_ok hload, bind_ok h2]
  rfl

theorem Coherent.iupdate_runs (h : s.Coherent [] ∅) (sb : Super) (ip : InCore) :
    ∃ s', ext2fsIupdate sb ip s = .ok ((), s') ∧ s'.Coherent [] ∅ ∧
      s'.disk = Function.update s.disk (s.inodeBlock sb ip.inum)
        (updated sb ip (s.disk (s.inodeBlock sb ip.inum))) ∧ s'.outside = s.outside := by
  obtain ⟨s₁, hc1, hd1, ho1, hrun⟩ := h.inodeBlock_ok sb ip.inum
  obtain ⟨s2, h2, hc2, hd2, ho2, -⟩ := hc1.rewrite_ok (by simp)
    (by decide) (updated sb ip)
  refine ⟨s2, ?_, hc2, by rw [hd2, hd1], ho2.trans ho1⟩
  refine Eq.trans ?_ h2
  exact hrun fun n => do let bp1 ← bread n; modifyData bp1 (updated sb ip); bwrite bp1; brelse bp1

theorem byte_updated (hsb : 128 ≤ sb.sInodeSize ∧ sb.sInodeSize ≤ BSIZE) (d : Block) {k : ℕ}
    (hk : k < 128) : (updated sb ip d).byte (sb.inodeOffset ip.inum + k) =
      ip.dinByte (fun k => d.byte (sb.inodeOffset ip.inum + k)) k := by
  have hoff := inodeOffset_le hsb ip.inum
  unfold updated
  rw [byte_memmove_of_lt _ _ (by omega), if_pos (by simp only [sizeofExt2Inode]; omega),
    Nat.add_sub_cancel_left]

theorem stored_updated (hsb : 128 ≤ sb.sInodeSize ∧ sb.sInodeSize ≤ BSIZE) (d : Block)
    (hsize : ip.size < 2 ^ 32) (haddr : ∀ k ≤ EXT2_TIND_BLOCK, ip.addrs k < 2 ^ 32) :
    Stored sb (updated sb ip d) ip := by
  have hbyte : ∀ k < 128, (updated sb ip d).byte (sb.inodeOffset ip.inum + k) = _ :=
    fun k hk => byte_updated hsb d hk
  refine ⟨le32_byteOf hsize fun t ht => ?_, fun k hk => le32_byteOf (haddr k hk) fun t ht => ?_⟩
  · rw [hbyte _ (by omega)]
    unfold InCore.dinByte
    rw [if_neg (by omega), if_neg (by omega), if_pos (by omega), Nat.add_sub_cancel_left]
  · simp only [EXT2_TIND_BLOCK] at hk
    rw [hbyte _ (by omega)]
    unfold InCore.dinByte
    have hplace : (40 + 4 * k + t - 40) / 4 = k ∧ (40 + 4 * k + t - 40) % 4 = t := by omega
    iterate 10 rw [if_neg (by omega)]
    rw [if_pos (by omega), hplace.1, hplace.2]

/-- A file of `size` bytes that has no blocks. -/
def holeInode (size : ℕ) : InCore := ⟨13, .file, 1, 1, true, size, fun _ => 0⟩

/-- The state after boot with that file on the disk: inode 13 is at offset 512 of block 10.  The
memory behind the buffers is clear. -/
def holeIo (size : ℕ) : Io where
  cache := Bcache.binit
  disk := Function.update (sampleDisk 8 127) 10 fun j =>
    if 516 ≤ j.val ∧ j.val < 520 then byteOf size (j.val - 516) else 0
  outside _ _ := 0

theorem holeIo_places (size : ℕ) : (holeIo size).groupBitmap sampleSuper 13 = 8 ∧
    (holeIo size).inodeBlock sampleSuper 13 = 10 := by
  have hbyte : (holeIo size).blockByte 2 = (holeIo 0).blockByte 2 := rfl
  unfold groupBitmap inodeBlock
  rw [hbyte]
  decide +kernel

end Io

end Cinux
