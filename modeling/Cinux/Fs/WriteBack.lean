import Cinux.Ext2.Durable
import Cinux.Fs.Creation

/-!
# Writing inodes back

`ext2fs_iupdate` stores an inode of the root device in the inode table; once the entry of the inode
cache has been used for another inode, `ext2fs_ilock` reads it again.  A `struct ext2_inode` has no
place for the device numbers, and `i_mode` is set for directories and regular files only, so devices
come back as something else (`RootInode.restored_iff`).

`sys_open` truncates with `itrunc` of `fs.c`, which does not hand over to `ext2fs_itrunc`: it works
on `ip->addrs`, where an inode of the root device has nothing, and sets the size to zero.  The
blocks stay where they are (`Kern.open_trunc_iff`).
-/

namespace Cinux

open Program

namespace Io

variable {s s' : Io} {sb : Super} {ip : InCore} {inum : ℕ}

/-! ### The two functions, with nothing in the buffers -/

theorem Coherent.ilock_runs (h : s.Coherent [] ∅) (sb : Super) (jp : InCore)
    (hv : jp.valid = false) :
    ∃ s', ext2fsIlock sb jp s = .ok (jp.readDin fun k =>
      (s.disk (s.inodeBlock sb jp.inum)).byte (sb.inodeOffset jp.inum + k), s') ∧
      s'.Coherent [] ∅ := by
  obtain ⟨s₁, hc1, hd1, -, hrun⟩ := h.inodeBlock_ok sb jp.inum
  obtain ⟨bp1, s2, h2, hc2, -, -, -, hdata⟩ := hc1.bread_first (s.inodeBlock sb jp.inum)
  have hd : data bp1 s2 = .ok (s.disk (s.inodeBlock sb jp.inum), s2) := by
    unfold data
    rw [hdata, hd1]
  obtain ⟨s3, h3, hc3, -⟩ := hc2.brelse_head
  refine ⟨s3, ?_, hc3⟩
  unfold ext2fsIlock
  rw [if_neg (by simp [hv])]
  have hread := hrun fun n => do
    let bp1 ← bread n
    let d ← data bp1
    brelse bp1
    pure (jp.readDin fun k => d.byte (sb.inodeOffset jp.inum + k))
  rw [bind_ok h2, bind_ok hd, bind_ok h3] at hread
  exact hread

end Io

/-! ### Reading an inode back -/

theorem le16_byteOf {f : ℕ → UInt8} {i v : ℕ} (hv : v < 2 ^ 16)
    (h : ∀ t < 2, f (i + t) = byteOf v t) : le16 f i = v := by
  have h0 := h 0 (by decide)
  rw [Nat.add_zero] at h0
  unfold le16
  rw [h0, h 1 (by decide)]
  simp only [toNat_byteOf]
  omega

/-- `struct inode` of an inode of the root device, with its `struct ext2fs_addrs`. -/
structure RootInode where
  inum : ℕ
  type : ℕ
  major : ℤ
  minor : ℤ
  nlink : ℤ
  size : ℕ
  addrs : ℕ → ℕ
  /-- `nlink` is a `short`; `size` and the pointers are `uint`s. -/
  nlink_short : -2 ^ 15 ≤ nlink ∧ nlink < 2 ^ 15
  size_lt : size < 2 ^ 32
  addrs_lt : ∀ k ≤ EXT2_TIND_BLOCK, addrs k < 2 ^ 32

namespace RootInode

variable {x : RootInode} {y slot : InCore} {sb : Super} {d : Block}

/-- What `ext2fs_iupdate` looks at. -/
def inCore (x : RootInode) : InCore :=
  ⟨x.inum, .ofNo x.type, x.nlink, 1, true, x.size, x.addrs⟩

/-- `ext2fs_iupdate`. -/
def iupdate (sb : Super) (x : RootInode) : IoM Unit := Io.ext2fsIupdate sb x.inCore

/-- After `ext2fs_ilock` the inode has the type, the device numbers, the links, the size and the
pointers of `x`.  (`ext2fs_ilock` sets the device numbers to zero.) -/
structure Restored (x : RootInode) (y : InCore) : Prop where
  type : y.type.no = x.type
  major : 0 = x.major
  minor : 0 = x.minor
  nlink : y.nlink = x.nlink
  size : y.size = x.size
  addrs : ∀ k ≤ EXT2_TIND_BLOCK, y.addrs k = x.addrs k

theorem readDin_type_eq (f : ℕ → UInt8) :
    (slot.readDin f).type = if le16 f 0 / 2 ^ 12 = 4 then .dir else .file := rfl

section

variable (hsb : 128 ≤ sb.sInodeSize ∧ sb.sInodeSize ≤ BSIZE)
  (hy : y = slot.readDin fun k => (Io.updated sb x.inCore d).byte (sb.inodeOffset x.inum + k))
include hsb hy

theorem readDin_nlink : y.nlink = x.nlink := by
  have hbytes : le16 (fun k => (Io.updated sb x.inCore d).byte (sb.inodeOffset x.inum + k)) 26 =
      (x.nlink % 2 ^ 16).toNat := by
    refine le16_byteOf (by omega) fun t ht => ?_
    refine (Io.byte_updated hsb d (by omega)).trans ?_
    unfold InCore.dinByte
    iterate 6 rw [if_neg (by omega)]
    rw [if_pos (by omega), Nat.add_sub_cancel_left]
    rfl
  have hread : ∀ f, (slot.readDin f).nlink = Int.bmod (le16 f 26) (2 ^ 16) := fun f => by
    simp only [InCore.readDin]
  have hshort := x.nlink_short
  rw [hy, hread, hbytes, Int.toNat_of_nonneg (by omega)]
  rw [Int.bmod_def]
  omega

theorem readDin_stored :
    y.size = x.size ∧ ∀ k ≤ EXT2_TIND_BLOCK, y.addrs k = x.addrs k := by
  obtain ⟨hsize, haddrs⟩ : Io.Stored sb (Io.updated sb x.inCore d) x.inCore :=
    Io.stored_updated hsb d x.size_lt x.addrs_lt
  rw [hy]
  exact ⟨hsize, fun k hk => (if_pos hk).trans (haddrs k hk)⟩

theorem readDin_mode {v : ℕ} (hv : v < 2 ^ 16)
    (hbyte : ∀ k < 2, ∀ old, x.inCore.dinByte old k = byteOf v k) :
    y.type = if v / 2 ^ 12 = 4 then .dir else .file := by
  have hmode : le16 (fun k => (Io.updated sb x.inCore d).byte (sb.inodeOffset x.inum + k)) 0 =
      v := by
    refine le16_byteOf hv fun t ht => ?_
    rw [Nat.zero_add]
    exact (Io.byte_updated hsb d (by omega)).trans (hbyte t ht _)
  rw [hy, readDin_type_eq, hmode]

theorem readDin_type (htype : x.type = T_DIR ∨ x.type = T_FILE ∨ x.type = T_DEVICE) :
    y.type.no = x.type ↔ x.type ≠ T_DEVICE := by
  rcases htype with ht | ht | ht
  · have hdir : y.type = .dir := readDin_mode hsb hy (v := 0x4000) (by decide) fun k hk old => by
      unfold InCore.dinByte inCore
      rw [if_pos hk, ht]
      rfl
    rw [hdir, ht]
    decide
  · have hfile : y.type = .file := readDin_mode hsb hy (v := 0x8000) (by decide) fun k hk old => by
      unfold InCore.dinByte inCore
      rw [if_pos hk, ht]
      rfl
    rw [hfile, ht]
    decide
  · -- nothing that `ext2fs_ilock` reads makes a device
    refine iff_of_false (fun hno => ?_) (not_not.2 ht)
    rw [hy, ht, readDin_type_eq] at hno
    split_ifs at hno <;> exact absurd hno (by decide)

theorem restored_readDin (htype : x.type = T_DIR ∨ x.type = T_FILE ∨ x.type = T_DEVICE) :
    x.Restored y ↔ x.type ≠ T_DEVICE ∧ x.major = 0 ∧ x.minor = 0 := by
  constructor
  · intro h
    exact ⟨(readDin_type hsb hy htype).1 h.type, h.major.symm, h.minor.symm⟩
  · rintro ⟨hdev, hmajor, hminor⟩
    obtain ⟨hsize, haddrs⟩ := readDin_stored hsb hy
    exact ⟨(readDin_type hsb hy htype).2 hdev, hmajor.symm, hminor.symm, readDin_nlink hsb hy,
      hsize, haddrs⟩

end

/-- **Writing an inode back and reading it again** restores it exactly if it is not a device and
has no device numbers.  `slot` is the entry of the inode cache that has been taken for the same
inode number, with whatever it held before. -/
theorem restored_iff (s : Io) (sb : Super) (x : RootInode) (slot : InCore) (h : s.Coherent [] ∅)
    (hsb : 128 ≤ sb.sInodeSize ∧ sb.sInodeSize ≤ BSIZE) (hne : s.inodeBlock sb x.inum ≠ 2)
    (htype : x.type = T_DIR ∨ x.type = T_FILE ∨ x.type = T_DEVICE)
    (hslot : slot.inum = x.inum ∧ slot.valid = false) :
    ∃ s₁ y s₂, x.iupdate sb s = .ok ((), s₁) ∧ Io.ext2fsIlock sb slot s₁ = .ok (y, s₂) ∧
      (x.Restored y ↔ x.type ≠ T_DEVICE ∧ x.major = 0 ∧ x.minor = 0) := by
  obtain ⟨hinum, hv⟩ := hslot
  obtain ⟨s₁, h1, hc1, hd1, ho1⟩ := h.iupdate_runs sb x.inCore
  obtain ⟨s₂, h2, -⟩ := hc1.ilock_runs sb slot hv
  have hblock : s₁.inodeBlock sb x.inum = s.inodeBlock sb x.inum :=
    Io.inodeBlock_congr (by rw [hd1]; exact Function.update_of_ne hne.symm _ _) ho1 sb x.inum
  have hdisk : s₁.disk (s.inodeBlock sb x.inum) =
      Io.updated sb x.inCore (s.disk (s.inodeBlock sb x.inum)) := by
    rw [hd1]
    exact Function.update_self _ _ _
  rw [hinum, hblock, hdisk] at h2
  exact ⟨s₁, _, s₂, h1, h2, restored_readDin hsb rfl htype⟩

/-- A directory with three links. -/
def sampleDir : RootInode :=
  ⟨2, T_DIR, 0, 0, 3, 1024, fun k => if k = 0 then 13 else 0, by decide, by decide,
    fun k _ => by split_ifs <;> decide⟩

/-- The console, as `mknod` makes it. -/
def console : RootInode :=
  ⟨12, T_DEVICE, 1, 0, 1, 0, fun _ => 0, by decide, by decide, fun _ _ => by decide⟩

/-- An entry of the inode cache that has just been taken. -/
def freshSlot (inum : ℕ) : InCore := ⟨inum, .none, 0, 1, false, 0, fun _ => 0⟩

/-- A directory comes back. -/
theorem restored_iff_dir : ∃ s₁ y s₂, sampleDir.iupdate Io.sampleSuper (Io.sampleIo 8 127) =
      .ok ((), s₁) ∧ Io.ext2fsIlock Io.sampleSuper (freshSlot 2) s₁ = .ok (y, s₂) ∧
    sampleDir.Restored y := by
  obtain ⟨s₁, y, s₂, h1, h2, hiff⟩ := restored_iff (Io.sampleIo 8 127) Io.sampleSuper sampleDir
    (freshSlot 2) (Io.coherent_binit _ _) (by decide) (by decide +kernel) (.inl rfl) ⟨rfl, rfl⟩
  exact ⟨s₁, y, s₂, h1, h2, hiff.2 ⟨by decide, rfl, rfl⟩⟩

/-- **The console comes back as a regular file.** -/
theorem console_becomes_file : ∃ s₁ y s₂, console.iupdate Io.sampleSuper (Io.sampleIo 8 127) =
      .ok ((), s₁) ∧ Io.ext2fsIlock Io.sampleSuper (freshSlot 12) s₁ = .ok (y, s₂) ∧
    y.type.no = T_FILE ∧ ¬console.Restored y := by
  have hc : (Io.sampleIo 8 127).Coherent [] ∅ := Io.coherent_binit _ _
  obtain ⟨s₁, h1, hc1, -⟩ := hc.iupdate_runs Io.sampleSuper console.inCore
  obtain ⟨s₂, h2, -⟩ := hc1.ilock_runs Io.sampleSuper (freshSlot 12) rfl
  refine ⟨s₁, _, s₂, h1, h2, ?_, fun hr => absurd hr.major (by decide)⟩
  have hrun : Program.returns (do
      console.iupdate Io.sampleSuper
      Io.ext2fsIlock Io.sampleSuper (freshSlot 12)) (Io.sampleIo 8 127)
      (fun y _ => y.type.no == T_FILE) = true := by decide +kernel
  obtain ⟨y, t, hy, hno⟩ := exists_of_returns hrun
  rw [bind_ok (show console.iupdate Io.sampleSuper _ = _ from h1), h2] at hy
  cases hy
  exact beq_iff_eq.1 hno

end RootInode

/-! ### `itrunc` of `fs.c` -/

/-- `NDIRECT` and `NINDIRECT` of `fs.h`. -/
def NDIRECT : ℕ := 12

@[inherit_doc NDIRECT] def NINDIRECT : ℕ := 256

namespace Io

variable {s s' : Io} {sb : Super} {ip : InCore} {bfree : ℕ → IoM Unit}

/-- The second part of `itrunc`: the blocks that the block `n` points to, and `n`. -/
def itruncIndirect (bfree : ℕ → IoM Unit) (n : ℕ) : IoM Unit := do
  if n ≠ 0 then
    let bp ← bread n
    (List.range NINDIRECT).forM fun j => do
      let a ← load bp j
      if a ≠ 0 then bfree a else pure ()
    brelse bp
    bfree n
  else pure ()

/-- `itrunc` of `fs.c`, with `bfree` of `fs.c`; `addrs` is `ip->addrs`.  At the end `iupdate` hands
over to `ext2fs_iupdate`. -/
def itrunc (bfree : ℕ → IoM Unit) (sb : Super) (addrs : ℕ → ℕ) (ip : InCore) : IoM InCore := do
  (List.range NDIRECT).forM fun i => if addrs i ≠ 0 then bfree (addrs i) else pure ()
  itruncIndirect bfree (addrs NDIRECT)
  let ip := { ip with size := 0 }
  ext2fsIupdate sb ip
  pure ip

/-- `ip->addrs` of an inode of the root device: the code that stores into it is for other
devices. -/
def rootAddrs : ℕ → ℕ := fun _ => 0

theorem itrunc_root (bfree : ℕ → IoM Unit) (sb : Super) (ip : InCore) :
    itrunc bfree sb rootAddrs ip = (do
      ext2fsIupdate sb { ip with size := 0 }
      pure { ip with size := 0 }) := by
  unfold itrunc
  rfl

theorem itrunc_eq_ext2fsItrunc (h : ∀ k ≤ EXT2_TIND_BLOCK, ip.addrs k = 0) :
    itrunc bfree sb rootAddrs ip = ext2fsItrunc sb ip := by
  have hfree : ∀ (level : ℕ) {k : ℕ}, k ≤ EXT2_TIND_BLOCK → freeAddr sb level ip k = pure ip := by
    intro level k hk
    unfold freeAddr
    rw [if_neg (not_not.2 (h k hk))]
  have hloop : ∀ l : List ℕ, (∀ k ∈ l, k ≤ EXT2_TIND_BLOCK) →
      l.foldlM (freeAddr sb 0) ip = pure ip := by
    intro l hl
    induction l with
    | nil => rfl
    | cons k l ih =>
      rw [List.foldlM_cons, hfree 0 (hl k (by simp)), pure_bind]
      exact ih fun k' hk' => hl k' (by simp [hk'])
  have hdirect : ∀ k ∈ List.range EXT2_NDIR_BLOCKS, k ≤ EXT2_TIND_BLOCK := by decide
  rw [itrunc_root]
  unfold ext2fsItrunc
  rw [hloop _ hdirect, pure_bind, hfree 1 (by decide), pure_bind, hfree 2 (by decide), pure_bind,
    hfree 3 (by decide), pure_bind]

/-- The inode `ip'` has size 0 and no pointers, in memory and on the disk of `s'`, and both are what
`ext2fs_itrunc` makes of the inode `ip` from the state `s`. -/
structure Truncated (s : Io) (sb : Super) (ip ip' : InCore) (s' : Io) : Prop where
  size : ip'.size = 0
  addrs : ∀ k ≤ EXT2_TIND_BLOCK, ip'.addrs k = 0
  stored : Stored sb (s'.disk (s.inodeBlock sb ip.inum)) ip'
  same : ∃ t, ext2fsItrunc sb ip s = .ok (ip', t) ∧ t.disk = s'.disk

theorem Coherent.itrunc_iff (h : s.Coherent [] ∅)
    (hsb : 128 ≤ sb.sInodeSize ∧ sb.sInodeSize ≤ BSIZE) (bfree : ℕ → IoM Unit) (ip : InCore) :
    ∃ s', itrunc bfree sb rootAddrs ip s = .ok ({ ip with size := 0 }, s') ∧
      (ext2fsIupdate sb { ip with size := 0 } s = .ok ((), s')) ∧
      (Truncated s sb ip { ip with size := 0 } s' ↔ ∀ k ≤ EXT2_TIND_BLOCK, ip.addrs k = 0) := by
  obtain ⟨s', hrun, -, hd, -⟩ := h.iupdate_runs sb { ip with size := 0 }
  have htrunc : itrunc bfree sb rootAddrs ip s = .ok ({ ip with size := 0 }, s') := by
    rw [itrunc_root, bind_ok hrun]
    rfl
  refine ⟨s', htrunc, hrun, fun ht => ht.addrs, fun hz => ⟨rfl, hz, ?_, s', ?_, rfl⟩⟩
  · rw [hd]
    rw [Function.update_self]
    refine stored_updated hsb _ (Nat.two_pow_pos 32) fun k hk => ?_
    rw [show InCore.addrs { ip with size := 0 } k = 0 from hz k hk]
    exact Nat.two_pow_pos 32
  · have heq : itrunc bfree sb rootAddrs ip = ext2fsItrunc sb ip := itrunc_eq_ext2fsItrunc hz
    rw [← heq]
    exact htrunc

end Io

/-! ### `sys_open` with `O_TRUNC` -/

namespace Kern

variable {D : Type} (V : Volume D) {s s' s₁ : Kern D} {p : Fin NPROC} {behind : Bytes}
  {omode : ℕ} {ip : Fin NINODE} {r : ℤ}

/-- `sys_open` has found the inode `ip`, or `create` has, and locked it. -/
def Opens (p : Fin NPROC) (path behind : Bytes) (omode : ℕ) (s : Kern D) (ip : Fin NINODE)
    (s₁ : Kern D) : Prop :=
  ∃ s₀, beginOp s = .ok ((), s₀) ∧
    (omode.testBit 9 = true ∧ create V p path behind T_FILE 0 s₀ = .ok (some ip, s₁) ∨
      omode.testBit 9 = false ∧ ∃ s₂, namex V p false path behind s₀ = .ok (some ip, s₂) ∧
        ilock V ip s₂ = .ok ((), s₁))

/-- A descriptor is returned only from the end of `sys_open`. -/
theorem sysOpen_opens {path : Option Bytes}
    (h : sysOpen V p path behind omode s = .ok (r, s')) (hr : 0 ≤ r) :
    ∃ path' ip s₁, path = some path' ∧ Opens V p path' behind omode s ip s₁ ∧
      openLocked V p omode ip s₁ = .ok (r, s') := by
  have hfail : ∀ {t t' : Kern D}, (do endOp; pure (-1) : KernM D ℤ) t ≠ .ok (r, t') := by
    intro t t' hb
    obtain ⟨_, t1, -, hb⟩ := bind_eq_ok.1 hb
    cases hb
    omega
  cases path with
  | none =>
    cases h
    omega
  | some path =>
    obtain ⟨_, s0, h0, h⟩ := bind_eq_ok.1 h
    split_ifs at h with hc
    · obtain ⟨x, s₁, h1, h⟩ := bind_eq_ok.1 h
      cases x with
      | none => exact absurd h hfail
      | some ip => exact ⟨path, ip, s₁, rfl, ⟨s0, h0, .inl ⟨hc, h1⟩⟩, h⟩
    · obtain ⟨x, s2, h2, h⟩ := bind_eq_ok.1 h
      cases x with
      | none => exact absurd h hfail
      | some ip =>
        obtain ⟨_, s₁, h1, h⟩ := bind_eq_ok.1 h
        rw [bind_ok (show inode ip s₁ = .ok (s₁.icache.inode ip, s₁) from rfl)] at h
        split_ifs at h with hdir
        · obtain ⟨_, s3, -, h⟩ := bind_eq_ok.1 h
          exact absurd h hfail
        · exact ⟨path, ip, s₁, rfl, ⟨s0, h0, .inr ⟨by simpa using hc, s2, h2, h1⟩⟩, h⟩

theorem filealloc_disk {f : Option (Fin NFILE)} (h : filealloc s = .ok (f, s')) :
    s'.disk = s.disk := by
  unfold filealloc at h
  rw [bind_ok rfl] at h
  cases hf : (List.finRange NFILE).find? fun f => (s.ftable f).ref = 0 with
  | none =>
    simp only [hf] at h
    cases h
    rfl
  | some f =>
    simp only [hf] at h
    obtain ⟨_, s₁, h1, h⟩ := bind_eq_ok.1 h
    cases h
    cases h1
    rfl

theorem fdalloc_disk {f : Fin NFILE} {fd : Option (Fin NOFILE)}
    (h : fdalloc p f s = .ok (fd, s')) : s'.disk = s.disk := by
  unfold fdalloc at h
  rw [bind_ok rfl] at h
  cases hf : (List.finRange NOFILE).find? fun fd => s.ofile (p, fd) = none with
  | none =>
    simp only [hf] at h
    cases h
    rfl
  | some fd =>
    simp only [hf] at h
    obtain ⟨_, s₁, h1, h⟩ := bind_eq_ok.1 h
    cases h
    cases h1
    rfl

/-- The end of `sys_open` changes the disk by `itrunc` only. -/
theorem openLocked_disk (h : openLocked V p omode ip s = .ok (r, s')) (hr : 0 ≤ r)
    (htrunc : omode.testBit 10 = true) (hfile : (s.icache.inode ip).type = T_FILE) :
    V.itrunc s.disk (s.icache.inode ip).inum = some s'.disk := by
  have hfail : ∀ {t t' : Kern D}, (do iunlockput V ip; endOp; pure (-1) : KernM D ℤ) t ≠
      .ok (r, t') := by
    intro t t' hb
    obtain ⟨_, t1, -, hb⟩ := bind_eq_ok.1 hb
    obtain ⟨_, t2, -, hb⟩ := bind_eq_ok.1 hb
    cases hb
    omega
  unfold openLocked at h
  rw [bind_ok (show inode ip s = .ok (s.icache.inode ip, s) from rfl),
    bind_ok rfl] at h
  rw [if_neg fun hdev => absurd (hfile.symm.trans hdev.1) (by decide)] at h
  obtain ⟨f, s₁, h1, h⟩ := bind_eq_ok.1 h
  cases f with
  | none => exact absurd h hfail
  | some f =>
    obtain ⟨fd, s2, h2, h⟩ := bind_eq_ok.1 h
    cases fd with
    | none =>
      obtain ⟨_, s3, -, h⟩ := bind_eq_ok.1 h
      exact absurd h hfail
    | some fd =>
      obtain ⟨_, s3, h3, h⟩ := bind_eq_ok.1 h
      obtain ⟨_, s4, h4, h⟩ := bind_eq_ok.1 h
      obtain ⟨_, s5, h5, h⟩ := bind_eq_ok.1 h
      obtain ⟨_, s6, h6, h⟩ := bind_eq_ok.1 h
      obtain ⟨-, rfl⟩ := pure_eq_ok.1 h
      have hd3 : s3.disk = s.disk := by
        obtain ⟨-, rfl⟩ := ok_inj h3
        exact (fdalloc_disk h2).trans (filealloc_disk h1)
      have hd6 : s6.disk = s4.disk := by
        cases h6
        unfold iunlock at h5
        split_ifs at h5
        cases h5
        rfl
      unfold openTrunc onDisk at h4
      rw [if_pos ⟨htrunc, hfile⟩, hd3] at h4
      rw [hd6]
      cases hv : V.itrunc s.disk (s.icache.inode ip).inum with
      | none => simp [hv] at h4
      | some d =>
        simp only [hv, Option.map_some] at h4
        cases h4
        rfl

theorem itrunc_ext2Volume {sb : Super} {fuel : ℕ} {d d' : ℕ → Block} {inum : ℕ}
    (h : (ext2Volume sb fuel).itrunc d inum = some d') :
    ∃ i t t', Io.ext2fsIlock sb (RootInode.freshSlot inum) ⟨Bcache.binit, d, fun _ _ => 0⟩ =
        .ok (i, t) ∧ t.Coherent [] ∅ ∧
      Io.ext2fsIupdate sb { i with size := 0 } t = .ok ((), t') ∧ t'.disk = d' := by
  -- as in `onImage_eq_some`, nothing may be unfolded on its arguments
  have hdef : (ext2Volume sb fuel).itrunc = fun d inum =>
      (onImage sb d inum fun ip => Io.ext2fsIupdate sb { ip with size := 0 }).map (·.2) := by
    delta ext2Volume
    dsimp only
  rw [hdef] at h
  beta_reduce at h
  rw [Option.map_eq_some_iff] at h
  obtain ⟨⟨u, e⟩, himage, rfl⟩ := h
  obtain ⟨i, t, t', hlock, hup, hdisk⟩ := onImage_eq_some himage
  obtain ⟨t1, hlock', hc⟩ := (Io.coherent_binit d fun _ _ => 0).ilock_runs
    sb (RootInode.freshSlot inum) rfl
  obtain ⟨-, rfl⟩ := ok_inj (hlock.symm.trans hlock')
  exact ⟨i, t, t', hlock, hc, hup, hdisk⟩

/-- **`O_TRUNC` truncates a regular file exactly if it has no blocks.**  `sys_open` has locked the
inode in state `s₁`; `i` is the inode in memory then and `i'` when the call returns.  Here `bfree`
may be any function, and the inode is read from the disk; an inode in memory that differs from the
disk is the subject of `Io.Coherent.itrunc_iff`. -/
theorem open_trunc_iff (sb : Super) (fuel : ℕ) (bfree : ℕ → IoM Unit)
    (hsb : 128 ≤ sb.sInodeSize ∧ sb.sInodeSize ≤ BSIZE) {path : Option Bytes}
    {s s' : Kern (ℕ → Block)} {fd : ℤ}
    (hrun : sysOpen (ext2Volume sb fuel) p path behind omode s = .ok (fd, s')) (hfd : 0 ≤ fd)
    (htrunc : omode.testBit 10 = true) :
    ∃ path' ip s₁, path = some path' ∧ Opens (ext2Volume sb fuel) p path' behind omode s ip s₁ ∧
      ((s₁.icache.inode ip).type = T_FILE → ∃ i t i' t',
        Io.ext2fsIlock sb (RootInode.freshSlot (s₁.icache.inode ip).inum)
          ⟨Bcache.binit, s₁.disk, fun _ _ => 0⟩ = .ok (i, t) ∧
        Io.itrunc bfree sb Io.rootAddrs i t = .ok (i', t') ∧ t'.disk = s'.disk ∧
        (Io.Truncated t sb i i' t' ↔ ∀ k ≤ EXT2_TIND_BLOCK, i.addrs k = 0)) := by
  obtain ⟨path', ip, s₁, hpath, hopens, hend⟩ := sysOpen_opens _ hrun hfd
  refine ⟨path', ip, s₁, hpath, hopens, fun hfile => ?_⟩
  obtain ⟨i, t, t', hlock, hc, hup, hdisk⟩ :=
    itrunc_ext2Volume (openLocked_disk _ hend hfd htrunc hfile)
  obtain ⟨t'', htr, hup', hiff⟩ := hc.itrunc_iff hsb bfree i
  rw [hup] at hup'
  cases hup'
  exact ⟨i, t, _, t', hlock, htr, hdisk, hiff⟩

/-- An image whose root has a regular file `a`, inode 12, of `4 * k` blocks' size with the block
`addr`. -/
def fileImage (addr k : UInt8) : ℕ → Block := fun n j =>
  if n = 16 then FileTree.dirA.block 0 j
  else if n = 10 then
    if j.val = 385 then 0x80 else if j.val = 389 then k else if j.val = 410 then 1
    else if j.val = 424 then addr else 0
  else rootImage n j

/-- An empty file is opened with `O_TRUNC`, and truncated. -/
theorem open_trunc_iff_empty : ∃ fd s', sysOpen rootVolume initproc (some [47, 97]) [] 0x400
      (boot (fileImage 0 0) []) = .ok (fd, s') ∧ 0 ≤ fd ∧
    ∃ ip s₁, Opens rootVolume initproc [47, 97] [] 0x400 (boot (fileImage 0 0) []) ip s₁ ∧
      (s₁.icache.inode ip).type = T_FILE ∧ ∃ i t i' t',
        Io.itrunc (fun _ => pure ()) Io.sampleSuper Io.rootAddrs i t = .ok (i', t') ∧
        t'.disk = s'.disk ∧
        (Io.Truncated t Io.sampleSuper i i' t' ↔ ∀ k ≤ EXT2_TIND_BLOCK, i.addrs k = 0) := by
  have hrun : returns (sysOpen rootVolume initproc (some [47, 97]) [] 0x400)
      (boot (fileImage 0 0) []) (fun fd _ => decide (0 ≤ fd)) = true := by decide +kernel
  obtain ⟨fd, s', h, hfd⟩ := exists_of_returns hrun
  have hfd := of_decide_eq_true hfd
  obtain ⟨path', ip, s₁, hpath, hopens, htrunc⟩ :=
    open_trunc_iff Io.sampleSuper 9 (fun _ => pure ()) (by decide) h hfd (by decide)
  cases hpath
  have htype : returns (do
      beginOp
      let r ← namex rootVolume initproc false [47, 97] []
      r.elim (pure 0) fun ip => do
        ilock rootVolume ip
        let x ← inode ip
        pure x.type) (boot (fileImage 0 0) []) (fun type _ => decide (type = T_FILE)) = true := by
    decide +kernel
  obtain ⟨type, s2, hwalk, htype⟩ := exists_of_returns htype
  have htype := of_decide_eq_true htype
  obtain ⟨s0, h0, ⟨hc, -⟩ | ⟨-, s1, h1, hlock⟩⟩ := id hopens
  · exact absurd hc (by decide)
  rw [bind_ok h0, bind_ok h1] at hwalk
  change (do ilock rootVolume ip; let x ← inode ip; pure x.type : KernM _ ℕ) s1 = _ at hwalk
  rw [bind_ok hlock] at hwalk
  cases hwalk
  obtain ⟨i, t, i', t', -, htr⟩ := htrunc htype
  exact ⟨fd, s', h, hfd, ip, s₁, hopens, htype, i, t, i', t', htr⟩

/-- **A file of one block keeps its block**: after `open("/a", O_TRUNC)` the inode has size 0 and
still points to block 20, and the bitmap is as before. -/
theorem open_trunc_keeps_block :
    Io.dinSize Io.sampleSuper 12 (fileImage 20 4 10) = 1024 ∧
      ∃ fd s', sysOpen rootVolume initproc (some [47, 97]) [] 0x400 (boot (fileImage 20 4) []) =
        .ok (fd, s') ∧ 0 ≤ fd ∧ Io.dinSize Io.sampleSuper 12 (s'.disk 10) = 0 ∧
        Io.dinAddr Io.sampleSuper 12 (s'.disk 10) 0 = 20 ∧
        ∀ j : Fin 16, (s'.disk 8).byte j = (fileImage 20 4 8).byte j := by
  have hrun : returns (sysOpen rootVolume initproc (some [47, 97]) [] 0x400)
      (boot (fileImage 20 4) []) (fun fd s => decide (0 ≤ fd ∧
        Io.dinSize Io.sampleSuper 12 (s.disk 10) = 0 ∧
        Io.dinAddr Io.sampleSuper 12 (s.disk 10) 0 = 20 ∧
        ∀ j : Fin 16, (s.disk 8).byte j = (fileImage 20 4 8).byte j)) = true := by
    decide +kernel
  obtain ⟨fd, s', h, hp⟩ := exists_of_returns hrun
  exact ⟨by decide +kernel, fd, s', h, of_decide_eq_true hp⟩

end Kern

end Cinux
