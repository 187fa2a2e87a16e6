import Cinux.Ext2.Ialloc

/-!
# The geometry of a mounted image

`ext2fs_iinit` copies block 1 into `ext2_sb` and accepts it whatever it holds.  The functions that
come after it divide by `s_inodes_per_group`, by `s_blocks_per_group`, and by the quotient
`EXT2_BSIZE / s_inode_size`.  Here they are run with every division checked: `ilockDiv` and the
others are the functions of `Ext2.Alloc`, `Ext2.Driver` and `Ext2.Ialloc` in which a division by
zero stops the run (`DivFault.divide`), with the divisions where the source has them.

`Io.mounted_usable` says which superblocks never lead to one.
-/

namespace Cinux

open Program

/-- `ext2_sb`, as far as it is used, from the bytes of a `struct ext2_super_block`. -/
def Super.ofBytes (b : ℕ → UInt8) : Super where
  sBlocksCount := le32 b 4
  sFirstDataBlock := le32 b 20
  sBlocksPerGroup := le32 b 32
  sInodesPerGroup := le32 b 40
  sInodeSize := le16 b 88

/-- None of the divisors is zero. -/
structure Super.Usable (sb : Super) : Prop where
  inodesPerGroup : sb.sInodesPerGroup ≠ 0
  blocksPerGroup : sb.sBlocksPerGroup ≠ 0
  inodeSize : sb.sInodeSize ≠ 0
  inodeSize_le : sb.sInodeSize ≤ BSIZE

/-- How a run with checked divisions stops. -/
inductive DivFault where
  | stop (e : Stop)
  /-- A division or a remainder by zero. -/
  | divide

/-- Code that uses buffers, with checked divisions. -/
abbrev DivM := Program DivFault Io

namespace Io

/-- `ext2fs_iinit`, by `ext2fs_readsb`. -/
def ext2fsIinit : IoM Super := do
  let bp ← bread 1
  let d ← data bp
  brelse bp
  pure (.ofBytes d.byte)

/-! ### Checked divisions -/

/-- Code without divisions. -/
abbrev undivided {α : Type} (m : IoM α) : DivM α := mapStop DivFault.stop m

/-- `a / b`. -/
def quot (a b : ℕ) : DivM ℕ := if b = 0 then throw .divide else pure (a / b)

theorem quot_zero {a b : ℕ} {s : Io} (h : b = 0) : quot a b s = .error .divide := by
  unfold quot
  rw [if_pos h]
  rfl

/-- `a % b`. -/
def rem (a b : ℕ) : DivM ℕ := if b = 0 then throw .divide else pure (a % b)

/-- `GET_GROUP_NO`. -/
def groupNoDiv (sb : Super) (inum : ℕ) : DivM ℕ :=
  quot ((inum + (2 ^ 32 - 1)) % 2 ^ 32) sb.sInodesPerGroup

/-- `GET_INODE_INDEX`. -/
def inodeIndexDiv (sb : Super) (inum : ℕ) : DivM ℕ :=
  rem ((inum + (2 ^ 32 - 1)) % 2 ^ 32) sb.sInodesPerGroup

/-- The block of an inode and the place in it, in `ext2fs_ilock` and `ext2fs_iupdate`. -/
def placeDiv (sb : Super) (ioff : ℕ) : DivM (ℕ × ℕ) := do
  let per ← quot BSIZE sb.sInodeSize
  let bno ← quot ioff per
  let per ← quot BSIZE sb.sInodeSize
  let iindex ← rem ioff per
  pure (bno, iindex)

/-- Reading in the descriptor of a group, of which word `w` is used. -/
def descWordIo (gno w : ℕ) : IoM ℕ := do
  let bp ← bread 2
  let v ← load bp (gno * groupDescWords + w)
  brelse bp
  pure v

/-- `ext2fs_ilock`. -/
def ilockDiv (sb : Super) (ip : InCore) : DivM InCore := do
  if ip.valid then pure ip
  else
    let gno ← groupNoDiv sb ip.inum
    let ioff ← inodeIndexDiv sb ip.inum
    let table ← undivided (descWordIo gno bgInodeTable)
    let (bno, iindex) ← placeDiv sb ioff
    let bp1 ← undivided (bread ((table + bno) % 2 ^ 32))
    let d ← undivided (data bp1)
    undivided (brelse bp1)
    pure (ip.readDin fun k => d.byte (iindex * sb.sInodeSize + k))

/-- `ext2fs_iupdate`. -/
def iupdateDiv (sb : Super) (ip : InCore) : DivM Unit := do
  let gno ← groupNoDiv sb ip.inum
  let ioff ← inodeIndexDiv sb ip.inum
  let table ← undivided (descWordIo gno bgInodeTable)
  let (bno, iindex) ← placeDiv sb ioff
  let bp1 ← undivided (bread ((table + bno) % 2 ^ 32))
  undivided (modifyData bp1 fun d =>
    d.memmove (iindex * sb.sInodeSize) sizeofExt2Inode
      (ip.dinByte fun k => d.byte (iindex * sb.sInodeSize + k)))
  undivided (bwrite bp1)
  undivided (brelse bp1)

/-- `ext2fs_ialloc`.  The other divisors are constants. -/
def iallocDiv (sb : Super) (type : InodeType) : DivM ℕ := do
  let bgcount ← quot sb.sBlocksCount sb.sBlocksPerGroup
  undivided (ext2fsIallocLoop sb type (bgcount + 1) 0)

/-- `ext2fs_ifree`. -/
def ifreeDiv (sb : Super) (ip : InCore) : DivM Unit := do
  let gno ← groupNoDiv sb ip.inum
  let bitmap ← undivided (descWordIo gno bgInodeBitmap)
  let bp2 ← undivided (bread bitmap)
  let index ← inodeIndexDiv sb ip.inum
  undivided (clearBitmap bp2 (toInt32 index) "ext2fs_ifree: inode already free")
  undivided (brelse bp2)

/-- `ext2fs_balloc`. -/
def ballocDiv (sb : Super) (inum : ℕ) : DivM ℕ := do
  let gno ← groupNoDiv sb inum
  let bitmap ← undivided (descWordIo gno bgBlockBitmap)
  let bp2 ← undivided (bread bitmap)
  undivided (takeBlock sb bitmap bp2)

/-- `ext2fs_bfree`. -/
def bfreeDiv (sb : Super) (b : ℕ) : DivM Unit := do
  let gno ← groupNoDiv sb b
  let iindex ← inodeIndexDiv sb b
  let bp1 ← undivided (bread 2)
  let bitmap ← undivided (load bp1 (gno * groupDescWords + bgBlockBitmap))
  let bp2 ← undivided (bread bitmap)
  undivided (clearBitmap bp2 (toInt32 (iindex - bitmap)) "ext2fs_bfree: block already free")
  undivided (brelse bp2)
  undivided (brelse bp1)

/-! ### The checks change nothing else

The functions follow the unchecked ones up to a stop with `e`, which may be anything if no divisor
is zero. -/

section Divides

variable {α : Type} {sb : Super} {e : DivFault} {a b inum : ℕ} {k : ℕ → DivM α} {m : IoM α}

/-- `c` is `m` with checked divisions. -/
abbrev Divides (e : DivFault) (c : DivM α) (m : IoM α) : Prop := Follows DivFault.stop e c m

theorem divides_quot (hb : b ≠ 0 ∨ e = .divide) (h : Divides e (k (a / b)) m) :
    Divides e (quot a b >>= k) m := by
  refine Follows.value (fun s => ?_) h
  unfold quot
  by_cases h0 : b = 0
  · rw [if_pos h0, hb.resolve_left (not_not.2 h0)]
    exact .inl rfl
  · rw [if_neg h0]
    exact .inr rfl

theorem divides_rem (hb : b ≠ 0 ∨ e = .divide) (h : Divides e (k (a % b)) m) :
    Divides e (rem a b >>= k) m := by
  refine Follows.value (fun s => ?_) h
  unfold rem
  by_cases h0 : b = 0
  · rw [if_pos h0, hb.resolve_left (not_not.2 h0)]
    exact .inl rfl
  · rw [if_neg h0]
    exact .inr rfl

theorem divides_groupNo (hsb : sb.Usable ∨ e = .divide) (h : Divides e (k (sb.groupNo inum)) m) :
    Divides e (groupNoDiv sb inum >>= k) m := divides_quot (hsb.imp_left (·.inodesPerGroup)) h

theorem divides_inodeIndex (hsb : sb.Usable ∨ e = .divide)
    (h : Divides e (k (sb.inodeIndex inum)) m) : Divides e (inodeIndexDiv sb inum >>= k) m :=
  divides_rem (hsb.imp_left (·.inodesPerGroup)) h

theorem Super.Usable.inodesPerBlock_ne (h : sb.Usable) : sb.inodesPerBlock ≠ 0 :=
  (Nat.div_pos h.inodeSize_le (Nat.pos_of_ne_zero h.inodeSize)).ne'

theorem divides_place {k : ℕ × ℕ → DivM α} (hsb : sb.Usable ∨ e = .divide)
    (h : Divides e (k (a / sb.inodesPerBlock, a % sb.inodesPerBlock)) m) :
    Divides e (placeDiv sb a >>= k) m := by
  have hsize : sb.sInodeSize ≠ 0 ∨ e = .divide := hsb.imp_left (·.inodeSize)
  have hper : sb.inodesPerBlock ≠ 0 ∨ e = .divide := hsb.imp_left Super.Usable.inodesPerBlock_ne
  unfold placeDiv
  simp only [bind_assoc, pure_bind]
  exact divides_quot hsize (divides_quot hper (divides_quot hsize (divides_rem hper h)))

theorem divides_desc {f : ℕ → IoM α} (gno w : ℕ) (h : ∀ v, Divides e (k v) (f v)) :
    Divides e (undivided (descWordIo gno w) >>= k) (do
      let bp ← bread 2
      let v ← load bp (gno * groupDescWords + w)
      brelse bp
      f v) := by
  have hassoc : (do
      let bp ← bread 2
      let v ← load bp (gno * groupDescWords + w)
      brelse bp
      f v : IoM α) = descWordIo gno w >>= f := by
    unfold descWordIo
    simp only [bind_assoc, pure_bind]
  rw [hassoc]
  exact .bind .lift h

theorem divides_ilock (hsb : sb.Usable ∨ e = .divide) (ip : InCore) :
    Divides e (ilockDiv sb ip) (ext2fsIlock sb ip) := by
  unfold ilockDiv ext2fsIlock
  split_ifs
  · exact .pure
  · exact divides_groupNo hsb (divides_inodeIndex hsb (divides_desc _ _ fun table =>
      divides_place hsb (.bind .lift fun bp1 => .bind .lift fun d => .bind .lift fun _ => .pure)))

theorem divides_iupdate (hsb : sb.Usable ∨ e = .divide) (ip : InCore) :
    Divides e (iupdateDiv sb ip) (ext2fsIupdate sb ip) :=
  divides_groupNo hsb (divides_inodeIndex hsb (divides_desc _ _ fun _ =>
    divides_place hsb (.bind .lift fun _ => .bind .lift fun _ => .bind .lift fun _ => .lift)))

theorem divides_ialloc (hsb : sb.Usable ∨ e = .divide) (type : InodeType) :
    Divides e (iallocDiv sb type) (ext2fsIalloc sb type) :=
  divides_quot (hsb.imp_left (·.blocksPerGroup)) .lift

theorem divides_ifree (hsb : sb.Usable ∨ e = .divide) (ip : InCore) :
    Divides e (ifreeDiv sb ip) (ext2fsIfree sb ip) :=
  divides_groupNo hsb (divides_desc _ _ fun _ => .bind .lift fun _ =>
    divides_inodeIndex hsb (.bind .lift fun _ => .lift))

theorem divides_balloc (hsb : sb.Usable ∨ e = .divide) (inum : ℕ) :
    Divides e (ballocDiv sb inum) (ext2fsBalloc sb inum) :=
  divides_groupNo hsb (divides_desc _ _ fun _ => .bind .lift fun _ => .lift)

theorem divides_bfree (hsb : sb.Usable ∨ e = .divide) (b : ℕ) :
    Divides e (bfreeDiv sb b) (ext2fsBfree sb b) :=
  divides_groupNo hsb (divides_inodeIndex hsb (.bind .lift fun _ => .bind .lift fun _ =>
    .bind .lift fun _ => .bind .lift fun _ => .bind .lift fun _ => .lift))

end Divides

end Io

/-! ### Calls on a mounted image -/

/-- A call of one of the functions that divide. -/
inductive DivCall where
  | ilock (ip : InCore)
  | iupdate (ip : InCore)
  | ialloc (type : InodeType)
  | ifree (ip : InCore)
  | balloc (inum : ℕ)
  | bfree (b : ℕ)

namespace DivCall

open Io

variable {sb : Super} {s : Io}

/-- The call, without its result. -/
def run (sb : Super) : DivCall → IoM Unit
  | ilock ip => do let _ ← ext2fsIlock sb ip
  | iupdate ip => ext2fsIupdate sb ip
  | ialloc type => do let _ ← ext2fsIalloc sb type
  | ifree ip => ext2fsIfree sb ip
  | balloc inum => do let _ ← ext2fsBalloc sb inum
  | bfree b => ext2fsBfree sb b

/-- The call with every division checked. -/
def checked (sb : Super) : DivCall → DivM Unit
  | ilock ip => do let _ ← ilockDiv sb ip
  | iupdate ip => iupdateDiv sb ip
  | ialloc type => do let _ ← iallocDiv sb type
  | ifree ip => ifreeDiv sb ip
  | balloc inum => do let _ ← ballocDiv sb inum
  | bfree b => bfreeDiv sb b

/-- The call divides by zero when it is made in state `s`. -/
def ByZero (sb : Super) (s : Io) (c : DivCall) : Prop := c.checked sb s = .error .divide

theorem follows {e : DivFault} (hsb : sb.Usable ∨ e = .divide) (c : DivCall) :
    Divides e (c.checked sb) (c.run sb) := by
  cases c with
  | ilock ip => exact .bind (divides_ilock hsb ip) fun _ => .pure
  | iupdate ip => exact divides_iupdate hsb ip
  | ialloc type => exact .bind (divides_ialloc hsb type) fun _ => .pure
  | ifree ip => exact divides_ifree hsb ip
  | balloc inum => exact .bind (divides_balloc hsb inum) fun _ => .pure
  | bfree b => exact divides_bfree hsb b

theorem checked_eq {c : DivCall} (h : ¬c.ByZero sb s) :
    c.checked sb s = Program.mapStop DivFault.stop (c.run sb) s :=
  (c.follows (.inr rfl) s).resolve_left h

theorem not_byZero (hsb : sb.Usable) (s : Io) (c : DivCall) : ¬c.ByZero sb s := by
  intro h
  unfold ByZero at h
  -- no check fails, so the run stops only for reasons of the original
  rcases c.follows (e := .stop .deadlock) (.inl hsb) s with hstop | hrun
  · rw [hstop] at h
    cases h
  · rw [hrun, Program.mapStop] at h
    cases hr : c.run sb s <;> rw [hr] at h <;> cases h

theorem byZero_ialloc (h : sb.sBlocksPerGroup = 0) (type : InodeType) :
    ByZero sb s (ialloc type) := by
  have hq : quot sb.sBlocksCount sb.sBlocksPerGroup s = .error .divide := quot_zero h
  exact bind_error (bind_error hq)

theorem byZero_balloc (h : sb.sInodesPerGroup = 0) (inum : ℕ) : ByZero sb s (balloc inum) := by
  have hq : groupNoDiv sb inum s = .error .divide := quot_zero h
  exact bind_error (bind_error hq)

/-- A quotient of zero is divided by once the group descriptor has been read. -/
theorem byZero_iupdate (hs : s.Coherent [] ∅) (hgroup : sb.sInodesPerGroup ≠ 0)
    (h : sb.sInodeSize = 0 ∨ BSIZE < sb.sInodeSize) (ip : InCore) : ByZero sb s (iupdate ip) := by
  have hgno : groupNoDiv sb ip.inum s = .ok (sb.groupNo ip.inum, s) := by
    unfold groupNoDiv quot
    rw [if_neg hgroup]
    rfl
  have hidx : inodeIndexDiv sb ip.inum s = .ok (sb.inodeIndex ip.inum, s) := by
    unfold inodeIndexDiv rem
    rw [if_neg hgroup]
    rfl
  obtain ⟨bp, s1, h1, hc1, -⟩ := hs.bread_first 2
  have hload := hs.load_of_bread h1 (sb.groupNo ip.inum * groupDescWords + bgInodeTable)
  obtain ⟨s2, h2, -⟩ := hc1.brelse_head
  have hdesc : ∃ v, descWordIo (sb.groupNo ip.inum) bgInodeTable s = .ok (v, s2) := by
    unfold descWordIo
    rw [bind_ok h1, bind_ok hload, bind_ok h2]
    exact ⟨_, rfl⟩
  obtain ⟨v, hdesc⟩ := hdesc
  have hplace : placeDiv sb (sb.inodeIndex ip.inum) s2 = .error .divide := by
    unfold placeDiv
    rcases h with h | h
    · exact bind_error (quot_zero h)
    · have hq : quot BSIZE sb.sInodeSize s2 = .ok (0, s2) := by
        unfold quot
        rw [if_neg (by omega), Nat.div_eq_of_lt h]
        rfl
      rw [bind_ok hq]
      exact bind_error (quot_zero rfl)
  change iupdateDiv sb ip s = .error .divide
  unfold iupdateDiv
  rw [bind_ok hgno, bind_ok hidx, bind_ok (Program.mapStop_ok hdesc)]
  exact bind_error hplace

end DivCall

namespace Io

variable {s : Io}

theorem Coherent.iinit_runs (h : s.Coherent [] ∅) :
    ∃ s', ext2fsIinit s = .ok (.ofBytes (s.disk 1).byte, s') ∧ s'.Coherent [] ∅ := by
  obtain ⟨bp, s1, h1, hc1, -, -, -, hdata⟩ := h.bread_first 1
  have hd : data bp s1 = .ok (s.disk 1, s1) := by
    unfold data
    rw [hdata]
  obtain ⟨s2, h2, hc2, -⟩ := hc1.brelse_head
  refine ⟨s2, ?_, hc2⟩
  unfold ext2fsIinit
  rw [bind_ok h1, bind_ok hd, bind_ok h2]
  rfl

/-- **Superblocks that never lead to a division by zero.**  `ext2fs_iinit` accepts every
superblock.  No call in any later state divides by zero exactly if the numbers of inodes and of
blocks in a group are not zero and an inode has between 1 and 1024 bytes; if they are not so, a call
right after `ext2fs_iinit` does.  A call that does not divide by zero is the call of the source. -/
theorem mounted_usable (s : Io) (h : s.Coherent [] ∅) :
    ∃ sb s', ext2fsIinit s = .ok (sb, s') ∧ sb = .ofBytes (s.disk 1).byte ∧
      ((∀ (c : DivCall) (t : Io), ¬c.ByZero sb t) ↔ sb.Usable) ∧
      (¬sb.Usable → ∃ c : DivCall, c.ByZero sb s') ∧
      ∀ (c : DivCall) (t : Io), ¬c.ByZero sb t →
        c.checked sb t = Program.mapStop DivFault.stop (c.run sb) t := by
  obtain ⟨s', hrun, hc⟩ := h.iinit_runs
  generalize Super.ofBytes (s.disk 1).byte = sb at hrun ⊢
  have hfail : ¬sb.Usable → ∃ c : DivCall, c.ByZero sb s' := by
    intro hsb
    by_cases hb : sb.sBlocksPerGroup = 0
    · exact ⟨.ialloc .file, DivCall.byZero_ialloc hb _⟩
    by_cases hi : sb.sInodesPerGroup = 0
    · exact ⟨.balloc 1, DivCall.byZero_balloc hi _⟩
    · refine ⟨.iupdate ⟨1, .file, 1, 1, true, 0, fun _ => 0⟩, DivCall.byZero_iupdate hc hi ?_ _⟩
      by_contra hsize
      push Not at hsize
      exact hsb ⟨hi, hb, hsize.1, hsize.2⟩
  refine ⟨sb, s', hrun, rfl, ⟨fun hall => ?_, fun hsb c t => DivCall.not_byZero hsb t c⟩, hfail,
    fun c t => DivCall.checked_eq⟩
  by_contra hsb
  obtain ⟨c, hz⟩ := hfail hsb
  exact hall c s' hz

/-- A superblock with inodes of `size` bytes. -/
def superBlock (size : ℕ) : Block := fun j =>
  if j.val = 4 then 64 else if j.val = 20 then 1 else if j.val = 33 then 32
  else if j.val = 40 then 32 else if j.val = 88 ∨ j.val = 89 then byteOf size (j.val - 88) else 0

/-- A disk with that superblock. -/
def superIo (size : ℕ) : Io := ⟨Bcache.binit, fun _ => superBlock size, fun _ _ => 0⟩

/-- Inodes of 128 bytes are fine. -/
theorem mounted_usable_128 : ∃ sb s', ext2fsIinit (superIo 128) = .ok (sb, s') ∧
    ∀ (c : DivCall) (t : Io), ¬c.ByZero sb t := by
  obtain ⟨sb, s', hrun, hsb, hiff, -⟩ := mounted_usable (superIo 128) (coherent_binit _ _)
  refine ⟨sb, s', hrun, hiff.2 ?_⟩
  subst hsb
  exact ⟨by decide, by decide, by decide, by decide⟩

/-- **Inodes of 2048 bytes are accepted, and `ext2fs_iupdate` divides by 1024 / 2048.** -/
theorem mounted_divides : ∃ sb s', ext2fsIinit (superIo 2048) = .ok (sb, s') ∧
    sb.sInodesPerGroup = 32 ∧ sb.sBlocksPerGroup = 8192 ∧ sb.sInodeSize = 2048 ∧
    DivCall.ByZero sb s' (.iupdate ⟨2, .dir, 1, 1, true, 0, fun _ => 0⟩) := by
  obtain ⟨s', hrun, hc⟩ := (coherent_binit (superIo 2048).disk (superIo 2048).outside).iinit_runs
  have hipg : (Super.ofBytes (superBlock 2048).byte).sInodesPerGroup = 32 := by decide
  have hsize : (Super.ofBytes (superBlock 2048).byte).sInodeSize = 2048 := by decide
  refine ⟨_, s', hrun, hipg, by decide, hsize, DivCall.byZero_iupdate hc ?_ (.inr ?_) _⟩
  · exact fun h => absurd (hipg.symm.trans h) (by decide)
  · exact lt_of_lt_of_eq (by decide) hsize.symm

end Io

end Cinux
