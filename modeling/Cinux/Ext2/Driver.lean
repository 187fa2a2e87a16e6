import Cinux.Ext2.Alloc
import Cinux.Ext2.Dirlink

/-!
# Inodes of the ext2 driver

The functions of `ext2fs.c` that work on a locked inode, over the buffer cache: the block map,
truncation, writing the inode back, and reading and writing its contents.

`Ext2.File` shows files as their callers see them; here every store into a buffer, every `bwrite`
and every `brelse` is where the source has it.

`EXT2_DINDIRECT` is a product without parentheses, so `bn / EXT2_DINDIRECT` is
`bn / 256 * 256`, and `bn % EXT2_DINDIRECT` is `bn % 256 * 256`.
-/

namespace Cinux

/-- Number of direct blocks, and the places of the three indirect ones in `addrs`. -/
def EXT2_NDIR_BLOCKS : ℕ := 12

@[inherit_doc EXT2_NDIR_BLOCKS] def EXT2_IND_BLOCK : ℕ := 12

@[inherit_doc EXT2_NDIR_BLOCKS] def EXT2_DIND_BLOCK : ℕ := 13

@[inherit_doc EXT2_NDIR_BLOCKS] def EXT2_TIND_BLOCK : ℕ := 14

/-- Number of pointers in a block. -/
def EXT2_INDIRECT : ℕ := 256

/-- An inode in memory, with its `struct ext2fs_addrs`. -/
structure InCore where
  inum : ℕ
  type : InodeType
  nlink : ℤ
  ref : ℕ
  valid : Bool
  size : ℕ
  addrs : ℕ → ℕ

namespace InCore

/-- `ad->addrs[k] = a`. -/
def setAddr (ip : InCore) (k a : ℕ) : InCore :=
  { ip with addrs := Function.update ip.addrs k a }

/-- Byte `k` of the `struct ext2_inode` that `ext2fs_iupdate` stores over the bytes `old`. -/
def dinByte (ip : InCore) (old : ℕ → UInt8) (k : ℕ) : UInt8 :=
  if k < 2 then
    match ip.type with
    | .dir => byteOf 0x4000 k
    | .file => byteOf 0x8000 k
    | .none => old k
  else if k < 4 then 0
  else if k < 8 then byteOf ip.size (k - 4)
  else if k < 12 then 0
  else if k < 16 then old k
  else if k < 26 then 0
  else if k < 28 then byteOf (ip.nlink % 2 ^ 16).toNat (k - 26)
  else if k < 32 then old k
  else if k < 36 then 0
  else if k < 40 then old k
  else if k < 100 then byteOf (ip.addrs ((k - 40) / 4)) ((k - 40) % 4)
  else if k < 108 then 0
  else if k < 112 then old k
  else if k < 116 then 0
  else old k

/-- The inode that `ext2fs_ilock` makes of the bytes of a `struct ext2_inode`. -/
def readDin (ip : InCore) (din : ℕ → UInt8) : InCore :=
  { ip with
    type := if le16 din 0 / 2 ^ 12 = 4 then .dir else .file
    nlink := Int.bmod (le16 din 26) (2 ^ 16)
    size := le32 din 4
    addrs := fun k => if k ≤ EXT2_TIND_BLOCK then le32 din (40 + 4 * k) else ip.addrs k
    valid := true }

end InCore

/-- `sizeof(struct ext2_inode)`, whose `osd2` has 16 bytes.  The last inode of a block reaches over
the end of the buffer with bytes that are stored back as they were read. -/
def sizeofExt2Inode : ℕ := 132

namespace Super

/-- Inodes in a block of the inode table. -/
def inodesPerBlock (sb : Super) : ℕ := BSIZE / sb.sInodeSize

/-- Offset of inode `inum` in its block of the inode table. -/
def inodeOffset (sb : Super) (inum : ℕ) : ℕ :=
  sb.inodeIndex inum % sb.inodesPerBlock * sb.sInodeSize

end Super

namespace Io

/-- `ext2fs_iupdate`. -/
def ext2fsIupdate (sb : Super) (ip : InCore) : IoM Unit := do
  let bp ← bread 2
  let table ← load bp (sb.groupNo ip.inum * groupDescWords + bgInodeTable)
  brelse bp
  let bp1 ← bread ((table + sb.inodeIndex ip.inum / sb.inodesPerBlock) % 2 ^ 32)
  modifyData bp1 fun d =>
    d.memmove (sb.inodeOffset ip.inum) sizeofExt2Inode
      (ip.dinByte fun k => d.byte (sb.inodeOffset ip.inum + k))
  bwrite bp1
  brelse bp1

/-- `ext2fs_ilock`, from where it has the lock of the inode. -/
def ext2fsIlock (sb : Super) (ip : InCore) : IoM InCore := do
  if ip.valid then pure ip
  else
    let bp ← bread 2
    let table ← load bp (sb.groupNo ip.inum * groupDescWords + bgInodeTable)
    brelse bp
    let bp1 ← bread ((table + sb.inodeIndex ip.inum / sb.inodesPerBlock) % 2 ^ 32)
    let d ← data bp1
    brelse bp1
    pure (ip.readDin fun k => d.byte (sb.inodeOffset ip.inum + k))

/-- `ext2fs_ifree`. -/
def ext2fsIfree (sb : Super) (ip : InCore) : IoM Unit := do
  let bp1 ← bread 2
  let bitmap ← load bp1 (sb.groupNo ip.inum * groupDescWords + bgInodeBitmap)
  brelse bp1
  let bp2 ← bread bitmap
  clearBitmap bp2 (toInt32 (sb.inodeIndex ip.inum)) "ext2fs_ifree: inode already free"
  brelse bp2

/-- `if ((addr = ad->addrs[k]) == 0) ad->addrs[k] = addr = ext2fs_balloc(ip->dev, ip->inum)`. -/
def mapAddr (sb : Super) (ip : InCore) (k : ℕ) : IoM (ℕ × InCore) := do
  if ip.addrs k = 0 then
    let addr ← ext2fsBalloc sb ip.inum
    pure (addr, ip.setAddr k addr)
  else pure (ip.addrs k, ip)

/-- `if ((addr = a[k]) == 0) a[k] = addr = ext2fs_balloc(ip->dev, ip->inum)`, for `a = bp->data`. -/
def mapEntry (sb : Super) (ip : InCore) (bp : Fin NBUF) (k : ℕ) : IoM ℕ := do
  let addr ← load bp k
  if addr = 0 then
    let addr ← ext2fsBalloc sb ip.inum
    store bp k addr
    pure addr
  else pure addr

/-- `ext2fs_bmap`, which may set pointers in the inode. -/
def ext2fsBmap (sb : Super) (ip : InCore) (bn : ℕ) : IoM (ℕ × InCore) := do
  if bn < EXT2_NDIR_BLOCKS then mapAddr sb ip bn
  else
    let bn := bn - EXT2_NDIR_BLOCKS
    if bn < EXT2_INDIRECT then
      let (addr, ip) ← mapAddr sb ip EXT2_IND_BLOCK
      let bp ← bread addr
      let addr ← mapEntry sb ip bp bn
      brelse bp
      pure (addr, ip)
    else
      let bn := bn - EXT2_INDIRECT
      if bn < EXT2_INDIRECT * EXT2_INDIRECT then
        let (addr, ip) ← mapAddr sb ip EXT2_DIND_BLOCK
        let bp ← bread addr
        let addr ← mapEntry sb ip bp (bn / EXT2_INDIRECT)
        let bp1 ← bread addr
        let addr ← mapEntry sb ip bp1 (bn % EXT2_INDIRECT)
        brelse bp
        brelse bp1
        pure (addr, ip)
      else
        let bn := bn - EXT2_INDIRECT * EXT2_INDIRECT
        if bn < EXT2_INDIRECT * EXT2_INDIRECT * EXT2_INDIRECT then
          let (addr, ip) ← mapAddr sb ip EXT2_TIND_BLOCK
          let bp ← bread addr
          let addr ← mapEntry sb ip bp (bn / EXT2_INDIRECT * EXT2_INDIRECT)
          let bp1 ← bread addr
          let addr ← mapEntry sb ip bp1 (bn % EXT2_INDIRECT * EXT2_INDIRECT / EXT2_INDIRECT)
          let bp2 ← bread addr
          let addr ← mapEntry sb ip bp2 (bn % EXT2_INDIRECT)
          brelse bp
          brelse bp1
          brelse bp2
          pure (addr, ip)
        else throw (.panic "ext2_bmap: block number out of range")

/-- Free the blocks that the pointer block `n` leads to through `level` levels of pointers. -/
def freeTree (sb : Super) : ℕ → ℕ → IoM Unit
  | 0, _ => pure ()
  | level + 1, n => do
    let bp ← bread n
    (List.range EXT2_INDIRECT).forM fun i => do
      let a ← load bp i
      if a ≠ 0 then
        freeTree sb level a
        ext2fsBfree sb a
        store bp i 0
      else pure ()
    brelse bp

/-- Free the block at `addrs[k]`, and below it `level` levels of pointers. -/
def freeAddr (sb : Super) (level : ℕ) (ip : InCore) (k : ℕ) : IoM InCore := do
  if ip.addrs k ≠ 0 then
    freeTree sb level (ip.addrs k)
    ext2fsBfree sb (ip.addrs k)
    pure (ip.setAddr k 0)
  else pure ip

/-- `ext2fs_itrunc`. -/
def ext2fsItrunc (sb : Super) (ip : InCore) : IoM InCore := do
  let ip ← (List.range EXT2_NDIR_BLOCKS).foldlM (freeAddr sb 0) ip
  let ip ← freeAddr sb 1 ip EXT2_IND_BLOCK
  let ip ← freeAddr sb 2 ip EXT2_DIND_BLOCK
  let ip ← freeAddr sb 3 ip EXT2_TIND_BLOCK
  let ip := { ip with size := 0 }
  ext2fsIupdate sb ip
  pure ip

/-- `ext2fs_iput` on an inode whose lock is free. -/
def ext2fsIput (sb : Super) (ip : InCore) : IoM InCore := do
  if ip.valid ∧ ip.nlink = 0 ∧ ip.ref = 1 then
    ext2fsIfree sb ip
    let ip ← ext2fsItrunc sb ip
    let ip := { ip with type := .none }
    ext2fsIupdate sb ip
    pure { ip with valid := false, ref := ip.ref - 1 }
  else pure { ip with ref := ip.ref - 1 }

/-- A round of `ext2fs_readi`: the `m` bytes at `off`, which lie in one block. -/
def readRound (sb : Super) (ip : InCore) (off m : ℕ) : IoM (Bytes × InCore) := do
  let (addr, ip) ← ext2fsBmap sb ip (off / BSIZE)
  let bp ← bread addr
  let d ← data bp
  brelse bp
  pure ((List.range m).map fun k => d.byte (off % BSIZE + k), ip)

/-- The loop of `ext2fs_readi`, for at most `fuel` rounds; `room` bytes can be copied out before
`either_copyout` fails. -/
def readLoop (sb : Super) : ℕ → InCore → ℕ → ℕ → ℕ → IoM (Option Bytes × InCore)
  | 0, ip, _, _, _ => pure (some [], ip)
  | fuel + 1, ip, off, n, room => do
    if n = 0 then pure (some [], ip)
    else
      let m := min n (BSIZE - off % BSIZE)
      let (bytes, ip) ← readRound sb ip off m
      if room < m then pure (none, ip)
      else
        let (rest, ip) ← readLoop sb fuel ip (off + m) (n - m) (room - m)
        pure (rest.map (bytes ++ ·), ip)

/-- `ext2fs_readi`: the result, the bytes copied out and the inode. -/
def ext2fsReadi (sb : Super) (ip : InCore) (off n room : ℕ) :
    IoM (ℤ × Bytes × InCore) := do
  if ip.size < off ∨ (off + n) % 2 ^ 32 < off then pure (-1, [], ip)
  else
    let n := if ip.size < (off + n) % 2 ^ 32 then ip.size - off else n
    match ← readLoop sb n ip off n room with
    | (some bytes, ip) => pure ((n : ℤ), bytes, ip)
    | (none, ip) => pure (-1, [], ip)

/-- A round of `ext2fs_writei` that is to store `m` bytes at `off`, of which `either_copyin` stores
the first `c`. -/
def writeRound (sb : Super) (ip : InCore) (off m c : ℕ) (src : ℕ → UInt8) : IoM InCore := do
  let (addr, ip) ← ext2fsBmap sb ip (off / BSIZE)
  let bp ← bread addr
  modifyData bp (·.memmove (off % BSIZE) c src)
  if c < m then
    brelse bp
    pure ip
  else
    bwrite bp
    brelse bp
    pure ip

/-- The loop of `ext2fs_writei`, for at most `fuel` rounds: the offset where it stops.  The first
`avail` bytes at `src` can be copied in. -/
def writeLoop (sb : Super) : ℕ → InCore → ℕ → ℕ → ℕ → (ℕ → UInt8) → IoM (ℕ × InCore)
  | 0, ip, off, _, _, _ => pure (off, ip)
  | fuel + 1, ip, off, n, avail, src => do
    if n = 0 then pure (off, ip)
    else
      let m := min n (BSIZE - off % BSIZE)
      let ip ← writeRound sb ip off m (min m avail) src
      if avail < m then pure (off, ip)
      else writeLoop sb fuel ip (off + m) (n - m) (avail - m) fun k => src (k + m)

/-- `ext2fs_writei`. -/
def ext2fsWritei (sb : Super) (ip : InCore) (off n avail : ℕ) (src : ℕ → UInt8) :
    IoM (ℤ × InCore) := do
  if ip.size < off ∨ (off + n) % 2 ^ 32 < off then pure (-1, ip)
  else if EXT2_MAXFILE * BSIZE < (off + n) % 2 ^ 32 then pure (-1, ip)
  else
    let (off, ip) ← writeLoop sb n ip off n avail src
    if 0 < n ∧ ip.size < off then
      let ip := { ip with size := off }
      ext2fsIupdate sb ip
      pure ((n : ℤ), ip)
    else pure ((n : ℤ), ip)

/-- The loop of `ext2fs_dirlookup` from `off` on: the inode number and offset that it finds. -/
def lookupLoop (sb : Super) (name : Bytes) : ℕ → InCore → ℕ → IoM (Option (ℕ × ℕ) × InCore)
  | 0, _, _ => throw .deadlock
  | fuel + 1, dp, off => do
    if off < dp.size then
      let (r, bytes, dp) ← ext2fsReadi sb dp off DirEntry.sizeof DirEntry.sizeof
      let de := DirEntry.decode fun k => bytes.getD k 0
      let fileName := strncpy de.nameLen de.name ++ [0]
      if r ≠ DirEntry.sizeof then throw (.panic "ext2fs_dirlookup: read error")
      else if de.inode ≠ 0 ∧ ext2fsNamecmp name fileName = 0 then
        pure (some (de.inode, off), dp)
      else lookupLoop sb name fuel dp ((off + de.recLen) % 2 ^ 32)
    else pure (none, dp)

/-- The second loop of `ext2fs_dirlink` from `off` on: the offset where it stops. -/
def slotLoop (sb : Super) : ℕ → InCore → ℕ → IoM (ℕ × InCore)
  | 0, _, _ => throw .deadlock
  | fuel + 1, dp, off => do
    if (off : ℤ) < toInt32 dp.size then
      let (r, bytes, dp) ← ext2fsReadi sb dp off DirEntry.sizeof DirEntry.sizeof
      let de := DirEntry.decode fun k => bytes.getD k 0
      if r ≠ DirEntry.sizeof then throw (.panic "ext2fs_dirlink read")
      else if de.inode = 0 then pure (off, dp)
      else slotLoop sb fuel dp (off + DirEntry.sizeof)
    else pure (off, dp)

/-- `ext2fs_dirlink` for a name that is not in the directory. -/
def linkAbsent (sb : Super) (fuel : ℕ) (dp : InCore) (name : Bytes) (inum : ℕ)
    (stack : ℕ → UInt8) : IoM (ℤ × InCore) := do
  let (off, dp) ← slotLoop sb fuel dp 0
  let de := DirEntry.link name inum
  let dp := { dp with size := (off + de.recLen) % 2 ^ 32 }
  ext2fsIupdate sb dp
  let (_, dp) ← ext2fsWritei sb dp off de.recLen de.recLen (de.image stack)
  pure (0, dp)

end Io

end Cinux
