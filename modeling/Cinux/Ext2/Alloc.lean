import Cinux.Bio.Io

/-!
# Allocating and freeing blocks

`ext2fs_balloc` and `ext2fs_bfree` with the functions they use, over the buffer cache.  The scan
for a free bit goes through the bytes of the bitmap from the most significant bit down, and over
`s_blocks_per_group * 8` bytes, which is more than the 1024 bytes of the buffer.
-/

namespace Cinux

/-- The fields of `ext2_sb` that the driver uses. -/
structure Super where
  sBlocksCount : ℕ
  sFirstDataBlock : ℕ
  sBlocksPerGroup : ℕ
  sInodesPerGroup : ℕ
  sInodeSize : ℕ

namespace Super

/-- `GET_GROUP_NO`. -/
def groupNo (sb : Super) (inum : ℕ) : ℕ := (inum + (2 ^ 32 - 1)) % 2 ^ 32 / sb.sInodesPerGroup

/-- `GET_INODE_INDEX`. -/
def inodeIndex (sb : Super) (inum : ℕ) : ℕ := (inum + (2 ^ 32 - 1)) % 2 ^ 32 % sb.sInodesPerGroup

/-- Number of bytes that `ext2fs_free_block` looks at. -/
def scanBytes (sb : Super) : ℕ := (toInt32 (sb.sBlocksPerGroup * 8 : ℕ)).toNat

end Super

/-- Words of a `struct ext2_group_desc`. -/
def groupDescWords : ℕ := 8

/-- `bg_block_bitmap`, `bg_inode_bitmap` and `bg_inode_table`, as words of the descriptor. -/
def bgBlockBitmap : ℕ := 0

@[inherit_doc bgBlockBitmap] def bgInodeBitmap : ℕ := 1

@[inherit_doc bgBlockBitmap] def bgInodeTable : ℕ := 2

/-- The inner loop of `ext2fs_free_block`: the first `j` such that bit `7 - j` is clear. -/
def clearBit (v : UInt8) : Option ℕ := (List.range 8).find? fun j => !v.toNat.testBit (7 - j)

/-- The outer loop of `ext2fs_free_block`, for `n` bytes from byte `i` on. -/
def firstClear (mem : ℕ → UInt8) : ℕ → ℕ → Option (ℕ × ℕ)
  | 0, _ => none
  | n + 1, i =>
    match clearBit (mem i) with
    | some j => some (i, j)
    | none => firstClear mem n (i + 1)

namespace Io

/-- `ext2fs_bzero`. -/
def ext2fsBzero (bno : ℕ) : IoM Unit := do
  let bp ← bread bno
  modifyData bp fun _ => Block.zero
  bwrite bp
  brelse bp

/-- The loops of `ext2fs_free_block`. -/
def scanBitmap (sb : Super) (bp : Fin NBUF) : IoM (Option (ℕ × ℕ)) := fun s =>
  .ok (firstClear (fun i => s.byteAt bp i) sb.scanBytes 0, s)

/-- `ext2fs_free_block`; `none` stands for `(uint)-1`. -/
def ext2fsFreeBlock (sb : Super) (bp : Fin NBUF) : IoM (Option ℕ) := do
  match ← scanBitmap sb bp with
  | none => pure none
  | some (i, j) =>
    let byte ← getByteAt bp i
    setByteAt bp i (byte ||| UInt8.ofNat (2 ^ (7 - j)))
    pure (some (i * 8 + j))

/-- The second half of `ext2fs_balloc`, in which it holds the bitmap block. -/
def takeBlock (sb : Super) (bitmap : ℕ) (bp2 : Fin NBUF) : IoM ℕ := do
  match ← ext2fsFreeBlock sb bp2 with
  | some fbit =>
    bwrite bp2
    ext2fsBzero ((bitmap + fbit) % 2 ^ 32)
    brelse bp2
    pure ((bitmap + fbit) % 2 ^ 32)
  | none =>
    brelse bp2
    throw (.panic "ext2_balloc: out of blocks")

/-- `ext2fs_balloc`. -/
def ext2fsBalloc (sb : Super) (inum : ℕ) : IoM ℕ := do
  let bp1 ← bread 2
  let bitmap ← load bp1 (sb.groupNo inum * groupDescWords + bgBlockBitmap)
  brelse bp1
  let bp2 ← bread bitmap
  takeBlock sb bitmap bp2

/-- The bit of a byte that `1 << (index % 8)` stands for.  As the amount of a shift is not negative,
the compiler takes `index & 7` for it, also where the index is negative. -/
def maskBit (index : ℤ) : ℕ := (index % 8).toNat

/-- Clear bit `index` of a bitmap and write it back; panic if it is clear already. -/
def clearBitmap (bp : Fin NBUF) (index : ℤ) (msg : String) : IoM Unit := do
  let byte ← getByteAt bp (index.tdiv 8)
  if byte.toNat.testBit (maskBit index) then
    setByteAt bp (index.tdiv 8) (UInt8.ofNat (byte.toNat - 2 ^ maskBit index))
    bwrite bp
  else throw (.panic msg)

/-- `ext2fs_bfree`. -/
def ext2fsBfree (sb : Super) (b : ℕ) : IoM Unit := do
  let bp1 ← bread 2
  let bitmap ← load bp1 (sb.groupNo b * groupDescWords + bgBlockBitmap)
  let bp2 ← bread bitmap
  clearBitmap bp2 (toInt32 (sb.inodeIndex b - bitmap)) "ext2fs_bfree: block already free"
  brelse bp2
  brelse bp1

end Io

end Cinux
