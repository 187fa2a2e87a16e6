import Cinux.Kernel.Block
import Mathlib.Data.List.Range

/-!
# Files of the ext2 driver

`ext2fs_readi` and `ext2fs_writei` as their callers in the kernel see them: the block map presents
a file as a sequence of blocks, and the two functions move bytes between these blocks and kernel
memory, one block at a time.  Kernel memory is a function from offsets to bytes, so the copies of
`either_copyin` and `either_copyout` cannot fail; devices are not files.

`File.readLoop_eq` and `File.byte_writeLoop` say that the loops over blocks add up to copying a
range of bytes.
-/

namespace Cinux

/-- Number of blocks of the largest file: 12 direct ones, and those below one, two and three levels
of indirect blocks. -/
def EXT2_MAXFILE : ℕ := 12 + 256 + 256 * 256 + 256 * 256 * 256

/-- A file: `ip->size` and the blocks that `ext2fs_bmap` finds. -/
structure File where
  size : ℕ
  block : ℕ → Block

namespace File

/-- The byte at offset `i`. -/
def byte (f : File) (i : ℕ) : UInt8 := (f.block (i / BSIZE)).byte (i % BSIZE)

/-- The bytes of `bp->data` that one round of `ext2fs_readi` copies out. -/
def chunk (f : File) (off m : ℕ) : Bytes :=
  (List.range m).map fun k => (f.block (off / BSIZE)).byte (off % BSIZE + k)

/-- The loop of `ext2fs_readi`. -/
def readLoop (f : File) (off n : ℕ) : Bytes :=
  if n = 0 then []
  else
    f.chunk off (min n (BSIZE - off % BSIZE)) ++
      f.readLoop (off + min n (BSIZE - off % BSIZE)) (n - min n (BSIZE - off % BSIZE))
termination_by n
decreasing_by simp only [BSIZE]; omega

/-- `ext2fs_readi` into kernel memory: the result and the bytes copied. -/
def readi (f : File) (off n : ℕ) : ℤ × Bytes :=
  if f.size < off ∨ (off + n) % 2 ^ 32 < off then (-1, [])
  else
    let n := if f.size < (off + n) % 2 ^ 32 then f.size - off else n
    ((n : ℤ), f.readLoop off n)

/-- One round of `ext2fs_writei`: `m` bytes of the block at `off` are replaced. -/
def patch (f : File) (off m : ℕ) (src : ℕ → UInt8) : File :=
  { f with
    block := Function.update f.block (off / BSIZE)
      ((f.block (off / BSIZE)).memmove (off % BSIZE) m src) }

/-- The loop of `ext2fs_writei`. -/
def writeLoop (f : File) (off n : ℕ) (src : ℕ → UInt8) : File :=
  if n = 0 then f
  else
    (f.patch off (min n (BSIZE - off % BSIZE)) src).writeLoop
      (off + min n (BSIZE - off % BSIZE)) (n - min n (BSIZE - off % BSIZE))
      fun k => src (k + min n (BSIZE - off % BSIZE))
termination_by n
decreasing_by simp only [BSIZE]; omega

/-- `ext2fs_writei` from kernel memory. -/
def writei (f : File) (off n : ℕ) (src : ℕ → UInt8) : ℤ × File :=
  if f.size < off ∨ (off + n) % 2 ^ 32 < off then (-1, f)
  else if EXT2_MAXFILE * BSIZE < (off + n) % 2 ^ 32 then (-1, f)
  else
    let f' := f.writeLoop off n src
    ((n : ℤ), if 0 < n ∧ f.size < off + n then { f' with size := off + n } else f')

variable {f : File} {off n i : ℕ} {src : ℕ → UInt8}

theorem byte_add_of_lt {k : ℕ} (h : off % BSIZE + k < BSIZE) :
    f.byte (off + k) = (f.block (off / BSIZE)).byte (off % BSIZE + k) := by
  simp only [BSIZE] at *
  have h1 : (off + k) / 1024 = off / 1024 := by omega
  have h2 : (off + k) % 1024 = off % 1024 + k := by omega
  simp only [byte, BSIZE, h1, h2]

theorem chunk_eq {m : ℕ} (h : off % BSIZE + m ≤ BSIZE) :
    f.chunk off m = (List.range m).map fun k => f.byte (off + k) := by
  refine List.map_congr_left fun k hk => (byte_add_of_lt ?_).symm
  have := List.mem_range.1 hk
  omega

theorem readLoop_eq (f : File) (off n : ℕ) :
    f.readLoop off n = (List.range n).map fun k => f.byte (off + k) := by
  induction n using Nat.strong_induction_on generalizing off with
  | _ n ih =>
    rw [readLoop]
    split_ifs with hn
    · simp [hn]
    · have hpos : 0 < BSIZE - off % BSIZE := by simp only [BSIZE]; omega
      generalize hm : min n (BSIZE - off % BSIZE) = m
      have hmn : m ≤ n ∧ 0 < m ∧ off % BSIZE + m ≤ BSIZE := by
        simp only [BSIZE] at *
        omega
      rw [ih (n - m) (by omega), chunk_eq hmn.2.2]
      have hsplit : n = m + (n - m) := by omega
      conv_rhs => rw [hsplit, List.range_add, List.map_append, List.map_map]
      simp [Function.comp_def, Nat.add_assoc]

theorem readi_eq (h : off + n ≤ f.size) (hs : f.size < 2 ^ 32) :
    f.readi off n = ((n : ℤ), (List.range n).map fun k => f.byte (off + k)) := by
  have hmod : (off + n) % 2 ^ 32 = off + n := Nat.mod_eq_of_lt (by omega)
  unfold readi
  rw [hmod, if_neg (by omega), if_neg (by omega)]
  dsimp only
  rw [readLoop_eq]

theorem readi_short (h : off ≤ f.size) (hn : f.size < off + n) (hs : off + n < 2 ^ 32) :
    (f.readi off n).1 = ((f.size - off : ℕ) : ℤ) := by
  have hmod : (off + n) % 2 ^ 32 = off + n := Nat.mod_eq_of_lt (by omega)
  unfold readi
  rw [hmod, if_neg (by omega)]
  simp [hn]

theorem byte_patch {m : ℕ} (h : off % BSIZE + m ≤ BSIZE) (i : ℕ) :
    (f.patch off m src).byte i = if off ≤ i ∧ i < off + m then src (i - off) else f.byte i := by
  unfold patch byte
  dsimp only
  by_cases hi : i / BSIZE = off / BSIZE
  · have hin : (off % BSIZE ≤ i % BSIZE ∧ i % BSIZE < off % BSIZE + m) ↔ off ≤ i ∧ i < off + m := by
      simp only [BSIZE] at *
      omega
    rw [hi, Function.update_self, Block.byte_memmove _ h]
    by_cases hr : off ≤ i ∧ i < off + m
    · rw [if_pos (hin.2 hr), if_pos hr]
      congr 1
      simp only [BSIZE] at *
      omega
    · rw [if_neg (mt hin.1 hr), if_neg hr]
  · rw [Function.update_of_ne hi, if_neg (by simp only [BSIZE] at *; omega)]

theorem byte_writeLoop (f : File) (off n : ℕ) (src : ℕ → UInt8) (i : ℕ) :
    (f.writeLoop off n src).byte i = if off ≤ i ∧ i < off + n then src (i - off) else f.byte i := by
  induction n using Nat.strong_induction_on generalizing f off src with
  | _ n ih =>
    rw [writeLoop]
    split_ifs with hn hi hi
    · omega
    · rfl
    all_goals
      have hpos : 0 < BSIZE - off % BSIZE := by simp only [BSIZE]; omega
      generalize hm : min n (BSIZE - off % BSIZE) = m
      have hmn : m ≤ n ∧ 0 < m ∧ off % BSIZE + m ≤ BSIZE := by
        simp only [BSIZE] at *
        omega
      rw [ih (n - m) (by omega), byte_patch hmn.2.2]
    · by_cases hfirst : i < off + m
      · rw [if_neg (by omega), if_pos (by omega)]
      · rw [if_pos (by omega)]
        congr 1
        omega
    · rw [if_neg (by omega), if_neg (by omega)]

theorem writeLoop_size (f : File) (off n : ℕ) (src : ℕ → UInt8) :
    (f.writeLoop off n src).size = f.size := by
  induction n using Nat.strong_induction_on generalizing f off src with
  | _ n ih =>
    rw [writeLoop]
    split_ifs with hn
    · rfl
    · rw [ih _ (by simp only [BSIZE]; omega)]
      rfl

theorem writei_eq (h : off + n ≤ f.size) (hs : f.size < 2 ^ 32) :
    f.writei off n src = ((n : ℤ), f.writeLoop off n src) := by
  have hmod : (off + n) % 2 ^ 32 = off + n := Nat.mod_eq_of_lt (by omega)
  unfold writei
  rw [hmod, if_neg (by omega), if_neg (by simp only [EXT2_MAXFILE, BSIZE]; omega)]
  dsimp only
  rw [if_neg (by omega)]

end File

end Cinux
