import Cinux.Ext2.Bounds
import Mathlib.Data.UInt

/-!
# The scan for a free block

`ext2fs_free_block` looks at `s_blocks_per_group * 8` bytes: it takes a number of bits for a number
of bytes and multiplies it by eight where it should divide by it.  So the scan leaves the bitmap as
soon as the bitmap has no clear bit, and before that finds bits that do not belong to the group.
And `ext2fs_balloc` looks at the bitmap of one group only.

* `Io.freeBlock_exact` : when the scan stays inside the bits of the group;
* `Io.balloc_complete` : when `ext2fs_balloc` finds a free block if there is one.
-/

namespace Cinux

/-! ### The first clear bit -/

variable {mem : ℕ → UInt8}

theorem firstClear_none {n m t : ℕ} (h : firstClear mem n 0 = none) (hm : m < n)
    (ht : t < 8) : (mem m).toNat.testBit t = true := by
  by_contra hclear
  obtain ⟨i, j, hr, -⟩ := firstClear_of_clear (n := n) (Nat.zero_le m) (by omega) ht
    (Bool.eq_false_of_not_eq_true hclear)
  rw [h] at hr
  cases hr

/-- Bit `k'` comes before bit `k`: byte by byte, and from the top of each byte. -/
def ScannedBefore (k' k : ℕ) : Prop := k' / 8 < k / 8 ∨ k' / 8 = k / 8 ∧ k < k'

/-- The first clear bit of the bitmap is one of its first `n` bits; or no bit in the first `8 * n`
bytes is clear, and these are bytes of the bitmap. -/
def ScanFits (d : Block) (n : ℕ) : Prop :=
  (∃ k < n, d.bit k = false ∧ ∀ k', ScannedBefore k' k → d.bit k' = true) ∨
    8 * n ≤ BSIZE ∧ ∀ k < 64 * n, d.bit k = true

/-- The same in terms of the scan. -/
def ScanMeets (r : Option (ℕ × ℕ)) (n : ℕ) : Prop :=
  match r with
  | some (i, j) => i < BSIZE ∧ i * 8 + (7 - j) < n
  | none => 8 * n ≤ BSIZE

theorem scanMeets_iff {d : Block} {n : ℕ} (hn : n ≤ 8 * BSIZE)
    (hmem : ∀ i < BSIZE, mem i = d.byte i) :
    ScanMeets (firstClear mem (8 * n) 0) n ↔ ScanFits d n := by
  have hbit : ∀ k < 8 * BSIZE, d.bit k = (mem (k / 8)).toNat.testBit (k % 8) := by
    intro k hk
    rw [hmem _ (by omega)]
    rfl
  have hat : ∀ {i j : ℕ}, i < BSIZE → j < 8 →
      d.bit (i * 8 + (7 - j)) = (mem i).toNat.testBit (7 - j) := by
    intro i j hi hj
    rw [hbit _ (by omega), show (i * 8 + (7 - j)) / 8 = i by omega,
      show (i * 8 + (7 - j)) % 8 = 7 - j by omega]
  cases hr : firstClear mem (8 * n) 0 with
  | none =>
    refine ⟨fun hle => .inr ⟨hle, fun k hk => ?_⟩, ?_⟩
    · change 8 * n ≤ BSIZE at hle
      rw [hbit k (by omega)]
      exact firstClear_none hr (by omega) (by omega)
    · rintro (⟨k, hk, hclear, -⟩ | ⟨hle, -⟩)
      · rw [hbit k (by omega), firstClear_none hr (by omega) (by omega)] at hclear
        cases hclear
      · exact hle
  | some r =>
    obtain ⟨i, j⟩ := r
    obtain ⟨hi8, hj, hclear⟩ := firstClear_spec hr
    constructor
    · rintro ⟨hi, hlt⟩
      refine .inl ⟨_, hlt, (hat hi hj).trans hclear, fun k' hk' => ?_⟩
      unfold ScannedBefore at hk'
      rw [hbit k' (by omega)]
      exact firstClear_first hr (Nat.zero_le _) (by omega) (by omega)
    · rintro (⟨k, hk, hk0, hbefore⟩ | ⟨hle, hall⟩)
      · -- the two descriptions of the first clear bit agree
        obtain ⟨i', j', hr', hle⟩ := firstClear_of_clear (n := 8 * n) (Nat.zero_le (k / 8))
          (by omega) (Nat.mod_lt k (by decide)) ((hbit k (by omega)).symm.trans hk0)
        obtain ⟨rfl, rfl⟩ : i = i' ∧ j = j' := by simpa [hr] using hr'
        have hi : i < BSIZE := by omega
        have hnot : ¬ScannedBefore (i * 8 + (7 - j)) k := by
          intro hb
          have := hbefore _ hb
          rw [hat hi hj, hclear] at this
          cases this
        have hsame : i * 8 + (7 - j) = k := by
          unfold ScannedBefore at hnot
          by_contra hne
          have := firstClear_first hr (Nat.zero_le (k / 8)) (Nat.mod_lt k (by decide)) (by omega)
          rw [← hbit k (by omega), hk0] at this
          cases this
        exact ⟨hi, by omega⟩
      · have := hall (i * 8 + (7 - j)) (by omega)
        rw [hat (by omega) hj, hclear] at this
        cases this

namespace Io

variable {s : Io} {sb : Super} {b : Fin NBUF} {i j : ℕ}

/-! ### One bitmap -/

theorem freeBlock_none (hr : firstClear (fun i => s.byteAt b i) sb.scanBytes 0 = none) :
    ext2fsFreeBlock sb b s = .ok (none, s) := by
  have hscan : scanBitmap sb b s = .ok (none, s) := by rw [scanBitmap, hr]
  rw [ext2fsFreeBlock, Program.bind_ok hscan]
  rfl

theorem freeBlock_some (hr : firstClear (fun i => s.byteAt b i) sb.scanBytes 0 = some (i, j))
    (hi : i < BSIZE) :
    ∃ s', ext2fsFreeBlock sb b s = .ok (some (i * 8 + j), s') ∧
      (s'.cache.buf b).data = markBit (s.cache.buf b).data i j := by
  have hscan : scanBitmap sb b s = .ok (some (i, j), s) := by rw [scanBitmap, hr]
  have hget : getByteAt b i s = .ok (s.byteAt b i, s) := rfl
  have hin : (0 : ℤ) ≤ i ∧ (i : ℤ) < BSIZE := by omega
  refine ⟨{ s with cache := s.cache.modify b fun x =>
    { x with data := x.data.setByte i (s.byteAt b i ||| UInt8.ofNat (2 ^ (7 - j))) } }, ?_, ?_⟩
  · rw [ext2fsFreeBlock, Program.bind_ok hscan]
    dsimp only
    rw [Program.bind_ok hget]
    refine Program.bind_ok (a := ()) ?_
    rw [setByteAt, if_pos hin, Int.toNat_natCast]
    rfl
  · rw [markBit, if_pos hi, byteAt, if_pos hin, Int.toNat_natCast]
    simp

/-- `ext2fs_free_block` accesses only the bytes of the buffer, returns `(uint)-1` exactly if all
bits of the group are set, and otherwise sets one clear bit of the group. -/
structure FreeBlockExact (s : Io) (sb : Super) (b : Fin NBUF) : Prop where
  inside : Stays (freeBlockChecked sb b) s
  returns : ∃ r s', ext2fsFreeBlock sb b s = .ok (r, s') ∧
    (r = none ↔ ∀ k < sb.sBlocksPerGroup, (s.cache.buf b).data.bit k = true) ∧
    (r ≠ none → ∃ k < sb.sBlocksPerGroup, (s.cache.buf b).data.bit k = false ∧
      ∀ k' < 8 * BSIZE, (s'.cache.buf b).data.bit k' =
        ((s.cache.buf b).data.bit k' || decide (k' = k)))

theorem scanBytes_eq (h : sb.sBlocksPerGroup ≤ 8 * BSIZE) :
    sb.scanBytes = 8 * sb.sBlocksPerGroup := by
  have hfits : sb.sBlocksPerGroup * 8 < 2 ^ 31 := by
    simp only [BSIZE] at h
    omega
  unfold Super.scanBytes
  rw [toInt32_of_fits hfits, Int.toNat_natCast, Nat.mul_comm]

theorem byteAt_inside (hi : i < BSIZE) : s.byteAt b i = (s.cache.buf b).data.byte i := by
  rw [byteAt, if_pos (by omega), Int.toNat_natCast]

/-- **The scan of a bitmap.**  For at most 8192 blocks a group and any contents of the buffer,
`ext2fs_free_block` is exact if and only if the first clear bit belongs to the group, or there is
no clear bit and the scan ends inside the buffer. -/
theorem freeBlock_exact (s : Io) (sb : Super) (b : Fin NBUF)
    (hle : sb.sBlocksPerGroup ≤ 8 * BSIZE) :
    s.FreeBlockExact sb b ↔ ScanFits (s.cache.buf b).data sb.sBlocksPerGroup := by
  rw [← scanMeets_iff hle fun i hi => byteAt_inside (s := s) (b := b) hi, ← scanBytes_eq hle]
  have hstays : Stays (freeBlockChecked sb b) s ↔
      ScanInside (firstClear (fun i => s.byteAt b i) sb.scanBytes 0) sb.scanBytes := by
    rw [← bind_pure (freeBlockChecked sb b)]
    exact stays_freeBlock (fun _ => rfl) fun _ _ => stays_pure _
  cases hr : firstClear (fun i => s.byteAt b i) sb.scanBytes 0 with
  | none =>
    rw [hr] at hstays
    have hnone := freeBlock_none hr
    constructor
    · intro hex
      exact (scanBytes_eq hle).symm.trans_le (hstays.1 hex.inside)
    · intro hin
      have hin' : 8 * sb.sBlocksPerGroup ≤ BSIZE := hin
      have hall : ∀ k < sb.sBlocksPerGroup, (s.cache.buf b).data.bit k = true := by
        intro k hk
        have hset := firstClear_none (m := k / 8) (t := k % 8) hr
          (by rw [scanBytes_eq hle]; omega) (by omega)
        rwa [byteAt_inside (by omega)] at hset
      exact ⟨hstays.2 ((scanBytes_eq hle).trans_le hin),
        none, s, hnone, iff_of_true rfl hall, fun hne => absurd rfl hne⟩
  | some r =>
    obtain ⟨i, j⟩ := r
    rw [hr] at hstays
    obtain ⟨-, hj, hclear⟩ := firstClear_spec hr
    have hbit : i < BSIZE → (s.cache.buf b).data.bit (i * 8 + (7 - j)) = false := by
      intro hi
      rw [byteAt_inside hi] at hclear
      unfold Block.bit
      rwa [show (i * 8 + (7 - j)) / 8 = i by omega, show (i * 8 + (7 - j)) % 8 = 7 - j by omega]
    constructor
    · intro hex
      have hi : i < BSIZE := hstays.1 hex.inside
      obtain ⟨s1, hrun, hdata⟩ := freeBlock_some hr hi
      obtain ⟨r, s', hrun', -, hset⟩ := hex.returns
      rw [hrun] at hrun'
      obtain ⟨rfl, rfl⟩ := Program.ok_inj hrun'
      obtain ⟨k, hk, -, hbits⟩ := hset (by simp)
      -- the bit that was marked is the one of the group
      have hmark := hbits (i * 8 + (7 - j)) (by omega)
      rw [hdata, Block.bit_markBit _ hi hj, hbit hi, decide_eq_true rfl, Bool.false_or,
        Bool.false_or, eq_comm, decide_eq_true_eq] at hmark
      exact ⟨hi, hmark ▸ hk⟩
    · rintro ⟨hi, hk⟩
      obtain ⟨s1, hrun, hdata⟩ := freeBlock_some hr hi
      refine ⟨hstays.2 hi, _, s1, hrun, iff_of_false (by simp) fun hall => ?_,
        fun _ => ⟨_, hk, hbit hi, fun k' _ => ?_⟩⟩
      · have := hall _ hk
        rw [hbit hi] at this
        cases this
      · rw [hdata, Block.bit_markBit _ hi hj]

/-- A bitmap whose first clear bit is bit 7. -/
theorem freeBlock_exact_empty :
    (sampleIo 8 127).FreeBlockExact sampleSuper ⟨0, by decide⟩ := by
  refine (freeBlock_exact _ _ _ (by decide)).2 (.inl ⟨7, by decide, by decide, fun k' hk' => ?_⟩)
  unfold ScannedBefore at hk'
  omega

/-- A state in which the buffers show bitmaps without a clear bit. -/
def fullIo : Io :=
  ⟨{ Bcache.binit with buf := fun _ => { Bcache.bootBuf with data := fun _ => 255 } }, 0, 0⟩

theorem byteAt_fullIo {b : Fin NBUF} {i : ℕ} (hi : i < BSIZE) : fullIo.byteAt b i = 255 := by
  rw [byteAt_inside hi, Block.byte_of_lt _ hi]
  rfl

theorem testBit_full {t : ℕ} (ht : t < 8) : (255 : UInt8).toNat.testBit t = true := by
  revert t
  decide

/-- **With 8192 blocks a group, the scan of a full bitmap leaves the buffer.** -/
theorem freeBlock_overruns :
    sampleSuper.sBlocksPerGroup ≤ 8 * BSIZE ∧
      (∀ k < 8 * BSIZE, (fullIo.cache.buf ⟨0, by decide⟩).data.bit k = true) ∧
      ¬Stays (freeBlockChecked sampleSuper ⟨0, by decide⟩) fullIo ∧
      ¬fullIo.FreeBlockExact sampleSuper ⟨0, by decide⟩ := by
  have hover : ¬Stays (freeBlockChecked sampleSuper ⟨0, by decide⟩) fullIo := by
    rw [← bind_pure (freeBlockChecked _ _), stays_freeBlock (fun _ => rfl) fun _ _ => stays_pure _]
    cases hr : firstClear (fun i => fullIo.byteAt ⟨0, by decide⟩ i) sampleSuper.scanBytes 0 with
    | none => exact (by decide : ¬sampleSuper.scanBytes ≤ BSIZE)
    | some r =>
      intro hi
      obtain ⟨-, hj, hclear⟩ := firstClear_spec (i := r.1) (j := r.2) hr
      rw [byteAt_fullIo hi, testBit_full (by omega)] at hclear
      cases hclear
  refine ⟨by decide, fun k hk => ?_, hover, fun hex => hover hex.inside⟩
  unfold Block.bit
  rw [← byteAt_inside (by omega), byteAt_fullIo (by omega)]
  exact testBit_full (by omega)

/-! ### All groups -/

section Balloc

variable {backup : ℕ → Prop} {inum : ℕ}

/-- If a block is free then `ext2fs_balloc` returns one; it panics only if none is free.  The bitmap
and the block that is returned, which it clears, are blocks of the disk: `virtio_disk_intr` panics
when a request for another one fails. -/
def BallocComplete (s : Io) (sb : Super) (inum : ℕ) : Prop :=
  ((∃ x, sb.Free s.disk x) → s.groupBitmap sb inum < sb.sBlocksCount ∧
      ∃ x < sb.sBlocksCount, ∃ s', ext2fsBalloc sb inum s = .ok (x, s')) ∧
    (ext2fsBalloc sb inum s = .error (.panic "ext2_balloc: out of blocks") →
      ¬∃ x, sb.Free s.disk x)

/-- Bit `p` in the order of the scan for the group of `inum`: byte by byte, and from the top of each
byte. -/
def scanned (s : Io) (sb : Super) (inum p : ℕ) : Bool :=
  (s.blockByte (s.groupBitmap sb inum) (p / 8 : ℕ)).toNat.testBit (7 - p % 8)

/-- Among the bits that are scanned for the group of `inum` one is clear.  The first one that is,
bit `p`, is not the first bit, and the block `p` blocks behind the bitmap is, like the bitmap, a
block of the disk. -/
def Scannable (s : Io) (sb : Super) (inum : ℕ) : Prop :=
  s.groupBitmap sb inum < sb.sBlocksCount ∧ ∃ p < 64 * sb.sBlocksPerGroup, 0 < p ∧
    s.scanned sb inum p = false ∧ (∀ q < p, s.scanned sb inum q = true) ∧
    (s.groupBitmap sb inum + p) % 2 ^ 32 < sb.sBlocksCount

theorem scan_eq_iff (hst : sb.Standard s.disk backup) : s.scan sb inum = some (i, j) ↔
    j < 8 ∧ i * 8 + j < 64 * sb.sBlocksPerGroup ∧ s.scanned sb inum (i * 8 + j) = false ∧
      ∀ q < i * 8 + j, s.scanned sb inum q = true := by
  have hn := scanBytes_eq hst.perGroup_le
  have hat : ∀ {i j : ℕ}, j < 8 → (i * 8 + j) / 8 = i ∧ (i * 8 + j) % 8 = j := by omega
  constructor
  · intro hr
    obtain ⟨hi, hj, hclear⟩ := firstClear_spec hr
    refine ⟨hj, by omega, ?_, fun q hq => ?_⟩
    · unfold scanned
      rwa [(hat hj).1, (hat hj).2]
    · have hbefore : q / 8 < i ∨ q / 8 = i ∧ 7 - j < 7 - q % 8 := by omega
      have hset := firstClear_first hr (Nat.zero_le _) (by omega) hbefore
      exact hset
  · rintro ⟨hj, hlt, hclear, hbefore⟩
    have hclear' := hclear
    unfold scanned at hclear'
    rw [(hat hj).1, (hat hj).2] at hclear'
    obtain ⟨i', j', hr, -⟩ : ∃ i' j', s.scan sb inum = some (i', j') ∧ i' ≤ i :=
      firstClear_of_clear (Nat.zero_le i) (by omega) (by omega) hclear'
    obtain ⟨-, hj', hzero⟩ := firstClear_spec hr
    -- of two first clear bits neither comes before the other
    have hge : ¬i' * 8 + j' < i * 8 + j := by
      intro hlt'
      have hset := hbefore _ hlt'
      unfold scanned at hset
      rw [(hat hj').1, (hat hj').2, hzero] at hset
      cases hset
    have hle : ¬i * 8 + j < i' * 8 + j' := by
      intro hlt'
      have hset := firstClear_first (t := 7 - j) hr (Nat.zero_le i) (by omega) (by omega)
      rw [hclear'] at hset
      cases hset
    obtain ⟨rfl, rfl⟩ : i' = i ∧ j' = j := by omega
    exact hr

theorem scannable_iff (hst : sb.Standard s.disk backup) :
    s.Scannable sb inum ↔ s.groupBitmap sb inum < sb.sBlocksCount ∧
      ∃ i j, s.scan sb inum = some (i, j) ∧ ¬(i = 0 ∧ j = 0) ∧
        (s.groupBitmap sb inum + (i * 8 + j)) % 2 ^ 32 < sb.sBlocksCount := by
  refine and_congr_right fun _ => ⟨?_, ?_⟩
  · rintro ⟨p, hp, hpos, hclear, hbefore, hlt⟩
    have hsplit : p / 8 * 8 + p % 8 = p := by omega
    refine ⟨p / 8, p % 8, (scan_eq_iff hst).2 ?_, by omega, by rwa [hsplit]⟩
    rw [hsplit]
    exact ⟨by omega, hp, hclear, hbefore⟩
  · rintro ⟨i, j, hr, hne, hlt⟩
    obtain ⟨-, hp, hclear, hbefore⟩ := (scan_eq_iff hst).1 hr
    exact ⟨i * 8 + j, hp, by omega, hclear, hbefore, hlt⟩

/-- **When `ext2fs_balloc` finds a free block.**  On an image in the standard layout, with all
buffers released and clean, it does what it should exactly if no block is free, or the first clear
bit in the scan for the group of the inode is not the first bit and gives a block of the disk. -/
theorem balloc_complete (s : Io) (sb : Super) (backup : ℕ → Prop) (inum : ℕ)
    (h : s.Coherent [] ∅) (hst : sb.Standard s.disk backup) :
    s.BallocComplete sb inum ↔ ((∃ x, sb.Free s.disk x) → s.Scannable sb inum) := by
  rw [scannable_iff hst]
  constructor
  · rintro ⟨hret, -⟩ hfree
    obtain ⟨hbm, x, hx, s', hrun⟩ := hret hfree
    cases hscan : s.scan sb inum with
    | none =>
      rw [h.balloc_full hscan] at hrun
      cases hrun
    | some r =>
      have hne : ¬(r.1 = 0 ∧ r.2 = 0) := by
        intro hzero
        have hsame : (s.groupBitmap sb inum + (r.1 * 8 + r.2)) % 2 ^ 32 =
            s.groupBitmap sb inum := by
          rw [hzero.1, hzero.2, Nat.zero_mul, Nat.add_zero]
          exact Nat.mod_eq_of_lt (groupBitmap_lt s sb inum)
        rw [h.balloc_first hscan hsame] at hrun
        cases hrun
      obtain ⟨s1, hrun', -⟩ := h.balloc_ok hscan (target_ne hst hscan hne)
      rw [hrun] at hrun'
      obtain ⟨rfl, -⟩ := Program.ok_inj hrun'
      exact ⟨hbm, r.1, r.2, rfl, hne, hx⟩
  · intro hfits
    have hret : (∃ x, sb.Free s.disk x) → s.groupBitmap sb inum < sb.sBlocksCount ∧
        ∃ x < sb.sBlocksCount, ∃ s', ext2fsBalloc sb inum s = .ok (x, s') := by
      intro hfree
      obtain ⟨hbm, i, j, hscan, hne, hlt⟩ := hfits hfree
      obtain ⟨s', hrun, -⟩ := h.balloc_ok hscan (target_ne hst hscan hne)
      exact ⟨hbm, _, hlt, s', hrun⟩
    refine ⟨hret, fun hpanic hfree => ?_⟩
    obtain ⟨-, x, -, s', hrun⟩ := hret hfree
    rw [hpanic] at hrun
    cases hrun

/-- The first clear bit of the sample image gives block 16 of 64. -/
theorem balloc_complete_sample : (sampleIo 8 127).BallocComplete sampleSuper 2 := by
  obtain ⟨-, -, hbm, hscan⟩ := scan_sampleIo
  have hscannable : (sampleIo 8 127).Scannable sampleSuper 2 := by
    rw [scannable_iff standard_sampleDisk_good, hbm]
    exact ⟨by decide, 1, 0, hscan, by decide, by decide⟩
  exact (balloc_complete _ _ _ 2 (coherent_binit _ _) standard_sampleDisk_good).2
    fun _ => hscannable

/-- A file system of 65 blocks in two groups. -/
def twoSuper : Super := ⟨65, 1, 32, 32, 128⟩

/-- Its disk: the bitmaps of the groups are in blocks 3 and 35.  All blocks of the first group are
in use, and the blocks from 41 on are free. -/
def twoDisk : ℕ → Block := fun n j =>
  if n = 2 then
    [3, 0, 0, 0, 4, 0, 0, 0, 5, 0, 0, 0, 0, 0, 0, 0, 0, 0, 0, 0, 0, 0, 0, 0, 0, 0, 0, 0, 0, 0, 0, 0,
      35, 0, 0, 0, 36, 0, 0, 0, 37].getD j.val 0
  else if n = 35 ∧ 1 ≤ j.val ∧ j.val < 4 then 0
  else if n = 3 ∨ n = 35 then 255 else 0

/-- The state after boot with that disk. -/
def twoIo : Io := ⟨Bcache.binit, twoDisk, fun _ _ => 255⟩

theorem desc_twoDisk : blockBitmap twoDisk 0 = 3 ∧ descWord twoDisk 0 bgInodeBitmap = 4 ∧
    descWord twoDisk 0 bgInodeTable = 5 ∧ blockBitmap twoDisk 1 = 35 ∧
    descWord twoDisk 1 bgInodeBitmap = 36 ∧ descWord twoDisk 1 bgInodeTable = 37 := by
  decide +kernel

theorem byte_twoDisk {i : ℕ} (hi : i < BSIZE) :
    (twoDisk 3).byte i = 255 ∧ (twoDisk 35).byte i = if 1 ≤ i ∧ i < 4 then 0 else 255 := by
  rw [Block.byte_of_lt _ hi, Block.byte_of_lt _ hi]
  simp [twoDisk]

theorem bit_twoDisk {k : ℕ} (hk : k < 8 * BSIZE) :
    (twoDisk 3).bit k = true ∧ ((twoDisk 35).bit k = false ↔ 8 ≤ k ∧ k < 32) := by
  obtain ⟨h0, h1⟩ := byte_twoDisk (i := k / 8) (by omega)
  unfold Block.bit
  rw [h0, h1]
  refine ⟨testBit_full (by omega), ?_⟩
  split_ifs with hin
  · simp
    omega
  · rw [testBit_full (by omega)]
    simp
    omega

theorem standard_twoDisk : twoSuper.Standard twoDisk fun _ => True := by
  obtain ⟨h0, h0i, h0t, h1, h1i, h1t⟩ := desc_twoDisk
  have hgroups : twoSuper.groups = 2 := by decide
  have htwo : ∀ g < twoSuper.groups, g = 0 ∨ g = 1 := by
    intro g hg
    omega
  refine ⟨rfl, by decide, by decide, trivial, fun g hg g' hg' he => ?_, fun g hg g' hg' => ?_,
    fun g hg k hk hclear => ?_⟩
  · rcases htwo g hg with rfl | rfl <;> rcases htwo g' hg' with rfl | rfl <;> simp_all
  · rcases htwo g hg with rfl | rfl <;> rcases htwo g' hg' with rfl | rfl <;> simp_all
  · obtain ⟨hfull, hfree⟩ := bit_twoDisk hk
    rcases htwo g hg with rfl | rfl
    · rw [h0, hfull] at hclear
      cases hclear
    · rw [h1, hfree] at hclear
      refine ⟨hclear.2, ?_, ?_⟩
      · simp only [Super.blockOf, twoSuper]
        omega
      · rintro ⟨g', hg', hm⟩
        rcases htwo g' hg' with rfl | rfl
        · rw [h0, h0i, h0t, hgroups] at hm
          simp only [Super.blockOf, twoSuper] at hm
          omega
        · rw [h1, h1i, h1t, hgroups] at hm
          simp only [Super.blockOf, twoSuper] at hm
          omega

theorem groupBitmap_twoIo : twoIo.groupBitmap twoSuper 2 = 3 := by decide +kernel

/-- **An allocation for inode 2, in the first group, panics, with 24 blocks free in the second.** -/
theorem balloc_misses_group :
    twoSuper.Standard twoIo.disk (fun _ => True) ∧ twoIo.Coherent [] ∅ ∧
      twoSuper.Free twoIo.disk 41 ∧
      ext2fsBalloc twoSuper 2 twoIo = .error (.panic "ext2_balloc: out of blocks") ∧
      ¬twoIo.BallocComplete twoSuper 2 := by
  have hc : twoIo.Coherent [] ∅ := coherent_binit _ _
  have hfree : twoSuper.Free twoIo.disk 41 := by
    refine ⟨1, by decide, 8, by decide, rfl, ?_⟩
    rw [show blockBitmap twoIo.disk 1 = 35 from desc_twoDisk.2.2.2.1]
    exact (bit_twoDisk (by decide)).2.2 (by decide)
  have hbyte : ∀ i : ℕ, twoIo.blockByte 3 i = 255 := by
    intro i
    unfold blockByte
    split_ifs with hi
    · rw [Int.toNat_natCast]
      exact (byte_twoDisk (by omega)).1
    · rfl
  have hpanic : ext2fsBalloc twoSuper 2 twoIo = .error (.panic "ext2_balloc: out of blocks") := by
    refine hc.balloc_full ?_
    cases hscan : twoIo.scan twoSuper 2 with
    | none => rfl
    | some r =>
      obtain ⟨-, hj, hclear⟩ := firstClear_spec (i := r.1) (j := r.2) hscan
      rw [groupBitmap_twoIo, hbyte, testBit_full (by omega)] at hclear
      cases hclear
  exact ⟨standard_twoDisk, hc, hfree, hpanic, fun hcomplete => hcomplete.2 hpanic ⟨41, hfree⟩⟩

end Balloc

end Io

end Cinux
