import Cinux.Ext2.Release
import Cinux.Ext2.BlockMap
import Cinux.Ext2.Durable
import Mathlib.Algebra.Order.BigOperators.Group.List

/-!
# Truncation

`ext2fs_itrunc` walks the tree of block pointers of a file and frees every block once, the pointer
blocks after what they point to.  To speak about its calls, the code is run with a trace of the
pointer blocks that it reads and of the blocks that it frees.

The walk is right (`Io.itrunc_meets`), but it gets to its end only if every call of `ext2fs_bfree`
returns.  `ext2fs_bfree` looks for the block in the bitmap of the wrong group and at the wrong bit,
and panics when that bit is clear.  `Io.truncates_iff` : the truncation succeeds exactly if each of
these bits is set when its turn comes.
-/

namespace Cinux

open Function List

namespace Io

open Program

/-! ### The tree of a file -/

section Tree

variable (disk : ℕ → Block)

/-- The pointers in `level` levels of pointer blocks from block `n` on, in the order in which they
are freed. -/
def treeFrees : ℕ → ℕ → List ℕ
  | 0, _ => []
  | level + 1, n => (List.range EXT2_INDIRECT).flatMap fun i =>
    if (disk n).word i = 0 then []
    else treeFrees level ((disk n).word i) ++ [(disk n).word i]

/-- A pointer with everything that is freed before it. -/
def entryFrees (level a : ℕ) : List ℕ := if a = 0 then [] else treeFrees disk level a ++ [a]

/-- The pointer blocks that are read in. -/
def treeReads : ℕ → ℕ → List ℕ
  | 0, _ => []
  | level + 1, n => n :: (List.range EXT2_INDIRECT).flatMap fun i =>
    if (disk n).word i = 0 then [] else treeReads level ((disk n).word i)

/-- The pointer blocks at and below a pointer. -/
def entryReads (level a : ℕ) : List ℕ := if a = 0 then [] else treeReads disk level a

/-- What `ext2fs_itrunc` does: it reads in a pointer block or frees a block. -/
inductive TruncEvent where
  | read (n : ℕ)
  | free (a : ℕ)
  deriving DecidableEq

/-- What happens in `level` levels of pointer blocks from block `n` on. -/
def treeEvents : ℕ → ℕ → List TruncEvent
  | 0, _ => []
  | level + 1, n => .read n :: (List.range EXT2_INDIRECT).flatMap fun i =>
    if (disk n).word i = 0 then []
    else treeEvents level ((disk n).word i) ++ [.free ((disk n).word i)]

/-- What happens at a pointer. -/
def entryEvents (level a : ℕ) : List TruncEvent :=
  if a = 0 then [] else treeEvents disk level a ++ [.free a]

theorem treeFrees_succ (level n : ℕ) : treeFrees disk (level + 1) n =
    (List.range EXT2_INDIRECT).flatMap fun i => entryFrees disk level ((disk n).word i) := rfl

theorem treeReads_succ (level n : ℕ) : treeReads disk (level + 1) n =
    n :: (List.range EXT2_INDIRECT).flatMap fun i =>
      entryReads disk level ((disk n).word i) := rfl

theorem treeEvents_succ (level n : ℕ) : treeEvents disk (level + 1) n =
    .read n :: (List.range EXT2_INDIRECT).flatMap fun i =>
      entryEvents disk level ((disk n).word i) := rfl

/-- The places of `addrs`, each with the number of levels of pointer blocks below it, in the order
in which `ext2fs_itrunc` comes to them. -/
def fileRoots : List ℕ := List.range (EXT2_TIND_BLOCK + 1)

/-- The pointers of a file in the order in which they are freed. -/
def fileFrees (addrs : ℕ → ℕ) : List ℕ :=
  fileRoots.flatMap fun k => entryFrees disk (rootLevel k) (addrs k)

/-- The pointer blocks of a file. -/
def fileReads (addrs : ℕ → ℕ) : List ℕ :=
  fileRoots.flatMap fun k => entryReads disk (rootLevel k) (addrs k)

/-- What happens when a file is truncated. -/
def fileEvents (addrs : ℕ → ℕ) : List TruncEvent :=
  fileRoots.flatMap fun k => entryEvents disk (rootLevel k) (addrs k)

/-- Pointer `a` is at the end of a path of pointers that are set, in `level` levels of pointer
blocks from block `n` on. -/
structure TreeAt (level n : ℕ) (path : List ℕ) (a : ℕ) : Prop where
  depth : path.length ≤ level
  mapped : Mapped disk n path
  ends : follow disk n path = a

variable {disk} {level n a : ℕ} {addrs : ℕ → ℕ}

theorem TreeAt.nil : TreeAt disk level n [] n := ⟨Nat.zero_le _, trivial, rfl⟩

theorem treeAt_cons {i : ℕ} {path : List ℕ} : TreeAt disk (level + 1) n (i :: path) a ↔
    i < EXT2_INDIRECT ∧ (disk n).word i ≠ 0 ∧ TreeAt disk level ((disk n).word i) path a := by
  constructor
  · rintro ⟨hdepth, ⟨hi, hne, hmapped⟩, hends⟩
    exact ⟨hi, hne, Nat.le_of_succ_le_succ hdepth, hmapped, hends⟩
  · rintro ⟨hi, hne, hdepth, hmapped, hends⟩
    exact ⟨Nat.succ_le_succ hdepth, ⟨hi, hne, hmapped⟩, hends⟩

theorem mem_treeFrees : a ∈ treeFrees disk level n ↔
    ∃ i path, TreeAt disk level n (i :: path) a := by
  induction level generalizing n with
  | zero =>
    refine ⟨nofun, ?_⟩
    rintro ⟨i, path, hdepth, -⟩
    simp at hdepth
  | succ level ih =>
    rw [treeFrees_succ, mem_flatMap]
    constructor
    · rintro ⟨i, hi, ha⟩
      have hi := mem_range.1 hi
      unfold entryFrees at ha
      split_ifs at ha with hz
      · cases ha
      · rcases mem_append.1 ha with ha | ha
        · obtain ⟨j, path, hat⟩ := ih.1 ha
          exact ⟨i, j :: path, treeAt_cons.2 ⟨hi, hz, hat⟩⟩
        · obtain rfl := mem_singleton.1 ha
          exact ⟨i, [], treeAt_cons.2 ⟨hi, hz, .nil⟩⟩
    · rintro ⟨i, path, hat⟩
      obtain ⟨hi, hz, hat⟩ := treeAt_cons.1 hat
      refine ⟨i, mem_range.2 hi, ?_⟩
      unfold entryFrees
      rw [if_neg hz, mem_append]
      cases path with
      | nil => exact .inr (mem_singleton.2 hat.ends.symm)
      | cons j path => exact .inl (ih.2 ⟨j, path, hat⟩)

theorem mem_entryFrees : a ∈ entryFrees disk level n ↔ n ≠ 0 ∧ ∃ path,
    TreeAt disk level n path a := by
  unfold entryFrees
  split_ifs with hz
  · simp [hz]
  · rw [mem_append, mem_treeFrees, mem_singleton]
    constructor
    · rintro (⟨i, path, hat⟩ | rfl)
      · exact ⟨hz, i :: path, hat⟩
      · exact ⟨hz, [], .nil⟩
    · rintro ⟨-, path, hat⟩
      cases path with
      | nil => exact .inr hat.ends.symm
      | cons i path => exact .inl ⟨i, path, hat⟩

/-- **The pointers that are freed are the pointers of the file.** -/
theorem mem_fileFrees : a ∈ fileFrees disk addrs ↔ ∃ p, PointerAt disk addrs p a := by
  unfold fileFrees fileRoots
  simp only [mem_flatMap, mem_range, mem_entryFrees]
  constructor
  · rintro ⟨k, hk, hne, path, hdepth, hmapped, hends⟩
    exact ⟨(k, path), Nat.lt_succ_iff.1 hk, hdepth, hne, hmapped, hends⟩
  · rintro ⟨⟨k, path⟩, hk, hdepth, hne, hmapped, hends⟩
    exact ⟨k, Nat.lt_succ_iff.2 hk, hne, path, hdepth, hmapped, hends⟩

/-- A pointer at and below which no pointer occurs twice. -/
theorem nodup_entryFrees (h : ∀ p q a, TreeAt disk level n p a → TreeAt disk level n q a → p = q) :
    (entryFrees disk level n).Nodup := by
  induction level generalizing n with
  | zero =>
    unfold entryFrees
    split_ifs <;> simp [treeFrees]
  | succ level ih =>
    unfold entryFrees
    split_ifs with hz
    · exact nodup_nil
    have hroot : n ∉ treeFrees disk (level + 1) n := by
      intro hmem
      obtain ⟨i, path, hat⟩ := mem_treeFrees.1 hmem
      cases h _ _ _ hat .nil
    refine nodup_append.2 ⟨?_, nodup_singleton n, ?_⟩
    · rw [treeFrees_succ, nodup_flatMap]
      refine ⟨fun i hi => ?_, ?_⟩
      · by_cases hw : (disk n).word i = 0
        · simp [entryFrees, hw]
        · refine ih fun p q a hp hq => ?_
          have hi := mem_range.1 hi
          exact (List.cons.inj (h _ _ a (treeAt_cons.2 ⟨hi, hw, hp⟩)
            (treeAt_cons.2 ⟨hi, hw, hq⟩))).2
      · refine nodup_range.imp_of_mem fun {i j} hi hj hij => ?_
        refine disjoint_left.2 fun a ha hb => hij ?_
        obtain ⟨hwi, p, hp⟩ := mem_entryFrees.1 ha
        obtain ⟨hwj, q, hq⟩ := mem_entryFrees.1 hb
        exact (List.cons.inj (h _ _ a (treeAt_cons.2 ⟨mem_range.1 hi, hwi, hp⟩)
          (treeAt_cons.2 ⟨mem_range.1 hj, hwj, hq⟩))).1
    · rintro a ha b hb rfl
      exact hroot (mem_singleton.1 hb ▸ ha)

/-- **Of distinct pointers none is freed twice.** -/
theorem nodup_fileFrees (h : DistinctPointers disk addrs) : (fileFrees disk addrs).Nodup := by
  have hpath : ∀ {k path a}, k ≤ EXT2_TIND_BLOCK → addrs k ≠ 0 →
      TreeAt disk (rootLevel k) (addrs k) path a → PointerAt disk addrs (k, path) a :=
    fun hk hne hat => ⟨hk, hat.depth, hne, hat.mapped, hat.ends⟩
  unfold fileFrees fileRoots
  rw [nodup_flatMap]
  refine ⟨fun k hk => ?_, ?_⟩
  · have hk := Nat.lt_succ_iff.1 (mem_range.1 hk)
    by_cases hz : addrs k = 0
    · simp [entryFrees, hz]
    · exact nodup_entryFrees fun p q a hp hq =>
        (Prod.mk.inj (h _ _ a (hpath hk hz hp) (hpath hk hz hq))).2
  · refine nodup_range.imp_of_mem fun {k l} hk hl hkl => ?_
    refine disjoint_left.2 fun a ha hb => hkl ?_
    obtain ⟨hzk, p, hp⟩ := mem_entryFrees.1 ha
    obtain ⟨hzl, q, hq⟩ := mem_entryFrees.1 hb
    exact (Prod.mk.inj (h _ _ a (hpath (Nat.lt_succ_iff.1 (mem_range.1 hk)) hzk hp)
      (hpath (Nat.lt_succ_iff.1 (mem_range.1 hl)) hzl hq))).1

end Tree

/-! ### Each block once, and pointer blocks last -/

section Order

variable {disk : ℕ → Block} {level n a m : ℕ} {addrs : ℕ → ℕ}

theorem mem_treeReads : m ∈ treeReads disk level n ↔
    ∃ path, path.length < level ∧ TreeAt disk level n path m := by
  induction level generalizing n with
  | zero => simp [treeReads]
  | succ level ih =>
    rw [treeReads_succ, mem_cons, mem_flatMap]
    constructor
    · rintro (rfl | ⟨i, hi, hm⟩)
      · exact ⟨[], Nat.succ_pos _, .nil⟩
      · unfold entryReads at hm
        split_ifs at hm with hz
        · cases hm
        · obtain ⟨path, hlen, hat⟩ := ih.1 hm
          exact ⟨i :: path, Nat.succ_lt_succ hlen, treeAt_cons.2 ⟨mem_range.1 hi, hz, hat⟩⟩
    · rintro ⟨_ | ⟨i, path⟩, hlen, hat⟩
      · exact .inl hat.ends.symm
      · obtain ⟨hi, hz, hat⟩ := treeAt_cons.1 hat
        refine .inr ⟨i, mem_range.2 hi, ?_⟩
        unfold entryReads
        rw [if_neg hz]
        exact ih.2 ⟨path, Nat.lt_of_succ_lt_succ hlen, hat⟩

theorem mem_fileReads : m ∈ fileReads disk addrs ↔
    ∃ p, PointerAt disk addrs p m ∧ p.2.length < rootLevel p.1 := by
  unfold fileReads fileRoots entryReads
  rw [mem_flatMap]
  constructor
  · rintro ⟨k, hk, hm⟩
    have hk := Nat.lt_succ_iff.1 (mem_range.1 hk)
    split_ifs at hm with hz
    · cases hm
    · obtain ⟨path, hlen, hat⟩ := mem_treeReads.1 hm
      exact ⟨(k, path), ⟨hk, hat.depth, hz, hat.mapped, hat.ends⟩, hlen⟩
  · rintro ⟨⟨k, path⟩, ⟨hk, hdepth, hz, hmapped, hends⟩, hlen⟩
    refine ⟨k, mem_range.2 (Nat.lt_succ_iff.2 hk), ?_⟩
    rw [if_neg hz]
    exact mem_treeReads.2 ⟨path, hlen, hdepth, hmapped, hends⟩

theorem count_entryReads_le :
    (entryReads disk level n).count m ≤ (entryFrees disk level n).count m := by
  unfold entryReads entryFrees
  split_ifs with hz
  · exact le_rfl
  · induction level generalizing n with
    | zero => simp [treeReads]
    | succ level ih =>
      have hsum : ((List.range EXT2_INDIRECT).flatMap fun i =>
          entryReads disk level ((disk n).word i)).count m ≤
            (treeFrees disk (level + 1) n).count m := by
        rw [treeFrees_succ, count_flatMap, count_flatMap]
        refine sum_le_sum fun i _ => ?_
        dsimp only [Function.comp]
        unfold entryReads entryFrees
        split_ifs with hw
        · exact le_rfl
        · exact ih hw
      rw [treeReads_succ, count_cons, count_append, count_singleton]
      exact Nat.add_le_add hsum le_rfl

theorem count_fileReads_le : (fileReads disk addrs).count m ≤ (fileFrees disk addrs).count m := by
  unfold fileReads fileFrees
  rw [count_flatMap, count_flatMap]
  exact sum_le_sum fun k _ => count_entryReads_le

theorem nodup_fileReads (h : DistinctPointers disk addrs) : (fileReads disk addrs).Nodup := by
  rw [nodup_iff_count_le_one]
  exact fun m => count_fileReads_le.trans (nodup_iff_count_le_one.1 (nodup_fileFrees h) m)

theorem count_free_entryEvents :
    (entryEvents disk level n).count (.free m) = (entryFrees disk level n).count m := by
  unfold entryEvents entryFrees
  split_ifs with hz
  · rfl
  · induction level generalizing n with
    | zero => simp [treeEvents, treeFrees, count_singleton]
    | succ level ih =>
      have hsum : (treeEvents disk (level + 1) n).count (.free m) =
          (treeFrees disk (level + 1) n).count m := by
        rw [treeEvents_succ, treeFrees_succ, count_cons_of_ne (by simp), count_flatMap,
          count_flatMap]
        congr 1
        refine map_congr_left fun i _ => ?_
        dsimp only [Function.comp]
        unfold entryEvents entryFrees
        split_ifs with hw
        · rfl
        · exact ih hw
      rw [count_append, count_append, hsum]
      simp [count_singleton]

/-- **Every block is freed as often as it occurs in the tree.** -/
theorem count_free_fileEvents :
    (fileEvents disk addrs).count (.free m) = (fileFrees disk addrs).count m := by
  unfold fileEvents fileFrees
  rw [count_flatMap, count_flatMap]
  congr 1
  exact map_congr_left fun k _ => count_free_entryEvents

theorem read_mem_entryEvents : .read m ∈ entryEvents disk level n ↔
    m ∈ entryReads disk level n := by
  unfold entryEvents entryReads
  split_ifs with hz
  · simp
  · induction level generalizing n with
    | zero => simp [treeEvents, treeReads]
    | succ level ih =>
      simp only [treeEvents_succ, treeReads_succ, cons_append, mem_cons, mem_append,
        mem_flatMap, TruncEvent.read.injEq, not_mem_nil, or_false, reduceCtorEq]
      refine or_congr Iff.rfl (exists_congr fun i => and_congr_right fun _ => ?_)
      unfold entryEvents entryReads
      split_ifs with hw
      · simp
      · exact ih hw

theorem free_mem_entryEvents : .free m ∈ entryEvents disk level n ↔
    m ∈ entryFrees disk level n := by
  rw [← count_pos_iff, ← count_pos_iff, count_free_entryEvents]

theorem mem_entryFrees_of_read (h : m ∈ entryReads disk level n) : m ∈ entryFrees disk level n :=
  count_pos_iff.1 ((count_pos_iff.2 h).trans_le count_entryReads_le)

/-- The second event does not read in what the first one has freed. -/
def TruncEvent.Apart (e e' : TruncEvent) : Prop := ∀ m, e = .free m → e' ≠ .read m

theorem apart_of_disjoint {level' n' : ℕ}
    (h : (entryFrees disk level n).Disjoint (entryFrees disk level' n')) {e e' : TruncEvent}
    (he : e ∈ entryEvents disk level n) (he' : e' ∈ entryEvents disk level' n') : e.Apart e' := by
  rintro m rfl rfl
  exact disjoint_left.1 h (free_mem_entryEvents.1 he)
    (mem_entryFrees_of_read (read_mem_entryEvents.1 he'))

theorem pairwise_entryEvents (h : (entryFrees disk level n).Nodup) :
    (entryEvents disk level n).Pairwise TruncEvent.Apart := by
  induction level generalizing n with
  | zero =>
    unfold entryEvents
    split_ifs <;> simp [treeEvents]
  | succ level ih =>
    unfold entryEvents
    split_ifs with hz
    · exact .nil
    unfold entryFrees at h
    rw [if_neg hz, nodup_append, treeFrees_succ, nodup_flatMap] at h
    obtain ⟨⟨heach, hpair⟩, -⟩ := h
    refine pairwise_append.2 ⟨?_, pairwise_singleton _ _, ?_⟩
    · rw [treeEvents_succ, pairwise_cons, pairwise_flatMap]
      refine ⟨fun e _ m he => (nomatch he), fun i hi => ih (heach i hi), ?_⟩
      exact hpair.imp fun hdis e he e' he' => apart_of_disjoint hdis he he'
    · rintro e - e' he' m rfl rfl
      cases mem_singleton.1 he'

/-- **No pointer block is read in after it has been freed.** -/
theorem pairwise_fileEvents (h : (fileFrees disk addrs).Nodup) :
    (fileEvents disk addrs).Pairwise TruncEvent.Apart := by
  unfold fileFrees at h
  rw [nodup_flatMap] at h
  unfold fileEvents
  rw [pairwise_flatMap]
  exact ⟨fun k hk => pairwise_entryEvents (h.1 k hk),
    h.2.imp fun hdis e he e' he' => apart_of_disjoint hdis he he'⟩

end Order

/-! ### The bitmaps -/

/-- The byte of the bitmap with the bit that `ext2fs_bfree` clears. -/
def freeByte (t : Io) (sb : Super) (a : ℕ) : ℤ := (t.freeIndex sb a).tdiv 8

/-- What is around the bitmap block after `ext2fs_bfree`, which may clear a bit there. -/
def freedOutside (t : Io) (sb : Super) (a : ℕ) : ℕ → ℤ → UInt8 :=
  if 0 ≤ t.freeByte sb a ∧ t.freeByte sb a < BSIZE then t.outside
  else update t.outside (t.groupBitmap sb a)
    (update (t.outside (t.groupBitmap sb a)) (t.freeByte sb a)
      (UInt8.ofNat ((t.blockByte (t.groupBitmap sb a) (t.freeByte sb a)).toNat -
        2 ^ maskBit (t.freeIndex sb a))))

/-- What `ext2fs_bfree(a)` makes of the disk.  It does not return if the bitmap that it looks at is
the descriptor block, which it holds, or if the bit that it looks at is clear. -/
def bfreed (sb : Super) (t : Io) (a : ℕ) : Option Io :=
  if t.groupBitmap sb a ≠ 2 ∧ t.FreeBit sb a = true then
    some ⟨t.cache, update t.disk (t.groupBitmap sb a) (t.freed sb a), t.freedOutside sb a⟩
  else none

variable {s s₀ s' t : Io} {sb : Super} {held : List (Fin NBUF × ℕ)} {b : Fin NBUF} {n a : ℕ}
  {G : ℕ → Block → Prop} {o : ℕ → ℤ → UInt8} {R : Set ℕ} {done : ℕ → ℕ}

/-- Clearing a bit that is set in the only version of a block. -/
theorem Keeps.clearBitmap_runs (h : s.Keeps G t.outside held) (hb : (b, n) ∈ held)
    (hG : ∀ e, G n e → e = t.disk n) (index : ℤ) (msg : String)
    (hset : (t.blockByte n (index.tdiv 8)).toNat.testBit (maskBit index) = true) :
    ∃ s', clearBitmap b index msg s = .ok ((), s') ∧
      s'.Keeps (fun m e => (m ≠ n → G m e) ∧ (m = n → e =
          if 0 ≤ index.tdiv 8 ∧ index.tdiv 8 < BSIZE then
            unmarkBit (t.disk n) (index.tdiv 8).toNat (maskBit index) else t.disk n))
        (if 0 ≤ index.tdiv 8 ∧ index.tdiv 8 < BSIZE then t.outside
          else update t.outside n (update (t.outside n) (index.tdiv 8)
            (UInt8.ofNat ((t.blockByte n (index.tdiv 8)).toNat - 2 ^ maskBit index)))) held := by
  have hbyte : s.byteAt b (index.tdiv 8) = t.blockByte n (index.tdiv 8) := h.byteAt hb hG _
  have hget : getByteAt b (index.tdiv 8) s = .ok (t.blockByte n (index.tdiv 8), s) := by
    rw [← hbyte]
    rfl
  have hdata : (s.cache.buf b).data = t.disk n := hG _ (h.data hb)
  unfold clearBitmap
  rw [Program.bind_ok hget, if_pos hset]
  by_cases hin : 0 ≤ index.tdiv 8 ∧ index.tdiv 8 < BSIZE
  · -- inside the block the store makes a new version, and `bwrite` the only one
    simp only [if_pos hin]
    obtain ⟨s1, h1⟩ : ∃ s1, Io.modifyData b (·.setByte (index.tdiv 8).toNat
        (UInt8.ofNat ((t.blockByte n (index.tdiv 8)).toNat - 2 ^ maskBit index))) s =
          .ok ((), s1) := ⟨_, rfl⟩
    have hset1 : setByteAt b (index.tdiv 8)
        (UInt8.ofNat ((t.blockByte n (index.tdiv 8)).toNat - 2 ^ maskBit index)) s =
          .ok ((), s1) := by
      unfold setByteAt
      rw [if_pos hin]
      exact h1
    have h0 : s.Keeps (fun m e => m ≠ n → G m e) t.outside held := h.imp fun _ _ he _ => he
    obtain ⟨s2, h2⟩ := (h0.modifyData hb (fun hne => absurd rfl hne) h1).exists_bwrite hb
    have hk := h.rewrite hb h1 h2
    rw [hdata] at hk
    refine ⟨s2, by rw [Program.bind_ok hset1, h2], hk.imp fun m e he => ⟨he.1, fun hm => ?_⟩⟩
    rw [he.2 hm]
    unfold unmarkBit blockByte
    rw [if_pos hin]
  · simp only [if_neg hin]
    have hbno : (s.cache.buf b).blockno = n := h.blockno _ hb
    have hset1 : setByteAt b (index.tdiv 8)
        (UInt8.ofNat ((t.blockByte n (index.tdiv 8)).toNat - 2 ^ maskBit index)) s =
          .ok ((), { s with outside := update t.outside n (update (t.outside n)
            (index.tdiv 8)
            (UInt8.ofNat ((t.blockByte n (index.tdiv 8)).toNat - 2 ^ maskBit index))) }) := by
      unfold setByteAt
      rw [if_neg hin, hbno, h.outside]
    have hk := h.with_outside (update t.outside n (update (t.outside n)
      (index.tdiv 8) (UInt8.ofNat ((t.blockByte n (index.tdiv 8)).toNat - 2 ^ maskBit index))))
    obtain ⟨s2, h2⟩ := hk.exists_bwrite hb
    refine ⟨s2, by rw [Program.bind_ok hset1, h2], (hk.bwrite hb h2).imp fun m e he =>
      ⟨fun _ => he.1, fun hm => ?_⟩⟩
    rw [he.2 hm]
    exact hdata

/-! ### A truncation under way -/

/-- The versions of block `n`: the disk is `t`, and of a pointer block the first `done n` pointers
may have been cleared in some version. -/
def Partly (t : Io) (done : ℕ → ℕ) (n : ℕ) (d : Block) : Prop :=
  (done n = 0 → d = t.disk n) ∧ ∀ j < EXT2_INDIRECT, done n ≤ j → d.word j = (t.disk n).word j

/-- A truncation that has started from `s₀` and come to `s`.  `R` are the pointer blocks of the
file; only their buffers are changed without being written back, and only they are held. -/
structure Truncation (s₀ : Io) (R : Set ℕ) (t : Io) (done : ℕ → ℕ) (held : List (Fin NBUF × ℕ))
    (s : Io) : Prop where
  keeps : s.Keeps (t.Partly done) t.outside held
  changed : ∀ m, m ∉ R → done m = 0
  held_mem : ∀ x ∈ held, x.2 ∈ R
  desc : ∀ i, t.blockByte 2 i = s₀.blockByte 2 i
  same : ∀ m ∈ R, t.disk m = s₀.disk m

namespace Truncation

theorem groupBitmap_eq (h : Truncation s₀ R t done held s) (a : ℕ) :
    t.groupBitmap sb a = s₀.groupBitmap sb a := by
  unfold groupBitmap
  rw [funext h.desc]

theorem only (h : Truncation s₀ R t done held s) (hn : n ∉ R) :
    ∀ e, t.Partly done n e → e = t.disk n := fun _ he => he.1 (h.changed n hn)

/-- **A call of `ext2fs_bfree`.** -/
theorem bfree (h : Truncation s₀ R t done held s) (hlen : held.length + 2 ≤ NBUF) (h2 : 2 ∉ R)
    (hbm : s₀.groupBitmap sb a ∉ R) :
    Meets (ext2fsBfree sb a) s (bfreed sb t a) fun t' _ s' => Truncation s₀ R t' done held s' := by
  rw [← h.groupBitmap_eq] at hbm
  obtain ⟨bp1, s1, h1, hk1⟩ := h.keeps.exists_bread (n := 2)
    (fun x hx he => h2 (he ▸ h.held_mem x hx)) (by omega)
  have hload := hk1.load_desc (h.only h2) (b := bp1) mem_cons_self
    (sb.groupNo a * groupDescWords + bgBlockBitmap)
  refine .step h1 (.step hload ?_)
  change Meets (do
    let bp2 ← bread (t.groupBitmap sb a)
    clearBitmap bp2 (t.freeIndex sb a) "ext2fs_bfree: block already free"
    brelse bp2
    brelse bp1 : IoM Unit) s1 (bfreed sb t a) _
  unfold bfreed
  by_cases hb2 : t.groupBitmap sb a = 2
  · rw [if_neg fun hc => hc.1 hb2]
    cases hr : bread (t.groupBitmap sb a) s1 with
    | error e => exact .stop (bind_error hr)
    | ok r => exact absurd hb2 (hk1.bread_ne mem_cons_self hr)
  obtain ⟨bp2, s2, h₂, hk2⟩ := hk1.exists_bread (n := t.groupBitmap sb a)
    (by
      rintro x hx he
      rcases mem_cons.1 hx with rfl | hx
      · exact hb2 he.symm
      · exact hbm (he ▸ h.held_mem x hx))
    (by rw [length_cons]; omega)
  refine .step h₂ ?_
  by_cases hset : t.FreeBit sb a = true
  · rw [if_pos ⟨hb2, hset⟩]
    obtain ⟨s3, h3, hk3⟩ := hk2.clearBitmap_runs mem_cons_self (h.only hbm) (t.freeIndex sb a)
      "ext2fs_bfree: block already free" hset
    obtain ⟨s4, h4, hk4⟩ := hk3.exists_brelse_head
    obtain ⟨s5, h5, hk5⟩ := hk4.exists_brelse_head
    rw [← freeByte, ← freedOutside] at hk5
    refine .runs (.step h3 (.step h4 ⟨(), s5, h5, ?_⟩))
    -- the new state is known by its disk and by what is around the buffers
    have hself : update t.disk (t.groupBitmap sb a) (t.freed sb a) (t.groupBitmap sb a) =
        t.freed sb a := update_self _ _ _
    have hdisk : ∀ m, m ≠ t.groupBitmap sb a →
        update t.disk (t.groupBitmap sb a) (t.freed sb a) m = t.disk m :=
      fun m hm => update_of_ne hm _ _
    have hout : t.freedOutside sb a 2 = t.outside 2 := by
      unfold freedOutside
      split_ifs
      · rfl
      · exact update_of_ne (Ne.symm hb2) _ _
    generalize update t.disk (t.groupBitmap sb a) (t.freed sb a) = disk' at hself hdisk ⊢
    generalize t.freedOutside sb a = out' at hk5 hout ⊢
    refine ⟨hk5.imp fun m e he => ?_, h.changed, h.held_mem, fun i => ?_, fun m hm => ?_⟩
    · unfold Partly
      dsimp only
      by_cases hm : m = t.groupBitmap sb a
      · obtain rfl : e = disk' m := by
          rw [hm, hself]
          exact he.2 hm
        exact ⟨fun _ => rfl, fun _ _ _ => rfl⟩
      · rw [hdisk m hm]
        exact he.1 hm
    · rw [← h.desc]
      unfold blockByte
      dsimp only
      rw [hdisk 2 (Ne.symm hb2), hout]
    · exact (hdisk m fun he => hbm (he ▸ hm)).trans (h.same m hm)
  · rw [if_neg fun hc => hset hc.2]
    have hbyte : s2.byteAt bp2 ((t.freeIndex sb a).tdiv 8) =
        t.blockByte (t.groupBitmap sb a) ((t.freeIndex sb a).tdiv 8) :=
      hk2.byteAt mem_cons_self (h.only hbm) _
    have hget : getByteAt bp2 ((t.freeIndex sb a).tdiv 8) s2 =
        .ok (t.blockByte (t.groupBitmap sb a) ((t.freeIndex sb a).tdiv 8), s2) := by
      rw [← hbyte]
      rfl
    have hclear : clearBitmap bp2 (t.freeIndex sb a) "ext2fs_bfree: block already free" s2 =
        .error (.panic "ext2fs_bfree: block already free") := by
      unfold clearBitmap
      unfold FreeBit at hset
      rw [bind_ok hget, if_neg hset]
      rfl
    exact .stop (bind_error hclear)

end Truncation

/-! ### The code with a trace -/

/-- Code that records what it reads in and frees. -/
abbrev TruncM (α : Type) := Program Stop (Io × List TruncEvent) α

/-- `freeTree` with a trace. -/
def freeTreeT (sb : Super) : ℕ → ℕ → TruncM Unit
  | 0, _ => pure ()
  | level + 1, n => do
    emit (.read n)
    let bp ← lift (bread n)
    (List.range EXT2_INDIRECT).forM fun i => do
      let a ← lift (load bp i)
      if a ≠ 0 then
        freeTreeT sb level a
        emit (.free a)
        lift (ext2fsBfree sb a)
        lift (store bp i 0)
      else pure ()
    lift (brelse bp)

/-- `freeAddr` with a trace. -/
def freeAddrT (sb : Super) (level : ℕ) (ip : InCore) (k : ℕ) : TruncM InCore := do
  if ip.addrs k ≠ 0 then
    freeTreeT sb level (ip.addrs k)
    emit (.free (ip.addrs k))
    lift (ext2fsBfree sb (ip.addrs k))
    pure (ip.setAddr k 0)
  else pure ip

/-- `ext2fs_itrunc` with a trace. -/
def ext2fsItruncT (sb : Super) (ip : InCore) : TruncM InCore := do
  let ip ← (List.range EXT2_NDIR_BLOCKS).foldlM (freeAddrT sb 0) ip
  let ip ← freeAddrT sb 1 ip EXT2_IND_BLOCK
  let ip ← freeAddrT sb 2 ip EXT2_DIND_BLOCK
  let ip ← freeAddrT sb 3 ip EXT2_TIND_BLOCK
  let ip := { ip with size := 0 }
  lift (ext2fsIupdate sb ip)
  pure ip

theorem freeTreeT_erases (level n : ℕ) : Erases (freeTreeT sb level n) (freeTree sb level n) := by
  induction level generalizing n with
  | zero => exact .pure
  | succ level ih =>
    refine .emit (.bind .lift fun bp => .bind (.forM fun i => .bind .lift fun a => ?_)
      fun _ => .lift)
    split_ifs
    · exact .bind (ih a) fun _ => .emit (.bind .lift fun _ => .lift)
    · exact .pure

theorem freeAddrT_erases (level : ℕ) (ip : InCore) (k : ℕ) :
    Erases (freeAddrT sb level ip k) (freeAddr sb level ip k) := by
  unfold freeAddrT freeAddr
  split_ifs
  · exact .bind (freeTreeT_erases level _) fun _ => .emit (.bind .lift fun _ => .pure)
  · exact .pure

/-- **The trace changes nothing.** -/
theorem ext2fsItruncT_erases (sb : Super) (ip : InCore) :
    Erases (ext2fsItruncT sb ip) (ext2fsItrunc sb ip) :=
  .bind (.foldlM (fun ip k => freeAddrT_erases 0 ip k) ip) fun _ =>
    .bind (freeAddrT_erases 1 _ _) fun _ => .bind (freeAddrT_erases 2 _ _) fun _ =>
      .bind (freeAddrT_erases 3 _ _) fun _ => .bind .lift fun _ => .pure

namespace Truncation

variable {tr : List TruncEvent} {level : ℕ}

/-- The walk frees the pointers of the tree in order, and touches no other pointer block. -/
def Walks (s₀ : Io) (sb : Super) (R : Set ℕ) (level : ℕ) : Prop :=
  ∀ ⦃t : Io⦄ ⦃done : ℕ → ℕ⦄ ⦃held : List (Fin NBUF × ℕ)⦄ ⦃s : Io⦄ (n : ℕ) (tr : List TruncEvent),
    Truncation s₀ R t done held s → held.length + level + 2 ≤ NBUF →
    (treeReads s₀.disk level n).Nodup →
    (∀ m ∈ treeReads s₀.disk level n, m ∈ R ∧ done m = 0 ∧ ∀ x ∈ held, x.2 ≠ m) →
    (∀ a ∈ treeFrees s₀.disk level n, s₀.groupBitmap sb a ∉ R) →
    Meets (freeTreeT sb level n) (s, tr) ((treeFrees s₀.disk level n).foldlM (bfreed sb) t)
      fun t' _ p => ∃ done', Truncation s₀ R t' done' held p.1 ∧
        (∀ m, m ∉ treeReads s₀.disk level n → done' m = done m) ∧
        p.2 = tr ++ treeEvents s₀.disk level n

/-- A pointer that is set, and what is below it. -/
theorem entry {α : Type} {k : Unit → TruncM α}
    {Q : Io → α → Io × List TruncEvent → Prop} (hw : Walks s₀ sb R level)
    (h : Truncation s₀ R t done held s) (h2 : 2 ∉ R) (hroom : held.length + level + 2 ≤ NBUF)
    (ha : a ≠ 0) (hnodup : (treeReads s₀.disk level a).Nodup)
    (hfresh : ∀ m ∈ treeReads s₀.disk level a, m ∈ R ∧ done m = 0 ∧ ∀ x ∈ held, x.2 ≠ m)
    (hbm : ∀ b ∈ entryFrees s₀.disk level a, s₀.groupBitmap sb b ∉ R)
    (hk : ∀ t' done' s', Truncation s₀ R t' done' held s' →
      (∀ m, m ∉ treeReads s₀.disk level a → done' m = done m) →
      Runs (k ()) (s', tr ++ entryEvents s₀.disk level a) (Q t')) :
    Meets (do freeTreeT sb level a; emit (.free a); let u ← lift (ext2fsBfree sb a); k u) (s, tr)
      ((entryFrees s₀.disk level a).foldlM (bfreed sb) t) Q := by
  have hfrees : entryFrees s₀.disk level a = treeFrees s₀.disk level a ++ [a] := if_neg ha
  have hevents : entryEvents s₀.disk level a = treeEvents s₀.disk level a ++ [.free a] := if_neg ha
  rw [hfrees] at hbm ⊢
  rw [foldlM_append]
  refine (hw a tr h hroom hnodup hfresh fun b hb => hbm b (mem_append_left _ hb)).bind ?_
  rintro t1 - ⟨s1, tr1⟩ ⟨done1, h1, hsame, htr1⟩
  obtain rfl : tr1 = _ := htr1
  refine .step (show emit (TruncEvent.free a) (s1, _) = .ok ((), s1, _) from rfl) ?_
  have hlast : [a].foldlM (bfreed sb) t1 = bfreed sb t1 a := by
    rw [foldlM_cons]
    cases bfreed sb t1 a <;> rfl
  rw [hlast]
  refine (h1.bfree (by omega) h2 (hbm a (by simp))).lift.bind_runs ?_
  rintro t2 - ⟨s2, tr2⟩ ⟨h₂, htr2⟩
  obtain rfl : tr2 = _ := htr2
  have hnext := hk t2 done1 s2 h₂ hsame
  rwa [hevents, ← append_assoc] at hnext

/-- The store of a zero into a pointer block that is held. -/
theorem store_zero {i : ℕ} (h : Truncation s₀ R t done ((b, n) :: held) s) (hi : i < EXT2_INDIRECT)
    (hdone : done n ≤ i) : ∃ s', store b i 0 s = .ok ((), s') ∧
      Truncation s₀ R t (update done n (i + 1)) ((b, n) :: held) s' := by
  have hn : n ∈ R := h.held_mem _ mem_cons_self
  have hword : ∀ m d, t.Partly done m d → t.Partly (update done n (i + 1)) m d := by
    rintro m d ⟨hd, hw⟩
    by_cases hm : m = n
    · subst hm
      unfold Partly
      rw [update_self]
      exact ⟨fun he => absurd he (Nat.succ_ne_zero i), fun j hj hij => hw j hj (by omega)⟩
    · unfold Partly
      rw [update_of_ne hm]
      exact ⟨hd, hw⟩
  have hk := h.keeps.imp hword
  have hstore : store b i 0 s = modifyData b (·.setWord i 0) s := if_pos hi
  obtain ⟨s', hs'⟩ : ∃ s', modifyData b (·.setWord i 0) s = .ok ((), s') := ⟨_, rfl⟩
  refine ⟨s', hstore.trans hs', hk.modifyData mem_cons_self ?_ hs', fun m hm => ?_, h.held_mem,
    h.desc, h.same⟩
  · have hdata := hk.data (b := b) (n := n) mem_cons_self
    unfold Partly at hdata ⊢
    rw [update_self] at hdata ⊢
    refine ⟨fun he => absurd he (Nat.succ_ne_zero i), fun j hj hij => ?_⟩
    rw [Block.word_setWord_ne _ hi (by omega)]
    exact hdata.2 j hj hij
  · have hne : m ≠ n := fun he => hm (he ▸ hn)
    rw [update_of_ne hne]
    exact h.changed m hm

theorem load_pointer {i : ℕ} (h : Truncation s₀ R t done ((b, n) :: held) s)
    (hi : i < EXT2_INDIRECT) (hdone : done n ≤ i) :
    load b i s = .ok ((s₀.disk n).word i, s) := by
  rw [load_eq hi, (h.keeps.data mem_cons_self).2 i hi hdone, h.same n (h.held_mem _ mem_cons_self)]

/-- The loop over a pointer block: the pointers `rest` are still to be freed. -/
structure Round (s₀ : Io) (R : Set ℕ) (level n : ℕ) (b : Fin NBUF) (held : List (Fin NBUF × ℕ))
    (done₀ : ℕ → ℕ) (tr : List TruncEvent) (rest : List ℕ) (t : Io) (p : Io × List TruncEvent)
    (pre : List ℕ) (done : ℕ → ℕ) : Prop where
  range : pre ++ rest = List.range EXT2_INDIRECT
  trunc : Truncation s₀ R t done ((b, n) :: held) p.1
  here : ∀ j ∈ rest, done n ≤ j
  fresh : ∀ j ∈ rest, ∀ m ∈ entryReads s₀.disk level ((s₀.disk n).word j), done m = 0
  others : ∀ m, m ∉ treeReads s₀.disk (level + 1) n → done m = done₀ m
  trace : p.2 = tr ++ .read n :: pre.flatMap fun i =>
    entryEvents s₀.disk level ((s₀.disk n).word i)

/-- **The walk over a tree of pointer blocks.** -/
theorem walks (h2 : 2 ∉ R) (level : ℕ) : Walks s₀ sb R level := by
  induction level with
  | zero =>
    intro t done held s n tr h _ _ _ _
    exact .pure ⟨done, h, fun _ _ => rfl, (append_nil tr).symm⟩
  | succ level ih =>
    intro t done held s n tr h hroom hnodup hfresh hbm
    obtain ⟨hn, hdone, hheld⟩ := hfresh n mem_cons_self
    rw [treeReads_succ, nodup_cons, nodup_flatMap] at hnodup
    obtain ⟨hself, heach, hpair⟩ := hnodup
    have hreads : ∀ {i m}, i < EXT2_INDIRECT → m ∈ entryReads s₀.disk level ((s₀.disk n).word i) →
        m ∈ treeReads s₀.disk (level + 1) n ∧ m ≠ n := by
      intro i m hi hm
      have hmem : m ∈ (List.range EXT2_INDIRECT).flatMap fun i =>
          entryReads s₀.disk level ((s₀.disk n).word i) :=
        mem_flatMap.2 ⟨i, mem_range.2 hi, hm⟩
      exact ⟨mem_cons_of_mem _ hmem, fun he => hself (he ▸ hmem)⟩
    obtain ⟨bp, s1, h1, hk1⟩ := h.keeps.exists_bread hheld (by omega)
    refine .step (show emit (TruncEvent.read n) (s, tr) = .ok ((), s, tr ++ [.read n]) from rfl)
      (.step (lift_ok h1) ?_)
    have hstart : Truncation s₀ R t done ((bp, n) :: held) s1 := by
      refine ⟨hk1, h.changed, fun x hx => ?_, h.desc, h.same⟩
      rcases mem_cons.1 hx with rfl | hx
      · exact hn
      · exact h.held_mem x hx
    rw [treeFrees_succ, foldlM_flatMap]
    generalize hrange : List.range EXT2_INDIRECT = l
    refine Meets.bind_runs (Meets.forM (I := fun rest t p =>
      ∃ pre done', Round s₀ R level n bp held done tr rest t p pre done') ?_ ?_) ?_
    · refine ⟨[], done, hrange.symm, hstart, fun j _ => hdone ▸ Nat.zero_le j, fun j hj m hm => ?_,
        fun _ _ => rfl, by simp⟩
      rw [← hrange] at hj
      exact (hfresh m (hreads (mem_range.1 hj) hm).1).2.1
    · -- a round: a pointer that is not set is passed over
      rintro i rest t ⟨s, _⟩ ⟨pre, done', hr⟩
      obtain rfl := hr.trace
      have hlt : ∀ j ∈ rest, i < j := by
        have hsorted := pairwise_lt_range (n := EXT2_INDIRECT)
        rw [← hr.range, pairwise_append, pairwise_cons] at hsorted
        exact hsorted.2.1.1
      have hdis : ∀ j ∈ rest, (entryReads s₀.disk level ((s₀.disk n).word i)).Disjoint
          (entryReads s₀.disk level ((s₀.disk n).word j)) := by
        rw [← hr.range, pairwise_append, pairwise_cons] at hpair
        exact hpair.2.1.1
      have hmem : ∀ j ∈ i :: rest, j < EXT2_INDIRECT := fun j hj =>
        mem_range.1 (hr.range ▸ mem_append_right pre hj)
      have hi := hmem i mem_cons_self
      refine .step (lift_ok (hr.trunc.load_pointer hi (hr.here i mem_cons_self))) ?_
      by_cases hz : (s₀.disk n).word i = 0
      · rw [if_neg (not_not.2 hz)]
        have hnone : entryFrees s₀.disk level ((s₀.disk n).word i) = [] := if_pos hz
        have hevents : entryEvents s₀.disk level ((s₀.disk n).word i) = [] := if_pos hz
        rw [hnone]
        refine .pure ⟨pre ++ [i], done', by simpa using hr.range, hr.trunc,
          fun j hj => hr.here j (mem_cons_of_mem _ hj),
          fun j hj => hr.fresh j (mem_cons_of_mem _ hj), hr.others, ?_⟩
        simp [hevents]
      · rw [if_pos hz]
        have hentry : entryReads s₀.disk level ((s₀.disk n).word i) =
            treeReads s₀.disk level ((s₀.disk n).word i) := if_neg hz
        have hnd := heach i (mem_range.2 hi)
        rw [hentry] at hnd
        refine entry ih hr.trunc h2 (by simp only [length_cons]; omega) hz hnd ?_ ?_ ?_
        · intro m hm
          rw [← hentry] at hm
          obtain ⟨hin, hne⟩ := hreads hi hm
          refine ⟨(hfresh m hin).1, hr.fresh i mem_cons_self m hm, fun x hx => ?_⟩
          rcases mem_cons.1 hx with rfl | hx
          · exact hne.symm
          · exact (hfresh m hin).2.2 x hx
        · intro a ha
          refine hbm a ?_
          rw [treeFrees_succ]
          exact mem_flatMap.2 ⟨i, mem_range.2 hi, ha⟩
        · -- the pointer has been freed: clear it in the buffer
          intro t' done1 s' h' hsame
          rw [← hentry] at hsame
          have hdn : done1 n = done' n := hsame n fun hm => (hreads hi hm).2 rfl
          obtain ⟨s'', hst, h''⟩ := h'.store_zero hi (hdn ▸ hr.here i mem_cons_self)
          refine ⟨(), _, lift_ok hst, pre ++ [i], update done1 n (i + 1), ?_⟩
          refine ⟨by simpa using hr.range, h'', fun j hj => ?_, fun j hj m hm => ?_, fun m hm => ?_,
            by simp⟩
          · rw [update_self]
            exact hlt j hj
          · have hj' := mem_cons_of_mem i hj
            rw [update_of_ne (hreads (hmem j hj') hm).2, hsame m fun hm' => ?_]
            · exact hr.fresh j hj' m hm
            · exact disjoint_left.1 (hdis j hj) hm' hm
          · have hne : m ≠ n := fun he => hm (he ▸ mem_cons_self)
            rw [update_of_ne hne, hsame m fun hm' => hm (hreads hi hm').1]
            exact hr.others m hm
    · -- the end of the loop
      rintro t' - ⟨s', _⟩ ⟨pre, done', hr⟩
      obtain rfl := hr.trace
      obtain ⟨s'', hrel, hk''⟩ := hr.trunc.keeps.exists_brelse_head
      have hpre : pre = List.range EXT2_INDIRECT := by simpa using hr.range
      refine ⟨(), _, lift_ok hrel, done', ?_, hr.others, by rw [hpre, treeEvents_succ]⟩
      exact ⟨hk'', hr.trunc.changed,
        fun x hx => hr.trunc.held_mem x (mem_cons_of_mem _ hx), hr.trunc.desc, hr.trunc.same⟩

/-- A place of `addrs`, with the pointers below it. -/
theorem addr {ip : InCore} {k : ℕ} (hw : Walks s₀ sb R level) (h : Truncation s₀ R t done [] s)
    (h2 : 2 ∉ R) (hlevel : level + 2 ≤ NBUF)
    (hnodup : (entryReads s₀.disk level (ip.addrs k)).Nodup)
    (hfresh : ∀ m ∈ entryReads s₀.disk level (ip.addrs k), m ∈ R ∧ done m = 0)
    (hbm : ∀ a ∈ entryFrees s₀.disk level (ip.addrs k), s₀.groupBitmap sb a ∉ R) :
    Meets (freeAddrT sb level ip k) (s, tr)
      ((entryFrees s₀.disk level (ip.addrs k)).foldlM (bfreed sb) t) fun t' ip' p =>
        ip' = ip.setAddr k 0 ∧ ∃ done', Truncation s₀ R t' done' [] p.1 ∧
          (∀ m, m ∉ entryReads s₀.disk level (ip.addrs k) → done' m = done m) ∧
          p.2 = tr ++ entryEvents s₀.disk level (ip.addrs k) := by
  unfold freeAddrT
  by_cases hz : ip.addrs k = 0
  · rw [if_neg (not_not.2 hz)]
    have hsame : ip = ip.setAddr k 0 := by
      unfold InCore.setAddr
      rw [← hz, update_eq_self]
    have hfrees : entryFrees s₀.disk level (ip.addrs k) = [] := if_pos hz
    have hevents : entryEvents s₀.disk level (ip.addrs k) = [] := if_pos hz
    rw [hfrees, hevents]
    exact .pure ⟨hsame, done, h, fun _ _ => rfl, (append_nil tr).symm⟩
  · rw [if_pos hz]
    have hreads : entryReads s₀.disk level (ip.addrs k) = treeReads s₀.disk level (ip.addrs k) :=
      if_neg hz
    rw [hreads] at hnodup hfresh ⊢
    exact entry hw h h2 (by simpa using hlevel) hz hnodup
      (fun m hm => ⟨(hfresh m hm).1, (hfresh m hm).2, by simp⟩) hbm
      fun t' done' s' h' hsame => ⟨_, _, rfl, rfl, done', h', hsame, rfl⟩

theorem iupdate (h : Truncation s₀ R t done [] s) (h2 : 2 ∉ R) (sb : Super) (ip : InCore) :
    Runs (ext2fsIupdate sb ip) s fun _ s' =>
      ∃ d, s'.disk (s₀.inodeBlock sb ip.inum) = updated sb ip d := by
  obtain ⟨bp, s1, h1, hk1⟩ := h.keeps.exists_bread (n := 2) (by simp) (by decide)
  have hload := hk1.load_desc (h.only h2) (b := bp) mem_cons_self
    (sb.groupNo ip.inum * groupDescWords + bgInodeTable)
  rw [funext h.desc] at hload
  obtain ⟨s2, h₂, hk2⟩ := hk1.exists_brelse_head
  obtain ⟨bp1, s3, h3, hk3⟩ :=
    hk2.exists_bread (n := s₀.inodeBlock sb ip.inum) (by simp) (by decide)
  obtain ⟨s4, h4⟩ : ∃ s4, modifyData bp1 (updated sb ip) s3 = .ok ((), s4) := ⟨_, rfl⟩
  have hany : s3.Keeps (fun _ _ => True) t.outside [(bp1, s₀.inodeBlock sb ip.inum)] :=
    hk3.imp fun _ _ _ => trivial
  obtain ⟨s5, h5⟩ := (hany.modifyData mem_cons_self trivial h4).exists_bwrite mem_cons_self
  obtain ⟨s6, h6, hk6⟩ := (hany.rewrite mem_cons_self h4 h5).exists_brelse_head
  refine .step h1 (.step hload (.step h₂ (.step h3 (.step h4 (.step h5 ⟨(), s6, h6, ?_⟩)))))
  exact ⟨_, (hk6.versions _ _ (.inl rfl)).2 rfl⟩

end Truncation

/-! ### Truncating a file -/

/-- The pointer blocks of the file are neither the group descriptors nor bitmaps that are looked at
when the file is truncated. -/
def TreeApart (s : Io) (sb : Super) (ip : InCore) : Prop :=
  ∀ p n, PointerAt s.disk ip.addrs p n → p.2.length < rootLevel p.1 →
    n ≠ 2 ∧ ∀ q a, PointerAt s.disk ip.addrs q a → s.groupBitmap sb a ≠ n

theorem TreeApart.two_notMem {ip : InCore} (h : TreeApart s sb ip) :
    2 ∉ {m | m ∈ fileReads s.disk ip.addrs} := by
  intro hm
  obtain ⟨p, hp, hlen⟩ := mem_fileReads.1 hm
  exact (h p 2 hp hlen).1 rfl

/-- Every pointer of the file in `s` has been freed once and nothing else, no pointer block has been
read in after it had been freed, and the inode has no pointers and size 0, in memory and on disk. -/
structure ReleasesOnce (s : Io) (sb : Super) (ip : InCore) (tr : List TruncEvent) (ip' : InCore)
    (s' : Io) : Prop where
  once : ∀ p a, PointerAt s.disk ip.addrs p a → tr.count (.free a) = 1
  nothing : ∀ a, .free a ∈ tr → ∃ p, PointerAt s.disk ip.addrs p a
  order : tr.Pairwise TruncEvent.Apart
  addrs : ∀ k ≤ EXT2_TIND_BLOCK, ip'.addrs k = 0
  size : ip'.size = 0
  stored : Stored sb (s'.disk (s.inodeBlock sb ip.inum)) ip'

theorem ext2fsItruncT_eq (sb : Super) (ip : InCore) : ext2fsItruncT sb ip = (do
    let ip ← fileRoots.foldlM (fun ip k => freeAddrT sb (rootLevel k) ip k) ip
    let ip := { ip with size := 0 }
    lift (ext2fsIupdate sb ip)
    pure ip) := by
  have hroots : fileRoots = List.range EXT2_NDIR_BLOCKS ++
      [EXT2_IND_BLOCK, EXT2_DIND_BLOCK, EXT2_TIND_BLOCK] := by decide
  have hdirect : ∀ l : List ℕ, (∀ k ∈ l, rootLevel k = 0) → ∀ ip,
      l.foldlM (fun ip k => freeAddrT sb (rootLevel k) ip k) ip = l.foldlM (freeAddrT sb 0) ip := by
    intro l hl
    induction l with
    | nil => exact fun _ => rfl
    | cons k l ih =>
      intro ip
      rw [foldlM_cons, foldlM_cons, hl k mem_cons_self]
      exact bind_congr fun ip' => ih (fun j hj => hl j (mem_cons_of_mem k hj)) ip'
  rw [hroots, foldlM_append, hdirect _ (by decide)]
  simp only [foldlM_cons, foldlM_nil, bind_assoc, pure_bind]
  rfl

/-- The loop over the places of `addrs`: the places `rest` are still to be treated. -/
structure FileRound (s₀ : Io) (R : Set ℕ) (ip : InCore) (rest : List ℕ) (t : Io) (ip' : InCore)
    (p : Io × List TruncEvent) (pre : List ℕ) (done : ℕ → ℕ) : Prop where
  range : pre ++ rest = fileRoots
  trunc : Truncation s₀ R t done [] p.1
  inum : ip'.inum = ip.inum
  left : ∀ k ∈ rest, ip'.addrs k = ip.addrs k
  cleared : ∀ k ∈ pre, ip'.addrs k = 0
  fresh : ∀ k ∈ rest, ∀ m ∈ entryReads s₀.disk (rootLevel k) (ip.addrs k), done m = 0
  trace : p.2 = pre.flatMap fun k => entryEvents s₀.disk (rootLevel k) (ip.addrs k)

section File

variable {ip : InCore} (h : s.Coherent [] ∅) (hdist : DistinctPointers s.disk ip.addrs)
  (hapart : TreeApart s sb ip)
include h hdist hapart

/-- **The loops of `ext2fs_itrunc`** free the pointers of the file in order. -/
theorem itrunc_loops : Meets (fileRoots.foldlM (fun ip k => freeAddrT sb (rootLevel k) ip k) ip)
    (s, []) ((fileFrees s.disk ip.addrs).foldlM (bfreed sb) s) fun t ip' p =>
      ∃ done, FileRound s {m | m ∈ fileReads s.disk ip.addrs} ip [] t ip' p fileRoots done := by
  have h2 := hapart.two_notMem
  have hbm : ∀ a ∈ fileFrees s.disk ip.addrs,
      s.groupBitmap sb a ∉ {m | m ∈ fileReads s.disk ip.addrs} := by
    intro a ha hm
    obtain ⟨q, hq⟩ := mem_fileFrees.1 ha
    obtain ⟨p, hp, hlen⟩ := mem_fileReads.1 hm
    exact (hapart p _ hp hlen).2 q a hq rfl
  have hnodup := nodup_fileReads hdist
  unfold fileReads at hnodup
  rw [nodup_flatMap] at hnodup
  obtain ⟨heach, hpair⟩ := hnodup
  have hstart : Truncation s {m | m ∈ fileReads s.disk ip.addrs} s (fun _ => 0) [] s := by
    refine ⟨⟨h.holds, by simp, rfl, fun n d hd => ?_⟩, fun _ _ => rfl, by simp, fun _ => rfl,
      fun _ _ => rfl⟩
    have hdisk : d = s.disk n := by
      rcases hd with hd | ⟨b, hv, hbno, hd⟩
      · exact hd
      · rw [← hd, ← hbno]
        exact h.clean b hv (Set.notMem_empty b)
    exact ⟨fun _ => hdisk, fun _ _ _ => by rw [hdisk]⟩
  unfold fileFrees
  rw [foldlM_flatMap]
  refine (Meets.foldlM (I := fun rest t ip' p => ∃ pre done,
    FileRound s {m | m ∈ fileReads s.disk ip.addrs} ip rest t ip' p pre done) ?_ ?_).conseq ?_
  · exact ⟨[], _, rfl, hstart, rfl, fun _ _ => rfl, by simp, fun _ _ _ _ => rfl, rfl⟩
  · rintro k rest t ip' ⟨s', _⟩ ⟨pre, done, hr⟩
    obtain rfl := hr.trace
    have hkin : k ∈ fileRoots := hr.range ▸ mem_append_right pre mem_cons_self
    have hlevel : rootLevel k + 2 ≤ NBUF := by
      have hk := mem_range.1 hkin
      unfold rootLevel
      simp only [EXT2_TIND_BLOCK, EXT2_NDIR_BLOCKS, NBUF, MAXOPBLOCKS] at hk ⊢
      omega
    have hk := hr.left k mem_cons_self
    have hdis : ∀ j ∈ rest, (entryReads s.disk (rootLevel k) (ip.addrs k)).Disjoint
        (entryReads s.disk (rootLevel j) (ip.addrs j)) := by
      rw [← hr.range, pairwise_append, pairwise_cons] at hpair
      exact hpair.2.1.1
    have hne : ∀ j ∈ pre ++ rest, j ≠ k := by
      have hnd : (pre ++ k :: rest).Nodup := hr.range ▸ nodup_range
      rw [nodup_middle, nodup_cons] at hnd
      exact fun j hj he => hnd.1 (he ▸ hj)
    rw [← hk]
    refine (Truncation.addr (Truncation.walks h2 _) hr.trunc h2 hlevel ?_ ?_ ?_).conseq ?_
    · rw [hk]
      exact heach k hkin
    · rw [hk]
      exact fun m hm => ⟨mem_flatMap.2 ⟨k, hkin, hm⟩, hr.fresh k mem_cons_self m hm⟩
    · rw [hk]
      exact fun a ha => hbm a (mem_flatMap.2 ⟨k, hkin, ha⟩)
    · rintro t' ip'' ⟨s'', _⟩ ⟨rfl, done', h', hsame, htr⟩
      obtain rfl := htr
      rw [hk] at hsame
      refine ⟨pre ++ [k], done', by simpa using hr.range, h', hr.inum, fun j hj => ?_,
        fun j hj => ?_, fun j hj m hm => ?_, by simp [hk]⟩
      · exact (update_of_ne (hne j (mem_append_right _ hj)) _ _).trans
          (hr.left j (mem_cons_of_mem _ hj))
      · rcases mem_append.1 hj with hj | hj
        · exact (update_of_ne (hne j (mem_append_left _ hj)) _ _).trans
            (hr.cleared j hj)
        · rw [mem_singleton.1 hj]
          exact update_self _ _ _
      · rw [hsame m fun hm' => disjoint_left.1 (hdis j hj) hm' hm]
        exact hr.fresh j (mem_cons_of_mem _ hj) m hm
  · rintro t ip' p ⟨pre, done, hr⟩
    have hpre : pre = fileRoots := by simpa using hr.range
    exact ⟨done, hpre ▸ hr⟩

/-- **`ext2fs_itrunc` frees the pointers of the file in order and writes the inode back**, unless
`ext2fs_bfree` stops it. -/
theorem itrunc_meets : Meets (ext2fsItruncT sb ip) (s, [])
    ((fileFrees s.disk ip.addrs).foldlM (bfreed sb) s) fun _ ip' p =>
      ip'.inum = ip.inum ∧ (∀ k ≤ EXT2_TIND_BLOCK, ip'.addrs k = 0) ∧ ip'.size = 0 ∧
      p.2 = fileEvents s.disk ip.addrs ∧
      ∃ d, p.1.disk (s.inodeBlock sb ip.inum) = updated sb ip' d := by
  have h2 := hapart.two_notMem
  rw [ext2fsItruncT_eq]
  refine (itrunc_loops h hdist hapart).bind_runs ?_
  rintro t ip' ⟨s', _⟩ ⟨done, hr⟩
  obtain rfl := hr.trace
  obtain ⟨u, s'', hup, d, hd⟩ := hr.trunc.iupdate h2 sb { ip' with size := 0 }
  refine .step (lift_ok hup) (.pure ⟨hr.inum, fun k hk => ?_, rfl, rfl, d, ?_⟩)
  · exact hr.cleared k (mem_range.2 (Nat.lt_succ_iff.2 hk))
  · rw [← hr.inum]
    exact hd

end File

/-- **Truncation releases every block once exactly if every call of `ext2fs_bfree` finds its bit
set.** -/
theorem truncates_iff (s : Io) (sb : Super) (ip : InCore) (h : s.Coherent [] ∅)
    (hsb : 128 ≤ sb.sInodeSize ∧ sb.sInodeSize ≤ BSIZE)
    (hdist : DistinctPointers s.disk ip.addrs) (hapart : TreeApart s sb ip) :
    (∃ ip' s' tr, ext2fsItrunc sb ip s = .ok (ip', s') ∧
        ext2fsItruncT sb ip (s, []) = .ok (ip', s', tr) ∧ ReleasesOnce s sb ip tr ip' s') ↔
      ((fileFrees s.disk ip.addrs).foldlM (bfreed sb) s).isSome = true := by
  have hmeets := itrunc_meets h hdist hapart
  constructor
  · rintro ⟨ip', s', tr, -, hrun, -⟩
    cases hfold : (fileFrees s.disk ip.addrs).foldlM (bfreed sb) s with
    | some t => rfl
    | none =>
      obtain ⟨e, he⟩ := hmeets.2 hfold
      cases hrun.symm.trans he
  · intro hsome
    obtain ⟨t, ht⟩ := Option.isSome_iff_exists.1 hsome
    obtain ⟨ip', ⟨s', tr⟩, hrun, hinum, haddrs, hsize, htr, d, hd⟩ := hmeets.1 t ht
    obtain rfl : tr = _ := htr
    have herase := ext2fsItruncT_erases sb ip (s, [])
    rw [hrun] at herase
    refine ⟨ip', s', _, herase.symm, hrun, fun p a hp => ?_, fun a ha => ?_,
      pairwise_fileEvents (nodup_fileFrees hdist), haddrs, hsize, ?_⟩
    · rw [count_free_fileEvents]
      exact count_eq_one_of_mem (nodup_fileFrees hdist) (mem_fileFrees.2 ⟨p, hp⟩)
    · rw [← count_pos_iff, count_free_fileEvents, count_pos_iff] at ha
      exact mem_fileFrees.1 ha
    · rw [hd]
      refine stored_updated hsb d (hsize ▸ Nat.two_pow_pos 32) fun k hk => ?_
      rw [haddrs k hk]
      exact Nat.two_pow_pos 32

/-! ### A file with a tree of pointer blocks, and a file of one block -/

/-- Blocks 1 to 40 are in use. -/
def usedDisk : ℕ → Block := fun n j => if n = 8 ∧ j.val < 5 then 255 else sampleDisk 8 255 n j

/-- The file of `treeIp` on an image whose bitmap, in block 8, has its blocks marked. -/
def treeUsed (n : ℕ) : Block := if n < 20 then usedDisk n else treeDisk n

/-- A group of 64 inodes, so that `ext2fs_bfree` finds the blocks of the file in group 0. -/
def treeSuper : Super := { sampleSuper with sInodesPerGroup := 64 }

theorem mapped_treeUsed {n : ℕ} {ks : List ℕ} (hn : 20 ≤ n) (h : Mapped treeUsed n ks) :
    Mapped treeDisk n ks ∧ follow treeDisk n ks = follow treeUsed n ks := by
  induction ks generalizing n with
  | nil => exact ⟨trivial, rfl⟩
  | cons k ks ih =>
    obtain ⟨hk, hne, hmapped⟩ := h
    have hdisk : treeUsed n = treeDisk n := if_neg (by omega)
    rw [hdisk] at hne hmapped
    have hmem := word_treeDisk hne
    have hnext : 20 ≤ (treeDisk n).word k := by
      simp only [mem_cons, Prod.mk.injEq, not_mem_nil, or_false] at hmem
      omega
    obtain ⟨h1, h2⟩ := ih hnext hmapped
    refine ⟨⟨hk, hne, h1⟩, ?_⟩
    change follow treeDisk ((treeDisk n).word k) ks = follow treeUsed ((treeUsed n).word k) ks
    rw [hdisk, h2]

theorem pointerAt_treeUsed {p : ℕ × List ℕ} (h : PointerAt treeUsed treeIp.addrs p a) :
    PointerAt treeDisk treeIp.addrs p a := by
  have hroot : 20 ≤ treeIp.addrs p.1 := by
    have hset := h.set
    unfold treeIp at hset ⊢
    simp only at hset ⊢
    split_ifs at hset ⊢ <;> omega
  obtain ⟨h1, h2⟩ := mapped_treeUsed hroot h.mapped
  exact ⟨h.root, h.depth, h.set, h1, h2.trans h.ends⟩

theorem truncates_tree : ∃ ip' s' tr,
    ext2fsItrunc treeSuper treeIp ⟨Bcache.binit, treeUsed, fun _ _ => 0⟩ = .ok (ip', s') ∧
      ext2fsItruncT treeSuper treeIp (⟨Bcache.binit, treeUsed, fun _ _ => 0⟩, []) =
        .ok (ip', s', tr) ∧
      ReleasesOnce ⟨Bcache.binit, treeUsed, fun _ _ => 0⟩ treeSuper treeIp tr ip' s' := by
  refine (truncates_iff _ _ _ (coherent_binit _ _) (by decide) ?_ ?_).2 ?_
  · exact fun p q a hp hq => distinct_tree p q a (pointerAt_treeUsed hp) (pointerAt_treeUsed hq)
  · intro p n hp _
    have hbm : ∀ a ∈ [40, 41, 20, 21, 22, 23, 30, 31],
        Io.groupBitmap ⟨Bcache.binit, treeUsed, fun _ _ => 0⟩ treeSuper a = 8 := by
      decide +kernel
    have hlist : ∀ {q : ℕ × List ℕ} {a : ℕ}, PointerAt treeUsed treeIp.addrs q a →
        a ∈ [40, 41, 20, 21, 22, 23, 30, 31] :=
      fun hq => List.mem_map_of_mem (f := Prod.snd) (pointerAt_tree (pointerAt_treeUsed hq))
    have hn := hlist hp
    simp only [mem_cons, not_mem_nil, or_false] at hn
    refine ⟨by omega, fun q a hq => ?_⟩
    rw [hbm a (hlist hq)]
    omega
  · decide +kernel

/-- **The file has block 40, which the bitmap has marked, and `ext2fs_itrunc` panics**: with 32
inodes in a group `ext2fs_bfree` looks for the block in group 1, which does not exist. -/
theorem truncate_panics : DistinctPointers usedDisk (oneBlock 40).addrs ∧
    (usedDisk 8).bit 39 = true ∧
    ext2fsItrunc sampleSuper (oneBlock 40) ⟨Bcache.binit, usedDisk, fun _ _ => 0⟩ =
      .error (.panic "ext2fs_bfree: block already free") := by
  refine ⟨distinct_oneBlock _ _, by decide +kernel, ?_⟩
  have hrun : (match ext2fsItrunc sampleSuper (oneBlock 40)
      ⟨Bcache.binit, usedDisk, fun _ _ => 0⟩ with
    | .ok _ => none
    | .error e => some e) = some (.panic "ext2fs_bfree: block already free") := by decide +kernel
  cases hr : ext2fsItrunc sampleSuper (oneBlock 40) ⟨Bcache.binit, usedDisk, fun _ _ => 0⟩ with
  | ok r =>
    rw [hr] at hrun
    cases hrun
  | error e =>
    rw [hr] at hrun
    rw [Option.some.inj hrun]

end Io

end Cinux
