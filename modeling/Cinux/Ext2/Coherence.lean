import Cinux.Ext2.AllocSound
import Cinux.Ext2.Driver
import Cinux.System.Machine

/-!
# Code that leaves the buffers clean

For each function of the driver, when it leaves all buffers released and equal to their disk
blocks, as triples over the buffer cache.  Code that only reads keeps the disk as it is
(`Io.Clean`); code that allocates, frees or updates an inode writes every block back before it
releases it (`Io.Released`), as long as it stays inside the buffers.  The exceptions are the pointer
blocks: `ext2fs_bmap` and `ext2fs_itrunc` store into them without writing them back, so
`Io.BmapOk` and `Io.ItruncOk` ask that there is nothing to store.
-/

namespace Cinux

namespace Io

open Program

variable {s s₀ s' : Io} {held : List (Fin NBUF)} {b : Fin NBUF} {n k : ℕ} {sb : Super} {ip : InCore}

/-! ### Code that only reads -/

/-- The buffers `held` are held, all buffers are clean, and disk and memory are those of `s₀`. -/
def Clean (s₀ : Io) (held : List (Fin NBUF)) (s : Io) : Prop :=
  s.Coherent held ∅ ∧ s.disk = s₀.disk ∧ s.outside = s₀.outside

theorem triple_bread (s₀ : Io) (held : List (Fin NBUF)) (n : ℕ) :
    Triple (s₀.Clean held) (bread n) fun b s =>
      s₀.Clean (b :: held) s ∧ (s.cache.buf b).blockno = n := by
  rintro s ⟨hc, hd, ho⟩ b s' hr
  obtain ⟨-, hc', hd', ho', hbno, -, -⟩ := hc.bread_ok hr
  exact ⟨⟨hc', hd'.trans hd, ho'.trans ho⟩, hbno⟩

theorem triple_brelse (s₀ : Io) (held : List (Fin NBUF)) (b : Fin NBUF) :
    Triple (s₀.Clean (held ++ [b])) (brelse b) fun _ => s₀.Clean held := by
  rintro s ⟨hc, hd, ho⟩ u s' hr
  obtain ⟨s1, h1, hc1, hd1, ho1, -⟩ := hc.brelse_ok (by simp) (Set.notMem_empty b)
  rw [h1] at hr
  cases hr
  have hout : b ∉ held := fun hb => (List.nodup_append.1 hc.nodup).2.2 b hb b (by simp) rfl
  rw [List.erase_append_right _ hout, List.erase_cons_head, List.append_nil] at hc1
  exact ⟨hc1, hd1.trans hd, ho1.trans ho⟩

theorem Clean.load_eq (h : s₀.Clean held s) (hb : b ∈ held) (hk : k < EXT2_INDIRECT) :
    load b k s = .ok ((s₀.disk (s.cache.buf b).blockno).word k, s) := by
  rw [Io.load_eq hk, h.1.clean b (h.1.locked b hb).2.2 (Set.notMem_empty b), h.2.1]

theorem mapAddr_eq (h : ip.addrs k ≠ 0) : mapAddr sb ip k s = .ok ((ip.addrs k, ip), s) := by
  unfold mapAddr
  rw [if_neg h]
  rfl

theorem triple_mapEntry (hk : k < EXT2_INDIRECT) (hne : (s₀.disk n).word k ≠ 0) :
    Triple (fun s => s₀.Clean (b :: held) s ∧ (s.cache.buf b).blockno = n) (mapEntry sb ip b k)
      fun a s => a = (s₀.disk n).word k ∧ s₀.Clean (b :: held) s := by
  rintro s ⟨hs, rfl⟩ a s' hr
  unfold mapEntry at hr
  rw [bind_ok (hs.load_eq (by simp) hk)] at hr
  rw [if_neg hne] at hr
  cases hr
  exact ⟨rfl, hs⟩

/-- The pointers of a chain are all set. -/
def Mapped (disk : ℕ → Block) : ℕ → List ℕ → Prop
  | _, [] => True
  | n, k :: ks => k < EXT2_INDIRECT ∧ (disk n).word k ≠ 0 ∧ Mapped disk ((disk n).word k) ks

/-- Where a chain of pointers ends. -/
def follow (disk : ℕ → Block) : ℕ → List ℕ → ℕ
  | n, [] => n
  | n, k :: ks => follow disk ((disk n).word k) ks

/-- The pointer blocks of a chain. -/
def chain (disk : ℕ → Block) : ℕ → List ℕ → List ℕ
  | _, [] => []
  | n, k :: ks => n :: chain disk ((disk n).word k) ks

/-- Where `ext2fs_bmap` finds block `bn`: the place in `addrs`, and the places in the pointer
blocks below it. -/
def pointers (bn : ℕ) : ℕ × List ℕ :=
  if bn < EXT2_NDIR_BLOCKS then (bn, [])
  else
    let bn := bn - EXT2_NDIR_BLOCKS
    if bn < EXT2_INDIRECT then (EXT2_IND_BLOCK, [bn])
    else
      let bn := bn - EXT2_INDIRECT
      if bn < EXT2_INDIRECT * EXT2_INDIRECT then
        (EXT2_DIND_BLOCK, [bn / EXT2_INDIRECT, bn % EXT2_INDIRECT])
      else
        let bn := bn - EXT2_INDIRECT * EXT2_INDIRECT
        (EXT2_TIND_BLOCK, [bn / EXT2_INDIRECT * EXT2_INDIRECT,
          bn % EXT2_INDIRECT * EXT2_INDIRECT / EXT2_INDIRECT, bn % EXT2_INDIRECT])

theorem triple_pointer {α : Type} {f : Fin NBUF → ℕ → IoM α} {Q : α → Io → Prop}
    (hk : k < EXT2_INDIRECT) (hne : (s₀.disk n).word k ≠ 0)
    (hf : ∀ b, Triple (s₀.Clean (b :: held)) (f b ((s₀.disk n).word k)) Q) :
    Triple (s₀.Clean held) (do let bp ← bread n; let a ← mapEntry sb ip bp k; f bp a) Q := by
  refine .bind (triple_bread s₀ held n) fun b => .bind (triple_mapEntry hk hne) fun a => ?_
  exact .pull fun ha => ha ▸ hf b

/-- `ext2fs_bmap` below an indirect block, when all pointers are set. -/
theorem triple_bmap {bn : ℕ} (hbn : EXT2_NDIR_BLOCKS ≤ bn)
    (htop : ip.addrs (pointers bn).1 ≠ 0)
    (hm : Mapped s₀.disk (ip.addrs (pointers bn).1) (pointers bn).2) :
    Triple (s₀.Clean []) (ext2fsBmap sb ip bn) fun r s =>
      r = (follow s₀.disk (ip.addrs (pointers bn).1) (pointers bn).2, ip) ∧ s₀.Clean [] s := by
  have hret : ∀ (r : ℕ × InCore), Triple (s₀.Clean []) (pure r : IoM (ℕ × InCore))
      fun r' s => r' = r ∧ s₀.Clean [] s := fun r => .pure fun s hs => ⟨rfl, hs⟩
  have hstart : ∀ {f : ℕ × InCore → IoM (ℕ × InCore)} {Q : ℕ × InCore → Io → Prop} {k : ℕ},
      ip.addrs k ≠ 0 → Triple (s₀.Clean []) (f (ip.addrs k, ip)) Q →
      Triple (s₀.Clean []) (mapAddr sb ip k >>= f) Q := by
    intro f Q k hk hf s hs r s' hr
    rw [bind_ok (mapAddr_eq hk)] at hr
    exact hf s hs r s' hr
  have hdir : ¬bn < EXT2_NDIR_BLOCKS := by omega
  unfold pointers at htop hm ⊢
  unfold ext2fsBmap
  rw [if_neg hdir] at htop hm ⊢
  rw [if_neg hdir]
  dsimp only at htop hm ⊢
  by_cases h1 : bn - EXT2_NDIR_BLOCKS < EXT2_INDIRECT
  · rw [if_pos h1] at htop hm ⊢
    rw [if_pos h1]
    obtain ⟨hk, hne, -⟩ := hm
    refine hstart htop (triple_pointer hk hne fun bp => ?_)
    exact .bind (triple_brelse s₀ [] bp) fun _ => hret _
  rw [if_neg h1] at htop hm ⊢
  rw [if_neg h1]
  by_cases h2 : bn - EXT2_NDIR_BLOCKS - EXT2_INDIRECT < EXT2_INDIRECT * EXT2_INDIRECT
  · rw [if_pos h2] at htop hm ⊢
    rw [if_pos h2]
    obtain ⟨hk, hne, hk', hne', -⟩ := hm
    refine hstart htop (triple_pointer hk hne fun bp => triple_pointer hk' hne' fun bp1 => ?_)
    exact .bind (triple_brelse s₀ [bp1] bp) fun _ => .bind (triple_brelse s₀ [] bp1) fun _ => hret _
  rw [if_neg h2] at htop hm ⊢
  split_ifs
  · obtain ⟨hk, hne, hk', hne', hk'', hne'', -⟩ := hm
    refine hstart htop (triple_pointer hk hne fun bp => triple_pointer hk' hne' fun bp1 =>
      triple_pointer hk'' hne'' fun bp2 => ?_)
    exact .bind (triple_brelse s₀ [bp2, bp1] bp) fun _ =>
      .bind (triple_brelse s₀ [bp2] bp1) fun _ => .bind (triple_brelse s₀ [] bp2) fun _ => hret _
  · intro s hs r s' hr
    cases hr

/-! ### Code that writes -/

/-- `ext2fs_balloc` finds its bit inside the buffer. -/
def BallocInside (s : Io) (sb : Super) (inum : ℕ) : Prop :=
  ∀ i j, s.scan sb inum = some (i, j) → i < BSIZE

/-- The bit that `ext2fs_bfree` clears. -/
def freeIndex (s : Io) (sb : Super) (a : ℕ) : ℤ := toInt32 (sb.inodeIndex a - s.groupBitmap sb a)

/-- The byte with that bit lies inside the buffer. -/
def BfreeInside (s : Io) (sb : Super) (a : ℕ) : Prop :=
  0 ≤ (s.freeIndex sb a).tdiv 8 ∧ (s.freeIndex sb a).tdiv 8 < BSIZE

/-- The byte of the inode bitmap that `ext2fs_ifree` changes lies inside the buffer. -/
def IfreeInside (sb : Super) (ip : InCore) : Prop :=
  0 ≤ (toInt32 (sb.inodeIndex ip.inum)).tdiv 8 ∧ (toInt32 (sb.inodeIndex ip.inum)).tdiv 8 < BSIZE

theorem Coherent.clearBitmap_ok (h : s.Coherent held ∅) (hb : b ∈ held) {index : ℤ} {msg : String}
    (hin : 0 ≤ index.tdiv 8 ∧ index.tdiv 8 < BSIZE)
    (hr : clearBitmap b index msg s = .ok ((), s')) :
    s'.Coherent held ∅ ∧ s'.outside = s.outside ∧
      (∀ n, n ≠ (s.cache.buf b).blockno → s'.disk n = s.disk n) ∧
      (∀ n, s.disk n = Block.zero → s'.disk n = Block.zero) ∧
      ∀ x, (s'.cache.buf x).blockno = (s.cache.buf x).blockno := by
  have hget : getByteAt b (index.tdiv 8) s = .ok (s.byteAt b (index.tdiv 8), s) := rfl
  unfold clearBitmap at hr
  rw [bind_ok hget] at hr
  split_ifs at hr with hbit
  · obtain ⟨s1, s2, h1, h2, hc, hd, ho, hbno⟩ := h.setByteAt_bwrite hb (index.tdiv 8)
      (UInt8.ofNat ((s.byteAt b (index.tdiv 8)).toNat - 2 ^ maskBit index))
    rw [bind_ok h1, h2] at hr
    cases hr
    refine ⟨hc, ho hin, fun n hn => ?_, fun n hn => ?_, hbno⟩
    · rw [hd, Function.update_of_ne hn]
    · have hne : n ≠ (s.cache.buf b).blockno := by
        rintro rfl
        rw [h.byteAt_eq hb (Set.notMem_empty b), blockByte, if_pos hin, hn] at hbit
        simp at hbit
      rw [hd, Function.update_of_ne hne, hn]
  · cases hr

theorem groupBitmap_congr (hd : s'.disk 2 = s.disk 2) (ho : s'.outside = s.outside) (a : ℕ) :
    s'.groupBitmap sb a = s.groupBitmap sb a := by
  have hbyte : s'.blockByte 2 = s.blockByte 2 := by
    unfold blockByte
    rw [hd, ho]
  unfold groupBitmap
  rw [hbyte]

theorem Coherent.bfree_ok (h : s.Coherent [] ∅) {a : ℕ} (hin : s.BfreeInside sb a)
    (hr : ext2fsBfree sb a s = .ok ((), s')) :
    s'.Coherent [] ∅ ∧ s'.outside = s.outside ∧ s'.disk 2 = s.disk 2 ∧
      ∀ n, s.disk n = Block.zero → s'.disk n = Block.zero := by
  obtain ⟨bp1, s1, h1, hr⟩ := bind_eq_ok.1 hr
  obtain ⟨-, hc1, hd1, ho1, hbno1, -, -⟩ := h.bread_ok h1
  have hload : load bp1 (sb.groupNo a * groupDescWords + bgBlockBitmap) s1 =
      .ok (s.groupBitmap sb a, s1) := h.load_of_bread h1 _
  rw [bind_ok hload] at hr
  obtain ⟨bp2, s2, h₂, hr⟩ := bind_eq_ok.1 hr
  obtain ⟨hne, hc2, hd2, ho2, hbno2, -, hsame⟩ := hc1.bread_ok h₂
  obtain ⟨_, s3, h3, hr⟩ := bind_eq_ok.1 hr
  obtain ⟨hc3, ho3, hd3, hz3, -⟩ := hc2.clearBitmap_ok (by simp) hin h3
  obtain ⟨s4, h4, hc4, hd4, ho4, -⟩ := hc3.brelse_head
  rw [bind_ok h4] at hr
  obtain ⟨s5, h5, hc5, hd5, ho5, -⟩ := hc4.brelse_head
  rw [h5] at hr
  cases hr
  -- block 2 is held, so it is not the bitmap
  have h2 : 2 ≠ (s2.cache.buf bp2).blockno := by
    intro he
    have hbp1 : (s2.cache.buf bp1).blockno = 2 := by rw [hsame bp1 (by simp), hbno1]
    have := hc2.blockno_inj (hc2.locked bp1 (by simp)).2.2 (hc2.locked bp2 (by simp)).2.2
      (hbp1.trans he)
    exact hne (by simp [this])
  refine ⟨hc5, ?_, ?_, fun n hn => ?_⟩
  · rw [ho5, ho4, ho3, ho2, ho1]
  · rw [hd5, hd4, hd3 2 h2, hd2, hd1]
  · rw [hd5, hd4]
    exact hz3 n (by rw [hd2, hd1, hn])

theorem triple_descWord {α : Type} {f : ℕ → IoM α} {Q : α → Io → Prop} (k : ℕ)
    (hf : ∀ v, Triple (s₀.Clean []) (f v) Q) :
    Triple (s₀.Clean []) (do let bp ← bread 2; let v ← load bp k; brelse bp; f v) Q := by
  refine .bind (triple_bread s₀ [] 2) fun bp => .bind (Q := fun _ => s₀.Clean [bp]) ?_ fun v => ?_
  · rintro s ⟨hs, -⟩ v s' hr
    obtain ⟨-, rfl⟩ := ok_inj hr
    exact hs
  · exact .bind (triple_brelse s₀ [] bp) fun _ => hf v

/-- All buffers are released and clean, and the memory around them is that of `s₀`. -/
def Released (s₀ s : Io) : Prop := s.Coherent [] ∅ ∧ s.outside = s₀.outside

theorem triple_iupdate : Triple (s₀.Clean []) (ext2fsIupdate sb ip) fun _ => s₀.Released := by
  refine triple_descWord _ fun table => ?_
  rintro s ⟨hc, -, ho⟩ u s' hr
  obtain ⟨s1, h1, hc1, -, ho1, -⟩ := hc.rewrite_ok
    (by simp) (by decide)
    fun d => d.memmove (sb.inodeOffset ip.inum) sizeofExt2Inode
      (ip.dinByte fun k => d.byte (sb.inodeOffset ip.inum + k))
  rw [h1] at hr
  cases hr
  exact ⟨hc1, ho1.trans ho⟩

theorem triple_ifree (hin : IfreeInside sb ip) :
    Triple (s₀.Clean []) (ext2fsIfree sb ip) fun _ => s₀.Released := by
  refine triple_descWord _ fun bitmap => ?_
  rintro s ⟨hc, -, ho⟩ u s' hr
  obtain ⟨bp2, s2, h2, hr⟩ := bind_eq_ok.1 hr
  obtain ⟨-, hc2, -, ho2, -⟩ := hc.bread_ok h2
  obtain ⟨_, s3, h3, hr⟩ := bind_eq_ok.1 hr
  obtain ⟨hc3, ho3, -⟩ := hc2.clearBitmap_ok (by simp) hin h3
  obtain ⟨s4, h4, hc4, -, ho4, -⟩ := hc3.brelse_head
  rw [h4] at hr
  cases hr
  exact ⟨hc4, by rw [ho4, ho3, ho2, ho]⟩

/-! ### Truncation -/

/-- The pointer blocks that `ext2fs_itrunc` goes through hold no pointers, and the bits that it
clears lie inside their buffers. -/
structure ItruncOk (s : Io) (sb : Super) (ip : InCore) : Prop where
  inside : ∀ k ≤ EXT2_TIND_BLOCK, ip.addrs k ≠ 0 → s.BfreeInside sb (ip.addrs k)
  empty : ∀ k ≤ EXT2_TIND_BLOCK, EXT2_IND_BLOCK ≤ k → ip.addrs k ≠ 0 →
    s.disk (ip.addrs k) = Block.zero

/-- What `ext2fs_bfree` keeps. -/
structure Frees (s₀ s : Io) : Prop where
  coherent : s.Coherent [] ∅
  outside : s.outside = s₀.outside
  desc : s.disk 2 = s₀.disk 2
  zero : ∀ n, s₀.disk n = Block.zero → s.disk n = Block.zero

theorem Frees.inside (h : s₀.Frees s) {a : ℕ} (hin : s₀.BfreeInside sb a) :
    s.BfreeInside sb a := by
  unfold BfreeInside freeIndex at hin ⊢
  rwa [groupBitmap_congr h.desc h.outside]

theorem triple_bfree {a : ℕ} (hin : s₀.BfreeInside sb a) :
    Triple s₀.Frees (ext2fsBfree sb a) fun _ => s₀.Frees := by
  intro s hs u s' hr
  obtain ⟨hc, ho, hd, hz⟩ := hs.coherent.bfree_ok (hs.inside hin) hr
  exact ⟨hc, ho.trans hs.outside, hd.trans hs.desc, fun n hn => hz n (hs.zero n hn)⟩

theorem triple_freeTree (level : ℕ) (hz : s₀.disk n = Block.zero) :
    Triple (s₀.Clean []) (freeTree sb level n) fun _ => s₀.Clean [] := by
  cases level with
  | zero => exact .pure fun _ hs => hs
  | succ level =>
    refine .bind (triple_bread s₀ [] n) fun bp => .bind (.forM fun i hi => ?_) fun _ => ?_
    · rintro s ⟨hs, hbno⟩ u s' hr
      have hk : i < EXT2_INDIRECT := List.mem_range.1 hi
      have hload : load bp i s = .ok (0, s) := by
        rw [hs.load_eq (by simp) hk, hbno, hz, Block.word_zero]
      rw [bind_ok hload, if_neg (by simp)] at hr
      cases hr
      exact ⟨hs, hbno⟩
    · exact (triple_brelse s₀ [] bp).conseq (fun _ hs => hs.1) fun _ _ hs => hs

/-- The blocks freed so far were those of `ip₀`. -/
def Shrunk (ip₀ ip : InCore) : Prop := ∀ k, ip.addrs k = ip₀.addrs k ∨ ip.addrs k = 0

theorem triple_freeAddr (level : ℕ) {ip0 : InCore}
    (hin : ip0.addrs k ≠ 0 → s₀.BfreeInside sb (ip0.addrs k))
    (hz : level ≠ 0 → ip0.addrs k ≠ 0 → s₀.disk (ip0.addrs k) = Block.zero) (ip : InCore) :
    Triple (fun s => Shrunk ip0 ip ∧ s₀.Frees s) (freeAddr sb level ip k)
      fun ip' s => Shrunk ip0 ip' ∧ s₀.Frees s := by
  refine .pull fun hip => ?_
  unfold freeAddr
  split_ifs with hk
  · have hk0 : ip.addrs k = ip0.addrs k := (hip k).resolve_right hk
    rw [hk0] at hk ⊢
    refine .bind ?_ fun _ => .bind (triple_bfree (hin hk)) fun _ => ?_
    · intro s hs u s' hr
      cases level with
      | zero =>
        cases hr
        exact hs
      | succ level =>
        obtain ⟨hc, hd, ho⟩ := triple_freeTree _ (hs.zero _ (hz (by simp) hk)) s
          ⟨hs.coherent, rfl, rfl⟩ u s' hr
        exact ⟨hc, ho.trans hs.outside, by rw [hd, hs.desc], fun n hn => by rw [hd, hs.zero n hn]⟩
    · refine .pure fun s hs => ⟨fun j => ?_, hs⟩
      unfold InCore.setAddr
      by_cases hj : j = k
      · exact .inr (by simp [hj])
      · simpa [hj] using hip j
  · exact .pure fun s hs => ⟨hip, hs⟩

theorem triple_released {α : Type} {m : IoM α}
    (h : ∀ s : Io, Triple (s.Clean []) m fun _ => s.Released) :
    Triple s₀.Released m fun _ => s₀.Released := by
  intro s hs a s' hr
  obtain ⟨hc, ho⟩ := h s s ⟨hs.1, rfl, rfl⟩ a s' hr
  exact ⟨hc, ho.trans hs.2⟩

theorem triple_itrunc (hok : s₀.ItruncOk sb ip) :
    Triple s₀.Frees (ext2fsItrunc sb ip) fun _ => s₀.Released := by
  have hstep := fun (level : ℕ) {k : ℕ} (hk : k ≤ EXT2_TIND_BLOCK)
      (hz : level ≠ 0 → EXT2_IND_BLOCK ≤ k) =>
    triple_freeAddr level (hok.inside k hk) fun hl => hok.empty k hk (hz hl)
  have hinit : ∀ s, s₀.Frees s → Shrunk ip ip ∧ s₀.Frees s := fun s hs => ⟨fun _ => .inl rfl, hs⟩
  refine .bind ((Triple.foldlM ?_).conseq hinit
    fun _ _ hs => hs) fun ip1 => .bind (hstep 1 (by decide) (by decide) ip1) fun ip2 =>
    .bind (hstep 2 (by decide) (by decide) ip2) fun ip3 =>
    .bind (hstep 3 (by decide) (by decide) ip3) fun ip4 => ?_
  · intro k hk ip'
    have hk := List.mem_range.1 hk
    refine hstep 0 ?_ (by simp) ip'
    simp only [EXT2_NDIR_BLOCKS, EXT2_TIND_BLOCK] at *
    omega
  · refine .bind (((triple_released fun _ => triple_iupdate).conseq ?_ fun _ _ hs => hs))
      fun _ => .pure fun s hs => hs
    exact fun s hs => ⟨hs.2.coherent, hs.2.outside⟩

/-! ### Rounds of reading and writing -/

/-- `ext2fs_bmap` finds every pointer below `addrs` set, and if it allocates a direct block, then
inside the bitmap. -/
def BmapOk (s : Io) (sb : Super) (ip : InCore) (bn : ℕ) : Prop :=
  if bn < EXT2_NDIR_BLOCKS then ip.addrs bn = 0 → s.BallocInside sb ip.inum
  else ip.addrs (pointers bn).1 ≠ 0 ∧ Mapped s.disk (ip.addrs (pointers bn).1) (pointers bn).2

theorem Coherent.bmap_ok (h : s.Coherent [] ∅) {bn : ℕ} (hok : s.BmapOk sb ip bn)
    {r : ℕ × InCore} (hr : ext2fsBmap sb ip bn s = .ok (r, s')) : s.Released s' := by
  unfold BmapOk at hok
  split_ifs at hok with hbn
  · unfold ext2fsBmap at hr
    unfold mapAddr at hr
    split_ifs at hr with hzero
    · obtain ⟨a, s1, h1, hr⟩ := bind_eq_ok.1 hr
      obtain ⟨hc, ho⟩ := h.balloc h1
      cases hr
      exact ⟨hc, ho (hok hzero)⟩
    · cases hr
      exact ⟨h, rfl⟩
  · obtain ⟨-, hc, -, ho⟩ := triple_bmap (by omega) hok.1 hok.2 s ⟨h, rfl, rfl⟩ r s' hr
    exact ⟨hc, ho⟩

theorem Coherent.readRound_ok (h : s.Coherent [] ∅) {off m : ℕ}
    (hok : s.BmapOk sb ip (off / BSIZE)) {r : Bytes × InCore}
    (hr : readRound sb ip off m s = .ok (r, s')) : s.Released s' := by
  obtain ⟨⟨a, ip'⟩, s1, h1, hr⟩ := bind_eq_ok.1 hr
  obtain ⟨hc1, ho1⟩ := h.bmap_ok hok h1
  obtain ⟨bp, s2, h2, hr⟩ := bind_eq_ok.1 hr
  obtain ⟨-, hc2, -, ho2, -⟩ := hc1.bread_ok h2
  have hdata : data bp s2 = .ok ((s2.cache.buf bp).data, s2) := rfl
  rw [bind_ok hdata] at hr
  obtain ⟨s3, h3, hc3, -, ho3, -⟩ := hc2.brelse_head
  rw [bind_ok h3] at hr
  cases hr
  exact ⟨hc3, by rw [ho3, ho2, ho1]⟩

theorem memmove_none (d : Block) (o : ℕ) (src : ℕ → UInt8) : d.memmove o 0 src = d := by
  funext j
  exact if_neg (by omega)

/-- The copy of `either_copyin` stops before the first byte or after the last one. -/
theorem Coherent.writeRound_ok (h : s.Coherent [] ∅) {off m c : ℕ} {src : ℕ → UInt8}
    (hok : s.BmapOk sb ip (off / BSIZE)) (hcopy : m ≤ c ∨ c = 0) {r : InCore}
    (hr : writeRound sb ip off m c src s = .ok (r, s')) : s.Released s' := by
  obtain ⟨⟨a, ip'⟩, s1, h1, hr⟩ := bind_eq_ok.1 hr
  obtain ⟨hc1, ho1⟩ := h.bmap_ok hok h1
  dsimp only at hr
  split_ifs at hr with hfail
  · obtain rfl : c = 0 := by omega
    obtain ⟨bp, s2, h2, hr⟩ := bind_eq_ok.1 hr
    obtain ⟨-, hc2, -, ho2, -⟩ := hc1.bread_ok h2
    have hsame : modifyData bp (·.memmove (off % BSIZE) 0 src) s2 = .ok ((), s2) := by
      unfold modifyData Bcache.modify
      simp [memmove_none]
    rw [bind_ok hsame] at hr
    obtain ⟨s3, h3, hc3, -, ho3, -⟩ := hc2.brelse_head
    rw [bind_ok h3] at hr
    cases hr
    exact ⟨hc3, by rw [ho3, ho2, ho1]⟩
  · obtain ⟨s2, h2, hc2, -, ho2, -⟩ := hc1.rewrite_ok (by simp) (by decide)
      (·.memmove (off % BSIZE) c src)
    obtain ⟨bp, t1, e1, h2⟩ := bind_eq_ok.1 h2
    obtain ⟨_, t2, e2, h2⟩ := bind_eq_ok.1 h2
    obtain ⟨_, t3, e3, h2⟩ := bind_eq_ok.1 h2
    rw [bind_ok e1, bind_ok e2, bind_ok e3, bind_ok h2] at hr
    cases hr
    exact ⟨hc2, ho2.trans ho1⟩

end Io

end Cinux
