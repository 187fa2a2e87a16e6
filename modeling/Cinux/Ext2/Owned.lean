import Cinux.Bio.Versions
import Cinux.Ext2.Coherence
import Mathlib.Data.Nat.Count

/-!
# Files whose blocks are their own

A store may hit anything if a file shares its blocks with the metadata.  This module is about a file
whose blocks are its own (`Io.Owned`): a level is assigned to every block of the file, 0 to its
data and `l + 1` to pointer blocks that lead to level `l`, and the allocator hands out none of these
blocks, nor the descriptors, the bitmap or the inode table.  Only as many bits of the bitmap matter
for that as the call may take.  Pointer blocks need not be clean: what is asked of a block is asked
of all its versions.

`ext2fs_bmap` and the rounds of `ext2fs_writei` keep this, and of the inode in memory they change
only pointers that were not set (`Io.Filled`).
-/

namespace Cinux

open Function

namespace Io

open Program

/-- The block in which `ext2fs_ilock` and `ext2fs_iupdate` look for an inode. -/
def inodeBlock (s : Io) (sb : Super) (inum : ℕ) : ℕ :=
  (le32 (fun i => s.blockByte 2 i) (4 * (sb.groupNo inum * groupDescWords + bgInodeTable)) +
    sb.inodeIndex inum / sb.inodesPerBlock) % 2 ^ 32

theorem inodeBlock_congr {s s' : Io} (hd : s'.disk 2 = s.disk 2) (ho : s'.outside = s.outside)
    (sb : Super) (inum : ℕ) : s'.inodeBlock sb inum = s.inodeBlock sb inum := by
  have hbyte : s'.blockByte 2 = s.blockByte 2 := by
    unfold blockByte
    rw [hd, ho]
  unfold inodeBlock
  rw [hbyte]

/-- The level of the block that `addrs[k]` leads to. -/
def rootLevel (k : ℕ) : ℕ := k - (EXT2_NDIR_BLOCKS - 1)

section

variable (s₀ : Io) (sb : Super) (inum : ℕ)

/-- The inode of the file and the metadata that the driver uses for it have block `n` neither for
themselves nor among the blocks of the file. -/
structure Spare (lev : ℕ → Option ℕ) (n : ℕ) : Prop where
  null : n ≠ 0
  desc : n ≠ 2
  table : n ≠ s₀.inodeBlock sb inum
  bitmap : n ≠ s₀.groupBitmap sb inum
  file : lev n = none

/-- What all versions of block `n` have in common: the descriptors and the block with the inode are
those of `s₀`, the bitmap is `map`, and pointer blocks lead one level down. -/
structure Layout (lev : ℕ → Option ℕ) (map : Block) (n : ℕ) (d : Block) : Prop where
  desc : n = 2 → d = s₀.disk 2
  table : n = s₀.inodeBlock sb inum → d = s₀.disk n
  bitmap : n = s₀.groupBitmap sb inum → d = map
  pointer : ∀ l, lev n = some (l + 1) → ∀ k < EXT2_INDIRECT,
    d.word k = 0 ∨ lev (d.word k) = some l

/-- Bit `q` in the order of the scan is clear: byte by byte and from the top of each byte, first in
the bitmap, then in the memory behind the buffer. -/
def clearAt (map : Block) (q : ℕ) : Bool :=
  !(if q / 8 < BSIZE then map.byte (q / 8)
    else s₀.outside (s₀.groupBitmap sb inum) (q / 8 : ℕ)).toNat.testBit (7 - q % 8)

/-- The blocks of the file are none of the metadata, and the next `N` bits that the scan takes, if
it finds so many clear, lie inside the bitmap and stand for spare blocks. -/
structure Apart (lev : ℕ → Option ℕ) (map : Block) (N : ℕ) : Prop where
  desc : lev 2 = none
  table : lev (s₀.inodeBlock sb inum) = none
  bitmap : lev (s₀.groupBitmap sb inum) = none
  table_ne : s₀.inodeBlock sb inum ≠ 2
  bitmap_ne : s₀.groupBitmap sb inum ≠ 2
  bitmap_ne_table : s₀.groupBitmap sb inum ≠ s₀.inodeBlock sb inum
  clear : ∀ q < 8 * sb.scanBytes, s₀.clearAt sb inum map q = true →
    Nat.count (s₀.clearAt sb inum map · = true) q < N →
    q / 8 < BSIZE ∧ s₀.Spare sb inum lev ((s₀.groupBitmap sb inum + q) % 2 ^ 32)

/-- The blocks of the file with levels `lev` are its own, in all their versions, also when the
allocator hands out `N` more. -/
structure Sound (lev : ℕ → Option ℕ) (map : Block) (N : ℕ) (held : List (Fin NBUF × ℕ)) (s : Io) :
    Prop where
  keeps : s.Keeps (s₀.Layout sb inum lev map) s₀.outside held
  apart : s₀.Apart sb inum lev map N

end

/-- The pointers of the inode lead to the levels they are meant for. -/
def Rooted (lev : ℕ → Option ℕ) (ip : InCore) : Prop :=
  ∀ k ≤ EXT2_TIND_BLOCK, ip.addrs k ≠ 0 → lev (ip.addrs k) = some (rootLevel k)

variable {s₀ s s' : Io} {sb : Super} {inum : ℕ} {lev : ℕ → Option ℕ} {map : Block}
  {held : List (Fin NBUF × ℕ)} {b : Fin NBUF} {n k l N : ℕ} {ip ip' : InCore}

/-! ### Allocation -/

variable {a : ℕ}

theorem Layout.assign {d : Block} (h : s₀.Layout sb inum lev map n d) (ha : lev a = none)
    (hn : n ≠ a) (l : ℕ) : s₀.Layout sb inum (update lev a (some l)) map n d := by
  refine ⟨h.desc, h.table, h.bitmap, fun l' hl' k hk => ?_⟩
  rw [update_of_ne hn] at hl'
  refine (h.pointer l' hl' k hk).imp_right fun hw => ?_
  have hne : d.word k ≠ a := by
    rintro e
    rw [e, ha] at hw
    cases hw
  rwa [update_of_ne hne]

theorem Keeps.bzero {G : ℕ → Block → Prop} {o : ℕ → ℤ → UInt8} {u : Unit}
    (h : s.Keeps G o held) (hr : ext2fsBzero a s = .ok (u, s')) :
    s'.Keeps (fun m d => (m ≠ a → G m d) ∧ (m = a → d = Block.zero)) o held := by
  obtain ⟨bp, s1, h1, hr⟩ := bind_eq_ok.1 hr
  obtain ⟨_, s2, h2, hr⟩ := bind_eq_ok.1 hr
  obtain ⟨_, s3, h3, hr⟩ := bind_eq_ok.1 hr
  exact ((h.bread h1).rewrite (by simp) h2 h3).brelse_head hr

theorem byte_markBit (d : Block) {i j : ℕ} (hi : i < BSIZE) (hj : j < 8) (i' t : ℕ) :
    ((markBit d i j).byte i').toNat.testBit t =
      ((d.byte i').toNat.testBit t || decide (i' = i ∧ t = 7 - j)) := by
  unfold markBit
  rw [if_pos hi, Block.byte_setByte d hi]
  by_cases h : i' = i
  · rw [if_pos h, testBit_or_ofNat _ (by omega), h]
    simp
  · simp [h]

theorem clearAt_markBit {i j : ℕ} (hi : i < BSIZE) (hj : j < 8) (q : ℕ) :
    s₀.clearAt sb inum (markBit map i j) q =
      (s₀.clearAt sb inum map q && decide (q ≠ i * 8 + j)) := by
  unfold clearAt
  split_ifs with hin
  · have hat : (q / 8 = i ∧ 7 - q % 8 = 7 - j) ↔ q = i * 8 + j := by omega
    rw [byte_markBit map hi hj, Bool.not_or, decide_not, decide_eq_decide.2 hat]
  · rw [decide_eq_true (by omega), Bool.and_true]

theorem count_and_ne {P : ℕ → Bool} {p q : ℕ} (hp : P p = true) (hq : p < q) :
    Nat.count (fun k => (P k && decide (k ≠ p)) = true) q + 1 = Nat.count (P · = true) q := by
  induction q with
  | zero => cases hq
  | succ q ih =>
    rw [Nat.count_succ, Nat.count_succ]
    rcases Nat.lt_succ_iff_lt_or_eq.1 hq with hlt | rfl
    · rw [← ih hlt]
      simp only [Bool.and_eq_true, decide_eq_true_eq, ne_eq, hlt.ne', not_false_eq_true, and_true]
      omega
    · have hsame : Nat.count (fun k => (P k && decide (k ≠ p)) = true) p =
          Nat.count (P · = true) p := by
        rw [Nat.count_eq_card_filter_range, Nat.count_eq_card_filter_range]
        refine congrArg Finset.card (Finset.filter_congr fun k hk => ?_)
        have hne : k ≠ p := (Finset.mem_range.1 hk).ne
        simp [hne]
      rw [hsame]
      simp [hp]

theorem Apart.mono {N' : ℕ} (h : s₀.Apart sb inum lev map N) (hle : N' ≤ N) :
    s₀.Apart sb inum lev map N' :=
  { h with clear := fun q hq hc hn => h.clear q hq hc (hn.trans_le hle) }

/-- Once a bit is set, the block that it stands for can become a block of the file. -/
theorem Apart.mark {i j : ℕ} (h : s₀.Apart sb inum lev map (N + 1)) (hi : i < sb.scanBytes)
    (hj : j < 8) (hclear : s₀.clearAt sb inum map (i * 8 + j) = true)
    (hfirst : ∀ q < i * 8 + j, s₀.clearAt sb inum map q = false) :
    i < BSIZE ∧ s₀.Spare sb inum lev ((s₀.groupBitmap sb inum + (i * 8 + j)) % 2 ^ 32) ∧
      ∀ l, s₀.Apart sb inum
        (update lev ((s₀.groupBitmap sb inum + (i * 8 + j)) % 2 ^ 32) (some l))
        (markBit map i j) N := by
  have hnone : Nat.count (s₀.clearAt sb inum map · = true) (i * 8 + j) = 0 :=
    Nat.count_of_forall_not fun q hq => by simp [hfirst q hq]
  obtain ⟨hin, ha⟩ := h.clear (i * 8 + j) (by omega) hclear (by omega)
  rw [show (i * 8 + j) / 8 = i by omega] at hin
  refine ⟨hin, ha, fun l => ⟨?_, ?_, ?_, h.table_ne, h.bitmap_ne, h.bitmap_ne_table,
    fun q hq hc hn => ?_⟩⟩
  · rw [update_of_ne ha.desc.symm, h.desc]
  · rw [update_of_ne ha.table.symm, h.table]
  · rw [update_of_ne ha.bitmap.symm, h.bitmap]
  · rw [clearAt_markBit hin hj, Bool.and_eq_true, decide_eq_true_eq] at hc
    obtain ⟨hc, hne⟩ := hc
    have hlt : i * 8 + j < q := by
      by_contra hle
      rw [hfirst q (by omega)] at hc
      cases hc
    have hcount := count_and_ne hclear hlt
    simp only [clearAt_markBit hin hj] at hn
    obtain ⟨hq8, hs⟩ := h.clear q hq hc (by omega)
    refine ⟨hq8, hs.null, hs.desc, hs.table, hs.bitmap, ?_⟩
    rw [update_of_ne ?_, hs.file]
    simp only [BSIZE] at hin hq8
    omega

theorem Keeps.load_desc {G : ℕ → Block → Prop} (h : s.Keeps G s₀.outside held)
    (hG : ∀ e, G 2 e → e = s₀.disk 2) (hb : (b, 2) ∈ held) (k : ℕ) :
    load b k s = .ok (le32 (fun i => s₀.blockByte 2 i) (4 * k), s) := by
  have hmem : (fun i : ℕ => s.byteAt b i) = fun i : ℕ => s₀.blockByte 2 i :=
    funext fun i => h.byteAt hb hG i
  unfold load
  rw [hmem]

/-- `ip'` is `ip` with the pointers at the places `R` set, where they were not set before. -/
structure Filled (R : ℕ → Prop) (ip ip' : InCore) : Prop where
  same : ip' = { ip with addrs := ip'.addrs }
  kept : ∀ k, ip.addrs k ≠ 0 ∨ ¬R k → ip'.addrs k = ip.addrs k
  filled : ∀ k, R k → ip'.addrs k ≠ 0
  lt : ∀ k, ip.addrs k < 2 ^ 32 → ip'.addrs k < 2 ^ 32

namespace Filled

variable {R R' : ℕ → Prop}

theorem refl (h : ∀ k, R k → ip.addrs k ≠ 0) : Filled R ip ip :=
  ⟨rfl, fun _ _ => rfl, h, fun _ hlt => hlt⟩

theorem congr (h : Filled R ip ip') (hR : ∀ k, R k ↔ R' k) : Filled R' ip ip' :=
  ⟨h.same, fun k hk => h.kept k (by rwa [hR]), fun k hk => h.filled k ((hR k).2 hk), h.lt⟩

theorem trans {ip'' : InCore} (h : Filled R ip ip') (h' : Filled R' ip' ip'') :
    Filled (fun k => R k ∨ R' k) ip ip'' := by
  refine ⟨?_, fun k hk => ?_, fun k hk => ?_, fun k hlt => h'.lt k (h.lt k hlt)⟩
  · rw [h'.same, h.same]
  · by_cases h0 : ip.addrs k ≠ 0
    · have hk' := h.kept k (.inl h0)
      rw [h'.kept k (.inl (hk' ▸ h0)), hk']
    · have hR := hk.resolve_left h0
      rw [not_or] at hR
      rw [h'.kept k (.inr hR.2), h.kept k (.inr hR.1)]
  · by_cases hR' : R' k
    · exact h'.filled k hR'
    · rw [h'.kept k (.inr hR')]
      exact h.filled k (hk.resolve_right hR')

theorem setAddr (h0 : ip.addrs k = 0) (ha : a ≠ 0) (hlt : a < 2 ^ 32) :
    Filled (· = k) ip (ip.setAddr k a) := by
  refine ⟨rfl, fun j hj => ?_, fun j hj => ?_, fun j hj => ?_⟩
  · have hne : j ≠ k := by
      rintro rfl
      exact hj.elim (fun h => h h0) fun h => h rfl
    exact update_of_ne hne _ _
  · simpa [InCore.setAddr, show j = k from hj] using ha
  · by_cases hjk : j = k
    · simpa [InCore.setAddr, hjk] using hlt
    · simpa [InCore.setAddr, hjk] using hj

theorem inum_eq (h : Filled R ip ip') : ip'.inum = ip.inum := by
  rw [h.same]

end Filled

section

variable (s₀ : Io) (sb : Super)

/-- The blocks of the file with inode `ip` are its own, also when it gets `N` more. -/
def Owned (ip : InCore) (N : ℕ) (held : List (Fin NBUF × ℕ)) (s : Io) : Prop :=
  ∃ lev map, Rooted lev ip ∧ s₀.Sound sb ip.inum lev map N held s

/-- They are, and block `a` is one of level `l`. -/
def OwnedAt (ip : InCore) (a l N : ℕ) (held : List (Fin NBUF × ℕ)) (s : Io) : Prop :=
  ∃ lev map, Rooted lev ip ∧ lev a = some l ∧ s₀.Sound sb ip.inum lev map N held s

end

theorem Owned.mono {N' : ℕ} (h : s₀.Owned sb ip N held s) (hle : N' ≤ N) :
    s₀.Owned sb ip N' held s := by
  obtain ⟨lev, map, hroot, hs⟩ := h
  exact ⟨lev, map, hroot, hs.keeps, hs.apart.mono hle⟩

theorem Rooted.assign (h : Rooted lev ip) (ha : lev a = none) (l : ℕ) :
    Rooted (update lev a (some l)) ip := by
  intro k hk h0
  have hne : ip.addrs k ≠ a := by
    intro e
    have := h k hk h0
    rw [e, ha] at this
    cases this
  rw [update_of_ne hne, h k hk h0]

theorem OwnedAt.brelse {u : Unit} (h : s₀.OwnedAt sb ip a l N held s)
    (hb : (b, n) ∈ held) (hr : Io.brelse b s = .ok (u, s')) :
    s₀.OwnedAt sb ip a l N (held.erase (b, n)) s' := by
  obtain ⟨lev, map, hroot, ha, hs⟩ := h
  exact ⟨lev, map, hroot, ha, hs.keeps.brelse hb hr, hs.apart⟩

theorem triple_release (held : List (Fin NBUF × ℕ)) (b : Fin NBUF) (n : ℕ) :
    Triple (s₀.OwnedAt sb ip a l N (held ++ [(b, n)])) (Io.brelse b)
      fun _ => s₀.OwnedAt sb ip a l N held := by
  intro s h u s' hr
  have hb : (b, n) ∉ held := by
    obtain ⟨_, _, -, -, hs⟩ := h
    have hnd := hs.keeps.holds.nodup
    rw [List.map_append, List.nodup_append] at hnd
    exact fun hm => hnd.2.2 b (Keeps.mem_holds hm) b (by simp) rfl
  have h' := h.brelse (n := n) (by simp) hr
  rwa [List.erase_append_right _ hb, List.erase_cons_head, List.append_nil] at h'

end Io

end Cinux
