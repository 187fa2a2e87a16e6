import Cinux.Ext2.Reads

/-!
# Files as arrays of bytes

An inode whose pointers below the size of the file are all set, and pairwise distinct, gives the
bytes of the file a place each.  On such an inode `ext2fs_writei` and `ext2fs_readi` do what
`File.writeLoop` and `File.readLoop` do on an array of blocks.

* `Io.Solid` : the inodes in question;
* `Io.Backed` : the state of the disk that goes with an array of blocks;
* `Io.Backed.writei_runs`, `readi_runs` : the calls keep the two together;
* `Io.writei_splices` : what one write, and a read after it, do.
-/

namespace Cinux

open Function

open Program List

namespace Io

variable {disk : ℕ → Block} {addrs : ℕ → ℕ} {s t : Io} {ip : InCore} {f : File}
  {n m k a bn bn' r : ℕ} {ks ls : List ℕ}

/-! ### The tree of pointers -/

theorem mapped_append :
    Mapped disk n (ks ++ ls) ↔ Mapped disk n ks ∧ Mapped disk (follow disk n ks) ls := by
  induction ks generalizing n with
  | nil => simp [Mapped, follow]
  | cons k ks ih => simp only [cons_append, Mapped, follow, ih, and_assoc]

theorem follow_append : follow disk n (ks ++ ls) = follow disk (follow disk n ks) ls := by
  induction ks generalizing n with
  | nil => rfl
  | cons k ks ih => simp only [cons_append, follow, ih]

theorem exists_of_mem_chain (h : m ∈ chain disk n ks) :
    ∃ ls us, ks = ls ++ us ∧ us ≠ [] ∧ follow disk n ls = m := by
  induction ks generalizing n with
  | nil => exact absurd h not_mem_nil
  | cons k ks ih =>
    rcases mem_cons.1 h with rfl | h
    · exact ⟨[], k :: ks, rfl, cons_ne_nil _ _, rfl⟩
    · obtain ⟨ls, us, rfl, hne, hend⟩ := ih h
      exact ⟨k :: ls, us, rfl, hne, hend⟩

theorem PointerAt.take (h : PointerAt disk addrs (r, ks ++ ls) a) :
    PointerAt disk addrs (r, ks) (follow disk (addrs r) ks) := by
  have hdepth := h.depth
  rw [length_append] at hdepth
  exact ⟨h.root, (Nat.le_add_right _ _).trans hdepth, h.set, (mapped_append.1 h.mapped).1, rfl⟩

theorem PointerAt.chain_nodup (hdist : DistinctPointers disk addrs)
    (h : PointerAt disk addrs (r, ks ++ ls) a) :
    (chain disk (follow disk (addrs r) ks) ls).Nodup := by
  induction ls generalizing ks with
  | nil => exact nodup_nil
  | cons l ls ih =>
    have hsplit : ks ++ l :: ls = (ks ++ [l]) ++ ls := by simp
    have hnext : follow disk (addrs r) (ks ++ [l]) =
        (disk (follow disk (addrs r) ks)).word l := follow_append
    have hrest : PointerAt disk addrs (r, (ks ++ [l]) ++ ls) a := hsplit ▸ h
    have hnd := ih hrest
    rw [hnext] at hnd
    refine nodup_cons.2 ⟨fun hmem => ?_, hnd⟩
    -- otherwise two paths of different lengths have the same end
    rw [← hnext] at hmem
    obtain ⟨qs, us, rfl, -, hend⟩ := exists_of_mem_chain hmem
    rw [← follow_append] at hend
    rw [← append_assoc] at hrest
    have hlong := hrest.take
    rw [hend] at hlong
    have hpath := hdist _ _ _ h.take hlong
    have hlen := congrArg (fun p : ℕ × List ℕ => p.2.length) hpath
    simp only [length_append, length_singleton] at hlen
    omega

/-- The tree of pointers is the same when the pointer blocks are. -/
theorem pointerAt_congr (h : ∀ p a, PointerAt disk addrs p a → p.2.length < rootLevel p.1 →
    disk' a = disk a) : PointerAt disk' addrs p a ↔ PointerAt disk addrs p a := by
  obtain ⟨r, ks⟩ := p
  by_cases hshape : r ≤ EXT2_TIND_BLOCK ∧ ks.length ≤ rootLevel r ∧ addrs r ≠ 0
  · obtain ⟨hr, hdepth, hset⟩ := hshape
    have hpath : (Mapped disk' (addrs r) ks ↔ Mapped disk (addrs r) ks) ∧
        (Mapped disk (addrs r) ks → follow disk' (addrs r) ks = follow disk (addrs r) ks) := by
      induction ks using List.reverseRecOn with
      | nil => exact ⟨Iff.rfl, fun _ => rfl⟩
      | append_singleton ks k ih =>
        rw [List.length_append, List.length_singleton] at hdepth
        obtain ⟨hm, hf⟩ := ih (by omega)
        simp only [mapped_append, follow_append, hm]
        have hword : Mapped disk (addrs r) ks →
            disk' (follow disk' (addrs r) ks) = disk (follow disk (addrs r) ks) := by
          intro hks
          have hlt : ks.length < rootLevel r := by omega
          rw [hf hks]
          exact h (r, ks) _ ⟨hr, hlt.le, hset, hks, rfl⟩ hlt
        refine ⟨and_congr_right fun hks => ?_, fun hks => ?_⟩
        · simp only [Mapped, hword hks]
        · simp only [follow, hword hks.1]
    constructor
    · rintro ⟨-, -, -, hm, rfl⟩
      exact ⟨hr, hdepth, hset, hpath.1.1 hm, (hpath.2 (hpath.1.1 hm)).symm⟩
    · rintro ⟨-, -, -, hm, rfl⟩
      exact ⟨hr, hdepth, hset, hpath.1.2 hm, hpath.2 hm⟩
  · exact iff_of_false (fun hp => hshape ⟨hp.root, hp.depth, hp.set⟩)
      fun hp => hshape ⟨hp.root, hp.depth, hp.set⟩

theorem pointers_shape (bn : ℕ) :
    (pointers bn).1 ≤ EXT2_TIND_BLOCK ∧ (pointers bn).2.length = rootLevel (pointers bn).1 := by
  rcases Nat.lt_or_ge bn 12 with h0 | h0
  · rw [pointers_direct h0]
    simp only [EXT2_TIND_BLOCK, rootLevel, EXT2_NDIR_BLOCKS, length_nil]
    omega
  rcases Nat.lt_or_ge bn 268 with h1 | h1
  · rw [pointers_single h0 h1]
    exact ⟨(by decide : 12 ≤ 14), rfl⟩
  rcases Nat.lt_or_ge bn 65804 with h2 | h2
  · rw [pointers_double h1 h2]
    exact ⟨(by decide : 13 ≤ 14), rfl⟩
  · rw [pointers_triple h2]
    exact ⟨le_rfl, rfl⟩

theorem wordAt_eq (hk : k < EXT2_INDIRECT) : s.wordAt n k = (s.disk n).word k := by
  unfold wordAt Block.word
  refine le32_congr fun i hi => ?_
  have hin : (0 : ℤ) ≤ (4 * k + i : ℕ) ∧ ((4 * k + i : ℕ) : ℤ) < BSIZE := by
    simp only [BSIZE, EXT2_INDIRECT] at *
    omega
  rw [blockByte, if_pos hin, Int.toNat_natCast]

theorem pathSet_of_mapped (h : Mapped s.disk n ks) :
    s.PathSet n ks ∧ s.pathEnd n ks = follow s.disk n ks ∧
      s.pathBlocks n ks = chain s.disk n ks := by
  induction ks generalizing n with
  | nil => exact ⟨trivial, rfl, rfl⟩
  | cons k ks ih =>
    obtain ⟨hk, hne, hrest⟩ := h
    obtain ⟨hset, hend, hblocks⟩ := ih hrest
    unfold PathSet pathBlocks follow chain
    rw [pathEnd_cons, wordAt_eq hk]
    exact ⟨⟨hne, hset⟩, hend, by rw [hblocks]⟩

/-! ### Solid inodes -/

/-- The tree of pointers is well formed: no pointer occurs twice, and below the size of the file all
of them are set. -/
structure Solid (s : Io) (ip : InCore) : Prop where
  size : ip.size ≤ lastStandard * BSIZE
  distinct : DistinctPointers s.disk ip.addrs
  filled : ∀ bn, bn * BSIZE < ip.size → ¬Hole s.disk ip.addrs bn

namespace Solid

theorem le_last (h : s.Solid ip) (hbn : bn * BSIZE < ip.size) : bn < lastStandard := by
  have := h.size
  simp only [BSIZE] at *
  omega

theorem lt_maxfile (h : s.Solid ip) (hbn : bn * BSIZE < ip.size) : bn < EXT2_MAXFILE := by
  have := h.le_last hbn
  simp only [lastStandard, EXT2_MAXFILE] at *
  omega

theorem pointerAt (h : s.Solid ip) (hbn : bn * BSIZE < ip.size) :
    PointerAt s.disk ip.addrs (pointers bn) (s.blockFor ip bn) := by
  have hhole := h.filled bn hbn
  unfold Hole at hhole
  rw [← ((followsStandard_iff bn).2 (h.le_last hbn).le).1] at hhole
  push Not at hhole
  obtain ⟨hroot, hdepth⟩ := pointers_shape bn
  exact ⟨hroot, hdepth.le, hhole.1, hhole.2, (pathSet_of_mapped hhole.2).2.1.symm⟩

theorem reaches (h : s.Solid ip) (hbn : bn * BSIZE < ip.size) : s.Reaches ip bn := by
  have hp := h.pointerAt hbn
  obtain ⟨hset, -, hblocks⟩ := pathSet_of_mapped hp.mapped
  refine ⟨hp.set, hset, ?_⟩
  rw [hblocks]
  have hpath : PointerAt s.disk ip.addrs ((pointers bn).1, [] ++ (pointers bn).2) _ := hp
  exact hpath.chain_nodup h.distinct

theorem blockFor_injective (h : s.Solid ip) (hbn : bn * BSIZE < ip.size)
    (hbn' : bn' * BSIZE < ip.size) (he : s.blockFor ip bn = s.blockFor ip bn') : bn = bn' := by
  have hp := h.pointerAt hbn
  rw [he] at hp
  exact pointers_injective (h.le_last hbn).le (h.le_last hbn').le
    (h.distinct _ _ _ hp (h.pointerAt hbn'))

theorem lt (h : s.Solid ip) (hn : n ≤ ip.size) : n < 2 ^ 32 :=
  hn.trans_lt (h.size.trans_lt (by decide))

theorem congr (hs : s.Solid ip) {n : ℕ} (hn : n ≤ ip.size)
    (h : ∀ p a, PointerAt t.disk ip.addrs p a ↔ PointerAt s.disk ip.addrs p a) :
    t.Solid { ip with size := n } ∧
      ∀ bn, bn * BSIZE < n → t.blockFor { ip with size := n } bn = s.blockFor ip bn := by
  have hsolid : t.Solid { ip with size := n } := by
    refine ⟨hn.trans hs.size, fun p q a hp hq => hs.distinct p q a ((h p a).1 hp) ((h q a).1 hq),
      fun bn hbn => ?_⟩
    have hp := (h _ _).2 (hs.pointerAt (hbn.trans_le hn))
    unfold Hole
    rw [← ((followsStandard_iff bn).2 (hs.le_last (hbn.trans_le hn)).le).1]
    exact not_or.2 ⟨hp.set, not_not.2 hp.mapped⟩
  refine ⟨hsolid, fun bn hbn => ?_⟩
  exact (hsolid.pointerAt hbn).ends.symm.trans
    ((h _ _).2 (hs.pointerAt (hbn.trans_le hn))).ends

end Solid

/-! ### The file on disk -/

/-- In `t` no buffer is in use, the data blocks of the file hold `f`, and everything else is as in
`s`. -/
structure Backed (s : Io) (ip : InCore) (f : File) (t : Io) : Prop where
  coherent : t.Coherent [] ∅
  outside : t.outside = s.outside
  other : ∀ m, (∀ bn, bn * BSIZE < ip.size → m ≠ s.blockFor ip bn) → t.disk m = s.disk m
  data : ∀ bn, bn * BSIZE < ip.size → t.disk (s.blockFor ip bn) = f.block bn

theorem writei_inside {sb : Super} {off avail : ℕ} {src : ℕ → UInt8} (hs : s.Solid ip)
    (hend : off + n ≤ ip.size) (ha : a ≤ off + n) {u : Io}
    (hr : writeLoop sb n ip off n avail src t = .ok ((a, ip), u)) :
    ext2fsWritei sb ip off n avail src t = .ok (((n : ℤ), ip), u) := by
  have hsize := hs.size
  have hmax : lastStandard * BSIZE ≤ EXT2_MAXFILE * BSIZE := by decide
  have hmod : (off + n) % 2 ^ 32 = off + n :=
    Nat.mod_eq_of_lt (hend.trans_lt (hsize.trans_lt (by decide)))
  unfold ext2fsWritei
  rw [hmod, if_neg (by omega), if_neg (by omega), bind_ok hr]
  dsimp only
  rw [if_neg (by omega)]
  rfl

theorem backed_self (h : s.Coherent [] ∅) : s.Backed ip (s.fileOf ip) s :=
  ⟨h, rfl, fun _ _ => rfl, fun _ _ => rfl⟩

namespace Backed

variable {off avail : ℕ}

theorem cleanAt (h : s.Backed ip f t) : t.CleanAt [] t :=
  ⟨⟨h.coherent, rfl, rfl⟩, fun _ hx => absurd hx not_mem_nil⟩

theorem pointerAt_iff (hs : s.Solid ip) (h : s.Backed ip f t) :
    PointerAt t.disk ip.addrs p a ↔ PointerAt s.disk ip.addrs p a := by
  refine pointerAt_congr fun p a hp hlen => h.other a fun bn hbn he => ?_
  rw [he] at hp
  have hshape := (pointers_shape bn).2
  rw [hs.distinct _ _ _ hp (hs.pointerAt hbn)] at hlen
  omega

theorem reaches (hs : s.Solid ip) (h : s.Backed ip f t) (hbn : bn * BSIZE < ip.size) :
    t.Reaches ip bn ∧ t.blockFor ip bn = s.blockFor ip bn := by
  obtain ⟨hs', hplace⟩ := hs.congr le_rfl fun p a => h.pointerAt_iff hs
  exact ⟨hs'.reaches hbn, hplace bn hbn⟩

theorem byte_eq (hs : s.Solid ip) (h : s.Backed ip f t) {i : ℕ} (hi : i < ip.size) :
    (t.fileOf ip).byte i = f.byte i := by
  have hbn : i / BSIZE * BSIZE < ip.size := (Nat.div_mul_le_self _ _).trans_lt hi
  unfold File.byte fileOf
  dsimp only
  rw [(h.reaches hs hbn).2, h.data _ hbn]

/-- **A round of `ext2fs_writei`.** -/
theorem writeRound_runs (sb : Super) (hs : s.Solid ip) (h : s.Backed ip f t) (m : ℕ)
    (src : ℕ → UInt8) (hoff : off / BSIZE * BSIZE < ip.size) :
    ∃ t', writeRound sb ip off m m src t = .ok (ip, t') ∧ s.Backed ip (f.patch off m src) t' := by
  obtain ⟨hreach, hplace⟩ := h.reaches hs hoff
  obtain ⟨t1, h1, hc1⟩ := h.cleanAt.bmap_runs sb (hs.lt_maxfile hoff) hreach
  obtain ⟨hcoh, hdisk, hout⟩ := hc1.clean
  rw [hplace] at h1
  obtain ⟨t2, h2, hcoh2, hdisk2, hout2, -⟩ := hcoh.rewrite_ok (n := s.blockFor ip (off / BSIZE))
    (fun b hb => absurd hb not_mem_nil) (by decide) (·.memmove (off % BSIZE) m src)
  rw [hdisk, h.data _ hoff] at hdisk2
  refine ⟨t2, ?_, hcoh2, hout2.trans (hout.trans h.outside), fun m hm => ?_, fun bn hbn => ?_⟩
  · obtain ⟨bp, u1, e1, h2⟩ := bind_eq_ok.1 h2
    obtain ⟨_, u2, e2, h2⟩ := bind_eq_ok.1 h2
    obtain ⟨_, u3, e3, h2⟩ := bind_eq_ok.1 h2
    unfold writeRound
    rw [bind_ok h1]
    dsimp only
    rw [bind_ok e1, bind_ok e2, if_neg (lt_irrefl m), bind_ok e3, bind_ok h2]
    rfl
  · rw [hdisk2, update_of_ne (hm _ hoff), h.other m hm]
  · rw [hdisk2]
    by_cases he : bn = off / BSIZE
    · subst he
      simp only [File.patch, update_self]
    · rw [update_of_ne fun heq => he (hs.blockFor_injective hbn hoff heq), h.data bn hbn]
      simp only [File.patch, update_of_ne he]

/-- **The loop of `ext2fs_writei`**, when all the bytes can be copied in. -/
theorem writeLoop_runs (sb : Super) (hs : s.Solid ip) (h : s.Backed ip f t) {fuel : ℕ}
    (hfuel : n ≤ fuel) (hav : n ≤ avail) (hend : off + n ≤ ip.size) (src : ℕ → UInt8) :
    ∃ t', writeLoop sb fuel ip off n avail src t = .ok ((off + n, ip), t') ∧
      s.Backed ip (f.writeLoop off n src) t' := by
  induction fuel generalizing f t off n avail src with
  | zero =>
    obtain rfl : n = 0 := by omega
    rw [File.writeLoop, if_pos rfl]
    exact ⟨t, rfl, h⟩
  | succ fuel ih =>
    unfold writeLoop
    rw [File.writeLoop]
    by_cases hn : n = 0
    · subst hn
      rw [if_pos rfl, if_pos rfl]
      exact ⟨t, rfl, h⟩
    rw [if_neg hn, if_neg hn]
    obtain ⟨m, hm⟩ : ∃ m, m = min n (BSIZE - off % BSIZE) := ⟨_, rfl⟩
    rw [← hm]
    have hlt : off % BSIZE < BSIZE := Nat.mod_lt _ (by decide)
    have hoff : off / BSIZE * BSIZE < ip.size := (Nat.div_mul_le_self _ _).trans_lt (by omega)
    obtain ⟨t1, h1, hb1⟩ := h.writeRound_runs sb hs m src hoff
    obtain ⟨t2, h2, hb2⟩ := ih hb1 (by omega : n - m ≤ fuel) (by omega : n - m ≤ avail - m)
      (by omega : off + m + (n - m) ≤ ip.size) fun k => src (k + m)
    refine ⟨t2, ?_, hb2⟩
    rw [show off + m + (n - m) = off + n by omega] at h2
    rw [Nat.min_eq_left (by omega : m ≤ avail), bind_ok h1, if_neg (by omega)]
    exact h2

/-- **`ext2fs_writei` inside the file.** -/
theorem writei_runs (sb : Super) (hs : s.Solid ip) (h : s.Backed ip f t) (hav : n ≤ avail)
    (hend : off + n ≤ ip.size) (src : ℕ → UInt8) :
    ∃ t', ext2fsWritei sb ip off n avail src t = .ok (((n : ℤ), ip), t') ∧
      s.Backed ip (f.writeLoop off n src) t' := by
  obtain ⟨t', hr, hb⟩ := h.writeLoop_runs sb hs le_rfl hav hend src
  exact ⟨t', writei_inside hs hend le_rfl hr, hb⟩

/-- **`ext2fs_readi`.** -/
theorem readi_runs (sb : Super) (hs : s.Solid ip) (h : s.Backed ip f t) (hn : n < 2 ^ 32)
    (hrej : ¬ReadRejected ip off n) :
    ∃ t', ext2fsReadi sb ip off n n t = .ok (((readLength ip off n : ℤ),
          (List.range (readLength ip off n)).map fun k => f.byte (off + k), ip), t') ∧
      s.Backed ip f t' := by
  have hsize : ip.size < 2 ^ 32 := hs.size.trans_lt (by decide)
  have hlen : off + readLength ip off n ≤ ip.size ∧ readLength ip off n ≤ n := by
    unfold ReadRejected at hrej
    unfold readLength
    split_ifs <;> omega
  have hreach : ∀ bn, Visits off (readLength ip off n) n bn → t.Reaches ip bn := by
    intro bn hvis
    unfold Visits at hvis
    refine (h.reaches hs ?_).1
    have := Nat.mul_le_mul_right BSIZE hvis.2.2
    have := Nat.div_mul_le_self (off + min n (readLength ip off n - 1)) BSIZE
    omega
  obtain ⟨t', hr, hc⟩ := h.cleanAt.readi_runs sb hsize hn hrej hreach
  rw [if_pos hlen.2, File.readLoop_eq] at hr
  refine ⟨t', ?_, ?_⟩
  · have hbytes : (List.range (readLength ip off n)).map (fun k => (t.fileOf ip).byte (off + k)) =
        (List.range (readLength ip off n)).map fun k => f.byte (off + k) := by
      refine map_congr_left fun k hk => h.byte_eq hs ?_
      have := mem_range.1 hk
      omega
    rw [hr, hbytes]
  · obtain ⟨hcoh, hdisk, hout⟩ := hc.clean
    refine ⟨hcoh, hout.trans h.outside, fun m hm => ?_, fun bn hbn => ?_⟩
    · rw [hdisk, h.other m hm]
    · rw [hdisk, h.data bn hbn]

theorem disk_eq (h : s.Backed ip f t) {t' : Io} (h' : s.Backed ip f t') : t'.disk = t.disk := by
  funext m
  by_cases hm : ∀ bn, bn * BSIZE < ip.size → m ≠ s.blockFor ip bn
  · rw [h.other m hm, h'.other m hm]
  · push Not at hm
    obtain ⟨bn, hbn, rfl⟩ := hm
    rw [h.data bn hbn, h'.data bn hbn]

theorem disk_byte (h : s.Backed ip f t) {i : ℕ} (hi : i / BSIZE * BSIZE < ip.size) :
    (t.disk (s.blockFor ip (i / BSIZE))).byte (i % BSIZE) = f.byte i := by
  rw [h.data _ hi]
  rfl

theorem disk_same (h : s.Backed ip f t)
    (hf : ∀ i, i / BSIZE * BSIZE < ip.size → m = s.blockFor ip (i / BSIZE) →
      f.byte i = (s.fileOf ip).byte i) : t.disk m = s.disk m := by
  by_cases hm : ∀ bn, bn * BSIZE < ip.size → m ≠ s.blockFor ip bn
  · exact h.other m hm
  push Not at hm
  obtain ⟨bn, hbn, rfl⟩ := hm
  rw [h.data bn hbn]
  refine Block.ext_byte fun i hi => ?_
  have hdiv : (bn * BSIZE + i) / BSIZE = bn := by
    rw [Nat.mul_comm, Nat.mul_add_div (by decide), Nat.div_eq_of_lt hi, Nat.add_zero]
  have hmod : (bn * BSIZE + i) % BSIZE = i := by
    rw [Nat.mul_comm, Nat.mul_add_mod, Nat.mod_eq_of_lt hi]
  have hbyte := hf (bn * BSIZE + i) (by rwa [hdiv]) (by rw [hdiv])
  unfold File.byte fileOf at hbyte
  rwa [hdiv, hmod] at hbyte

end Backed

/-! ### Reading what was written -/

/-- Byte `i` of a file in which `n` bytes from `src` have been put at `off`. -/
def spliced (g : ℕ → UInt8) (off n : ℕ) (src : ℕ → UInt8) (i : ℕ) : UInt8 :=
  if off ≤ i ∧ i < off + n then src (i - off) else g i

theorem spliced_writeLoop (f : File) (off n : ℕ) (src : ℕ → UInt8) :
    (f.writeLoop off n src).byte = spliced f.byte off n src :=
  funext fun i => File.byte_writeLoop f off n src i

/-- **Overwriting part of a file.**  When no pointer of the file occurs twice and none is missing
below its size, `ext2fs_writei` of `n` bytes inside the file returns `n` and the same inode; the
data blocks on disk hold the old contents with the bytes put in at `off`, all other blocks are
unchanged, and a read of any part of the file returns the new contents, up to the end
of the file. -/
theorem writei_splices (sb : Super) (off n : ℕ) (src : ℕ → UInt8) (h : s.Coherent [] ∅)
    (hs : s.Solid ip) (hend : off + n ≤ ip.size) :
    ∃ t, ext2fsWritei sb ip off n n src s = .ok (((n : ℤ), ip), t) ∧
      t.Coherent [] ∅ ∧ t.outside = s.outside ∧
      (∀ i, i / BSIZE * BSIZE < ip.size →
        (t.disk (s.blockFor ip (i / BSIZE))).byte (i % BSIZE) =
          spliced (s.fileOf ip).byte off n src i) ∧
      (∀ m, (∀ i, off ≤ i → i < off + n → m ≠ s.blockFor ip (i / BSIZE)) →
        t.disk m = s.disk m) ∧
      ∀ off' n', off' < 2 ^ 32 → n' < 2 ^ 32 →
        ∃ u, ext2fsReadi sb ip off' n' n' t =
            .ok ((if ip.size < off' ∨ 2 ^ 32 ≤ off' + n' then (-1, [], ip)
              else (((min n' (ip.size - off') : ℕ) : ℤ),
                (List.range (min n' (ip.size - off'))).map fun k =>
                  spliced (s.fileOf ip).byte off n src (off' + k), ip)), u) ∧
          u.Coherent [] ∅ ∧ u.disk = t.disk := by
  obtain ⟨t, hw, hb⟩ := (backed_self h).writei_runs sb hs le_rfl hend src
  have hbyte := spliced_writeLoop (s.fileOf ip) off n src
  refine ⟨t, hw, hb.coherent, hb.outside, fun i hi => ?_, fun m hm => ?_, fun off' n' ho hn => ?_⟩
  · rw [hb.disk_byte hi, hbyte]
  · refine hb.disk_same fun i hi he => ?_
    rw [hbyte, spliced, if_neg fun hin => hm i hin.1 hin.2 he]
  · by_cases hrej : ip.size < off' ∨ 2 ^ 32 ≤ off' + n'
    · refine ⟨t, ?_, hb.coherent, rfl⟩
      rw [if_pos hrej, readi_rejected]
      unfold ReadRejected
      omega
    · have hok : ¬ReadRejected ip off' n' := by
        unfold ReadRejected
        omega
      have hlen : readLength ip off' n' = min n' (ip.size - off') := by
        unfold readLength
        split_ifs <;> omega
      obtain ⟨u, hr, hu⟩ := hb.readi_runs sb hs hn hok
      refine ⟨u, ?_, hu.coherent, hb.disk_eq hu⟩
      rw [if_neg hrej, hr, hlen, hbyte]

theorem addrs_blockInode : blockInode.addrs = (oneBlock 20).addrs := by
  funext k
  simp [blockInode, InCore.setAddr, holeInode, oneBlock, update_apply]

theorem solid_blockInode : s.Solid blockInode := by
  refine ⟨by decide, addrs_blockInode ▸ distinct_oneBlock _ _, fun bn hbn => ?_⟩
  obtain rfl : bn = 0 := by
    have hsize : blockInode.size = 1024 := rfl
    rw [hsize] at hbn
    simp only [BSIZE] at hbn
    omega
  simp [Hole, standardPath, Mapped, blockInode, InCore.setAddr]

/-- Two bytes in the middle of three. -/
theorem writei_splices_two : ∃ t u,
    ext2fsWritei sampleSuper blockInode 1 2 2 (fun k => UInt8.ofNat (65 + k)) (holeIo 1024) =
        .ok ((2, blockInode), t) ∧
      ext2fsReadi sampleSuper blockInode 0 4 4 t = .ok ((4, [0, 65, 66, 0], blockInode), u) := by
  obtain ⟨t, hw, -, -, -, -, hread⟩ := writei_splices sampleSuper 1 2
    (fun k => UInt8.ofNat (65 + k))
    (coherent_binit _ _) solid_blockInode (by decide)
  obtain ⟨u, hr, -⟩ := hread 0 4 (by decide) (by decide)
  exact ⟨t, u, hw, hr⟩

end Io

end Cinux
