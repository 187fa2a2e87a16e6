import Cinux.Ext2.BlockMap

/-!
# Marks that stay

When `ext2fs_balloc` returns, it has set a bit of the bitmap of its group, or one in the memory
behind the bitmap.  This module shows that the bit stays set while `ext2fs_bmap` and `ext2fs_readi`
go on, whatever blocks the pointers of the file lead to: code that maps blocks clears no bit of the
bitmap, and it does not change which block the bitmap is, as long as the allocator does not hand
out the block of the descriptors (`Io.BitmapApart`).

`Io.Marked w v R held s` says that in all versions word `w` of block 2 is `v`, and block `v` and the
memory around it satisfy `R`, which further bits cannot make false (`Io.Upward`).
-/

namespace Cinux

open Function List

theorem le32_congr {f g : ℕ → UInt8} {i : ℕ} (h : ∀ t < 4, f (i + t) = g (i + t)) :
    le32 f i = le32 g i := by
  have h0 := h 0 (by decide)
  rw [Nat.add_zero] at h0
  unfold le32
  rw [h0, h 1 (by decide), h 2 (by decide), h 3 (by decide)]

theorem byte_of_le32_eq_zero {f : ℕ → UInt8} {i t : ℕ} (h : le32 f i = 0) (ht : t < 4) :
    f (i + t) = 0 := by
  have hz : ∀ v : UInt8, v.toNat = 0 → v = 0 := fun v hv => UInt8.toNat_inj.1 hv
  unfold le32 at h
  rcases (by omega : t = 0 ∨ t = 1 ∨ t = 2 ∨ t = 3) with rfl | rfl | rfl | rfl
  · exact hz (f i) (by omega)
  all_goals exact hz _ (by omega)

namespace Io

open Program

variable {s s' : Io} {b : Fin NBUF} {n k : ℕ} {held : List (Fin NBUF × ℕ)}

/-! ### Memory as seen through a buffer -/

/-- The memory at `bp->data`, where the data of the buffer is `d` and `o` is around it. -/
def view (d : Block) (o : ℤ → UInt8) (i : ℤ) : UInt8 :=
  if 0 ≤ i ∧ i < BSIZE then d.byte i.toNat else o i

theorem byteAt_eq_view (i : ℤ) :
    s.byteAt b i = view (s.cache.buf b).data (s.outside (s.cache.buf b).blockno) i := rfl

theorem view_setByte (d : Block) (o : ℤ → UInt8) {i : ℤ} (hi : 0 ≤ i ∧ i < BSIZE) (v : UInt8) :
    view (d.setByte i.toNat v) o = update (view d o) i v := by
  funext j
  unfold view
  by_cases hj : j = i
  · rw [hj, update_self, if_pos hi, Block.byte_setByte d (by omega), if_pos rfl]
  · rw [update_of_ne hj]
    split_ifs with hin
    · rw [Block.byte_setByte d (by omega), if_neg (by omega)]
    · rfl

theorem view_update (d : Block) (o : ℤ → UInt8) {i : ℤ} (hi : ¬(0 ≤ i ∧ i < BSIZE)) (v : UInt8) :
    view d (update o i v) = update (view d o) i v := by
  funext j
  unfold view
  by_cases hj : j = i
  · rw [hj, update_self, if_neg hi, update_self]
  · rw [update_of_ne hj, update_of_ne hj]

/-- The memory `m` after `((uint *)bp->data)[k] = v`. -/
def storeWord (m : ℤ → UInt8) (k v : ℕ) (i : ℤ) : UInt8 :=
  if i / 4 = k then byteOf v (i % 4).toNat else m i

theorem view_setWord (d : Block) (o : ℤ → UInt8) (hk : k < BSIZE / 4) (v : ℕ) :
    view (d.setWord k v) o = storeWord (view d o) k v := by
  have hsize : BSIZE = 1024 := rfl
  funext i
  simp only [view, storeWord]
  by_cases hi : 0 ≤ i ∧ i < BSIZE
  · have hdiv : i.toNat / 4 = k ↔ i / 4 = k := by omega
    have hmod : i.toNat % 4 = (i % 4).toNat := by omega
    rw [if_pos hi, Block.byte_setWord d hk, if_pos hi]
    simp only [hdiv, hmod]
  · rw [if_neg hi, if_neg (by omega), if_neg hi]

theorem view_storeWord (d : Block) (o : ℤ → UInt8) (hk : ¬k < BSIZE / 4) (v : ℕ) :
    view d (storeWord o k v) = storeWord (view d o) k v := by
  have hsize : BSIZE = 1024 := rfl
  funext i
  simp only [view, storeWord]
  by_cases hi : 0 ≤ i ∧ i < BSIZE
  · rw [if_pos hi, if_neg (by omega), if_pos hi]
  · rw [if_neg hi, if_neg hi]

theorem le32_view (d : Block) (o : ℤ → UInt8) (hk : ¬k < BSIZE / 4) :
    le32 (fun i => view d o i) (4 * k) = le32 (fun i => o i) (4 * k) := by
  have hsize : BSIZE = 1024 := rfl
  exact le32_congr fun t ht => if_neg (by omega)

/-- Every bit that is set in `m` is set in `m'`. -/
def BitsLe (m m' : ℤ → UInt8) : Prop :=
  ∀ i t, (m i).toNat.testBit t = true → (m' i).toNat.testBit t = true

/-- Further bits do not make `R` false. -/
def Upward (R : (ℤ → UInt8) → Prop) : Prop := ∀ m m', BitsLe m m' → R m → R m'

theorem bitsLe_update {m : ℤ → UInt8} {i : ℤ} (v : UInt8) :
    BitsLe m (update m i (m i ||| v)) := by
  intro j t ht
  by_cases hj : j = i
  · subst hj
    rw [update_self, UInt8.toNat_or, Nat.testBit_or, ht, Bool.true_or]
  · rwa [update_of_ne hj]

theorem bitsLe_storeWord {m : ℤ → UInt8} (hz : le32 (fun i => m i) (4 * k) = 0) (v : ℕ) :
    BitsLe m (storeWord m k v) := by
  intro i t ht
  unfold storeWord
  split_ifs with hi
  · have hbyte := byte_of_le32_eq_zero hz (show (i % 4).toNat < 4 by omega)
    rw [show ((4 * k + (i % 4).toNat : ℕ) : ℤ) = i by push_cast; omega] at hbyte
    rw [hbyte] at ht
    simp at ht
  · exact ht

theorem le32_storeWord {m : ℤ → UInt8} {w : ℕ} (hne : w ≠ k) (v : ℕ) :
    le32 (fun i => storeWord m k v i) (4 * w) = le32 (fun i => m i) (4 * w) := by
  refine le32_congr fun t ht => if_neg ?_
  omega

/-! ### Marks -/

/-- Word `w` of block 2 is `v`, and block `v` with the memory around it satisfies `R`. -/
def MarkView (w v : ℕ) (R : (ℤ → UInt8) → Prop) (o : ℕ → ℤ → UInt8) (n : ℕ) (d : Block) : Prop :=
  (n = 2 → le32 (fun i => view d (o n) i) (4 * w) = v) ∧ (n = v → R (view d (o n)))

/-- That is the case in all versions. -/
def Marked (w v : ℕ) (R : (ℤ → UInt8) → Prop) (held : List (Fin NBUF × ℕ)) (s : Io) : Prop :=
  ∃ o, s.Keeps (MarkView w v R o) o held

variable {w v : ℕ} {R R' : (ℤ → UInt8) → Prop} {u : Unit}

namespace Marked

theorem imp (h : Marked w v R held s) (hR : ∀ m, R m → R' m) : Marked w v R' held s := by
  obtain ⟨o, hk⟩ := h
  exact ⟨o, hk.imp fun n d hd => ⟨hd.1, fun hn => hR _ (hd.2 hn)⟩⟩

theorem bread (h : Marked w v R held s) (hr : Io.bread n s = .ok (b, s')) :
    Marked w v R ((b, n) :: held) s' := by
  obtain ⟨o, hk⟩ := h
  exact ⟨o, hk.bread hr⟩

theorem brelse_head (h : Marked w v R ((b, n) :: held) s)
    (hr : Io.brelse b s = .ok (u, s')) : Marked w v R held s' := by
  obtain ⟨o, hk⟩ := h
  exact ⟨o, hk.brelse_head hr⟩

theorem view_held (h : Marked w v R held s) (hb : (b, n) ∈ held) :
    (n = 2 → le32 (fun i => s.byteAt b i) (4 * w) = v) ∧ (n = v → R fun i => s.byteAt b i) := by
  obtain ⟨o, hk⟩ := h
  have hbno : (s.cache.buf b).blockno = n := hk.blockno _ hb
  have hbyte : (fun i => s.byteAt b i) = view (s.cache.buf b).data (o n) := by
    funext i
    rw [byteAt_eq_view, hbno, hk.outside]
  have hd := hk.data hb
  refine ⟨fun hn => ?_, fun hn => ?_⟩
  · rw [← hd.1 hn, ← hbyte]
  · rw [hbyte]
    exact hd.2 hn

/-- A store into a word that is zero. -/
theorem store {a : ℕ} (h : Marked w v R held s) (hR : Upward R) (hv : v ≠ 0)
    (hb : (b, n) ∈ held) (hz : le32 (fun i => s.byteAt b i) (4 * k) = 0)
    (hr : Io.store b k a s = .ok (u, s')) : Marked w v R held s' := by
  obtain ⟨o, hk⟩ := h
  have hbno : (s.cache.buf b).blockno = n := hk.blockno _ hb
  have hbyte : (fun i : ℕ => s.byteAt b i) = fun i : ℕ => view (s.cache.buf b).data (o n) i := by
    funext i
    rw [byteAt_eq_view, hbno, hk.outside]
  rw [hbyte] at hz
  -- where the word is zero, the word of the descriptors is not
  have hstore : ∀ m : ℤ → UInt8, le32 (fun i => m i) (4 * k) = 0 →
      ((n = 2 → le32 (fun i => m i) (4 * w) = v) ∧ (n = v → R m)) →
      (n = 2 → le32 (fun i => storeWord m k a i) (4 * w) = v) ∧ (n = v → R (storeWord m k a)) := by
    intro m hm hd
    refine ⟨fun hn => ?_, fun hn => hR _ _ (bitsLe_storeWord hm a) (hd.2 hn)⟩
    rw [le32_storeWord ?_, hd.1 hn]
    rintro rfl
    exact hv ((hd.1 hn).symm.trans hm)
  have hself := hstore _ hz (hk.data hb)
  unfold Io.store at hr
  split_ifs at hr with hin
  · refine ⟨o, hk.modifyData hb ?_ hr⟩
    unfold MarkView
    rw [view_setWord _ _ hin]
    exact hself
  · cases hr
    rw [hbno, hk.outside]
    change Marked w v R held { s with outside := update o n (storeWord (o n) k a) }
    refine ⟨_, (hk.with_outside _).imp fun m d hd => ?_⟩
    by_cases hm : m = n
    · subst hm
      unfold MarkView
      rw [update_self, view_storeWord d _ hin]
      rw [le32_view _ _ hin] at hz
      exact hstore _ ((le32_view d _ hin).trans hz) hd
    · unfold MarkView
      rw [update_of_ne hm]
      exact hd

/-- `bp->data[i] |= mask` in the bitmap, followed by `bwrite`. -/
theorem setBits {u u' : Unit} {i : ℤ} {c : UInt8} {s1 : Io} (h : Marked w v R held s)
    (hR : Upward R) (hv : v ≠ 2) (hb : (b, v) ∈ held)
    (hr : setByteAt b i (s.byteAt b i ||| c) s = .ok (u, s1))
    (hw : bwrite b s1 = .ok (u', s')) :
    Marked w v (fun m => R m ∧ ∀ t, c.toNat.testBit t = true → (m i).toNat.testBit t = true)
      held s' := by
  obtain ⟨o, hk⟩ := h
  have hbno : (s.cache.buf b).blockno = v := hk.blockno _ hb
  have hbyte : s.byteAt b i = view (s.cache.buf b).data (o v) i := by
    rw [byteAt_eq_view, hbno, hk.outside]
  rw [hbyte] at hr
  have hmark : ∀ m : ℤ → UInt8, R m → R (update m i (m i ||| c)) ∧ ∀ t, c.toNat.testBit t = true →
        (update m i (m i ||| c) i).toNat.testBit t = true := by
    refine fun m hm => ⟨hR _ _ (bitsLe_update c) hm, fun t ht => ?_⟩
    rw [update_self, UInt8.toNat_or, Nat.testBit_or, ht, Bool.or_true]
  have hself := hmark _ ((hk.data hb).2 rfl)
  unfold setByteAt at hr
  split_ifs at hr with hin
  · have hk' := hk.rewrite hb hr hw
    refine ⟨o, hk'.imp fun m d hd => ?_⟩
    by_cases hm : m = v
    · refine ⟨fun h2 => absurd (hm.symm.trans h2) hv, fun _ => ?_⟩
      rw [hd.2 hm, hm, view_setByte _ _ hin]
      exact hself
    · exact ⟨(hd.1 hm).1, fun e => absurd e hm⟩
  · cases hr
    rw [hbno, hk.outside] at hw
    have hk' := (hk.with_outside (update o v (update (o v) i
      (view (s.cache.buf b).data (o v) i ||| c)))).bwrite hb hw
    refine ⟨_, hk'.imp fun m d hd => ?_⟩
    by_cases hm : m = v
    · refine ⟨fun h2 => absurd (hm.symm.trans h2) hv, fun _ => ?_⟩
      rw [hd.2 hm, hm, update_self, view_update _ _ hin]
      exact hself
    · unfold MarkView
      rw [update_of_ne hm]
      exact ⟨hd.1.1, fun e => absurd e hm⟩

theorem bzero {a : ℕ} (h : Marked w v R held s) (h2 : a ≠ 2) (hv : a ≠ v)
    (hr : ext2fsBzero a s = .ok (u, s')) : Marked w v R held s' := by
  obtain ⟨o, hk⟩ := h
  refine ⟨o, (hk.bzero hr).imp fun m d hd => ?_⟩
  by_cases hm : m = a
  · exact ⟨fun e => absurd (hm.symm.trans e) h2, fun e => absurd (hm.symm.trans e) hv⟩
  · exact hd.1 hm

theorem perm {held' : List (Fin NBUF × ℕ)} (h : Marked w v R held s) (hp : held.Perm held') :
    Marked w v R held' s := by
  obtain ⟨o, hk⟩ := h
  exact ⟨o, hk.perm hp⟩

theorem triple_release : Triple (Marked w v R held) ((held.map Prod.fst).forM Io.brelse)
    fun _ => Marked w v R [] := by
  induction held with
  | nil => exact .pure fun _ hs => hs
  | cons x held ih =>
    refine .bind (fun s hs u s' hr => ?_) fun _ => ih
    exact hs.brelse_head hr

end Marked

/-! ### Buffers that are left alone -/

/-- The buffer `b` and the memory around it are as in `s`. -/
def Untouched (b : Fin NBUF) (s s' : Io) : Prop :=
  s'.cache.buf b = s.cache.buf b ∧
    s'.outside (s.cache.buf b).blockno = s.outside (s.cache.buf b).blockno

namespace Untouched

variable {s'' : Io} {c : Fin NBUF}

theorem trans (h : Untouched b s s') (h' : Untouched b s' s'') : Untouched b s s'' := by
  refine ⟨h'.1.trans h.1, ?_⟩
  have := h'.2
  rw [h.1] at this
  exact this.trans h.2

theorem byteAt (h : Untouched b s s') (i : ℤ) : s'.byteAt b i = s.byteAt b i := by
  rw [byteAt_eq_view, byteAt_eq_view, h.1, h.2]

section

variable {x : Fin NBUF × ℕ} (hx : x ∈ held)
include hx

theorem bread (h : s.Holds (held.map Prod.fst)) (hr : Io.bread n s = .ok (c, s')) :
    Untouched x.1 s s' := by
  obtain ⟨hout, -, -, ho, -, -, hother⟩ := h.bread_ok hr
  exact ⟨hother x.1 fun e => hout (e ▸ Keeps.mem_holds hx), by rw [ho]⟩

theorem ne_head (h : s.Holds (((c, n) :: held).map Prod.fst)) : x.1 ≠ c := by
  rintro rfl
  exact (nodup_cons.1 h.nodup).1 (Keeps.mem_holds hx)

theorem brelse_head (h : s.Holds (((c, n) :: held).map Prod.fst))
    (hr : Io.brelse c s = .ok (u, s')) : Untouched x.1 s s' := by
  obtain ⟨t, ht, -, -, ho, -, hother⟩ := h.brelse_ok mem_cons_self
  rw [ht] at hr
  cases hr
  exact ⟨hother x.1 (ne_head hx h), by rw [ho]⟩

end

theorem bwrite (hr : Io.bwrite c s = .ok (u, s')) : Untouched b s s' := by
  unfold Io.bwrite at hr
  split_ifs at hr
  cases hr
  exact ⟨rfl, rfl⟩

theorem modifyData {f : Block → Block} (hne : b ≠ c)
    (hr : Io.modifyData c f s = .ok (u, s')) : Untouched b s s' := by
  cases hr
  refine ⟨?_, rfl⟩
  dsimp only
  exact Bcache.modify_ne _ hne

theorem setByteAt {i : ℤ} {v : UInt8} (hne : b ≠ c)
    (hno : (s.cache.buf b).blockno ≠ (s.cache.buf c).blockno)
    (hr : Io.setByteAt c i v s = .ok (u, s')) : Untouched b s s' := by
  unfold Io.setByteAt at hr
  split_ifs at hr
  · exact modifyData hne hr
  · cases hr
    exact ⟨rfl, update_of_ne hno _ _⟩

theorem bzero {G : ℕ → Block → Prop} {o : ℕ → ℤ → UInt8} {a : ℕ}
    {x : Fin NBUF × ℕ} (h : s.Keeps G o held) (hx : x ∈ held)
    (hr : ext2fsBzero a s = .ok (u, s')) : Untouched x.1 s s' := by
  obtain ⟨bp, s1, h1, hr⟩ := bind_eq_ok.1 hr
  obtain ⟨_, s2, h2, hr⟩ := bind_eq_ok.1 hr
  obtain ⟨_, s3, h3, hr⟩ := bind_eq_ok.1 hr
  have hk1 := h.bread h1
  have hk3 := hk1.rewrite mem_cons_self h2 h3
  exact ((bread hx h.holds h1).trans (modifyData (ne_head hx hk1.holds) h2)).trans
    ((bwrite h3).trans (brelse_head hx hk3.holds hr))

end Untouched

/-- The bitmap of the group lies behind the descriptors, and no bit that is scanned stands for the
block of the descriptors. -/
def BitmapApart (sb : Super) (v : ℕ) : Prop :=
  2 < v ∧ ∀ i < sb.scanBytes, ∀ j < 8, (v + (i * 8 + j)) % 2 ^ 32 ≠ 2

section Alloc

variable {sb : Super} {inum a : ℕ} {ip : InCore} (hR : Upward R) (hv : BitmapApart sb v)

/-- The word of the descriptors with the number of the bitmap of the group of `inum`. -/
def bitmapWord (sb : Super) (inum : ℕ) : ℕ := sb.groupNo inum * groupDescWords + bgBlockBitmap

theorem testBit_ofNat_self {j : ℕ} (hj : j < 8) :
    (UInt8.ofNat (2 ^ (7 - j))).toNat.testBit (7 - j) = true := by
  have hlt : 2 ^ (7 - j) < 2 ^ 8 := Nat.pow_lt_pow_right (by decide) (by omega)
  have hmod : 2 ^ (7 - j) % 256 = 2 ^ (7 - j) := Nat.mod_eq_of_lt hlt
  simp [hmod]

include hR hv

/-- **`ext2fs_balloc` sets a bit of the bitmap, or behind it, that it has found clear.** -/
theorem Marked.balloc (h : Marked (bitmapWord sb inum) v R held s)
    (hr : ext2fsBalloc sb inum s = .ok (a, s')) :
    ∃ d i j, s.Version v d ∧ (view d (s.outside v) i).toNat.testBit j = false ∧
      Marked (bitmapWord sb inum) v (fun m => R m ∧ (m i).toNat.testBit j = true) held s' ∧
      ∀ x ∈ held, Untouched x.1 s s' := by
  have hver : s.Keeps (s.Version) s.outside held := by
    obtain ⟨o, hk⟩ := h
    exact ⟨hk.holds, hk.blockno, rfl, fun _ _ hd => hd⟩
  obtain ⟨bp1, s1, h1, hr⟩ := bind_eq_ok.1 hr
  have hm1 := h.bread h1
  have hload : load bp1 (bitmapWord sb inum) s1 = .ok (v, s1) := by
    unfold load
    rw [(hm1.view_held mem_cons_self).1 rfl]
  rw [bind_ok (show load bp1 (sb.groupNo inum * groupDescWords + bgBlockBitmap) s1 = _
    from hload)] at hr
  obtain ⟨_, s2, h2, hr⟩ := bind_eq_ok.1 hr
  obtain ⟨bp2, s3, h3, hr⟩ := bind_eq_ok.1 hr
  have hm3 := (hm1.brelse_head h2).bread h3
  have hver3 := ((hver.bread h1).brelse_head h2).bread h3
  obtain ⟨r, s4, h4, hr⟩ := bind_eq_ok.1 hr
  have hscan : scanBitmap sb bp2 s3 =
      .ok (firstClear (fun i => s3.byteAt bp2 i) sb.scanBytes 0, s3) := rfl
  unfold ext2fsFreeBlock at h4
  rw [bind_ok hscan] at h4
  cases hf : firstClear (fun i => s3.byteAt bp2 i) sb.scanBytes 0 with
  | none =>
    rw [hf] at h4
    cases h4
    obtain ⟨_, s5, -, hr⟩ := bind_eq_ok.1 hr
    cases hr
  | some x =>
    obtain ⟨i, j⟩ := x
    obtain ⟨hi, hj, hclear⟩ := firstClear_spec hf
    have hget : getByteAt bp2 i s3 = .ok (s3.byteAt bp2 i, s3) := rfl
    rw [hf] at h4
    dsimp only at h4
    rw [bind_ok hget] at h4
    obtain ⟨_, t, ht, h4⟩ := bind_eq_ok.1 h4
    cases h4
    obtain ⟨_, s5, h5, hr⟩ := bind_eq_ok.1 hr
    obtain ⟨_, s6, h6, hr⟩ := bind_eq_ok.1 hr
    obtain ⟨_, s7, h7, hr⟩ := bind_eq_ok.1 hr
    cases hr
    have hv2 : v ≠ 2 := by
      have := hv.1
      omega
    have hm5 := hm3.setBits hR hv2 mem_cons_self ht h5
    -- the block that is zeroed is another one than the bitmap, which is held
    have hne : (v + (i * 8 + j)) % 2 ^ 32 ≠ v := by
      obtain ⟨o, hk⟩ := hm5
      obtain ⟨bp, s8, h8, -⟩ := bind_eq_ok.1 h6
      exact hk.bread_ne mem_cons_self h8
    have hm6 := hm5.bzero (hv.2 i (by omega) j hj) hne h6
    have hbno : (s3.cache.buf bp2).blockno = v := hver3.blockno _ mem_cons_self
    refine ⟨(s3.cache.buf bp2).data, i, 7 - j, hver3.data mem_cons_self, ?_,
      (hm6.brelse_head h7).imp fun m hm => ⟨hm.1, hm.2 _ (testBit_ofNat_self hj)⟩, fun x hx => ?_⟩
    · have hview : s3.byteAt bp2 i = view (s3.cache.buf bp2).data (s.outside v) i := by
        rw [byteAt_eq_view, hbno, hver3.outside]
      rw [← hview]
      exact hclear
    · have hx' := mem_cons_of_mem (bp2, v) hx
      have hne3 := Untouched.ne_head hx hver3.holds
      have hno : (s3.cache.buf x.1).blockno ≠ (s3.cache.buf bp2).blockno := fun e =>
        hne3 (hver3.holds.blockno_inj (hver3.valid hx') (hver3.valid mem_cons_self) e)
      have hread := (Untouched.bread hx hver.holds h1).trans
        ((Untouched.brelse_head hx (hver.bread h1).holds h2).trans
          (Untouched.bread hx ((hver.bread h1).brelse_head h2).holds h3))
      have hwrite := (Untouched.setByteAt hne3 hno ht).trans (Untouched.bwrite h5)
      obtain ⟨o5, hk5⟩ := hm5
      obtain ⟨o6, hk6⟩ := hm6
      exact (hread.trans hwrite).trans
        ((Untouched.bzero hk5 hx' h6).trans (Untouched.brelse_head hx hk6.holds h7))

theorem triple_marked_balloc : Triple (Marked (bitmapWord sb inum) v R held)
    (ext2fsBalloc sb inum) fun _ => Marked (bitmapWord sb inum) v R held := by
  intro s h a s' hr
  obtain ⟨d, i, j, -, -, hm, -⟩ := h.balloc hR hv hr
  exact hm.imp fun _ => And.left

theorem triple_marked_mapAddr (hi : ip.inum = inum) :
    Triple (Marked (bitmapWord sb inum) v R held) (mapAddr sb ip k)
      fun r s => r.2.inum = inum ∧ Marked (bitmapWord sb inum) v R held s := by
  unfold mapAddr
  split_ifs
  · refine .bind ?_ fun a =>
      .pure fun s hs => ⟨hi, hs⟩
    rw [hi]
    exact triple_marked_balloc hR hv
  · exact .pure fun s hs => ⟨hi, hs⟩

theorem triple_marked_mapEntry (hi : ip.inum = inum) (hb : (b, n) ∈ held) :
    Triple (Marked (bitmapWord sb inum) v R held) (mapEntry sb ip b k)
      fun _ => Marked (bitmapWord sb inum) v R held := by
  intro s h a s' hr
  have hload : load b k s = .ok (le32 (fun i => s.byteAt b i) (4 * k), s) := rfl
  unfold mapEntry at hr
  rw [bind_ok hload, hi] at hr
  split_ifs at hr with h0
  · obtain ⟨c, s1, h1, hr⟩ := bind_eq_ok.1 hr
    obtain ⟨_, s2, h2, hr⟩ := bind_eq_ok.1 hr
    cases hr
    have hv0 : v ≠ 0 := by
      have := hv.1
      omega
    obtain ⟨d, i, j, -, -, hm, huntouched⟩ := h.balloc hR hv h1
    refine (hm.imp fun _ => And.left).store hR hv0 hb ?_ h2
    simpa only [(huntouched _ hb).byteAt] using h0
  · obtain ⟨rfl, rfl⟩ := pure_eq_ok.1 hr
    exact h

theorem triple_marked_walk (hi : ip.inum = inum) (ks : List ℕ) (addr : ℕ) :
    Triple (Marked (bitmapWord sb inum) v R held) (walk sb ip (held.map Prod.fst) addr ks)
      fun _ => Marked (bitmapWord sb inum) v R [] := by
  induction ks generalizing addr held with
  | nil => exact .bind Marked.triple_release fun _ => .pure fun _ hs => hs
  | cons k ks ih =>
    refine .bind (Q := fun bp => Marked (bitmapWord sb inum) v R ((bp, addr) :: held))
      (fun s hs bp s' hr => hs.bread hr) fun bp => ?_
    refine .bind (triple_marked_mapEntry hR hv hi mem_cons_self) fun addr' => ?_
    have hnext : Triple (Marked (bitmapWord sb inum) v R (held ++ [(bp, addr)]))
        (walk sb ip ((held ++ [(bp, addr)]).map Prod.fst) addr' ks)
        fun _ => Marked (bitmapWord sb inum) v R [] := ih addr'
    rw [map_append] at hnext
    exact hnext.conseq (fun s hs => hs.perm (perm_append_singleton _ _).symm)
      fun _ _ hs => hs

theorem triple_marked_bmap (hi : ip.inum = inum) {bn : ℕ} (hbn : bn < EXT2_MAXFILE) :
    Triple (Marked (bitmapWord sb inum) v R []) (ext2fsBmap sb ip bn)
      fun r s => r.2.inum = inum ∧ Marked (bitmapWord sb inum) v R [] s := by
  rw [ext2fsBmap_eq sb ip hbn]
  refine .bind (triple_marked_mapAddr hR hv hi) fun r => .pull fun hi' => ?_
  exact .bind (triple_marked_walk hR hv hi' _ _) fun _ => .pure fun s hs => ⟨hi', hs⟩

theorem triple_marked_readRound (hi : ip.inum = inum) {off m : ℕ}
    (hoff : off / BSIZE < EXT2_MAXFILE) :
    Triple (Marked (bitmapWord sb inum) v R []) (readRound sb ip off m)
      fun r s => r.2.inum = inum ∧ Marked (bitmapWord sb inum) v R [] s := by
  refine .bind (triple_marked_bmap hR hv hi hoff) fun r => .pull fun hi' => ?_
  refine .bind
    (fun s hs bp s' hr => hs.bread hr) fun bp => ?_
  refine .bind (Q := fun _ => Marked (bitmapWord sb inum) v R [(bp, r.1)])
    (fun s hs d s' hr => ?_) fun d => ?_
  · cases hr
    exact hs
  · refine .bind
      (fun s hs u s' hr => hs.brelse_head hr) fun _ => .pure fun s hs => ⟨hi', hs⟩

/-- **The rest of a read does not undo marks.** -/
theorem triple_marked_readLoop (fuel : ℕ) (hi : ip.inum = inum) {off n room : ℕ}
    (hend : off + n < 2 ^ 32) :
    Triple (Marked (bitmapWord sb inum) v R []) (readLoop sb fuel ip off n room)
      fun _ => Marked (bitmapWord sb inum) v R [] := by
  have hoff : off / BSIZE < EXT2_MAXFILE := by
    simp only [BSIZE, EXT2_MAXFILE]
    omega
  induction fuel generalizing ip off n room with
  | zero => exact .pure fun _ hs => hs
  | succ fuel ih =>
    unfold readLoop
    split_ifs with hn
    · exact .pure fun _ hs => hs
    · refine .bind (triple_marked_readRound hR hv hi hoff) fun r => .pull fun hi' => ?_
      split_ifs with hroom
      · exact .pure fun _ hs => hs
      · have hend' : off + min n (BSIZE - off % BSIZE) + (n - min n (BSIZE - off % BSIZE)) <
            2 ^ 32 := by omega
        refine .bind (ih hi' hend' ?_) fun _ => .pure fun _ hs => hs
        simp only [BSIZE, EXT2_MAXFILE] at *
        omega

end Alloc

end Io

end Cinux
