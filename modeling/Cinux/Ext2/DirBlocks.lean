import Cinux.Ext2.Insertion
import Cinux.Ext2.Splice
import Cinux.Ext2.WriteThrough

/-!
# Directories over the buffer cache

`ext2fs_dirlink` with its calls of `ext2fs_bmap`, `bread` and `bwrite`, on a directory whose blocks
are all there: as long as the directory does not grow it does what `File.ext2fsDirlink` does on the
contents (`Driver.HasDir.dirlink_runs`).  A block behind the end would come from `ext2fs_balloc`.

* `Driver.HasDir` : the directory in an entry of the inode table has these contents;
* `File.dirlink_map` : when `ext2fs_dirlink` inserts as into a map.
-/

namespace Cinux

open Function

open DirEntry Program

namespace Io

variable {s t : Io} {ip : InCore} {f : File} {sb : Super} {disk disk' : ℕ → Block} {addrs : ℕ → ℕ}
  {off n a fuel : ℕ} {p : ℕ × List ℕ} {name : Bytes}

namespace Backed

/-! ### The loops over a directory -/

theorem readi_eq (sb : Super) (hs : s.Solid ip) (h : s.Backed ip f t) (hsize : ip.size = f.size)
    (off : ℕ) (hn : n < 2 ^ 32) : ∃ t', ext2fsReadi sb ip off n n t =
        .ok (((f.readi off n).1, (f.readi off n).2, ip), t') ∧ s.Backed ip f t' := by
  unfold File.readi
  rw [← hsize]
  by_cases hrej : ReadRejected ip off n
  · refine ⟨t, ?_, h⟩
    rw [readi_rejected hrej]
    unfold ReadRejected at hrej
    rw [if_pos hrej]
  · obtain ⟨t', hr, hb⟩ := h.readi_runs sb hs hn hrej
    refine ⟨t', ?_, hb⟩
    rw [hr]
    unfold ReadRejected at hrej
    rw [if_neg hrej, ← File.readLoop_eq]
    rfl

theorem lookupLoop_runs (sb : Super) (hs : s.Solid ip) (h : s.Backed ip f t)
    (hsize : ip.size = f.size) {r : Lookup} (hr : f.lookupLoop name fuel off = some r) :
    (∃ msg, r = .panic msg) ∨ ∃ t', lookupLoop sb name fuel ip off t = .ok ((r.place, ip), t') ∧
      s.Backed ip f t' := by
  induction fuel generalizing off t with
  | zero => cases hr
  | succ fuel ih =>
    unfold File.lookupLoop at hr
    unfold Io.lookupLoop
    rw [← hsize] at hr
    by_cases hlt : off < ip.size
    · rw [if_pos hlt] at hr ⊢
      obtain ⟨t1, h1, hb1⟩ := h.readi_eq sb hs hsize off (by decide : sizeof < 2 ^ 32)
      rw [bind_ok h1]
      dsimp only at hr ⊢
      split_ifs at hr ⊢ with hret hhit
      · exact .inl ⟨_, (Option.some.inj hr).symm⟩
      · obtain rfl := Option.some.inj hr
        exact .inr ⟨t1, rfl, hb1⟩
      · exact ih hb1 hr
    · rw [if_neg hlt] at hr ⊢
      obtain rfl := Option.some.inj hr
      exact .inr ⟨t, rfl, h⟩

theorem slotLoop_runs (sb : Super) (hs : s.Solid ip) (h : s.Backed ip f t)
    (hsize : ip.size = f.size) {o : ℕ} (hr : f.slotLoop fuel off = some (.ok o)) :
    ∃ t', slotLoop sb fuel ip off t = .ok ((o, ip), t') ∧ s.Backed ip f t' := by
  induction fuel generalizing off t with
  | zero => cases hr
  | succ fuel ih =>
    unfold File.slotLoop at hr
    unfold Io.slotLoop
    rw [← hsize] at hr
    by_cases hlt : (off : ℤ) < toInt32 ip.size
    · rw [if_pos hlt] at hr ⊢
      obtain ⟨t1, h1, hb1⟩ := h.readi_eq sb hs hsize off (by decide : sizeof < 2 ^ 32)
      rw [bind_ok h1]
      dsimp only at hr ⊢
      split_ifs at hr ⊢ with hret hfree
      · cases hr
      · obtain rfl : off = o := by simpa using hr
        exact ⟨t1, rfl, hb1⟩
      · exact ih hb1 hr
    · rw [if_neg hlt] at hr ⊢
      obtain rfl : off = o := by simpa using hr
      exact ⟨t, rfl, h⟩

end Backed

/-! ### Adding an entry -/

/-- No buffer is in use, and the inode is a directory with the contents `f`, of which no block is
missing and none occurs twice.  Neither the group descriptors nor the inode lie in its blocks. -/
structure DirAt (s : Io) (sb : Super) (dp : InCore) (f : File) : Prop where
  coherent : s.Coherent [] ∅
  solid : s.Solid dp
  size : dp.size = f.size
  data : ∀ bn, bn * BSIZE < dp.size → s.disk (s.blockFor dp bn) = f.block bn
  apart : ∀ p a, PointerAt s.disk dp.addrs p a → a ≠ 2 ∧ a ≠ s.inodeBlock sb dp.inum
  table_ne : s.inodeBlock sb dp.inum ≠ 2

namespace DirAt

variable {dp : InCore} (h : s.DirAt sb dp f)
include h

theorem backed : s.Backed dp f s := ⟨h.coherent, rfl, fun _ _ => rfl, h.data⟩

theorem of_backed (ht : s.Backed dp f t) : t.DirAt sb dp f := by
  have hd : t.disk = s.disk := h.backed.disk_eq ht
  have hblock : t.inodeBlock sb dp.inum = s.inodeBlock sb dp.inum :=
    inodeBlock_congr (by rw [hd]) ht.outside sb dp.inum
  obtain ⟨hs, hplace⟩ := h.solid.congr le_rfl fun p a => ht.pointerAt_iff h.solid
  refine ⟨ht.coherent, hs, h.size, fun bn hbn => ?_, fun p a hp => ?_, hblock.trans_ne h.table_ne⟩
  · rw [← ht.data bn hbn]
    exact congrArg t.disk (hplace bn hbn)
  · rw [hblock]
    exact h.apart p a (hd ▸ hp)

/-- **`ext2fs_dirlink` of a new name**, where the directory does not grow. -/
theorem linkAbsent_runs {o inum : ℕ} {stack : ℕ → UInt8} (ht : s.Backed dp f t)
    (hr : f.slotLoop fuel 0 = some (.ok o)) (hroom : o + BSIZE ≤ f.size) :
    ∃ t', linkAbsent sb fuel dp name inum stack t = .ok ((0, { dp with size := o + BSIZE }), t') ∧
      t'.DirAt sb { dp with size := o + BSIZE } (f.insertAt o (.link name inum) stack) := by
  have hle : o + BSIZE ≤ dp.size := hroom.trans_eq h.size.symm
  have hlt : o + BSIZE < 2 ^ 32 := h.solid.lt hle
  obtain ⟨t1, h1, hb1⟩ := ht.slotLoop_runs sb h.solid h.size hr
  have h1' := h.of_backed hb1
  -- the new size is written back
  obtain ⟨t2, h2, hc2, hd2, ho2⟩ := hb1.coherent.iupdate_runs sb { dp with size := o + BSIZE }
  have hsame : ∀ p a, PointerAt t1.disk dp.addrs p a → t2.disk a = t1.disk a := fun p a hp => by
    rw [hd2, update_of_ne (h1'.apart p a hp).2]
  have hpt : ∀ p a, PointerAt t2.disk dp.addrs p a ↔ PointerAt t1.disk dp.addrs p a :=
    fun p a => pointerAt_congr fun p a hp _ => hsame p a hp
  obtain ⟨hs2, hplace⟩ := h1'.solid.congr hle hpt
  have hb2 : t2.Backed { dp with size := o + BSIZE } { f with size := o + BSIZE } t2 := by
    refine ⟨hc2, rfl, fun _ _ => rfl, fun bn hbn => ?_⟩
    rw [hplace bn hbn, hsame _ _ (h1'.solid.pointerAt (hbn.trans_le hle)),
      h1'.data bn (hbn.trans_le hle)]
  -- and the entry is written
  obtain ⟨t3, h3, hb3⟩ := hb2.writei_runs sb hs2 (le_refl BSIZE) le_rfl
    ((link name inum).image stack)
  obtain ⟨hs3, hplace3⟩ := hs2.congr le_rfl fun p a => hb3.pointerAt_iff hs2
  have hdesc : t3.disk 2 = t1.disk 2 := by
    rw [hb3.other 2 fun bn hbn he => ?_, hd2, update_of_ne h1'.table_ne.symm]
    exact (h1'.apart _ _ ((hpt _ _).1 (hs2.pointerAt hbn))).1 he.symm
  have hblock : t3.inodeBlock sb dp.inum = t1.inodeBlock sb dp.inum :=
    inodeBlock_congr hdesc (hb3.outside.trans ho2) sb dp.inum
  rw [File.insertAt_eq hlt _ rfl]
  refine ⟨t3, ?_, hb3.coherent, hs3, by rw [File.writeLoop_size], fun bn hbn => ?_,
    fun p a hp => ?_, hblock.trans_ne h1'.table_ne⟩
  · unfold linkAbsent
    rw [bind_ok h1]
    dsimp only
    rw [show (o + (link name inum).recLen) % 2 ^ 32 = o + BSIZE from Nat.mod_eq_of_lt hlt,
      bind_ok h2, show (link name inum).recLen = BSIZE from rfl, bind_ok h3]
    rfl
  · rw [← hb3.data bn hbn]
    exact congrArg t3.disk (hplace3 bn hbn)
  · rw [hblock]
    exact h1'.apart p a ((hpt p a).1 ((hb3.pointerAt_iff hs2).1 hp))

end DirAt

end Io

namespace Driver

variable {s : Driver} {sb : Super} {slot : ℕ → ℕ} {i : ℕ} {f f' : File}

/-- Entry `i` of the inode table is a directory with the contents `f`.  `iget` finds that entry for
its own number only, and an entry that it takes over is not valid. -/
structure HasDir (s : Driver) (sb : Super) (slot : ℕ → ℕ) (i : ℕ) (f : File) : Prop where
  dir : s.io.DirAt sb (s.inode i) f
  own : ∀ n, slot n = i → n = (s.inode i).inum
  fresh : ∀ n, (s.inode (slot n)).ref = 0 → (s.inode (slot n)).valid = false

/-- **`ext2fs_dirlink` on the blocks**: as long as the directory does not grow, it returns what
`File.ext2fsDirlink` returns, and leaves the directory with the contents that this returns. -/
theorem HasDir.dirlink_runs {c : File.Call} {r : ℤ} {fuel : ℕ} (h : s.HasDir sb slot i f)
    (hr : f.ext2fsDirlink (s.inode i).inum c.name c.inum c.stack fuel = some (.ret r f'))
    (hsize : f'.size ≤ f.size) :
    ∃ s', s.dirlink sb fuel i c.name c.inum c.stack slot = .ok (r, s') ∧
      s'.HasDir sb slot i f' := by
  obtain ⟨n, o, hlook, hn, rfl, rfl⟩ | ⟨hlook, o, hslot, rfl, rfl⟩ := File.ext2fsDirlink_ret hr
  · obtain ⟨t, ht, hb⟩ :=
      (h.dir.backed.lookupLoop_runs sb h.dir.solid h.dir.size hlook).resolve_left (by simp)
    have hne : slot n ≠ i := fun he => hn (h.own n he)
    have hput : ¬((s.inode (slot n)).valid ∧ (s.inode (slot n)).nlink = 0 ∧
        (s.inode (slot n)).ref + 1 = 1) := by
      rintro ⟨hv, -, href⟩
      rw [h.fresh n (by omega)] at hv
      cases hv
    unfold dirlink
    rw [ht]
    dsimp only [Lookup.place]
    rw [if_neg hne]
    unfold Io.ext2fsIput
    rw [if_neg hput]
    refine ⟨_, rfl, ?_⟩
    have hself : (s.set i t (s.inode i)).set (slot n) t (s.inode (slot n)) = ⟨t, s.inode⟩ := by
      simp [set]
    rw [Nat.add_sub_cancel, hself]
    exact ⟨h.dir.of_backed hb, h.own, h.fresh⟩
  · obtain ⟨t, ht, hb⟩ :=
      (h.dir.backed.lookupLoop_runs sb h.dir.solid h.dir.size hlook).resolve_left (by simp)
    have hlt : o + BSIZE < 2 ^ 32 := by
      have := (File.FirstFree.of_slotLoop (h.dir.size ▸ h.dir.solid.lt le_rfl) hslot).lt
      simp only [BSIZE]
      omega
    rw [File.insertAt_eq hlt _ rfl, File.writeLoop_size] at hsize
    obtain ⟨t', ht', hdir⟩ := h.dir.linkAbsent_runs hb hslot hsize
    unfold dirlink
    rw [ht]
    dsimp only [Lookup.place]
    rw [ht']
    refine ⟨_, rfl, ?_, fun n hn => ?_, fun n hn => ?_⟩
    · rw [set_inode_self]
      exact hdir
    · rw [set_inode_self]
      exact h.own n hn
    · by_cases hi : slot n = i
      · rw [hi, set_inode_self] at hn ⊢
        rw [← hi] at hn ⊢
        exact h.fresh n hn
      · simp only [set, update_of_ne hi] at hn ⊢
        exact h.fresh n hn

end Driver

namespace File

/-- **Directory insertion.**  A call of `ext2fs_dirlink` on a well-formed directory inserts as
into a map exactly when the directory fits it; a sequence of calls that each find a directory
that fits returns what insertions into the map of the directory return, and leaves a well-formed
directory in which lookups return what the resulting map has.  This is about the contents of the
directory; when it does not grow, the call over the buffer cache returns the same and leaves these
contents in the blocks. -/
theorem dirlink_map (f : File) (dinum : ℕ) (hw : f.WellFormed) :
    (∀ c : Call, c.Ok → (f.Inserts dinum c ↔ f.Fits dinum c.name)) ∧
      (∀ (cs : List Call) (μ : Bytes → Option ℕ), (∀ c ∈ cs, c.Ok) → f.Represents μ →
        FitsAll dinum f cs →
        ∃ f', Runs dinum f cs (mapInsertAll μ cs).1 f' ∧ f'.WellFormed ∧
          f'.Represents (mapInsertAll μ cs).2 ∧
          ∀ m, (0 : UInt8) ∉ m →
            (∀ i o, f'.Looks m (.found i o) → (mapInsertAll μ cs).2 m = some i) ∧
              (f'.Looks m .absent → (mapInsertAll μ cs).2 m = none)) ∧
      ∀ (s : Driver) (sb : Super) (slot : ℕ → ℕ) (i : ℕ) (c : Call) (r : ℤ) (f' : File),
        s.HasDir sb slot i f → (s.inode i).inum = dinum → f.Links dinum c (.ret r f') →
        f'.size ≤ f.size → ∃ fuel s', s.dirlink sb fuel i c.name c.inum c.stack slot = .ok (r, s') ∧
          s'.HasDir sb slot i f' := by
  refine ⟨fun c hc => inserts_iff_fits hw hc, fun cs μ hcs hμ hfit => ?_, ?_⟩
  · obtain ⟨f', hruns, hw', hμ'⟩ := hfit.runs hw hcs hμ
    exact ⟨f', hruns, hw', hμ', fun m hm => hμ'.looks hw' hm⟩
  · rintro s sb slot i c r f' hdir rfl ⟨fuel, hr⟩ hsize
    exact ⟨fuel, hdir.dirlink_runs hr hsize⟩

/-- A directory with one block, whose only record, of `b`, has been freed. -/
def freedDir : File where
  size := 1024
  block _ := fun j => [0, 0, 0, 0, 0, 4, 1, 2, 98].getD j.val 0

/-- The state after boot with that directory on the disk, in block 20. -/
def freedDriver : Driver where
  io := { Io.holeIo 1024 with disk := update (Io.holeIo 1024).disk 20 (freedDir.block 0) }
  inode _ := { Io.blockInode with type := .dir }

theorem entries_freedDir : freedDir.RecordsAt [0] ∧ (freedDir.entry 0).inode = 0 := by
  decide +kernel

theorem not_live_freedDir (r : ℕ) : ¬freedDir.Live r := by
  rintro ⟨hr, hne⟩
  obtain rfl : r = 0 := by simpa using entries_freedDir.1.record.1 hr
  exact hne entries_freedDir.2

theorem fits_freedDir (name : Bytes) : freedDir.Fits 13 name where
  present r hit := absurd hit.1 (not_live_freedDir r)
  absent _ := by
    refine ⟨fun r hr => ?_, 0, .inr ⟨by decide, dvd_zero _, Nat.zero_le _,
      fun k hk => absurd hk (Nat.not_lt_zero k), fun _ => entries_freedDir.2⟩, dvd_zero _,
      fun r hr => absurd hr (not_live_freedDir r)⟩
    obtain rfl : r = 0 := by simpa using entries_freedDir.1.record.1 hr
    decide

theorem hasDir_freedDriver : freedDriver.HasDir Io.sampleSuper id 13 freedDir where
  dir := by
    have hblock : freedDriver.io.inodeBlock Io.sampleSuper 13 = 10 :=
      (Io.inodeBlock_congr rfl rfl _ _).trans (Io.holeIo_places 1024).2
    have hsolid : freedDriver.io.Solid Io.blockInode := Io.solid_blockInode
    refine ⟨Io.coherent_binit _ _, ⟨hsolid.size, hsolid.distinct, hsolid.filled⟩, rfl,
      fun bn hbn => ?_, fun p a hp => ?_, hblock.trans_ne (by decide)⟩
    · obtain rfl : bn = 0 := by
        have hlt : bn * BSIZE < 1024 := hbn
        simp only [BSIZE] at hlt
        omega
      rfl
    · have hp' : Io.PointerAt freedDriver.io.disk (Io.oneBlock 20).addrs p a :=
        Io.addrs_blockInode ▸ hp
      obtain rfl := Io.pointerAt_oneBlock hp'
      rw [← hp'.ends]
      exact ⟨by decide, fun he => absurd (he.trans hblock) (by decide)⟩
  own _ h := h
  fresh _ h := by cases h

theorem dirlink_map_freedDir : ∃ f', freedDir.Links 13 linkA (.ret 0 f') ∧ f'.WellFormed ∧
    (∃ o, f'.Looks [97] (.found 12 o)) ∧
    ∃ fuel s', freedDriver.dirlink Io.sampleSuper fuel 13 linkA.name linkA.inum linkA.stack id =
      .ok (0, s') ∧ s'.HasDir Io.sampleSuper id 13 f' := by
  have hw := entries_freedDir.1.wellFormed
  obtain ⟨hins, -, hblocks⟩ := dirlink_map freedDir 13 hw
  obtain ⟨f', hlinks, hw', hlook, -⟩ := ((hins linkA linkA_ok).2 (fits_freedDir _)).absent
    fun ⟨r, hit⟩ => not_live_freedDir r hit.1
  refine ⟨f', hlinks, hw', hlook, hblocks _ _ _ _ _ _ _ hasDir_freedDriver rfl hlinks ?_⟩
  obtain ⟨_, _, -, -, h, -⟩ | ⟨-, o, hfree, -, rfl⟩ := links_ret hw.size_lt hlinks
  · cases h
  · obtain ⟨h, -⟩ | ⟨-, -, -, hused, -⟩ := hfree
    · exact absurd h (by decide)
    · obtain rfl : o = 0 := by
        by_contra ho
        exact hused 0 (Nat.pos_of_ne_zero ho) (dvd_zero _) entries_freedDir.2
      rw [insert_size (by decide)]
      decide

end File

end Cinux
