import Cinux.Fs.Icache
import Mathlib.Tactic.Push

/-!
# References to inodes

The machine `inodes` runs completed `iget`, `idup` and `iput` calls in any order, with the other
users of an inode setting its `valid`, `type` and `nlink` in between.  `held i` is the number of
`iget` and `idup` calls on entry `i` less the number of `iput` calls on it.

`Inodes.Sound` is the agreement of the inode cache with these counts and with the pool of block
maps.  `ref` is a C `int`, so it holds as long as no inode has `2 ^ 31` references at once
(`icache_sound`); past that point `ref` turns negative (`icache_wraps`).
-/

namespace Cinux

open Function

/-- The two tables and the references handed out and not yet put. -/
structure Inodes where
  cache : Icache
  held : Fin NINODE → ℕ

/-- The calls. -/
inductive InodeAct where
  | iget (dev inum : ℕ)
  | idup (i : Fin NINODE)
  | iput (i : Fin NINODE)
  /-- Another user of the inode, such as `ilock`, `sys_link` or `sys_unlink`. -/
  | touch (i : Fin NINODE) (valid : Bool) (type : ℕ) (nlink : ℤ)

namespace Inodes

/-- The state after a call, if the caller may make it and it does not panic. -/
def next (s : Inodes) : InodeAct → Option Inodes
  | .iget dev inum =>
    match s.cache.iget dev inum with
    | .ok (i, c) => some ⟨c, update s.held i (s.held i + 1)⟩
    | .error _ => none
  | .idup i =>
    if 1 ≤ (s.cache.inode i).ref then some ⟨s.cache.idup i, update s.held i (s.held i + 1)⟩
    else none
  | .iput i =>
    match s.cache.iput i with
    | .ok c =>
      if 1 ≤ (s.cache.inode i).ref then some ⟨c, update s.held i (s.held i - 1)⟩ else none
    | .error _ => none
  | .touch i valid type nlink =>
    if 1 ≤ (s.cache.inode i).ref then
      some { s with
        cache := s.cache.modify i fun x => { x with valid := valid, type := type, nlink := nlink } }
    else none

/-- The state after `iinit`. -/
def boot : Inodes := ⟨Icache.boot, fun _ => 0⟩

/-- Completed calls on the inode cache, in any order. -/
def inodes : Machine Inodes InodeAct where
  init s := s = boot
  step s a s' := s.next a = some s'

/-- The references to every inode fit its `ref` field. -/
def Fits (s : Inodes) : Prop := ∀ i, s.held i < 2 ^ 31

instance Fits.decidable (s : Inodes) : Decidable s.Fits :=
  inferInstanceAs (Decidable (∀ i, s.held i < 2 ^ 31))

/-- Entry `i` is in use for an inode of the root device. -/
def Root (c : Icache) (i : Fin NINODE) : Prop :=
  0 < (c.inode i).ref ∧ (c.inode i).dev = ROOTDEV

/-- The two tables agree. -/
structure Inv (s : Inodes) : Prop where
  /-- At most one entry is in use for an inode, -/
  unique : ∀ i j, 0 < (s.cache.inode i).ref → 0 < (s.cache.inode j).ref →
    (s.cache.inode i).dev = (s.cache.inode j).dev →
    (s.cache.inode i).inum = (s.cache.inode j).inum → i = j
  /-- and it counts its references. -/
  ref : ∀ i, (s.cache.inode i).ref = s.held i
  /-- An inode of the root device has the ext2 operations and a busy slot, -/
  slot : ∀ i, Root s.cache i → (s.cache.inode i).iops = some .ext2fs ∧
    ∃ k, (s.cache.inode i).extAddrs = some k ∧ s.cache.busy k = true
  /-- which it shares with no other, -/
  distinct : ∀ i j, Root s.cache i → Root s.cache j →
    (s.cache.inode i).extAddrs = (s.cache.inode j).extAddrs → i = j
  /-- and no other slot is busy. -/
  busy : ∀ k, s.cache.busy k = true →
    ∃ i, Root s.cache i ∧ (s.cache.inode i).extAddrs = some k
  /-- Inodes of other devices do not have the ext2 operations, so that `iput` does not touch the
  pool for them. -/
  other : ∀ i, 0 < (s.cache.inode i).ref → (s.cache.inode i).dev ≠ ROOTDEV →
    (s.cache.inode i).iops = none

/-- What the two tables promise: the pool never runs out before the table does. -/
structure Sound (s : Inodes) : Prop extends Inv s where
  noPanic : ∀ dev inum, s.cache.iget dev inum ≠ .error "iget: no ext2fs_addrs slots"

variable {s s' : Inodes} {i j : Fin NINODE}

theorem inv_boot : boot.Inv where
  unique i _ hi := absurd hi (by simp [boot, Icache.boot])
  ref _ := rfl
  slot i hi := absurd hi.1 (by simp [boot, Icache.boot])
  other i hi := absurd hi (by simp [boot, Icache.boot])
  distinct i _ hi := absurd hi.1 (by simp [boot, Icache.boot])
  busy k hk := absurd hk (by simp [boot, Icache.boot])

theorem Inv.exists_free (h : s.Inv) (hi : (s.cache.inode i).ref = 0) :
    ∃ k, s.cache.busy k = false := by
  by_contra hall
  push Not at hall
  have howner : ∀ k, ∃ j, Root s.cache j ∧ (s.cache.inode j).extAddrs = some k := fun k =>
    h.busy k (by simpa using hall k)
  choose owner hroot hext using howner
  have hinj : Function.Injective owner := fun k k' he => by
    have := (hext k).symm.trans (he ▸ hext k')
    exact Option.some.inj this
  obtain ⟨k, hk⟩ := Finite.injective_iff_surjective.1 hinj i
  have := (hroot k).1
  rw [hk] at this
  omega

theorem Inv.sound (h : s.Inv) : s.Sound where
  toInv := h
  noPanic dev inum he := by
    obtain ⟨⟨i, hi⟩, hall⟩ := Icache.iget_no_slot he
    obtain ⟨k, hk⟩ := h.exists_free hi
    simp [hall k] at hk

/-! ### Steps -/

/-- The entry keeps its identity, its operations and its slot. -/
structure SameId (x y : CInode) : Prop where
  dev : y.dev = x.dev
  inum : y.inum = x.inum
  iops : y.iops = x.iops
  extAddrs : y.extAddrs = x.extAddrs

theorem Inv.busy_iff (h : s.Inv) (k : Fin NINODE) : s.cache.busy k = true ↔
    ∃ j, Root s.cache j ∧ (s.cache.inode j).extAddrs = some k := by
  refine ⟨h.busy k, ?_⟩
  rintro ⟨j, hj, he⟩
  obtain ⟨-, k', hk', hb⟩ := h.slot j hj
  rwa [← Option.some.inj (hk'.symm.trans he)]

/-- Entry `i` becomes `y`, with `n` references, and the slots in use are again those of the inodes
of the root device. -/
theorem Inv.replace (h : s.Inv) {c : Icache} {y : CInode} {n : ℕ}
    (hc : ∀ j, c.inode j = if j = i then y else s.cache.inode j) (hn : y.ref = n)
    (hnew : 0 < y.ref → ∀ k ≠ i, 0 < (s.cache.inode k).ref →
      (s.cache.inode k).dev = y.dev → (s.cache.inode k).inum ≠ y.inum)
    (hslot : 0 < y.ref → y.dev = ROOTDEV → y.iops = some .ext2fs ∧ ∃ k, y.extAddrs = some k ∧
      ∀ j ≠ i, Root s.cache j → (s.cache.inode j).extAddrs ≠ some k)
    (hother : 0 < y.ref → y.dev ≠ ROOTDEV → y.iops = none)
    (hbusy : ∀ k, c.busy k = true ↔ (0 < y.ref ∧ y.dev = ROOTDEV) ∧ y.extAddrs = some k ∨
      ∃ j ≠ i, Root s.cache j ∧ (s.cache.inode j).extAddrs = some k) :
    (Inodes.mk c (update s.held i n)).Inv := by
  have hself : c.inode i = y := (hc i).trans (if_pos rfl)
  have hsame : ∀ j ≠ i, c.inode j = s.cache.inode j := fun j hj => (hc j).trans (if_neg hj)
  have hroot : ∀ j ≠ i, Root c j → Root s.cache j := fun j hj hr => by
    rwa [Root, hsame j hj] at hr
  have hrootSelf : Root c i → 0 < y.ref ∧ y.dev = ROOTDEV := fun hr => by
    rwa [Root, hself] at hr
  refine ⟨fun j k hj hk hd hin => ?_, fun j => ?_, fun j hj => ?_, fun j k hj hk he => ?_,
    fun k hk => ?_, fun j hj hd => ?_⟩ <;> dsimp only at *
  · rcases eq_or_ne j i with rfl | hji <;> rcases eq_or_ne k j with rfl | hkj
    · rfl
    · rw [hself] at hj hd hin
      rw [hsame k hkj] at hk hd hin
      exact absurd hin.symm (hnew hj k hkj hk hd.symm)
    · rfl
    · rw [hsame j hji] at hj hd hin
      rcases eq_or_ne k i with rfl | hki
      · rw [hself] at hk hd hin
        exact absurd hin (hnew hk j hji hj hd)
      · rw [hsame k hki] at hk hd hin
        exact h.unique j k hj hk hd hin
  · rcases eq_or_ne j i with rfl | hji
    · rw [hself, update_self, hn]
    · rw [hsame j hji, update_of_ne hji]
      exact h.ref j
  · rcases eq_or_ne j i with rfl | hji
    · have hr := hrootSelf hj
      obtain ⟨hops, k, hk, -⟩ := hslot hr.1 hr.2
      rw [hself]
      exact ⟨hops, k, hk, (hbusy k).2 (.inl ⟨hr, hk⟩)⟩
    · obtain ⟨hops, k, hk, -⟩ := h.slot j (hroot j hji hj)
      rw [hsame j hji]
      exact ⟨hops, k, hk, (hbusy k).2 (.inr ⟨j, hji, hroot j hji hj, hk⟩)⟩
  · -- the slot of the new inode belongs to no other
    have hnot : ∀ j ≠ i, Root c j → Root c i → (c.inode j).extAddrs ≠ (c.inode i).extAddrs := by
      intro j hji hj hi
      obtain ⟨-, k, hk, hno⟩ := hslot (hrootSelf hi).1 (hrootSelf hi).2
      rw [hself, hk, hsame j hji]
      exact hno j hji (hroot j hji hj)
    rcases eq_or_ne j i with rfl | hji <;> rcases eq_or_ne k j with rfl | hkj
    · rfl
    · exact absurd he.symm (hnot k hkj hk hj)
    · rfl
    · rcases eq_or_ne k i with rfl | hki
      · exact absurd he (hnot j hji hj hk)
      · rw [hsame j hji, hsame k hki] at he
        exact h.distinct j k (hroot j hji hj) (hroot k hki hk) he
  · obtain ⟨hr, he⟩ | ⟨j, hji, hj, he⟩ := (hbusy k).1 hk
    · exact ⟨i, by rwa [Root, hself], by rwa [hself]⟩
    · exact ⟨j, by rwa [Root, hsame j hji], by rwa [hsame j hji]⟩
  · rcases eq_or_ne j i with rfl | hji
    · rw [hself] at hj hd ⊢
      exact hother hj hd
    · rw [hsame j hji] at hj hd ⊢
      exact h.other j hj hd

/-- A step that changes an entry in use but not who it belongs to: the tables stay in step
unless an inode of the root device loses its last reference. -/
theorem Inv.of_same (h : s.Inv) (hi : 0 < (s.cache.inode i).ref) {f : CInode → CInode}
    {n : ℕ} (hy : SameId (s.cache.inode i) (f (s.cache.inode i)))
    (hn : (f (s.cache.inode i)).ref = n) (hroot : (s.cache.inode i).dev = ROOTDEV → 0 < n) :
    (Inodes.mk (s.cache.modify i f) (update s.held i n)).Inv := by
  refine h.replace (Icache.modify_inode f) hn (fun _ k hk hr hd hin => ?_) (fun _ hd => ?_)
    (fun _ hd => ?_) fun k => (h.busy_iff k).trans ⟨?_, ?_⟩
  · exact hk (h.unique k i hr hi (hd.trans hy.dev) (hin.trans hy.inum))
  · obtain ⟨hops, k, hk, -⟩ := h.slot i ⟨hi, hy.dev.symm.trans hd⟩
    refine ⟨hy.iops.trans hops, k, hy.extAddrs.trans hk, fun j hj hr he => ?_⟩
    exact hj (h.distinct j i hr ⟨hi, hy.dev.symm.trans hd⟩ (he.trans hk.symm))
  · exact hy.iops.trans (h.other i hi (hy.dev ▸ hd))
  · rintro ⟨j, hj, he⟩
    by_cases hji : j = i
    · subst hji
      refine .inl ⟨⟨?_, hy.dev.trans hj.2⟩, hy.extAddrs.trans he⟩
      rw [hn]
      exact_mod_cast hroot hj.2
    · exact .inr ⟨j, hji, hj, he⟩
  · rintro (⟨hr, he⟩ | ⟨j, -, hj, he⟩)
    · exact ⟨i, ⟨hi, hy.dev.symm.trans hr.2⟩, hy.extAddrs.symm.trans he⟩
    · exact ⟨j, hj, he⟩

theorem Root.ne (hj : Root s.cache j) (hi : (s.cache.inode i).ref = 0) : j ≠ i := by
  rintro rfl
  have := hj.1
  omega

theorem inUseFor_ne {x y : CInode} (hno : Icache.inUseFor x y.dev y.inum = false) (hr : 0 < x.ref)
    (hd : x.dev = y.dev) : x.inum ≠ y.inum := by
  intro hin
  simp [Icache.inUseFor, hr, hd, hin] at hno

theorem Inv.of_fresh_other (h : s.Inv) (hi : (s.cache.inode i).ref = 0) {y : CInode}
    (hno : ∀ k, Icache.inUseFor (s.cache.inode k) y.dev y.inum = false) (hy : y.ref = 1)
    (hdev : y.dev ≠ ROOTDEV) (hops : y.iops = none) :
    (Inodes.mk (s.cache.modify i fun _ => y) (update s.held i 1)).Inv := by
  refine h.replace (Icache.modify_inode _) hy (fun _ k _ hr hd => inUseFor_ne (hno k) hr hd)
    (fun _ hd => absurd hd hdev) (fun _ _ => hops) fun k => (h.busy_iff k).trans ⟨?_, ?_⟩
  · rintro ⟨j, hj, he⟩
    exact .inr ⟨j, hj.ne hi, hj, he⟩
  · rintro (⟨hr, -⟩ | ⟨j, -, hj, he⟩)
    · exact absurd hr.2 hdev
    · exact ⟨j, hj, he⟩

/-- An unused entry and a free slot are given to an inode of the root device. -/
theorem Inv.of_fresh_root (h : s.Inv) (hi : (s.cache.inode i).ref = 0) {y : CInode}
    (hno : ∀ k, Icache.inUseFor (s.cache.inode k) y.dev y.inum = false) (hy : y.ref = 1)
    (hdev : y.dev = ROOTDEV) (hops : y.iops = some .ext2fs) {k0 : Fin NINODE}
    (hk0 : s.cache.busy k0 = false) (hext : y.extAddrs = some k0) :
    (Inodes.mk ((s.cache.setBusy k0 true).modify i fun _ => y)
      (update s.held i 1)).Inv := by
  -- the slots of the others are busy, hence not the one just taken
  have hnot : ∀ j ≠ i, Root s.cache j → (s.cache.inode j).extAddrs ≠ some k0 := by
    intro j _ hj he
    have hbusy := (h.busy_iff k0).2 ⟨j, hj, he⟩
    rw [hk0] at hbusy
    cases hbusy
  refine h.replace (Icache.modify_inode _) hy (fun _ k _ hr hd => inUseFor_ne (hno k) hr hd)
    (fun _ _ => ⟨hops, k0, hext, hnot⟩) (fun _ hd => absurd hdev hd) fun k => ?_
  rw [Icache.modify_busy, Icache.setBusy_busy, hext]
  split_ifs with hk
  · subst hk
    exact iff_of_true rfl (.inl ⟨⟨by omega, hdev⟩, rfl⟩)
  · refine (h.busy_iff k).trans ⟨?_, ?_⟩
    · rintro ⟨j, hj, he⟩
      exact .inr ⟨j, hj.ne hi, hj, he⟩
    · rintro (⟨-, he⟩ | ⟨j, -, hj, he⟩)
      · exact absurd (Option.some.inj he).symm hk
      · exact ⟨j, hj, he⟩

/-- An inode of the root device loses its last reference and gives its slot back. -/
theorem Inv.of_last (h : s.Inv) (hi : Root s.cache i) {k0 : Fin NINODE}
    (hk0 : (s.cache.inode i).extAddrs = some k0) {y : CInode} (hy : y.ref = 0) :
    (Inodes.mk ((s.cache.setBusy k0 false).modify i fun _ => y)
      (update s.held i 0)).Inv := by
  have hdead : ¬0 < y.ref := by omega
  refine h.replace (Icache.modify_inode _) hy (fun hr => absurd hr hdead)
    (fun hr => absurd hr hdead) (fun hr => absurd hr hdead) fun k => ?_
  rw [Icache.modify_busy, Icache.setBusy_busy]
  split_ifs with hk
  · subst hk
    refine iff_of_false not_false ?_
    rintro (⟨hr, -⟩ | ⟨j, hji, hj, he⟩)
    · exact hdead hr.1
    · exact hji (h.distinct j i hj hi (he.trans hk0.symm))
  · refine (h.busy_iff k).trans ⟨?_, ?_⟩
    · rintro ⟨j, hj, he⟩
      refine .inr ⟨j, ?_, hj, he⟩
      rintro rfl
      exact hk (Option.some.inj (he.symm.trans hk0))
    · rintro (⟨hr, -⟩ | ⟨j, -, hj, he⟩)
      · exact absurd hr.1 hdead
      · exact ⟨j, hj, he⟩

theorem modify_modify (c : Icache) (i : Fin NINODE) (f g : CInode → CInode) :
    (c.modify i f).modify i g = c.modify i fun _ => g (f (c.inode i)) := by
  simp [Icache.modify]

theorem Inv.succ (h : s.Inv) (hi : s.held i + 1 < 2 ^ 31) :
    toInt32 ((s.cache.inode i).ref + 1) = (s.held i + 1 : ℕ) := by
  rw [h.ref i]
  exact_mod_cast toInt32_of_fits hi

theorem toInt32_pred {n : ℕ} (h : n < 2 ^ 31) (hn : 1 ≤ n) :
    toInt32 ((n : ℤ) - 1) = (n - 1 : ℕ) := by
  have : ((n : ℤ) - 1) = ((n - 1 : ℕ) : ℤ) := by omega
  rw [this, toInt32_of_fits (by omega)]

theorem ext2fsDelete_ref (x : CInode) : (Icache.ext2fsDelete x).ref = x.ref := by
  unfold Icache.ext2fsDelete; split_ifs <;> rfl

theorem delete_ref (x : CInode) : (Icache.delete x).ref = x.ref := by
  unfold Icache.delete; split_ifs <;> rfl

theorem sameId_delete (x : CInode) (r : ℤ) :
    SameId x { Icache.delete x with ref := r } := by
  unfold Icache.delete; split_ifs <;> exact ⟨rfl, rfl, rfl, rfl⟩

theorem Inv.iput (h : s.Inv) (hs : s.Fits) (hi : 1 ≤ (s.cache.inode i).ref) {c : Icache}
    (hp : s.cache.iput i = .ok c) : (Inodes.mk c (update s.held i (s.held i - 1))).Inv := by
  have href := h.ref i
  have hheld : 1 ≤ s.held i := by omega
  have hdec : toInt32 ((s.cache.inode i).ref - 1) = (s.held i - 1 : ℕ) := by
    rw [href]; exact toInt32_pred (hs i) hheld
  by_cases hdev : (s.cache.inode i).dev = ROOTDEV
  · have hroot : Root s.cache i := ⟨by omega, hdev⟩
    obtain ⟨hops, k, hext, -⟩ := h.slot i hroot
    simp only [Icache.iput, hops, Icache.ext2fsIput, hext, modify_modify, Icache.modify_inode,
      if_true, ext2fsDelete_ref, hdec] at hp
    split_ifs at hp with h0
    · -- the last reference
      cases hp
      have hone : s.held i - 1 = 0 := by omega
      have := h.of_last hroot hext
        (y := { Icache.ext2fsDelete (s.cache.inode i) with ref := 0, extAddrs := none }) rfl
      simpa [Icache.setBusy, Icache.modify, hone] using this
    · cases hp
      have hnd : Icache.ext2fsDelete (s.cache.inode i) = s.cache.inode i := by
        unfold Icache.ext2fsDelete
        rw [if_neg]
        rintro ⟨-, -, h1⟩
        omega
      rw [hnd]
      exact h.of_same hroot.1 ⟨rfl, rfl, rfl, rfl⟩ rfl fun _ => by omega
  · have hops := h.other i (by omega) hdev
    simp only [Icache.iput, hops, modify_modify, delete_ref, hdec] at hp
    cases hp
    exact h.of_same hi (sameId_delete _ _) rfl fun hd => absurd hd hdev

/-- **Every completed call keeps the two tables in step**, as long as the counts fit. -/
theorem Inv.step {a : InodeAct} (h : s.Inv) (hst : s.next a = some s') (hs : s.Fits)
    (hs' : s'.Fits) : s'.Inv := by
  revert hst
  fun_cases next s a <;> intro hst <;> cases hst
  case case1 dev inum i c hg =>
    have hfit : s.held i + 1 < 2 ^ 31 := by simpa using hs' i
    obtain ⟨hm, rfl⟩ | ⟨hno, h0, hnew⟩ := Icache.iget_cases hg
    · have hpos : 0 < (s.cache.inode i).ref := by
        simp only [Icache.inUseFor, Bool.and_eq_true, decide_eq_true_eq] at hm
        exact hm.1.1
      exact h.of_same hpos ⟨rfl, rfl, rfl, rfl⟩ (h.succ hfit) fun _ => Nat.succ_pos _
    · have hzero : s.held i = 0 := by have := h.ref i; omega
      rw [hzero]
      obtain ⟨hd, k, hk, rfl⟩ | ⟨hd, rfl⟩ := hnew
      · exact h.of_fresh_root h0 hno rfl hd rfl hk rfl
      · exact h.of_fresh_other h0 hno rfl hd rfl
  case case3 i hi =>
    have hfit : s.held i + 1 < 2 ^ 31 := by simpa using hs' i
    exact h.of_same hi ⟨rfl, rfl, rfl, rfl⟩ (h.succ hfit) fun _ => Nat.succ_pos _
  case case5 i c hp hi => exact h.iput hs hi hp
  case case8 i valid type nlink hi =>
    have hpos : 0 < s.held i := by have := h.ref i; omega
    have := h.of_same hi (f := fun x => { x with valid := valid, type := type, nlink := nlink })
      ⟨rfl, rfl, rfl, rfl⟩ (h.ref i) fun _ => hpos
    rwa [update_eq_self] at this

theorem fits_boot : boot.Fits := fun _ => Nat.two_pow_pos 31

/-- **The inode cache and the pool of block maps agree** after every sequence of completed
calls in which no inode has more references than its `ref` field can hold. -/
theorem icache_sound (h : (inodes.restrict fun _ _ s' => s'.Fits).Reachable s) : s.Sound := by
  have : s.Inv ∧ s.Fits := by
    refine h.invariant (I := fun s => s.Inv ∧ s.Fits) ?_ ?_
    · rintro s rfl
      exact ⟨inv_boot, fits_boot⟩
    · rintro s a s' ⟨hi, hf⟩ ⟨hf', hst⟩
      exact ⟨hi.step hst hf hf', hf'⟩
  exact this.1.sound

theorem iget_boot : ∃ c, boot.cache.iget ROOTDEV 1 = .ok (⟨0, by decide⟩, c) := ⟨_, rfl⟩

/-- The state after a call, if the references fit. -/
def fits (s : Inodes) (a : InodeAct) :
    Option {s' : Inodes // ∃ a, s'.Fits ∧ s.next a = some s'} :=
  match hst : s.next a with
  | some s' => if hf : s'.Fits then some ⟨s', a, hf, hst⟩ else none
  | none => none

/-- The entry of an inode and its slot are used again for another one. -/
theorem icache_sound_reused : ∃ s : Inodes, s.Sound ∧ ∃ i j,
    (s.cache.inode i).inum = 3 ∧ s.held i = 1 ∧ (s.cache.inode j).inum = 2 ∧ s.held j = 2 := by
  let i : Fin NINODE := ⟨0, by decide⟩
  let j : Fin NINODE := ⟨1, by decide⟩
  have hboot : (inodes.restrict fun _ _ s' => s'.Fits).Reachable boot := .start rfl
  obtain ⟨s, hs, hij⟩ := hboot.play fits
    [.iget ROOTDEV 1, .iget ROOTDEV 2, .idup j, .iput i, .iget ROOTDEV 3]
    (P := fun s => (s.cache.inode i).inum = 3 ∧ s.held i = 1 ∧
      (s.cache.inode j).inum = 2 ∧ s.held j = 2) (by decide +kernel)
  exact ⟨s, icache_sound hs, i, j, hij⟩

/-- Duplicating a reference over and over makes `ref` negative while references are out. -/
theorem icache_wraps : ¬ ∀ s, inodes.Reachable s → s.Sound := by
  intro hall
  obtain ⟨c, hg⟩ := iget_boot
  let i : Fin NINODE := ⟨0, by decide⟩
  let f : ℕ → Inodes := fun k => ⟨(Icache.idup · i)^[k] c, update (fun _ => 0) i (k + 1)⟩
  have hreach : ∀ k, inodes.Reachable (f k) := by
    intro k
    induction k with
    | zero =>
      have hst : boot.next (.iget ROOTDEV 1) = some (f 0) := by simp only [next, hg]; rfl
      exact Machine.Reachable.next (.start rfl) hst
    | succ k ih =>
      have href : ((f k).cache.inode i).ref = (k + 1 : ℕ) := by
        rw [(hall _ ih).ref i]; simp [f]
      refine ih.next (l := .idup i) ((if_pos (by omega)).trans (congrArg some ?_))
      simp only [f, update_idem, update_self, Function.iterate_succ_apply']
  have key : ∀ k, k + 2 < 2 ^ 31 := by
    intro k
    have hs := (hall _ (hreach (k + 1))).ref i
    have hp : (f (k + 1)).held i = k + 2 := by simp only [f, update_self]
    have hlt : ((f (k + 1)).cache.inode i).ref < 2 ^ 31 := by
      simp only [f, Function.iterate_succ_apply', Icache.idup, Icache.modify_inode, if_true]
      exact Int.bmod_lt (by decide)
    omega
  exact absurd (key (2 ^ 31)) (by omega)

end Inodes

end Cinux
