import Cinux.Ext2.Ialloc
import Cinux.Ext2.Insertion
import Cinux.Fs.CallBalance

/-!
# Creating files

`create` takes its inode from `ialloc` of `fs.c`, which scans the `struct dinode`s that the
superblock `sb` announces.  On an ext2 root nothing reads `sb` in, so that the scan is empty: a new
name never gets an inode (`create_never`), while `ext2fs_ialloc` finds one on the same image
(`create_rootImage`).
-/

namespace Cinux

open Program

namespace Kern

variable {D : Type} (V : Volume D) {R : ProcFact} {x : Ledger} {s s' s₁ : Kern D} {p : Fin NPROC}
  {path behind : Bytes} {type : ℕ} {major : ℤ} {dp : Fin NINODE}

theorem ilock_same {u : Unit} (h : ilock V dp s = .ok (u, s')) :
    s'.disk = s.disk ∧ (s'.icache.inode dp).inum = (s.icache.inode dp).inum := by
  have hlook : ∀ t : Kern D, inode dp t = .ok (t.icache.inode dp, t) := fun _ => rfl
  rw [ilock, bind_ok (hlook s)] at h
  split_ifs at h with href
  · cases h
  obtain ⟨_, t, ht, h⟩ := bind_eq_ok.1 h
  have hsame : t.disk = s.disk ∧ t.icache = s.icache := by
    unfold acquiresleep at ht
    split_ifs at ht
    cases ht
    exact ⟨rfl, rfl⟩
  rw [bind_ok (hlook t)] at h
  split_ifs at h with hv
  · cases h
    rw [hsame.1, hsame.2]
    exact ⟨rfl, rfl⟩
  · cases h
    refine ⟨hsame.1, ?_⟩
    rw [← hsame.2]
    simp [Icache.modify_inode]

theorem ialloc_none (h : s.ninodes = 0) : ialloc V type s = .ok (none, s) := by
  rw [ialloc, bind_ok (m := get) (s := s) rfl, h]
  rfl

/-- A name that is not in the directory is not created. -/
theorem create_none {r : Option (Fin NINODE)} (h : Bal R x s)
    (hfresh : ∀ dp s₁, namex V p true path behind s = .ok (some dp, s₁) →
      V.dirlookup s₁.disk (s₁.icache.inode dp).inum (lastName path behind) = some none)
    (hc : create V p path behind type major s = .ok (r, s')) : r = none := by
  obtain ⟨r1, s₁, hname, hc⟩ := bind_eq_ok.1 hc
  cases r1 with
  | none => exact (pure_eq_ok.1 hc).1.symm
  | some dp =>
    have h1 := (moves_namex V p true path behind x s h).1 _ _ hname
    obtain ⟨_, s2, hlock, hc⟩ := bind_eq_ok.1 hc
    have h2 := (moves_ilock V dp _ s₁ h1).1 _ _ hlock
    obtain ⟨hdisk, hinum⟩ := ilock_same V hlock
    have hlook : dirlookup V dp (lastName path behind) s2 = .ok (none, s2) := by
      rw [dirlookup, bind_ok (m := inode dp) (s := s2) rfl]
      have habsent := hfresh dp s₁ hname
      rw [← hdisk, ← hinum] at habsent
      have hon : onDisk (fun d => (V.dirlookup d (s2.icache.inode dp).inum
          (lastName path behind)).map (·, d)) s2 = .ok (none, s2) := by
        simp only [onDisk, habsent, Option.map_some]
      rw [bind_ok hon]
      rfl
    rw [bind_ok hlook] at hc
    dsimp only at hc
    rw [bind_ok (ialloc_none V h2.sb)] at hc
    obtain ⟨_, s3, -, hc⟩ := bind_eq_ok.1 hc
    exact (pure_eq_ok.1 hc).1.symm

/-- **`create` never creates anything**: in every state in which a system call may call it, on every
volume, it returns no inode for a name that is not in the directory yet. -/
theorem create_never {s₀ : Kern D} (h : (machine V).Reachable s₀) (hop : beginOp s₀ = .ok ((), s))
    (hfresh : ∀ dp s₁, namex V p true path behind s = .ok (some dp, s₁) →
      V.dirlookup s₁.disk (s₁.icache.inode dp).inum (lastName path behind) = some none)
    (ip : Fin NINODE) (s' : Kern D) :
    create V p path behind type major s ≠ .ok (some ip, s') := by
  intro hc
  have hbal := (moves_beginOp 0 s₀ (reachable_balanced V h)).1 () s hop
  cases create_none V hbal hfresh hc

end Kern

/-! ### An image -/

namespace Io

/-- The loop of `isdirempty` from `off` on. -/
def emptyLoop (sb : Super) : ℕ → InCore → ℕ → IoM Bool
  | 0, _, _ => throw .deadlock
  | fuel + 1, dp, off => do
    if off < dp.size then
      let (r, bytes, dp) ← ext2fsReadi sb dp off sizeofDirent sizeofDirent
      if r ≠ sizeofDirent then throw (.panic "isdirempty: readi")
      else if le16 (fun k => bytes.getD k 0) 0 ≠ 0 then pure false
      else emptyLoop sb fuel dp (off + sizeofDirent)
    else pure true

end Io

/-- `ip->type` of an inode. -/
def InodeType.no : InodeType → ℕ
  | .none => 0
  | .dir => T_DIR
  | .file => T_FILE

/-- The inode that `ext2fs_iupdate` stores for a value of `ip->type`. -/
def InodeType.ofNo (n : ℕ) : InodeType :=
  if n = T_DIR then .dir else if n = T_FILE then .file else .none

/-- Run driver code on inode `inum` of an image, with nothing in the buffer cache. -/
def onImage {α : Type} (sb : Super) (d : ℕ → Block) (inum : ℕ) (m : InCore → IoM α) :
    Option (α × (ℕ → Block)) :=
  match (do
    let ip ← Io.ext2fsIlock sb ⟨inum, .none, 0, 1, false, 0, fun _ => 0⟩
    m ip : IoM α) ⟨Bcache.binit, d, fun _ _ => 0⟩ with
  | .ok (a, s) => some (a, s.disk)
  | .error _ => none

open Program in
theorem onImage_eq_some {α : Type} {sb : Super} {d d' : ℕ → Block} {inum : ℕ} {m : InCore → IoM α}
    {a : α} (h : onImage sb d inum m = some (a, d')) :
    ∃ i t t', Io.ext2fsIlock sb ⟨inum, .none, 0, 1, false, 0, fun _ => 0⟩
      ⟨Bcache.binit, d, fun _ _ => 0⟩ = .ok (i, t) ∧ m i t = .ok (a, t') ∧ t'.disk = d' := by
  -- unfolded on its arguments, the definition would be run on the empty cache
  have hdef : @onImage α = fun sb d inum m =>
      match (do
        let ip ← Io.ext2fsIlock sb ⟨inum, .none, 0, 1, false, 0, fun _ => 0⟩
        m ip : IoM α) ⟨Bcache.binit, d, fun _ _ => 0⟩ with
      | .ok (a, s) => some (a, s.disk)
      | .error _ => none := by
    delta onImage
    rfl
  rw [hdef] at h
  beta_reduce at h
  split at h
  · next a' t' hrun =>
    obtain ⟨i, t, hlock, hm⟩ := bind_eq_ok.1 hrun
    cases h
    exact ⟨i, t, t', hlock, hm, rfl⟩
  · cases h

/-- The volume of an image, whose loops over directories run for at most `fuel` rounds.  The
`struct dinode`s of `ialloc` are those of a superblock with `inodestart` 0. -/
def ext2Volume (sb : Super) (fuel : ℕ) : Volume (ℕ → Block) where
  ilock d inum :=
    match onImage sb d inum pure with
    | some (ip, _) => (ip.type.no, ip.nlink)
    | none => (0, 0)
  iupdate d inum type nlink :=
    match onImage sb d inum fun ip =>
        Io.ext2fsIupdate sb { ip with type := .ofNo type, nlink := nlink } with
    | some (_, d) => d
    | none => d
  dirlookup d inum name :=
    (onImage sb d inum fun dp => Io.lookupLoop sb name fuel dp 0).map (·.1.1)
  dirlink d inum name i :=
    (onImage sb d inum fun dp => Io.linkAbsent sb fuel dp name i fun _ => 0).map (·.2)
  isdirempty d inum :=
    (onImage sb d inum fun dp => Io.emptyLoop sb fuel dp (2 * sizeofDirent)).map (·.1)
  erase d inum off :=
    (onImage sb d inum fun dp => do
      let (r, _) ← Io.ext2fsWritei sb dp off sizeofDirent sizeofDirent fun _ => 0
      if r ≠ sizeofDirent then throw (.panic "unlink: writei") else pure ()).map (·.2)
  itrunc d inum := (onImage sb d inum fun ip => Io.ext2fsIupdate sb { ip with size := 0 }).map (·.2)
  delete d inum := (onImage sb d inum fun ip => Io.ext2fsIput sb ip).map (·.2)
  claim d inum type :=
    if le16 (fun k => (d (inum / 16)).byte k) (inum % 16 * 64) = 0 then
      some <| Function.update d (inum / 16) <|
        (d (inum / 16)).memmove (inum % 16 * 64) 64 fun k => if k < 2 then byteOf type k else 0
    else none

/-- Inode `k + 1` of group `g` is free: its bit is clear. -/
def Super.FreeInode (sb : Super) (disk : ℕ → Block) (inum : ℕ) : Prop :=
  ∃ g < sb.groups, ∃ k < sb.sInodesPerGroup,
    inum = g * sb.sInodesPerGroup + k + 1 ∧ (disk (descWord disk g bgInodeBitmap)).bit k = false

/-- An image in which inode 1, where absolute paths start, is a directory with `.` and `..`: it has
one block, 16.  Inodes from 17 on and blocks from 17 on are free. -/
def rootImage : ℕ → Block := fun n j =>
  if n = 4 then [255, 255].getD j.val 0
  else if n = 9 then
    if j.val = 1 then 0x40 else if j.val = 5 then 4 else if j.val = 26 then 2
    else if j.val = 40 then 16 else 0
  else if n = 16 then File.rootDir.block 0 j
  else Io.sampleDisk 8 255 n j

namespace Kern

/-- The volume of that image, and the state in which the first process has called `begin_op`. -/
abbrev rootVolume : Volume (ℕ → Block) := ext2Volume Io.sampleSuper 9

@[inherit_doc rootVolume]
def rootKern : Kern (ℕ → Block) := { boot rootImage [] with outstanding := 1 }

theorem beginOp_rootKern : (machine rootVolume).Reachable (boot rootImage []) ∧
    beginOp (boot rootImage []) = .ok ((), rootKern) :=
  ⟨.start ⟨rootImage, [], List.nodup_nil, rfl⟩, rfl⟩

theorem namex_rootKern : returns (namex rootVolume initproc true [47, 100] []) rootKern
    (fun r s => r.any fun dp => (s.icache.inode dp).inum == 1 &&
      rootVolume.dirlookup s.disk (s.icache.inode dp).inum (lastName [47, 100] []) == some none) =
    true := by
  decide +kernel

/-- `mkdir("/d")` makes nothing. -/
theorem create_never_mkdir : (∀ dp s₁, namex rootVolume initproc true [47, 100] [] rootKern =
      .ok (some dp, s₁) → rootVolume.dirlookup s₁.disk (s₁.icache.inode dp).inum
        (lastName [47, 100] []) = some none) ∧
    ∀ ip s', create rootVolume initproc [47, 100] [] T_DIR 0 rootKern ≠ .ok (some ip, s') := by
  have hfresh : ∀ dp s₁, namex rootVolume initproc true [47, 100] [] rootKern =
      .ok (some dp, s₁) → rootVolume.dirlookup s₁.disk (s₁.icache.inode dp).inum
        (lastName [47, 100] []) = some none := by
    intro dp s₁ hname
    obtain ⟨r, t, ht, hr⟩ := exists_of_returns namex_rootKern
    obtain ⟨rfl, rfl⟩ := ok_inj (hname.symm.trans ht)
    simp only [Option.any_some, Bool.and_eq_true, beq_iff_eq] at hr
    exact hr.2
  exact ⟨hfresh, create_never rootVolume beginOp_rootKern.1 beginOp_rootKern.2 hfresh⟩

/-- **A directory that is not created**: the root has a free inode and a free block, which
`ext2fs_ialloc` finds, and `d` is not in it, but `create` returns nothing. -/
theorem create_rootImage :
    Io.sampleSuper.FreeInode rootImage 17 ∧ Io.sampleSuper.Free rootImage 17 ∧
      returns (Io.ext2fsIalloc Io.sampleSuper .dir) ⟨Bcache.binit, rootImage, fun _ _ => 0⟩
        (fun inum _ => inum == 17) = true ∧
      (machine rootVolume).Reachable (boot rootImage []) ∧
      beginOp (boot rootImage []) = .ok ((), rootKern) ∧
      returns (namex rootVolume initproc true [47, 100] []) rootKern
        (fun r s => r.any fun dp => (s.icache.inode dp).inum == 1 &&
          rootVolume.dirlookup s.disk (s.icache.inode dp).inum (lastName [47, 100] []) ==
            some none) = true ∧
      returns (create rootVolume initproc [47, 100] [] T_DIR 0) rootKern
        (fun r _ => r == none) = true := by
  refine ⟨⟨0, by decide, 16, by decide, rfl, by decide +kernel⟩,
    ⟨0, by decide, 16, by decide, rfl, by decide +kernel⟩, by decide +kernel, beginOp_rootKern.1,
    beginOp_rootKern.2, namex_rootKern, by decide +kernel⟩

end Kern

end Cinux
