import Cinux.Kernel.Block
import Cinux.System.Machine
import Mathlib.Data.Fintype.EquivFin
import Mathlib.Data.List.FinRange

/-!
# The inode cache and the pool of block maps

`fs.c` keeps the inodes in use in a table of `NINODE` entries.  An entry of the ext2 root device
also owns a slot of the pool `ext2fs_addrs`, where its block pointers live; `iget` takes the slot
and the last `ext2fs_iput` gives it back.  Two tables are thus kept in step by three functions in
two files.

The functions below are `iget`, `idup`, `iput` and `ext2fs_iput` as far as they touch the two
tables; what `ext2fs_iput` writes to the disk when it deletes a file is not part of them.  The
machine `inodes` runs completed calls in any order, with the other users of an inode setting its
`valid`, `type` and `nlink` in between.

`Inodes.Sound` is the agreement of the two tables.  `ref` is a C `int`, so it holds as long as no
inode has `2 ^ 31` references at once (`icache_sound`, `icache_wraps`).
-/

namespace Cinux

open Function

/-- The operation tables an inode can point to. -/
inductive InodeOps where
  /-- `ext2fs_inode_ops`. -/
  | ext2fs
  deriving DecidableEq, Repr

/-- The fields of `struct inode` that the cache looks at. -/
structure CInode where
  dev : ℕ
  inum : ℕ
  ref : ℤ
  valid : Bool
  type : ℕ
  nlink : ℤ
  iops : Option InodeOps
  /-- `ext_addrs`, as an index into the pool. -/
  extAddrs : Option (Fin NINODE)

/-- `icache.inode` and the `busy` flags of `ext2fs_addrs`. -/
structure Icache where
  inode : Fin NINODE → CInode
  busy : Fin NINODE → Bool

namespace Icache

/-- Change one entry. -/
def modify (c : Icache) (i : Fin NINODE) (f : CInode → CInode) : Icache :=
  { c with inode := update c.inode i (f (c.inode i)) }

/-- Change one `busy` flag. -/
def setBusy (c : Icache) (k : Fin NINODE) (b : Bool) : Icache :=
  { c with busy := update c.busy k b }

/-- The entry is in use for `(dev, inum)`. -/
def inUseFor (x : CInode) (dev inum : ℕ) : Bool := 0 < x.ref && x.dev == dev && x.inum == inum

/-- The loop of `iget` over the entries `is`: the entry in use for `(dev, inum)` if there is
one, and the first entry seen that is not in use. -/
def igetScan (c : Icache) (dev inum : ℕ) :
    List (Fin NINODE) → Option (Fin NINODE) → Option (Fin NINODE) × Option (Fin NINODE)
  | [], empty => (none, empty)
  | i :: is, empty =>
    if inUseFor (c.inode i) dev inum then (some i, empty)
    else igetScan c dev inum is
      (if empty = none ∧ (c.inode i).ref = 0 then some i else empty)

/-- The first free slot of the pool. -/
def freeSlot (c : Icache) : Option (Fin NINODE) := (List.finRange NINODE).find? (!c.busy ·)

/-- `iget`: the entry and the new tables, or the panic. -/
def iget (c : Icache) (dev inum : ℕ) : Except String (Fin NINODE × Icache) :=
  match c.igetScan dev inum (List.finRange NINODE) none with
  | (some i, _) => .ok (i, c.modify i fun x => { x with ref := toInt32 (x.ref + 1) })
  | (none, none) => .error "iget: no inodes"
  | (none, some i) =>
    let c := c.modify i fun x =>
      { x with
        dev := dev, inum := inum, ref := 1, valid := false, iops := none, extAddrs := none }
    if dev = ROOTDEV then
      match c.freeSlot with
      | some k =>
        .ok (i, (c.setBusy k true).modify i fun x =>
          { x with iops := some .ext2fs, extAddrs := some k })
      | none => .error "iget: no ext2fs_addrs slots"
    else .ok (i, c)

/-- `idup`. -/
def idup (c : Icache) (i : Fin NINODE) : Icache :=
  c.modify i fun x => { x with ref := toInt32 (x.ref + 1) }

/-- The entry after the delete path of `ext2fs_iput`, which the last reference to a file
without links takes. -/
def ext2fsDelete (x : CInode) : CInode :=
  if x.valid ∧ x.nlink = 0 ∧ x.ref = 1 then
    { x with type := 0, valid := false, iops := none, extAddrs := none }
  else x

/-- `ext2fs_iput`.  The slot is remembered in `ad` before the delete path clears the pointer to
it; without a slot, `ad->busy = 0` is a store through a null pointer. -/
def ext2fsIput (c : Icache) (i : Fin NINODE) : Except String Icache :=
  let ad := (c.inode i).extAddrs
  let c := c.modify i ext2fsDelete
  let c := c.modify i fun x => { x with ref := toInt32 (x.ref - 1) }
  if (c.inode i).ref = 0 then
    match ad with
    | some k => .ok ((c.setBusy k false).modify i fun x => { x with extAddrs := none })
    | none => .error "kerneltrap"
  else .ok c

/-- The entry after the delete path of `iput`. -/
def delete (x : CInode) : CInode :=
  if x.ref = 1 ∧ x.valid ∧ x.nlink = 0 then { x with type := 0, valid := false } else x

/-- `iput`. -/
def iput (c : Icache) (i : Fin NINODE) : Except String Icache :=
  match (c.inode i).iops with
  | some .ext2fs => c.ext2fsIput i
  | none =>
    let c := c.modify i delete
    .ok (c.modify i fun x => { x with ref := toInt32 (x.ref - 1) })

/-- The tables before the first `iget`. -/
def boot : Icache := ⟨fun _ => ⟨0, 0, 0, false, 0, 0, none, none⟩, fun _ => false⟩

variable {c : Icache} {i j : Fin NINODE}

@[simp] theorem modify_busy (f : CInode → CInode) : (c.modify i f).busy = c.busy := rfl

@[simp] theorem setBusy_inode (b : Bool) : (c.setBusy i b).inode = c.inode := rfl

theorem modify_inode (f : CInode → CInode) (j : Fin NINODE) :
    (c.modify i f).inode j = if j = i then f (c.inode i) else c.inode j := by
  simp [modify, update_apply]

theorem setBusy_busy (b : Bool) (j : Fin NINODE) :
    (c.setBusy i b).busy j = if j = i then b else c.busy j := by
  simp [setBusy, update_apply]

variable {dev inum : ℕ}

theorem igetScan_found {is : List (Fin NINODE)} {e e' : Option (Fin NINODE)}
    (h : c.igetScan dev inum is e = (some i, e')) : inUseFor (c.inode i) dev inum = true := by
  induction is generalizing e with
  | nil => simp [igetScan] at h
  | cons k is ih =>
    simp only [igetScan] at h
    split_ifs at h with hk
    · simp only [Prod.mk.injEq, Option.some.injEq] at h
      rw [← h.1]; exact hk
    · exact ih h
    · exact ih h

theorem igetScan_empty {is : List (Fin NINODE)} {e e' : Option (Fin NINODE)}
    (h : c.igetScan dev inum is e = (none, e')) (he : ∀ k, e = some k → (c.inode k).ref = 0) :
    (∀ k ∈ is, inUseFor (c.inode k) dev inum = false) ∧ ∀ k, e' = some k → (c.inode k).ref = 0 := by
  induction is generalizing e with
  | nil =>
    simp only [igetScan, Prod.mk.injEq, true_and] at h
    exact ⟨by simp, h ▸ he⟩
  | cons k is ih =>
    simp only [igetScan] at h
    split_ifs at h with hk h0
    · simp at h
    · obtain ⟨h1, h2⟩ := ih h fun k' hk' => by rw [← Option.some.inj hk']; exact h0.2
      exact ⟨List.forall_mem_cons.2 ⟨by simpa using hk, h1⟩, h2⟩
    · obtain ⟨h1, h2⟩ := ih h he
      exact ⟨List.forall_mem_cons.2 ⟨by simpa using hk, h1⟩, h2⟩

/-- What a completed `iget` does. -/
theorem iget_cases {c' : Icache} (h : c.iget dev inum = .ok (i, c')) :
    (inUseFor (c.inode i) dev inum = true ∧
        c' = c.modify i fun x => { x with ref := toInt32 (x.ref + 1) }) ∨
      ((∀ k, inUseFor (c.inode k) dev inum = false) ∧ (c.inode i).ref = 0 ∧
        ((dev = ROOTDEV ∧ ∃ k, c.busy k = false ∧ c' = (c.setBusy k true).modify i fun x =>
              { x with
                dev := dev, inum := inum, ref := 1, valid := false, iops := some .ext2fs
                extAddrs := some k }) ∨
          (dev ≠ ROOTDEV ∧ c' = c.modify i fun x =>
              { x with
                dev := dev, inum := inum, ref := 1, valid := false, iops := none
                extAddrs := none }))) := by
  unfold iget at h
  split at h
  · rename_i k e hs
    simp only [Except.ok.injEq, Prod.mk.injEq] at h
    obtain ⟨rfl, rfl⟩ := h
    exact .inl ⟨igetScan_found hs, rfl⟩
  · cases h
  · rename_i k hs
    obtain ⟨hno, h0⟩ := igetScan_empty hs (by simp)
    right
    have hno' : ∀ k, inUseFor (c.inode k) dev inum = false := fun k => hno k (List.mem_finRange k)
    simp only at h
    split_ifs at h with hd
    · split at h
      · rename_i s hf
        simp only [Except.ok.injEq, Prod.mk.injEq] at h
        obtain ⟨rfl, rfl⟩ := h
        refine ⟨hno', h0 _ rfl, .inl ⟨hd, s, by simpa using List.find?_some hf, ?_⟩⟩
        simp [modify, setBusy]
      · cases h
    · simp only [Except.ok.injEq, Prod.mk.injEq] at h
      obtain ⟨rfl, rfl⟩ := h
      exact ⟨hno', h0 _ rfl, .inr ⟨hd, rfl⟩⟩

theorem iget_no_slot (h : c.iget dev inum = .error "iget: no ext2fs_addrs slots") :
    (∃ k, (c.inode k).ref = 0) ∧ ∀ k, c.busy k = true := by
  unfold iget at h
  split at h
  · cases h
  · simp at h
  · rename_i k hs
    obtain ⟨-, h0⟩ := igetScan_empty hs (by simp)
    refine ⟨⟨k, h0 _ rfl⟩, fun s => ?_⟩
    simp only at h
    split_ifs at h with hd
    · split at h
      · cases h
      · rename_i hf
        have := List.find?_eq_none.1 hf s (List.mem_finRange s)
        simpa using this

end Icache

end Cinux
