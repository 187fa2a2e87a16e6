import Cinux.Fs.Syscalls

/-!
# Deadlocks on inode locks

A system call that waits for the lock of an inode while it holds another one should hold only a
directory, and find the inode in it under a name other than `.` and `..`.  Directories do not
contain each other, so two processes that keep to this order never wait for each other.

`ilock` keeps to the order (`Syscall.safe`).  `ext2fs_iput` does not: `sys_unlink` puts the
directory while it holds the inode that it has removed from it, and `ext2fs_dirlink` puts whatever
it has found, which may be the parent of the directory it is in.
-/

namespace Cinux

open Function List File

/-- Inode `i` has a name in the directory, other than `.` and `..`. -/
def File.Lists (f : File) (i : ℕ) : Prop :=
  ∃ name n off, ¬(namecmp name [46] = 0 ∨ namecmp name [46, 46] = 0) ∧
    f.ext2fsDirlookup name n = some (.found i off)

/-- The order of the inode locks: from a directory to the inodes that it lists.  A lock protects the
contents of its inode; a directory never becomes a file. -/
def inodeOrder (P : Type) : LockOrder (Vfs P) ℕ LockSite where
  Same i t t' := (t'.inode i).file = (t.inode i).file
  Stable t t' := ∀ i, (t.inode i).type ≠ .file → (t'.inode i).type ≠ .file
  Edge t d i := (t.inode d).type ≠ .file ∧ (t.inode d).file.Lists i
  Strict site := site = .ilock
  same_refl _ _ := rfl
  same_trans h h' := h'.trans h
  stable_refl _ _ h := h
  stable_trans h h' i hi := h' i (h i hi)
  edge_mono h h' he := ⟨h' _ he.1, h ▸ he.2⟩

namespace VfsProg

variable {P : Type} {t : Vfs P} {H : List ℕ} {i d : ℕ} {k : VfsProg P}

/-! ### What the parts of a system call need -/

/-- The program is safe from `t` on, after anything that others may do. -/
def SafeFrom (k : VfsProg P) (t : Vfs P) (H : List ℕ) : Prop :=
  ∀ t', (inodeOrder P).Stable t t' → (inodeOrder P).Safe k t' H

theorem SafeFrom.safe (h : SafeFrom k t H) : (inodeOrder P).Safe k t H := h t fun _ hi => hi

theorem SafeFrom.stable {t' : Vfs P} (h : SafeFrom k t H) (hs : (inodeOrder P).Stable t t') :
    SafeFrom k t' H := fun t'' hs' => h t'' fun i hi => hs' i (hs i hi)

theorem guar_modify (t : Vfs P) {f : Inode → Inode}
    (hfile : i ∉ H → ∀ ip, (f ip).file = ip.file) (htype : ∀ ip, ip.type ≠ .file →
    (f ip).type ≠ .file) :
    (inodeOrder P).Guar H t (t.modify i f) := by
  refine ⟨fun j hj => ?_, fun j hj => ?_⟩
  · by_cases h : j = i
    · subst h
      simp [inodeOrder, Vfs.modify, hfile hj]
    · simp [inodeOrder, Vfs.modify, h]
  · by_cases h : j = i
    · subst h
      simpa [Vfs.modify] using htype _ hj
    · simpa [Vfs.modify, h] using hj

theorem safe_act {f : ℕ → Vfs P → Vfs P} {k : ℕ → Vfs P → VfsProg P}
    (h : ∀ n t', (inodeOrder P).Stable t t' →
      (inodeOrder P).Guar H t' (f n t') ∧ (inodeOrder P).Safe (k n t') (f n t') H) :
    SafeFrom (.act f k) t H :=
  fun _ ht n t' hr => h n t' fun i hi => hr.2 i (ht i hi)

theorem guar_refl (H : List ℕ) (t : Vfs P) : (inodeOrder P).Guar H t t :=
  ⟨fun _ _ => rfl, fun _ h => h⟩

theorem safe_modify {f : Inode → Inode} (hfile : i ∉ H → ∀ ip, (f ip).file = ip.file)
    (htype : ∀ ip, ip.type ≠ .file → (f ip).type ≠ .file) (hk : SafeFrom k t H) :
    SafeFrom (modify i f k) t H := by
  refine safe_act fun n t' ht => ?_
  have hg := guar_modify t' hfile htype
  exact ⟨hg, hk.stable ht _ hg.2⟩

theorem safe_iunlock (hi : i ∈ H) (hk : SafeFrom k t (H.erase i)) : SafeFrom (iunlock i k) t H :=
  fun _ ht => ⟨hi, fun t' hr => hk.stable ht t' hr.2⟩

theorem safe_iput (hk : SafeFrom k t H) : SafeFrom (iput i k) t H := by
  refine fun _ ht => ⟨nofun, fun t' hr => ?_⟩
  have hk' : SafeFrom k t' H := (hk.stable ht).stable hr.2
  refine (safe_modify (fun h => absurd (mem_cons_self) h) (fun ip hip => ?_)
    (safe_iunlock mem_cons_self ?_)).safe
  · unfold Inode.reclaim
    split_ifs
    · simp
    · exact hip
  · rw [erase_cons_head]
    exact safe_modify (fun _ _ => rfl) (fun _ h => h) hk'

theorem safe_iunlockput (hi : i ∈ H) (hk : SafeFrom k t (H.erase i)) :
    SafeFrom (iunlockput i k) t H := safe_iunlock hi (safe_iput hk)

theorem safe_ilock (hk : SafeFrom k t [i]) : SafeFrom (ilock i k) t [] :=
  fun _ ht => ⟨fun _ => .inl rfl, fun t' hr => hk.stable ht t' hr.2⟩

theorem safe_look {k : ℕ → Vfs P → VfsProg P}
    (hk : ∀ n t', (inodeOrder P).Stable t t' → (inodeOrder P).Safe (k n t') t' H) :
    SafeFrom (look k) t H :=
  safe_act fun n t' ht => ⟨guar_refl H t', hk n t' ht⟩

theorem guar_idup (H : List ℕ) (t : Vfs P) (i : ℕ) : (inodeOrder P).Guar H t (t.idup i) :=
  guar_modify t (fun _ _ => rfl) fun _ h => h

theorem safe_dirlookup {name : Bytes} {absent : VfsProg P} {found : ℕ → ℕ → VfsProg P}
    (habsent : SafeFrom absent t H)
    (hfound : ∀ n t' i off, (inodeOrder P).Stable t t' →
      (t'.inode d).file.ext2fsDirlookup name n = some (.found i off) →
      (inodeOrder P).Safe (found i off) (t'.idup i) H) :
    SafeFrom (dirlookup d name absent found) t H := by
  refine safe_act fun n t' ht => ?_
  cases hl : (t'.inode d).file.ext2fsDirlookup name n with
  | none => exact ⟨guar_refl H t', trivial⟩
  | some r =>
    cases r with
    | panic msg => exact ⟨guar_refl H t', trivial⟩
    | absent => exact ⟨guar_refl H t', habsent t' ht⟩
    | found i off => exact ⟨guar_idup H t' i, hfound n t' i off ht hl⟩

theorem safe_dirlink {name : Bytes} {inum : ℕ} {stack : ℕ → UInt8} {k : Bool → VfsProg P}
    (hd : d ∈ H) (hk : ∀ r, SafeFrom (k r) t H) : SafeFrom (dirlink d name inum stack k) t H := by
  refine safe_dirlookup (safe_act fun n t' ht => ?_) fun n t' i off ht _ => ?_
  · cases hl : (t'.inode d).file.slotLoop n 0 with
    | none => exact ⟨guar_refl H t', trivial⟩
    | some r =>
      cases r with
      | error msg => exact ⟨guar_refl H t', trivial⟩
      | ok off =>
        have hg := guar_modify t'
          (f := fun dp => { dp with file := dp.file.insertAt off (.link name inum) stack })
          (fun h => absurd hd h) fun _ h => h
        exact ⟨hg, (hk true).stable ht _ hg.2⟩
  · exact (safe_iput (((hk false).stable ht).stable (guar_idup H t' i).2)).safe

/-! ### The system calls -/

/-- The result of `namex`: the directory that `nameiparent` returns is none of the files. -/
theorem safe_walk {parent : Bool} {k : Option ℕ → VfsProg P}
    (hk : ∀ r t', (∀ d, r = some d → parent = true → (t'.inode d).type ≠ .file) →
      SafeFrom (k r) t' []) (l : List Bytes) (i : ℕ) (t : Vfs P) :
    SafeFrom (walk parent k l i) t [] := by
  have hnone : ∀ t', SafeFrom (k none) t' [] := fun t' => hk none t' (by simp)
  induction l generalizing i t with
  | nil =>
    unfold walk
    split_ifs with hp
    · exact safe_iput (hnone t)
    · exact hk _ t fun d _ h => absurd h hp
  | cons name rest ih =>
    refine safe_ilock (safe_look fun n t' _ => ?_)
    have hput : ∀ k', (∀ t'', SafeFrom k' t'' []) → SafeFrom (iunlockput i k') t' [i] :=
      fun k' h => safe_iunlockput (by simp) (by rw [erase_cons_head]; exact h t')
    split_ifs with hdir hlast
    · exact (hput _ hnone).safe
    · refine (safe_iunlock (by simp) ?_).safe
      rw [erase_cons_head]
      refine hk _ t' fun d hd _ => ?_
      obtain rfl := Option.some.inj hd
      simp [not_not.1 hdir]
    · refine (safe_dirlookup (hput _ hnone) fun n t'' next off _ _ => ?_).safe
      refine (safe_iunlockput (by simp) ?_).safe
      rw [erase_cons_head]
      exact ih next _

theorem safe_namex {p : P} {parent : Bool} {path behind : Bytes} {k : Option ℕ → VfsProg P}
    (hk : ∀ r t', (∀ d, r = some d → parent = true → (t'.inode d).type ≠ .file) →
      SafeFrom (k r) t' []) (t : Vfs P) : SafeFrom (namex p parent path behind k) t [] :=
  safe_act fun _ t' _ => ⟨guar_idup [] t' _, (safe_walk hk _ _ _).safe⟩

theorem safe_done (t : Vfs P) : SafeFrom .done t [] := fun _ _ => rfl

theorem safe_put {k : VfsProg P} (hk : SafeFrom k t []) : SafeFrom (iunlockput i k) t [i] :=
  safe_iunlockput (by simp) (by rwa [erase_cons_head])

theorem safe_linkBad (i : ℕ) (t : Vfs P) : SafeFrom (linkBad i) t [] :=
  safe_ilock (safe_modify (by simp) (fun _ h => h) (safe_put (safe_done t)))

theorem safe_sysLink (p : P) (old new inner behind : Bytes) (stack : ℕ → UInt8) (t : Vfs P) :
    SafeFrom (sysLink p old new inner behind stack) t [] := by
  refine safe_namex (fun r t _ => ?_) t
  cases r with
  | none => exact safe_done t
  | some i =>
    refine safe_ilock (safe_look fun n t _ => ?_)
    split_ifs
    · exact (safe_put (safe_done t)).safe
    · refine SafeFrom.safe (safe_modify (by simp) (fun _ h => h)
        (safe_iunlock mem_cons_self ?_))
      rw [erase_cons_head]
      refine safe_namex (fun r t _ => ?_) t
      cases r with
      | none => exact safe_linkBad i t
      | some d =>
        refine safe_ilock (safe_dirlink mem_cons_self fun r => ?_)
        cases r with
        | true => exact safe_put (safe_iput (safe_done t))
        | false => exact safe_put (safe_linkBad i t)

theorem safe_unlinkErase (off : ℕ) (t : Vfs P) : SafeFrom (unlinkErase d i off) t [i, d] := by
  refine safe_act fun n t' _ => ?_
  have hg := guar_modify (H := [i, d]) (i := d) t' (f := eraseEntry off (t'.inode i))
    (by simp) fun _ h => h
  refine ⟨hg, ?_⟩
  split_ifs
  · trivial
  · have herase : [i, d].erase d = [i] := by
      by_cases h : i = d
      · rw [h, erase_cons_head]
      · rw [erase_cons_tail (by simpa using h), erase_cons_head]
    refine (safe_iunlockput (by simp) ?_).safe
    rw [herase]
    exact safe_modify (by simp) (fun _ h => h) (safe_put (safe_done _))

theorem safe_unlinkLocked (off : ℕ) (t : Vfs P) : SafeFrom (unlinkLocked d i off) t [i, d] := by
  refine safe_look fun n t' _ => ?_
  split_ifs
  · trivial
  · cases hr : (t'.inode i).removable n with
    | none => trivial
    | some r =>
      rcases r with msg | (_ | _)
      · trivial
      · refine (safe_iunlockput mem_cons_self ?_).safe
        rw [erase_cons_head]
        exact safe_put (safe_done t')
      · exact (safe_unlinkErase off t').safe

theorem safe_unlinkIn (name : Bytes) (ht : (t.inode d).type ≠ .file) :
    SafeFrom (unlinkIn d name) t [d] := by
  unfold unlinkIn
  split_ifs with hname
  · exact safe_put (safe_done t)
  · refine safe_dirlookup (safe_put (safe_done t)) fun n t' i off hs hl => ?_
    have hg := guar_idup ([] : List ℕ) t' i
    refine ⟨fun _ => .inr ⟨d, rfl, hg.2 d (hs d ht), ?_⟩, fun t'' _ => ?_⟩
    · rw [show ((t'.idup i).inode d).file = (t'.inode d).file from hg.1 d (by simp)]
      exact ⟨name, n, off, hname, hl⟩
    · exact (safe_unlinkLocked off t'').safe

theorem safe_sysUnlink (p : P) (path behind : Bytes) (t : Vfs P) :
    SafeFrom (sysUnlink p path behind) t [] := by
  refine safe_namex (fun r t hr => ?_) t
  cases r with
  | none => exact safe_done t
  | some d => exact safe_ilock (safe_unlinkIn _ (hr d rfl rfl))

theorem safe_create {p : P} {file : Bool} {path behind : Bytes} {k : Option ℕ → VfsProg P}
    (hnone : ∀ t, SafeFrom (k none) t []) (hsome : ∀ i t, SafeFrom (k (some i)) t [i]) (t : Vfs P) :
    SafeFrom (create p file path behind k) t [] := by
  refine safe_namex (fun r t _ => ?_) t
  cases r with
  | none => exact hnone t
  | some d =>
    refine safe_ilock (safe_dirlookup (safe_put (hnone t)) fun n t' i off _ _ => ?_)
    refine (safe_put (safe_ilock (safe_look fun n t'' _ => ?_))).safe
    split_ifs
    · exact (hsome i t'').safe
    · exact (safe_put (hnone t'')).safe

theorem safe_unlock_done (i : ℕ) (t : Vfs P) : SafeFrom (iunlock i .done) t [i] :=
  safe_iunlock (by simp) (by rw [erase_cons_head]; exact safe_done t)

theorem safe_openLocked (omode : ℕ) (room : Bool) (i : ℕ) (t : Vfs P) :
    SafeFrom (openLocked omode room i) t [i] := by
  unfold openLocked
  split_ifs
  · refine safe_look fun n t' _ => ?_
    split_ifs
    · exact SafeFrom.safe (safe_modify (by simp) (fun _ h => h) (safe_unlock_done i t'))
    · exact (safe_unlock_done i t').safe
  · exact safe_put (safe_done t)

theorem safe_sysOpen (p : P) (path behind : Bytes) (omode : ℕ) (room : Bool) (t : Vfs P) :
    SafeFrom (sysOpen p path behind omode room) t [] := by
  unfold sysOpen
  split_ifs
  · exact safe_create safe_done (fun i t => safe_openLocked omode room i t) t
  · refine safe_namex (fun r t _ => ?_) t
    cases r with
    | none => exact safe_done t
    | some i =>
      refine safe_ilock (safe_look fun n t' _ => ?_)
      split_ifs
      · exact (safe_put (safe_done t')).safe
      · exact (safe_openLocked omode room i t').safe

theorem safe_sysMkdir (p : P) (path behind : Bytes) (t : Vfs P) :
    SafeFrom (sysMkdir p path behind) t [] :=
  safe_create safe_done (fun _ t => safe_put (safe_done t)) t

theorem safe_sysChdir [DecidableEq P] (p : P) (path behind : Bytes) (t : Vfs P) :
    SafeFrom (sysChdir p path behind) t [] := by
  refine safe_namex (fun r t _ => ?_) t
  cases r with
  | none => exact safe_done t
  | some i =>
    refine safe_ilock (safe_look fun n t' _ => ?_)
    split_ifs
    · exact (safe_put (safe_done t')).safe
    · refine (safe_iunlock (by simp) ?_).safe
      rw [erase_cons_head]
      refine safe_look fun n t'' _ => (safe_iput (safe_act fun _ t _ => ?_)).safe
      exact ⟨⟨fun _ _ => rfl, fun _ h => h⟩, rfl⟩

theorem safe_filewrite (i : ℕ) (rounds : List (ℕ × ℕ × (ℕ → UInt8))) (t : Vfs P) :
    SafeFrom (filewrite i rounds) t [] := by
  induction rounds generalizing t with
  | nil => exact safe_done t
  | cons round rest ih =>
    obtain ⟨off, n, src⟩ := round
    refine safe_ilock (safe_act fun _ t' _ => ?_)
    have hg := guar_modify (H := [i]) (i := i) t'
      (f := fun ip => { ip with file := (ip.file.writei off n src).2 }) (by simp) fun _ h => h
    refine ⟨hg, (safe_iunlock (by simp) ?_).safe⟩
    rw [erase_cons_head]
    split_ifs
    · exact ih _
    · exact safe_done _

end VfsProg

open VfsProg in
/-- **Every system call takes inode locks in order with `ilock`**, changes only inodes that it has
locked, and leaves none locked. -/
theorem Syscall.safe {P : Type} [DecidableEq P] (p : P) (c : Syscall) (t : Vfs P) :
    (inodeOrder P).Safe (c.code p) t [] := by
  cases c with
  | sysOpen path behind omode room => exact (safe_sysOpen p path behind omode room t).safe
  | sysLink old new inner behind stack => exact (safe_sysLink p old new inner behind stack t).safe
  | sysUnlink path behind => exact (safe_sysUnlink p path behind t).safe
  | sysMkdir path behind => exact (safe_sysMkdir p path behind t).safe
  | sysChdir path behind => exact (safe_sysChdir p path behind t).safe
  | fileread i => exact (safe_ilock (safe_unlock_done i t)).safe
  | filewrite i rounds => exact (safe_filewrite i rounds t).safe
  | fileclose i => exact (safe_iput (safe_done t)).safe

/-- Processes `P` that make system calls. -/
def vfsMachine (P : Type) [DecidableEq P] :
    Machine (LockState (Vfs P) ℕ LockSite P) (LockAct Syscall P) :=
  LockState.machine fun p c => c.code p

/-- The runs in which processes go to sleep in order.  A process that goes to sleep in `ext2fs_iput`
holds no inode, or only a directory that lists the inode it wants; and whenever a process goes to
sleep, no two directories list each other. -/
def orderlyVfs (P : Type) [DecidableEq P] :
    Machine (LockState (Vfs P) ℕ LockSite P) (LockAct Syscall P) :=
  (vfsMachine P).restrict fun s a _ => (inodeOrder P).Orderly s a

/-! ### Two processes remove the two names of a file -/

section Unlinks

open VfsProg

variable {m : Vfs Bool} {l : ℕ → Option Bool} {c : Bool → VfsProg Bool} {w : Bool → Bool} {p : Bool}
  {i : ℕ} {name path : Bytes} {prog : VfsProg Bool} {k : Option ℕ → VfsProg Bool}

theorem reach_call (call : Syscall) (h : (orderlyVfs Bool).Reachable ⟨m, l, c, w⟩)
    (hc : c p = .done) : (orderlyVfs Bool).Reachable ⟨m, l, update c p (call.code p), w⟩ :=
  h.next (l := .call p call) ⟨trivial, .call hc⟩

theorem reach_acquire {site : LockSite} (h : (orderlyVfs Bool).Reachable ⟨m, l, c, w⟩)
    (hc : c p = .acquire site i prog) (hl : l i = none) : (orderlyVfs Bool).Reachable
      ⟨m, update l i (some p), update c p prog, update w p false⟩ :=
  h.next (l := .acquire p) ⟨trivial, .acquire hc hl⟩

theorem reach_sleep (h : (orderlyVfs Bool).Reachable ⟨m, l, c, w⟩)
    (hc : c p = .acquire .ilock i prog) (hl : l i ≠ none)
    (hm : ∀ x y, x ≠ y → ¬((inodeOrder Bool).Edge m x y ∧ (inodeOrder Bool).Edge m y x)) :
    (orderlyVfs Bool).Reachable ⟨m, l, c, update w p true⟩ := by
  refine h.next (l := .sleep p) ⟨⟨fun tag j k hk hstrict => absurd ?_ hstrict, hm⟩, .sleep hc hl⟩
  exact (LockProg.acquire.inj (hc.symm.trans hk)).1.symm

theorem reach_release (h : (orderlyVfs Bool).Reachable ⟨m, l, c, w⟩)
    (hc : c p = .release i prog) (hl : l i = some p) :
    (orderlyVfs Bool).Reachable ⟨m, update l i none, update c p prog, w⟩ :=
  h.next (l := .release p) ⟨trivial, .release hc hl⟩

theorem reach_act {f : ℕ → Vfs Bool → Vfs Bool} {g : ℕ → Vfs Bool → VfsProg Bool} (n : ℕ)
    (h : (orderlyVfs Bool).Reachable ⟨m, l, c, w⟩) (hc : c p = .act f g) :
    (orderlyVfs Bool).Reachable ⟨f n m, l, update c p (g n m), w⟩ :=
  h.next (l := .act p n) ⟨trivial, .act hc⟩

theorem reach_nameiparent (h : (orderlyVfs Bool).Reachable ⟨m, l, c, w⟩)
    (hc : c p = namex p true path [] k) (hn : names path [] = [name])
    (habs : Vfs.absolute path = true) (hdir : (m.inode ROOTINO).type = .dir)
    (hl : l ROOTINO = none) :
    (orderlyVfs Bool).Reachable ⟨m.idup ROOTINO, l, update c p (k (some ROOTINO)),
      update w p false⟩ := by
  have hstart : m.start p path = ROOTINO := if_pos habs
  have h1 := reach_act 0 h hc
  rw [hstart, hn] at h1
  have h2 := reach_act 0 (reach_acquire h1 (update_self _ _ _) hl) (update_self _ _ _)
  have htype : ((m.idup ROOTINO).inode ROOTINO).type = .dir := by
    simpa [Vfs.idup, Vfs.modify] using hdir
  simp only [update_idem, htype, ne_eq, not_true_eq_false, if_false, and_self, if_true] at h2
  have h3 := reach_release h2 (update_self _ _ _) (update_self ROOTINO (some p) l)
  have hback : update l ROOTINO none = l := by rw [← hl, update_eq_self]
  simpa [hback] using h3

/-- A directory with two names of inode 12; the record of `b` comes before that of `a`. -/
def dirBA : File where
  size := 1024
  block _ := fun j =>
    [1, 0, 0, 0, 12, 0, 1, 2, 46, 0, 0, 0, 1, 0, 0, 0, 12, 0, 2, 2, 46, 46, 0, 0,
      12, 0, 0, 0, 12, 0, 1, 1, 98, 0, 0, 0, 12, 0, 0, 0, 220, 3, 1, 1, 97].getD j.val 0

theorem lookup_dirBA : dirBA.ext2fsDirlookup [97] 4 = some (.found 12 36) := by
  decide +kernel

theorem lookup_erase_dirBA :
    (dirBA.erase 36).ext2fsDirlookup [98] 3 = some (.found 12 24) := by
  decide +kernel

/-- `unlink("/a")` up to the point where it has given the directory back and puts it. -/
theorem reach_unlink_a (h : (orderlyVfs Bool).Reachable ⟨m, l, c, w⟩)
    (hc : c p = ilock ROOTINO (unlinkIn ROOTINO [97])) (hl : l ROOTINO = none) (hl' : l 12 = none)
    (hdir : (m.inode ROOTINO).file = dirBA) (hfile : (m.inode 12).type = .file)
    (hlinks : 1 ≤ (m.inode 12).nlink) :
    ∃ m' k', (orderlyVfs Bool).Reachable ⟨m', update l 12 (some p),
        update c p (.acquire .iput ROOTINO k'), update w p false⟩ ∧
      (∀ i, (m'.inode i).type = (m.inode i).type) ∧
      ∀ i, (m'.inode i).file = if i = ROOTINO then dirBA.erase 36 else (m.inode i).file := by
  have h1 := reach_act 4 (reach_acquire h hc hl) (update_self _ _ _)
  simp only [update_idem, hdir, lookup_dirBA] at h1
  have h2 := reach_act 0 (reach_acquire h1 (update_self _ _ _) (by simpa [ROOTINO] using hl'))
    (update_self _ _ _)
  have hlinks' : ¬((m.idup 12).inode 12).nlink < 1 := by
    simpa [Vfs.idup, Vfs.modify] using hlinks
  have hrem : ((m.idup 12).inode 12).removable 0 = some (.ok true) := by
    simp [Vfs.idup, Vfs.modify, Inode.removable, hfile]
  simp only [update_idem, hlinks', hrem, if_false] at h2
  have h3 := reach_act 0 h2 (update_self _ _ _)
  have hroot : ((m.idup 12).inode ROOTINO).file = dirBA := by
    simpa [Vfs.idup, Vfs.modify, ROOTINO] using hdir
  have hwrite : dirBA.writei 36 sizeofDirent (fun _ => 0) = ((sizeofDirent : ℤ), dirBA.erase 36) :=
    writei_eq (by decide) (by decide)
  simp only [update_idem, hroot, hwrite, ne_eq, not_true_eq_false, if_false] at h3
  have h4 := reach_release h3 (update_self _ _ _) (by simp [ROOTINO])
  have hback : update (update (update l ROOTINO (some p)) 12 (some p))
      ROOTINO none = update l 12 (some p) := by
    rw [update_comm (by decide), update_idem, ← hl, update_eq_self]
  rw [hback, update_idem] at h4
  refine ⟨_, _, h4, fun i => ?_, fun i => ?_⟩
  all_goals
    by_cases hi : i = ROOTINO <;> by_cases hi' : i = 12 <;>
      simp_all [Vfs.modify, eraseEntry, Vfs.idup, ROOTINO]

theorem reach_unlink_b (h : (orderlyVfs Bool).Reachable ⟨m, l, c, w⟩)
    (hc : c p = ilock ROOTINO (unlinkIn ROOTINO [98])) (hl : l ROOTINO = none)
    (hdir : (m.inode ROOTINO).file = dirBA.erase 36) :
    ∃ k', (orderlyVfs Bool).Reachable ⟨m.idup 12, update l ROOTINO (some p),
        update c p (.acquire .ilock 12 k'), update w p false⟩ := by
  have h1 := reach_act 3 (reach_acquire h hc hl) (update_self _ _ _)
  simp only [update_idem, hdir, lookup_erase_dirBA] at h1
  exact ⟨_, h1⟩

/-- The directory is the root, and inode 12 is a file with its two names. -/
def treeBA : FileTree := fun i =>
  if i = ROOTINO then ⟨.dir, 2, 1, dirBA⟩
  else if i = 12 then ⟨.file, 2, 0, ⟨0, fun _ => Block.zero⟩⟩
  else ⟨.none, 0, 0, ⟨0, fun _ => Block.zero⟩⟩

/-- The first process has locked the file, given the directory back and is about to put it; the
second one has taken the directory, found the file and waits for it. -/
theorem reach_wait : ∃ s kA kB, (orderlyVfs Bool).Reachable s ∧ s.lock 12 = some true ∧
    s.prog true = .acquire .iput ROOTINO kA ∧ s.lock ROOTINO = some false ∧
    s.asleep false = true ∧ s.prog false = .acquire .ilock 12 kB := by
  have h0 : (orderlyVfs Bool).Reachable ⟨⟨treeBA, fun _ => ROOTINO⟩, fun _ => none,
      fun _ => .done, fun _ => false⟩ := .start ⟨fun _ => rfl, fun _ => rfl, fun _ => rfl⟩
  have h1 := reach_call (p := true) (.sysUnlink [47, 97] []) h0 rfl
  have h2 := reach_nameiparent h1 (update_self _ _ _)
    (show names [47, 97] [] = [[97]] by decide) (by decide) (by decide) rfl
  obtain ⟨m, kA, h3, htype, hfile⟩ := reach_unlink_a h2
    (update_self true _ _) rfl rfl rfl rfl (by decide)
  have h4 := reach_call (p := false) (.sysUnlink [47, 98] []) h3 rfl
  have h5 := reach_nameiparent h4 (update_self _ _ _)
    (show names [47, 98] [] = [[98]] by decide) (by decide) ((htype _).trans rfl) rfl
  obtain ⟨kB, h6⟩ := reach_unlink_b h5 (update_self false _ _) rfl
    (by simpa [Vfs.idup, Vfs.modify] using hfile ROOTINO)
  -- Only the root lists anything, so no two directories list each other.
  have hroot : ∀ i j, (inodeOrder Bool).Edge ((m.idup ROOTINO).idup 12) i j → i = ROOTINO := by
    rintro i j ⟨-, name, n, off, -, hl⟩
    by_contra hi
    have hempty : (((m.idup ROOTINO).idup 12).inode i).file = ⟨0, fun _ => Block.zero⟩ := by
      by_cases hi' : i = 12
      · simp [Vfs.idup, Vfs.modify, hfile, hi', treeBA, ROOTINO]
      · simp [Vfs.idup, Vfs.modify, hfile, hi, hi', treeBA]
    rw [hempty] at hl
    cases n <;> simp [ext2fsDirlookup, lookupLoop] at hl
  have h7 := reach_sleep h6 (update_self _ _ _) (by simp [ROOTINO]) fun x y hne he =>
    hne ((hroot x y he.1).trans (hroot y x he.2).symm)
  exact ⟨_, kA, kB, h7, by simp [ROOTINO], by simp, by simp, by simp, by simp⟩

/-- **In a run in which processes go to sleep in order, no two processes wait for inodes that the
other one holds.** -/
theorem no_inode_deadlock (P : Type) [DecidableEq P] (s : LockState (Vfs P) ℕ LockSite P)
    (h : (orderlyVfs P).Reachable s) (A B : P) (X Y : ℕ) : ¬s.Deadlock A B X Y :=
  LockOrder.no_deadlock (fun p c t => c.safe p t) h A B X Y

theorem no_inode_deadlock_unlink : ∃ s, (orderlyVfs Bool).Reachable s ∧ s.lock 12 = some true ∧
    s.lock ROOTINO = some false ∧ s.Waits false 12 ∧ ∀ A B X Y, ¬s.Deadlock A B X Y := by
  obtain ⟨s, -, kB, h, hfile, -, hdir, hw, hB⟩ := reach_wait
  exact ⟨s, h, hfile, hdir, ⟨hw, _, kB, hB⟩, no_inode_deadlock Bool s h⟩

/-- **Two processes remove the two names of a file.**  The second one holds the directory and waits
for the file; then `ext2fs_iput` of the first one waits for the directory. -/
theorem unlink_deadlock : ∃ s, (vfsMachine Bool).Reachable s ∧
    s.Deadlock true false 12 ROOTINO := by
  obtain ⟨s, kA, kB, h, hfile, hA, hdir, hw, hB⟩ := reach_wait
  have hst : (vfsMachine Bool).step s (.sleep true) _ := .sleep hA (by simp [hdir])
  exact ⟨_, h.of_restrict.next hst, by decide, hfile, ⟨by simp, .iput, kA, hA⟩, hdir,
    by simpa using hw, .ilock, kB, hB⟩

end Unlinks

end Cinux
