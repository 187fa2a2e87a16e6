import Cinux.Kernel.Block
import Cinux.System.Machine
import Cinux.System.Occurrences

/-!
# The link count of a file

A regular file of the root device, its inode, and the calls of `sys_link` and `sys_unlink` on its
names, interleaved at the sections that hold the lock of the inode or of a directory.  `sys_link`
counts the new link before it makes the entry and takes it back if there is none to be made;
`sys_unlink` erases the entry first and then takes the link off.  In between the count is ahead of
the entries, by one for each such call.

`ip->nlink` is a `short`, `i_links_count` a `ushort`, and nothing bounds the increment.

* `FileLinks.counts_exact` : every run in which `nlink++` never finds the largest `short`;
* `FileLinks.counts_overflow` : what happens in the others.

The holders `H` refer to the file: the paths that system calls in progress have looked up, and the
open files.  There may be any finite number of them.

A directory is the set of the entries in it that lead to the file: the one it was created with and
those that `dirlink` has made, less those that `sys_unlink` has erased.  How they are stored is the
subject of `Ext2.Dirlink` and `Ext2.Unlink`.  The calls as a whole are in `Fs.Kernel`.
-/

namespace Cinux

open Function Finset

/-- A directory entry: the inode number of the directory and the name. -/
structure NameEntry where
  dir : ℕ
  name : Bytes
  deriving DecidableEq

/-- How far a holder has come. -/
inductive LinkStage where
  /-- No reference. -/
  | idle
  /-- `dirlookup` has found the file; this is also the stage of an open file. -/
  | found
  /-- `sys_link` has counted the link. -/
  | counted
  /-- `sys_link` has jumped to `bad`. -/
  | bad
  /-- `sys_unlink` has found the entry `e`, and holds the lock of the directory. -/
  | removing (e : NameEntry)
  /-- `sys_unlink` has erased the entry, and holds the lock of the file. -/
  | erased
  /-- `iput` is next. -/
  | leaving
  /-- `ext2fs_iput` has only `ip->ref--` left to do. -/
  | putting
  deriving DecidableEq

/-- A link that is counted and has no entry: `sys_link` may still make it, `sys_unlink` has erased
it. -/
inductive Due where
  | link
  | unlink
  deriving DecidableEq

namespace LinkStage

/-- The link that a holder in this stage accounts for. -/
def due : LinkStage → Option Due
  | counted => some .link
  | bad => some .link
  | erased => some .unlink
  | _ => none

end LinkStage

/-- The file. -/
structure FileLinks (H : Type) where
  /-- The names of the file. -/
  entries : Finset NameEntry
  /-- `i_links_count`. -/
  linksCount : ℕ
  /-- `ref`, `valid` and `nlink` of the inode in memory. -/
  ref : ℕ
  valid : Bool
  nlink : ℤ
  /-- `ext2fs_iput` has released the inode and the blocks. -/
  released : Bool
  /-- A call has panicked with "unlink: nlink < 1". -/
  panicked : Bool
  /-- How far each holder has come. -/
  stage : H → LinkStage

/-- The sections. -/
inductive LinkAct (H : Type) where
  /-- `namei` finds the file under `e`, for `sys_link` or any other use. -/
  | lookup (p : H) (e : NameEntry)
  /-- `ip->nlink++` in `sys_link`. -/
  | count (p : H)
  /-- `dirlink` makes the entry `e`. -/
  | dirlink (p : H) (e : NameEntry)
  /-- `nameiparent` or `dirlink` fails, -/
  | fail (p : H)
  /-- and `sys_link` takes the link back. -/
  | undo (p : H)
  /-- `dirlookup` in `sys_unlink` finds the file under `e`. -/
  | unlink (p : H) (e : NameEntry)
  /-- It finds too few links, -/
  | panic (p : H)
  /-- or erases the entry, -/
  | erase (p : H)
  /-- and takes the link off. -/
  | drop (p : H)
  /-- A use of the file ends. -/
  | leave (p : H)
  /-- `ext2fs_iput` under the lock of the inode, -/
  | iput (p : H)
  /-- and its last section. -/
  | put (p : H)
  deriving DecidableEq

namespace LinkAct

variable {H : Type}

/-- `sys_link` succeeds. -/
def links : LinkAct H → Bool
  | dirlink _ _ => true
  | _ => false

/-- `sys_unlink` succeeds. -/
def unlinks : LinkAct H → Bool
  | drop _ => true
  | _ => false

end LinkAct

namespace FileLinks

variable {H : Type}

/-- `iget`: an inode that nobody uses is not in the cache. -/
def iget (s : FileLinks H) : FileLinks H :=
  if 0 < s.ref then { s with ref := s.ref + 1 } else { s with ref := 1, valid := false }

/-- `ext2fs_ilock`. -/
def ilock (s : FileLinks H) : FileLinks H :=
  if s.valid then s else { s with nlink := toInt16 s.linksCount, valid := true }

/-- `ext2fs_iupdate`. -/
def iupdate (s : FileLinks H) : FileLinks H := { s with linksCount := (s.nlink % 2 ^ 16).toNat }

/-- `ip->nlink++` or `ip->nlink--`, between `ilock` and `iunlock`. -/
def adjust (s : FileLinks H) (d : ℤ) : FileLinks H :=
  let s := s.ilock
  { s with nlink := toInt16 (s.nlink + d) }.iupdate

/-- `ext2fs_iput` under the lock of the inode. -/
def reclaim (s : FileLinks H) : FileLinks H :=
  if s.valid ∧ s.nlink = 0 ∧ s.ref = 1 then { s.iupdate with released := true, valid := false }
  else s

theorem iget_same (s : FileLinks H) : s.iget.entries = s.entries ∧ s.iget.stage = s.stage ∧
    s.iget.linksCount = s.linksCount ∧ s.iget.panicked = s.panicked := by
  unfold iget
  split_ifs <;> exact ⟨rfl, rfl, rfl, rfl⟩

theorem ilock_same (s : FileLinks H) : s.ilock.entries = s.entries ∧ s.ilock.stage = s.stage ∧
    s.ilock.linksCount = s.linksCount ∧ s.ilock.panicked = s.panicked := by
  unfold ilock
  split_ifs <;> exact ⟨rfl, rfl, rfl, rfl⟩

theorem reclaim_same (s : FileLinks H) : s.reclaim.entries = s.entries ∧ s.reclaim.stage = s.stage ∧
    s.reclaim.panicked = s.panicked := by
  unfold reclaim
  split_ifs <;> exact ⟨rfl, rfl, rfl⟩

theorem adjust_same (s : FileLinks H) (d : ℤ) : (s.adjust d).entries = s.entries ∧
    (s.adjust d).stage = s.stage ∧ (s.adjust d).panicked = s.panicked :=
  ⟨(ilock_same s).1, (ilock_same s).2.1, (ilock_same s).2.2.2⟩

/-- No call holds the lock of the file from one section to the next. -/
def Unlocked (s : FileLinks H) : Prop := ∀ q, s.stage q ≠ .erased

/-- No call holds the lock of directory `d` from one section to the next. -/
def DirUnlocked (s : FileLinks H) (d : ℕ) : Prop := ∀ q e, s.stage q = .removing e → e.dir ≠ d

/-- The file that was created under `e`, with one link. -/
def created (e : NameEntry) : FileLinks H where
  entries := {e}
  linksCount := 1
  ref := 0
  valid := false
  nlink := 0
  released := false
  panicked := false
  stage := fun _ => .idle

/-- The number of calls of `sys_link` that have succeeded. -/
def linked (tr : List (LinkAct H)) : ℕ := tr.countP LinkAct.links

/-- The number of calls of `sys_unlink` that have succeeded. -/
def unlinked (tr : List (LinkAct H)) : ℕ := tr.countP LinkAct.unlinks

theorem linked_concat (tr : List (LinkAct H)) (a : LinkAct H) :
    linked (tr ++ [a]) = linked tr + a.links.toNat := by
  cases h : a.links <;> simp [linked, h]

theorem unlinked_concat (tr : List (LinkAct H)) (a : LinkAct H) :
    unlinked (tr ++ [a]) = unlinked tr + a.unlinks.toNat := by
  cases h : a.unlinks <;> simp [unlinked, h]

/-- `nlink++` does not find the largest `short`. -/
def LinksLeft (s : FileLinks H) (a : LinkAct H) (_ : FileLinks H) : Prop :=
  ∀ p, a = .count p → s.ilock.nlink < 2 ^ 15 - 1

section Count

variable [Fintype H] {s : FileLinks H}

/-- The calls of `sys_link` that have counted a link and neither made its entry nor taken it
back. -/
def pending (s : FileLinks H) : ℕ := occ (fun p => (s.stage p).due) .link

/-- The calls of `sys_unlink` that have erased an entry and not taken its link off. -/
def erasing (s : FileLinks H) : ℕ := occ (fun p => (s.stage p).due) .unlink

/-- The links there should be. -/
def total (s : FileLinks H) : ℕ := s.entries.card + s.pending + s.erasing

/-- The count agrees with the entries and the calls in progress. -/
structure Counted (s : FileLinks H) : Prop where
  small : s.total < 2 ^ 15
  disk : s.linksCount = s.total
  memory : s.valid = true → s.nlink = s.total

/-- The locks, and the counters of the run. -/
structure Inv (s : FileLinks H) (tr : List (LinkAct H)) : Prop where
  counted : s.Counted
  named : (s.entries.card + s.erasing : ℤ) = 1 + linked tr - unlinked tr
  locked : ∀ p q, s.stage p = .erased → s.stage q = .erased → p = q
  entry : ∀ p e, s.stage p = .removing e → e ∈ s.entries
  dirs : ∀ p q e e', s.stage p = .removing e → s.stage q = .removing e' → e.dir = e'.dir → p = q
  panicked : s.panicked = false

theorem Counted.ilock_nlink (h : s.Counted) : s.ilock.nlink = s.total := by
  unfold ilock
  split_ifs with hv
  · exact h.memory hv
  · rw [h.disk, toInt16_of_fits h.small]

theorem Counted.adjust (h : s.Counted) {d : ℤ} {n : ℕ} (hn : s.total + d = n) (hs : n < 2 ^ 15) :
    (s.adjust d).nlink = n ∧ (s.adjust d).linksCount = n := by
  have hnlink : (s.adjust d).nlink = n := by
    change toInt16 (s.ilock.nlink + d) = n
    rw [h.ilock_nlink, hn]
    exact toInt16_of_fits hs
  refine ⟨hnlink, ?_⟩
  change ((s.adjust d).nlink % 2 ^ 16).toNat = n
  omega

theorem iget_memory (h : s.Counted) (hv : s.iget.valid = true) : s.iget.nlink = s.total := by
  unfold iget at hv ⊢
  split_ifs at hv ⊢
  exact h.memory hv

theorem reclaim_counted (h : s.Counted) : s.reclaim.linksCount = s.linksCount ∧
    (s.reclaim.valid = true → s.reclaim.nlink = s.total) := by
  unfold reclaim
  split_ifs with hr
  · refine ⟨?_, fun hv => absurd hv (by simp)⟩
    have hzero := h.memory hr.1
    change (s.nlink % 2 ^ 16).toNat = s.linksCount
    rw [hr.2.1, h.disk]
    omega
  · exact ⟨rfl, h.memory⟩

theorem occ_none {d : Due} : occ (fun _ : H => LinkStage.due .idle) d = 0 := by
  simp [occ, LinkStage.due]

theorem inv_created (e : NameEntry) : (created e : FileLinks H).Inv [] := by
  have htotal : (created e : FileLinks H).total = 1 := by
    simp [total, pending, erasing, created, occ_none]
  refine ⟨⟨by rw [htotal]; decide, htotal.symm, by simp [created]⟩, ?_, ?_, ?_, ?_, rfl⟩
  · simp [erasing, created, occ_none, linked, unlinked]
  all_goals simp [created]

end Count

variable [DecidableEq H]

/-- Holder `p` goes to stage `st`. -/
def goto (s : FileLinks H) (p : H) (st : LinkStage) : FileLinks H :=
  { s with stage := update s.stage p st }

/-- The entries are now `es`. -/
def setEntries (s : FileLinks H) (es : Finset NameEntry) : FileLinks H := { s with entries := es }

/-- The steps. -/
inductive Step : FileLinks H → LinkAct H → FileLinks H → Prop
  | lookup {s p e} : s.stage p = .idle → e ∈ s.entries → s.DirUnlocked e.dir →
      Step s (.lookup p e) (s.iget.goto p .found)
  | count {s p} : s.stage p = .found → s.Unlocked →
      Step s (.count p) ((s.adjust 1).goto p .counted)
  | dirlink {s p e} : s.stage p = .counted → e ∉ s.entries → s.DirUnlocked e.dir →
      Step s (.dirlink p e) ((s.setEntries (insert e s.entries)).goto p .leaving)
  | fail {s p} : s.stage p = .counted → Step s (.fail p) (s.goto p .bad)
  | undo {s p} : s.stage p = .bad → s.Unlocked →
      Step s (.undo p) ((s.adjust (-1)).goto p .leaving)
  | unlink {s p e} : s.stage p = .idle → e ∈ s.entries → s.DirUnlocked e.dir →
      Step s (.unlink p e) (s.iget.goto p (.removing e))
  | panic {s p e} : s.stage p = .removing e → s.Unlocked → s.ilock.nlink < 1 →
      Step s (.panic p) { s.ilock with panicked := true }
  | erase {s p e} : s.stage p = .removing e → s.Unlocked → ¬s.ilock.nlink < 1 →
      Step s (.erase p) ((s.ilock.setEntries (s.entries.erase e)).goto p .erased)
  | drop {s p} : s.stage p = .erased → Step s (.drop p) ((s.adjust (-1)).goto p .leaving)
  | leave {s p} : s.stage p = .found → Step s (.leave p) (s.goto p .leaving)
  | iput {s p} : s.stage p = .leaving → s.Unlocked → Step s (.iput p) (s.reclaim.goto p .putting)
  | put {s p} : s.stage p = .putting → Step s (.put p) ({ s with ref := s.ref - 1 }.goto p .idle)

/-- The calls on a file, until one panics. -/
def calls (H : Type) [DecidableEq H] : Machine (FileLinks H) (LinkAct H) where
  init s := ∃ e, s = created e
  step s a s' := s.panicked = false ∧ Step s a s'

/-! ### What the sections do -/

@[simp] theorem goto_stage (s : FileLinks H) (p q : H) (st : LinkStage) :
    (s.goto p st).stage q = if q = p then st else s.stage q := by
  simp [goto, update_apply]

variable {s s' : FileLinks H} {p : H} {st : LinkStage} {a : LinkAct H} {tr : List (LinkAct H)}
variable {e : NameEntry}

theorem released_only (hst : Step s a s') (hr : s.released = false) (hr' : s'.released = true) :
    s.valid = true ∧ s.nlink = 0 := by
  have hsame : s'.released = s.released ∨ ∃ p, s' = s.reclaim.goto p .putting := by
    cases hst with
    | iput _ _ => exact .inr ⟨_, rfl⟩
    | _ =>
      refine .inl ?_
      simp only [goto, setEntries, iget, adjust, ilock, iupdate]
      try split_ifs <;> rfl
  rcases hsame with he | ⟨p, rfl⟩
  · rw [he, hr] at hr'
    exact absurd hr' (by decide)
  · by_contra hne
    have hkeep : s.reclaim = s := if_neg fun h => hne ⟨h.1, h.2.1⟩
    change s.reclaim.released = true at hr'
    rw [hkeep, hr] at hr'
    exact absurd hr' (by decide)

section Invariant

variable [Fintype H]

theorem due_goto (s : FileLinks H) (p : H) (st : LinkStage) (d : Due) :
    occ (fun q => ((s.goto p st).stage q).due) d + refers (s.stage p).due d =
      occ (fun q => (s.stage q).due) d + refers st.due d := by
  have hcomp : (fun q => ((s.goto p st).stage q).due) =
      update (fun q => (s.stage q).due) p st.due := by
    funext q
    by_cases hq : q = p <;> simp [hq]
  rw [hcomp]
  exact occ_update _ p _ d

variable {t : FileLinks H}

theorem pending_goto (p : H) (st : LinkStage) (hstage : t.stage = s.stage) :
    (t.goto p st).pending + refers (s.stage p).due .link = s.pending + refers st.due .link := by
  have h := due_goto t p st .link
  rwa [hstage] at h

theorem erasing_goto (p : H) (st : LinkStage) (hstage : t.stage = s.stage) :
    (t.goto p st).erasing + refers (s.stage p).due .unlink = s.erasing + refers st.due .unlink := by
  have h := due_goto t p st .unlink
  rwa [hstage] at h

/-! ### The count in every run -/

/-- Holder `p` moves, after a change `t` of the file that leaves the entries of other calls. -/
theorem Inv.goto (h : s.Inv tr) (hstage : t.stage = s.stage)
    (hpanicked : t.panicked = s.panicked) (hcounted : (t.goto p st).Counted)
    (hnamed : ((t.goto p st).entries.card + (t.goto p st).erasing : ℤ) =
      s.entries.card + s.erasing + a.links.toNat - a.unlinks.toNat)
    (hlocked : st = .erased → s.Unlocked)
    (hentry : ∀ e, st = .removing e → e ∈ t.entries ∧ s.DirUnlocked e.dir)
    (hkeep : ∀ q e, q ≠ p → s.stage q = .removing e → e ∈ t.entries) :
    (t.goto p st).Inv (tr ++ [a]) where
  counted := hcounted
  named := by
    rw [hnamed, linked_concat, unlinked_concat, h.named]
    omega
  locked q q' hq hq' := by
    rw [goto_stage, hstage] at hq hq'
    split_ifs at hq hq' with h1 h2 h2
    · rw [h1, h2]
    · exact absurd hq' (hlocked hq q')
    · exact absurd hq (hlocked hq' q)
    · exact h.locked q q' hq hq'
  entry q e hq := by
    rw [goto_stage, hstage] at hq
    split_ifs at hq with hqp
    · exact (hentry e hq).1
    · exact hkeep q e hqp hq
  dirs q q' e e' hq hq' he := by
    rw [goto_stage, hstage] at hq hq'
    split_ifs at hq hq' with h1 h2 h2
    · rw [h1, h2]
    · exact absurd he.symm ((hentry e hq).2 q' e' hq')
    · exact absurd he ((hentry e' hq').2 q e hq)
    · exact h.dirs q q' e e' hq hq' he
  panicked := hpanicked.trans h.panicked

theorem Counted.goto (h : s.Counted) (hdisk : t.linksCount = s.linksCount)
    (hmem : t.valid = true → t.nlink = s.total) (htotal : (t.goto p st).total = s.total) :
    (t.goto p st).Counted where
  small := htotal ▸ h.small
  disk := by
    rw [htotal, ← h.disk]
    exact hdisk
  memory hv := by
    rw [htotal]
    exact hmem hv

theorem Counted.adjust_goto (h : s.Counted) {d : ℤ}
    (htotal : s.total + d = ((s.adjust d).goto p st).total)
    (hs : ((s.adjust d).goto p st).total < 2 ^ 15) : ((s.adjust d).goto p st).Counted where
  small := hs
  disk := (h.adjust htotal hs).2
  memory _ := (h.adjust htotal hs).1

theorem Inv.move (h : s.Inv tr) (hstage : t.stage = s.stage)
    (hentries : t.entries = s.entries) (hpanicked : t.panicked = s.panicked)
    (hdisk : t.linksCount = s.linksCount) (hmem : t.valid = true → t.nlink = s.total)
    (hdue : st.due = (s.stage p).due) (ha : a.links = false) (ha' : a.unlinks = false)
    (hlocked : st = .erased → s.Unlocked)
    (hentry : ∀ e, st = .removing e → e ∈ s.entries ∧ s.DirUnlocked e.dir) :
    (t.goto p st).Inv (tr ++ [a]) := by
  have hpend := pending_goto p st hstage
  have heras := erasing_goto p st hstage
  rw [hdue, Nat.add_right_cancel_iff] at hpend heras
  have hcard : (t.goto p st).entries = s.entries := hentries
  refine h.goto hstage hpanicked (h.counted.goto hdisk hmem ?_) ?_ hlocked ?_ ?_
  · rw [total, total, hcard, hpend, heras]
  · rw [hcard, heras, ha, ha']
    simp
  · rwa [hentries]
  · intro q e _ hq
    rw [hentries]
    exact h.entry q e hq

theorem Inv.adjust {d : ℤ} (h : s.Inv tr) (hroom : s.total + d < 2 ^ 15)
    (hdue : (refers st.due .link + refers st.due .unlink : ℤ) =
      refers (s.stage p).due .link + refers (s.stage p).due .unlink + d)
    (hunlink : (refers st.due .unlink : ℤ) = refers (s.stage p).due .unlink - a.unlinks.toNat)
    (ha : a.links = false) (hst : st ≠ .erased) (hst' : ∀ e, st ≠ .removing e) :
    ((s.adjust d).goto p st).Inv (tr ++ [a]) := by
  obtain ⟨hentries, hstage, hpanicked⟩ := adjust_same s d
  have hpend := pending_goto p st hstage
  have heras := erasing_goto p st hstage
  have hcard : ((s.adjust d).goto p st).entries = s.entries := hentries
  have htotal : s.total + d = ((s.adjust d).goto p st).total := by
    unfold total
    rw [hcard]
    omega
  refine h.goto hstage hpanicked (h.counted.adjust_goto htotal (by omega)) ?_
    (fun he => absurd he hst) (fun e he => absurd he (hst' e)) ?_
  · rw [hcard, ha, Bool.toNat_false]
    omega
  · intro q e _ hq
    rw [hentries]
    exact h.entry q e hq

theorem Inv.dirlink (h : s.Inv tr) (hp : s.stage p = .counted) (he : e ∉ s.entries) :
    ((s.setEntries (insert e s.entries)).goto p .leaving).Inv (tr ++ [LinkAct.dirlink p e]) := by
  have hpend := pending_goto (s := s) (t := s.setEntries (insert e s.entries)) p .leaving rfl
  have heras := erasing_goto (s := s) (t := s.setEntries (insert e s.entries)) p .leaving rfl
  have hcard : ((s.setEntries (insert e s.entries)).goto p .leaving).entries.card =
      s.entries.card + 1 := card_insert_of_notMem he
  simp [hp, refers, LinkStage.due] at hpend heras
  refine h.goto rfl rfl (h.counted.goto rfl h.counted.memory ?_) ?_ (by simp) (by simp) ?_
  · unfold total
    omega
  · simp only [LinkAct.links, LinkAct.unlinks, Bool.toNat_false, Bool.toNat_true]
    omega
  · intro q e' _ hq
    exact mem_insert_of_mem (h.entry q e' hq)

theorem Inv.erase (h : s.Inv tr) (hp : s.stage p = .removing e) (hlock : s.Unlocked) :
    ((s.ilock.setEntries (s.entries.erase e)).goto p .erased).Inv (tr ++ [LinkAct.erase p]) := by
  obtain ⟨-, hstage, hdisk, hpanicked⟩ := ilock_same s
  have hpend := pending_goto (s := s) (t := s.ilock.setEntries (s.entries.erase e)) p .erased hstage
  have heras := erasing_goto (s := s) (t := s.ilock.setEntries (s.entries.erase e)) p .erased hstage
  have hcard : ((s.ilock.setEntries (s.entries.erase e)).goto p .erased).entries.card + 1 =
      s.entries.card := card_erase_add_one (h.entry p e hp)
  simp [hp, refers, LinkStage.due] at hpend heras
  refine h.goto hstage hpanicked (h.counted.goto hdisk (fun _ => h.counted.ilock_nlink) ?_) ?_
    (fun _ => hlock) (by simp) ?_
  · unfold total
    omega
  · simp only [LinkAct.links, LinkAct.unlinks, Bool.toNat_false]
    omega
  · -- Another call erases another entry, in another directory.
    intro q e' hqp hq
    refine mem_erase_of_ne_of_mem (fun he => hqp ?_) (h.entry q e' hq)
    exact h.dirs q p e' e hq hp (by rw [he])

theorem Inv.step (h : s.Inv tr) (hleft : LinksLeft s a s') (hst : Step s a s') :
    s'.Inv (tr ++ [a]) := by
  have hc := h.counted
  have hsmall := hc.small
  cases hst with
  | @lookup p e hp he hd =>
    obtain ⟨hentries, hstage, hdisk, hpanicked⟩ := iget_same s
    exact h.move hstage hentries hpanicked hdisk (iget_memory hc) (by rw [hp]; rfl) rfl rfl
      (by simp) (by simp)
  | @count p hp hlock =>
    have hroom := hleft p rfl
    rw [hc.ilock_nlink] at hroom
    refine h.adjust (by omega) ?_ ?_ rfl (by simp) (by simp) <;>
      simp [hp, refers, LinkStage.due, LinkAct.unlinks]
  | dirlink hp he _ => exact h.dirlink hp he
  | @fail p hp =>
    exact h.move rfl rfl rfl rfl hc.memory (by rw [hp]; rfl) rfl rfl (by simp) (by simp)
  | @undo p hp hlock =>
    refine h.adjust (by omega) ?_ ?_ rfl (by simp) (by simp) <;>
      simp [hp, refers, LinkStage.due, LinkAct.unlinks]
  | @unlink p e hp he hd =>
    obtain ⟨hentries, hstage, hdisk, hpanicked⟩ := iget_same s
    refine h.move hstage hentries hpanicked hdisk (iget_memory hc) (by rw [hp]; rfl) rfl rfl
      (by simp) ?_
    rintro _ ⟨⟩
    exact ⟨he, hd⟩
  | @panic p e hp hlock hn =>
    -- The entry is still there, so its link is counted.
    have hpos : 0 < s.entries.card := card_pos.2 ⟨e, h.entry p e hp⟩
    rw [hc.ilock_nlink, total] at hn
    omega
  | erase hp hlock _ => exact h.erase hp hlock
  | @drop p hp =>
    refine h.adjust (by omega) ?_ ?_ rfl (by simp) (by simp) <;>
      simp [hp, refers, LinkStage.due, LinkAct.unlinks]
  | @leave p hp =>
    exact h.move rfl rfl rfl rfl hc.memory (by rw [hp]; rfl) rfl rfl (by simp) (by simp)
  | @iput p hp hlock =>
    obtain ⟨hentries, hstage, hpanicked⟩ := reclaim_same s
    obtain ⟨hdisk, hmem⟩ := reclaim_counted hc
    exact h.move hstage hentries hpanicked hdisk hmem (by rw [hp]; rfl) rfl rfl (by simp) (by simp)
  | @put p hp =>
    exact h.move rfl rfl rfl rfl hc.memory (by rw [hp]; rfl) rfl rfl (by simp) (by simp)

theorem inv_of_trace (h : ((calls H).restrict LinksLeft).Trace tr s) : s.Inv tr := by
  refine h.invariant (I := fun tr s => s.Inv tr) ?_ ?_
  · rintro _ ⟨e, rfl⟩
    exact inv_created e
  · rintro tr s a s' - hs ⟨hleft, -, hst⟩
    exact hs.step hleft hst

end Invariant

/-! ### Runs of links -/

/-- The names that are linked in the runs below. -/
def entryNo (i : ℕ) : NameEntry := ⟨i, [97]⟩

/-- The file under `n` names, with no call in progress. -/
def rest (n : ℕ) (valid : Bool) (nlink : ℤ) : FileLinks H where
  entries := (Finset.range n).image entryNo
  linksCount := n % 2 ^ 16
  ref := 0
  valid := valid
  nlink := nlink
  released := false
  panicked := false
  stage := fun _ => .idle

/-- The same with `count` links counted and one call in progress. -/
def held (n count : ℕ) (valid : Bool) (nlink : ℤ) (p : H) (st : LinkStage) : FileLinks H where
  entries := (Finset.range n).image entryNo
  linksCount := count % 2 ^ 16
  ref := 1
  valid := valid
  nlink := nlink
  released := false
  panicked := false
  stage := update (fun _ => .idle) p st

theorem entries_card (n : ℕ) : ((Finset.range n).image entryNo).card = n := by
  rw [card_image_of_injective _ fun i j h => congrArg NameEntry.dir h, card_range]

theorem mem_rest {n : ℕ} (hn : 0 < n) : entryNo 0 ∈ (Finset.range n).image entryNo :=
  mem_image_of_mem _ (mem_range.2 hn)

theorem toInt16_ushort (n : ℕ) : toInt16 ((n % 2 ^ 16 : ℕ) : ℤ) = toInt16 n := by
  rw [Int.natCast_mod]
  exact Int.emod_bmod _ _

theorem ushort_toInt16 (n : ℕ) : (toInt16 n % 2 ^ 16).toNat = n % 2 ^ 16 := by
  have h : toInt16 n % ((2 ^ 16 : ℕ) : ℤ) = n % ((2 ^ 16 : ℕ) : ℤ) := Int.bmod_emod
  have hcast : ((2 ^ 16 : ℕ) : ℤ) = 2 ^ 16 := rfl
  rw [hcast] at h
  omega

variable {n c : ℕ} {valid : Bool} {nlink : ℤ}

theorem held_unlocked (hst : st ≠ .erased) : (held n c valid nlink p st).Unlocked := by
  intro q
  by_cases hq : q = p <;> simp [held, hq, hst]

theorem held_goto (st st' : LinkStage) :
    (held n c valid nlink p st).goto p st' = held n c valid nlink p st' := by
  simp only [goto, held, update_idem]

theorem rest_lookup (hn : 0 < n) : Step (rest n valid nlink) (.lookup p (entryNo 0))
    (held n n false nlink p .found) :=
  .lookup rfl (mem_rest hn) (by simp [DirUnlocked, rest])

theorem found_count : Step (held n n false nlink p .found) (.count p)
    (held n (n + 1) true (toInt16 (n + 1 : ℕ)) p .counted) := by
  have hst := Step.count (s := held n n false nlink p .found) (p := p) (by simp [held])
    (held_unlocked (by simp))
  have hnlink : toInt16 (toInt16 ((n % 2 ^ 16 : ℕ) : ℤ) + 1) = toInt16 (n + 1 : ℕ) := by
    rw [toInt16_ushort]
    unfold toInt16
    rw [Int.bmod_add_bmod]
    rfl
  have he : ((held n n false nlink p .found).adjust 1).goto p .counted =
      held n (n + 1) true (toInt16 (n + 1 : ℕ)) p .counted := by
    simp only [adjust, ilock, iupdate, goto, held, Bool.false_eq_true, if_false, hnlink,
      ushort_toInt16, update_idem]
  rwa [he] at hst

theorem counted_dirlink : Step (held n c true nlink p .counted) (.dirlink p (entryNo n))
    (held (n + 1) c true nlink p .leaving) := by
  have hnot : entryNo n ∉ (Finset.range n).image entryNo := by
    intro h
    obtain ⟨i, hi, he⟩ := mem_image.1 h
    have : i = n := congrArg NameEntry.dir he
    exact absurd (mem_range.1 hi) (by omega)
  have hst := Step.dirlink (s := held n c true nlink p .counted) (e := entryNo n) (p := p)
    (by simp [held]) hnot (by intro q e hq; by_cases hqp : q = p <;> simp [held, hqp] at hq)
  have he : ((held n c true nlink p .counted).setEntries
      (insert (entryNo n) (held n c true nlink p .counted).entries)).goto p .leaving =
      held (n + 1) c true nlink p .leaving := by
    simp only [setEntries, goto, held, update_idem, range_add_one, image_insert]
  rwa [he] at hst

theorem leaving_iput (h : nlink ≠ 0) : Step (held n c true nlink p .leaving) (.iput p)
    (held n c true nlink p .putting) := by
  have hst := Step.iput (s := held n c true nlink p .leaving) (p := p) (by simp [held])
    (held_unlocked (by simp))
  have hkeep : (held n c true nlink p .leaving).reclaim = held n c true nlink p .leaving :=
    if_neg fun hr => h hr.2.1
  rwa [hkeep, held_goto] at hst

theorem putting_put : Step (held n n true nlink p .putting) (.put p) (rest n true nlink) := by
  have hst := Step.put (s := held n n true nlink p .putting) (p := p) (by simp [held])
  have he : ({ held n n true nlink p .putting with
      ref := (held n n true nlink p .putting).ref - 1 }).goto p .idle = rest n true nlink := by
    simp only [goto, held, rest, update_idem, Nat.sub_self, update_eq_self]
  rwa [he] at hst

theorem trace_link (p : H) (hn : 0 < n) (h : (calls H).Trace tr (rest n valid nlink)) :
    ∃ tr', (calls H).Trace tr' (held (n + 1) (n + 1) true (toInt16 (n + 1 : ℕ)) p .leaving) ∧
      linked tr' = linked tr + 1 ∧ unlinked tr' = unlinked tr := by
  refine ⟨_, ((h.next ⟨rfl, rest_lookup hn⟩).next ⟨rfl, found_count⟩).next
    ⟨rfl, counted_dirlink⟩, ?_, ?_⟩
  · simp only [linked_concat, LinkAct.links, Bool.toNat_false, Bool.toNat_true, Nat.add_zero]
  · simp only [unlinked_concat, LinkAct.unlinks, Bool.toNat_false, Nat.add_zero]

theorem toInt16_ne_zero {n : ℕ} (h : 0 < n) (h' : n < 2 ^ 16) : toInt16 n ≠ 0 := by
  intro hz
  have := ushort_toInt16 n
  omega

theorem trace_rest (p : H) (h : n + 1 < 2 ^ 16) : ∃ tr valid nlink,
    (calls H).Trace tr (rest (n + 1) valid nlink) ∧ linked tr = n ∧ unlinked tr = 0 := by
  induction n with
  | zero =>
    refine ⟨[], false, 0, ?_, rfl, rfl⟩
    exact .start ⟨_, rfl⟩
  | succ n ih =>
    obtain ⟨tr, valid, nlink, htr, hl, hu⟩ := ih (by omega)
    obtain ⟨tr', htr', hl', hu'⟩ := trace_link p (Nat.succ_pos n) htr
    have hne := toInt16_ne_zero (Nat.succ_pos (n + 1)) h
    refine ⟨_, _, _, (htr'.next ⟨rfl, leaving_iput hne⟩).next ⟨rfl, putting_put⟩, ?_, ?_⟩
    · simp only [linked_concat, LinkAct.links, Bool.toNat_false]
      omega
    · simp only [unlinked_concat, LinkAct.unlinks, Bool.toNat_false]
      omega

theorem rest_panics (p : H) (hn : 0 < n) (hneg : toInt16 n < 1)
    (h : (calls H).Trace tr (rest n valid nlink)) :
    ∃ tr' s', (calls H).Trace tr' s' ∧ s'.panicked = true ∧ s'.entries.card = n := by
  have hun : Step (rest n valid nlink) (.unlink p (entryNo 0))
      (held n n false nlink p (.removing (entryNo 0))) :=
    .unlink rfl (mem_rest hn) (by simp [DirUnlocked, rest])
  have hlt : (held n n false nlink p (.removing (entryNo 0))).ilock.nlink < 1 := by
    simp only [ilock, held, Bool.false_eq_true, if_false, toInt16_ushort]
    exact hneg
  have hpanic := Step.panic (s := held n n false nlink p (.removing (entryNo 0))) (p := p)
    (e := entryNo 0) (by simp [held]) (held_unlocked (by simp)) hlt
  exact ⟨_, _, (h.next ⟨rfl, hun⟩).next ⟨rfl, hpanic⟩, rfl, entries_card n⟩

theorem leaving_releases : ∃ s', Step (held n c true 0 p .leaving) (.iput p) s' ∧
    s'.released = true := by
  have hst := Step.iput (s := held n c true 0 p .leaving) (p := p) (by simp [held])
    (held_unlocked (by simp))
  refine ⟨_, hst, ?_⟩
  have hrel : (held n c true 0 p .leaving).reclaim.released = true := by
    rw [reclaim, if_pos ⟨rfl, rfl, rfl⟩]
  exact hrel

/-! ### The result -/

/-- **Link counts do not drift** in any run in which `nlink++` never finds the largest `short`.
When `k` calls of `sys_link` and `m` calls of `sys_unlink` have succeeded, `ip->nlink` is
`1 + k - m` plus the number of calls of `sys_link` that have counted a link and not made its entry
yet; no call panics with "unlink: nlink < 1"; and `ext2fs_iput` releases the file only when
`1 + k - m` is 0 and there is no such call. -/
theorem counts_exact [Fintype H] (h : ((calls H).restrict LinksLeft).Trace tr s) :
    (s.valid = true → s.nlink = 1 + linked tr - unlinked tr + s.pending) ∧
    ((∀ p, s.stage p = .idle) → s.pending = 0) ∧
    s.panicked = false ∧ (∀ p s', ¬Step s (.panic p) s') ∧
    (∀ a s', Step s a s' → s.released = false → s'.released = true →
      1 + (linked tr : ℤ) - unlinked tr = 0 ∧ s.pending = 0) := by
  have hi := inv_of_trace h
  have hc := hi.counted
  have hnamed := hi.named
  refine ⟨fun hv => ?_, fun hidle => ?_, hi.panicked, fun p s' hst => ?_, fun a s' hst hr hr' => ?_⟩
  · rw [hc.memory hv, total]
    omega
  · simp only [pending, hidle]
    exact occ_none
  · have hp := (hi.step (by rintro _ ⟨⟩) hst).panicked
    cases hst
    simp at hp
  · obtain ⟨hv, hn⟩ := released_only hst hr hr'
    have hzero := hc.memory hv
    rw [hn, total] at hzero
    omega

/-- One holder has linked a second name and removed the first one, and is about to put the file,
when the other one has counted a further link. -/
theorem counts_exact_pending : ∃ tr s, ((calls Bool).restrict LinksLeft).Trace tr s ∧
    linked tr = 1 ∧ unlinked tr = 1 ∧ s.pending = 1 ∧ s.nlink = 1 + 1 - 1 + 1 := by
  have h0 : ((calls Bool).restrict LinksLeft).Trace [] (rest 1 false 0) := .start ⟨_, rfl⟩
  have h1 := h0.next ⟨by simp [LinksLeft], rfl, rest_lookup (p := true) (by decide)⟩
  have h2 := h1.next ⟨fun _ _ => by decide, rfl, found_count⟩
  have h3 := h2.next ⟨by simp [LinksLeft], rfl, counted_dirlink⟩
  have h4 := h3.next ⟨by simp [LinksLeft], rfl, leaving_iput (by decide)⟩
  have h5 := h4.next ⟨by simp [LinksLeft], rfl, putting_put⟩
  have h6 := h5.next ⟨by simp [LinksLeft], rfl, .unlink (p := true) (e := entryNo 0) rfl
    (mem_rest (by decide)) (by simp [DirUnlocked, rest])⟩
  have h7 := h6.next ⟨by simp [LinksLeft], rfl, .erase (p := true) (e := entryNo 0) rfl
    (by unfold Unlocked; decide) (by decide)⟩
  have h8 := h7.next ⟨by simp [LinksLeft], rfl, .drop (p := true) rfl⟩
  have h9 := h8.next ⟨by simp [LinksLeft], rfl, .lookup (p := false) (e := entryNo 1) rfl
    (by decide) (by rintro (_ | _) _ ⟨⟩)⟩
  have h10 := h9.next ⟨fun _ _ => by decide, rfl, .count (p := false) rfl
    (by unfold Unlocked; decide)⟩
  exact ⟨_, _, h10, rfl, rfl, by decide, (counts_exact h10).1 rfl⟩

/-- With `2 ^ 15` names a call of `sys_unlink` panics; with `2 ^ 16` names the file is released. -/
theorem counts_overflow :
    (∃ tr s, (calls Bool).Trace tr s ∧ s.panicked = true ∧ s.entries.card = 2 ^ 15) ∧
    (∃ tr s s', (calls Bool).Trace tr s ∧ Step s (.iput true) s' ∧ s.released = false ∧
      s'.released = true ∧ s.entries.card = 2 ^ 16 ∧
      1 + (linked tr : ℤ) - unlinked tr = 2 ^ 16) := by
  refine ⟨?_, ?_⟩
  · obtain ⟨tr, valid, nlink, htr, -, -⟩ := trace_rest true (n := 2 ^ 15 - 1) (by decide)
    exact rest_panics true (by decide) (by decide) htr
  · obtain ⟨tr, valid, nlink, htr, hl, hu⟩ := trace_rest true (n := 2 ^ 16 - 2) (by decide)
    obtain ⟨tr', htr', hl', hu'⟩ := trace_link true (Nat.succ_pos _) htr
    have hzero : toInt16 ((2 ^ 16 - 2 + 1 + 1 : ℕ) : ℤ) = 0 := by decide
    obtain ⟨s', hst, hrel⟩ := leaving_releases (n := 2 ^ 16) (c := 2 ^ 16) (p := true)
    refine ⟨tr', _, s', htr', hst, rfl, hrel, entries_card _, ?_⟩
    rw [hl', hu', hl, hu]
    rfl

end FileLinks

end Cinux
