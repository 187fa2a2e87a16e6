import Cinux.Ext2.Lookup

/-!
# Removing a name from a directory

`sys_unlink`, from the point where `nameiparent` has returned the directory.  It erases the entry
with a `struct dirent` of the original file system: 16 zero bytes at the offset of the record.
In an ext2 record these bytes hold `inode` and `rec_len`, so the erased record has length 0, and a
lookup that comes to it reads it again and again (`File.looks_erase`).

`isdirempty` goes by the entries of the original file system as well, and looks at two bytes in each
16: `File.isdirempty_exact` says on which directories its answer is right.

The inodes are given by their numbers, each with the file that its block map presents.
-/

namespace Cinux

open Function

/-- `sizeof(struct dirent)`. -/
def sizeofDirent : ℕ := 16

/-- Length of the `name` buffers of the system calls. -/
def DIRSIZ : ℕ := 14

/-- The fields of an inode that `sys_unlink` uses, with its contents. -/
structure Inode where
  type : InodeType
  nlink : ℤ
  ref : ℕ
  file : File

namespace Inode

/-- `ext2fs_iput`: the last reference to an inode without links frees it. -/
def iput (ip : Inode) : Inode :=
  if ip.nlink = 0 ∧ ip.ref = 1 then ⟨.none, 0, 0, ⟨0, fun _ => Block.zero⟩⟩
  else { ip with ref := ip.ref - 1 }

end Inode

/-- `namecmp` of `fs.c`. -/
def namecmp (s t : Bytes) : ℤ := strncmp DIRSIZ s t

/-- The string that `skipelem` leaves in `name` for the last element `s` of a path: a long element
is cut off without a NUL, and what lies behind the buffer follows. -/
def nameBuffer (s behind : Bytes) : Bytes :=
  if DIRSIZ ≤ s.length then cstr (s.take DIRSIZ ++ behind) else s

theorem nameBuffer_noNul {s : Bytes} (hs : (0 : UInt8) ∉ s) (behind : Bytes) :
    (0 : UInt8) ∉ nameBuffer s behind := by
  unfold nameBuffer
  split_ifs
  · exact fun h => by simpa using List.mem_takeWhile_imp h
  · exact hs

/-- The loop of `isdirempty` from `off` on. -/
def File.isdirempty (f : File) : ℕ → ℕ → Option (Except String Bool)
  | 0, _ => none
  | fuel + 1, off =>
    if off < f.size then
      let (r, b) := f.readi off sizeofDirent
      if r ≠ sizeofDirent then some (.error "isdirempty: readi")
      else if le16 (fun k => b.getD k 0) 0 ≠ 0 then some (.ok false)
      else f.isdirempty fuel ((off + sizeofDirent) % 2 ^ 32)
    else some (.ok true)

/-- The check that the inode is not a directory with entries. -/
def Inode.removable (ip : Inode) (fuel : ℕ) : Option (Except String Bool) :=
  if ip.type = .dir then ip.file.isdirempty fuel (2 * sizeofDirent) else some (.ok true)

/-- The inodes of the root device. -/
abbrev FileTree := ℕ → Inode

/-- How `sys_unlink` ends. -/
inductive Unlinked where
  | ret (r : ℤ) (s : FileTree)
  | panic (msg : String)
  /-- `ilock` waits for the lock of the directory. -/
  | deadlock

namespace FileTree

/-- `iput` of inode `i`. -/
def iput (s : FileTree) (i : ℕ) : FileTree := update s i (s i).iput

/-- The part of `sys_unlink` that removes the entry at `off`, which leads to inode `i`. -/
def remove (s : FileTree) (dp i off : ℕ) : Unlinked :=
  let (r, d) := (s dp).file.writei off sizeofDirent fun _ => 0
  if r ≠ sizeofDirent then .panic "unlink: writei"
  else
    let nlink := if (s i).type = .dir then (s dp).nlink - 1 else (s dp).nlink
    let s := iput (update s dp { s dp with file := d, nlink := nlink }) dp
    let s := iput (update s i { s i with nlink := (s i).nlink - 1 }) i
    .ret 0 s

/-- `sys_unlink` of `name` in directory `dp`, for `fuel` rounds of each loop. -/
def sysUnlink (s : FileTree) (dp : ℕ) (name : Bytes) (fuel : ℕ) : Option Unlinked :=
  if namecmp name [46] = 0 ∨ namecmp name [46, 46] = 0 then some (.ret (-1) (s.iput dp))
  else
    match (s dp).file.ext2fsDirlookup name fuel with
    | none => none
    | some (.panic msg) => some (.panic msg)
    | some .absent => some (.ret (-1) (s.iput dp))
    | some (.found i off) =>
      let s := update s i { s i with ref := (s i).ref + 1 }
      if i = dp then some .deadlock
      else if (s i).nlink < 1 then some (.panic "unlink: nlink < 1")
      else
        match (s i).removable fuel with
        | none => none
        | some (.error msg) => some (.panic msg)
        | some (.ok false) => some (.ret (-1) (iput (iput s i) dp))
        | some (.ok true) => some (remove s dp i off)

/-- `sys_unlink` stops with `r`. -/
def Unlinks (s : FileTree) (dp : ℕ) (name : Bytes) (r : Unlinked) : Prop :=
  ∃ fuel, s.sysUnlink dp name fuel = some r

end FileTree

namespace File

/-- The directory after the entry at `off` has been erased. -/
def erase (f : File) (off : ℕ) : File := f.writeLoop off sizeofDirent fun _ => 0

/-- `name` has been removed and nothing else: lookups of it find nothing, and lookups of every
other name stop and find the same inode, if any. -/
structure Removed (f f' : File) (name : Bytes) : Prop where
  gone : f'.Looks name .absent
  stops : ∀ m, (0 : UInt8) ∉ m → m ≠ name → ∃ r, f'.Looks m r
  same : ∀ m, (0 : UInt8) ∉ m → m ≠ name → ∀ i,
    (∃ o, f'.Looks m (.found i o)) ↔ ∃ o, f.Looks m (.found i o)

variable {f : File} {r : ℕ}

theorem byte_erase (r i : ℕ) : (f.erase r).byte i =
    if r ≤ i ∧ i < r + sizeofDirent then 0 else f.byte i := byte_writeLoop _ _ _ _ _

theorem erase_size (r : ℕ) : (f.erase r).size = f.size := writeLoop_size _ _ _ _

theorem entry_erase_self (f : File) (r : ℕ) :
    ((f.erase r).entry r).inode = 0 ∧ ((f.erase r).entry r).recLen = 0 := by
  have hb : ∀ k < 16, (f.erase r).byte (r + k) = 0 := fun k hk => by
    rw [byte_erase, if_pos]
    simp only [sizeofDirent]
    omega
  have h0 : (f.erase r).byte r = 0 := hb 0 (by decide)
  simp [entry, DirEntry.decode, le32, le16, h0, hb]

theorem entry_erase_before {o : ℕ} (hw : f.WellFormed) (hr : f.Record r) (ho : f.Record o)
    (hlt : o < r) :
    ((f.erase r).entry o).inode = (f.entry o).inode ∧
      ((f.erase r).entry o).recLen = (f.entry o).recLen ∧
      (f.Live o → ((f.erase r).entry o).text = (f.entry o).text) := by
  have hnext := hr.add_recLen_le ho hlt
  have hkeep : ∀ k < (f.entry o).recLen, (f.erase r).byte (o + k) = f.byte (o + k) := by
    intro k hk
    rw [byte_erase, if_neg (by omega)]
  obtain ⟨h1, h2, -, h4⟩ := entry_congr hkeep (hw.header o ho)
  exact ⟨h1, h2, fun hlive => h4 (hw.named o hlive).2.1⟩

variable {name : Bytes}

/-- **A lookup never gets past an erased record**: it finds the name before it, or does not
stop. -/
theorem looks_erase (hw : f.WellFormed) (hr : f.Record r)
    (hroom : r + DirEntry.sizeof ≤ f.size) (hname : (0 : UInt8) ∉ name)
    {res : Lookup} (h : (f.erase r).Looks name res) :
    ∃ i o, res = .found i o ∧ o < r ∧ f.Hit name o := by
  have hs : (f.erase r).size < 2 ^ 32 := by
    rw [erase_size]
    exact hw.size_lt
  have hlt := hr.lt
  have hsize := hw.size_lt
  -- the loop stays on the records of `f` up to the erased one
  have key : ∀ fuel o, f.Record o → o ≤ r → (f.erase r).lookupLoop name fuel o = some res →
      ∃ i o, res = .found i o ∧ o < r ∧ f.Hit name o := by
    intro fuel
    induction fuel with
    | zero => exact fun o _ _ h => nomatch h
    | succ fuel ih =>
      intro o ho hle hres
      rw [lookupLoop_step (by rw [erase_size]; omega) hs] at hres
      rcases Nat.lt_or_eq_of_le hle with hbefore | rfl
      · obtain ⟨hinode, hlen, htext⟩ := entry_erase_before hw hr ho hbefore
        split_ifs at hres with hcmp
        · have hlive : f.Live o := ⟨ho, hinode ▸ hcmp.1⟩
          have hmax := Nat.lt_succ_iff.1 (nameLen_lt (f.erase r) o)
          have hmatch := (ext2fsNamecmp_eq_zero_iff hname (length_name _ o ▸ hmax) hmax
            (htext hlive ▸ (hw.named o hlive).2.2)).1 hcmp.2
          exact ⟨_, o, (Option.some.inj hres).symm, hbefore, hlive, htext hlive ▸ hmatch⟩
        · have hnext := hr.add_recLen_le ho hbefore
          rw [hlen, Nat.mod_eq_of_lt (by omega)] at hres
          exact ih _ (.next ho (by omega)) hnext hres
      · rw [if_neg (fun hc => hc.1 (entry_erase_self f o).1), (entry_erase_self f o).2,
          Nat.add_zero, Nat.mod_eq_of_lt (by omega)] at hres
        exact ih o ho le_rfl hres
  obtain ⟨fuel, h⟩ := h
  exact key fuel 0 (.first (by omega)) (Nat.zero_le r) h

theorem not_looks_erased (hw : f.WellFormed) (hname : (0 : UInt8) ∉ name)
    (hit : f.Hit name r) (hroom : r + DirEntry.sizeof ≤ f.size) (res : Lookup) :
    ¬(f.erase r).Looks name res := by
  intro h
  obtain ⟨i, o, -, hlt, hit'⟩ := looks_erase hw hit.1.1 hroom hname h
  exact absurd (hw.hit_unique hit' hit) hlt.ne

theorem not_removed_erase (hw : f.WellFormed) (hr : f.Record r)
    (hroom : r + DirEntry.sizeof ≤ f.size) (hname : (0 : UInt8) ∉ name) :
    ¬f.Removed (f.erase r) name := by
  intro hrem
  obtain ⟨i, o, h, -⟩ := looks_erase hw hr hroom hname hrem.gone
  cases h

/-! ### Empty directories -/

/-- The 16-bit word where an entry of the original file system has its inode number. -/
def slot (f : File) (o : ℕ) : ℕ := le16 (fun k => f.byte (o + k)) 0

/-- The directory has no live records but the first two. -/
def OnlyDots (f : File) : Prop := ∀ o, f.Live o → o = 0 ∨ o = (f.entry 0).recLen

/-- `isdirempty` returns, and it returns 1 if and only if the directory has no live records but the
first two. -/
structure EmptyExact (f : File) : Prop where
  noPanic : ∀ fuel msg, f.isdirempty fuel (2 * sizeofDirent) ≠ some (.error msg)
  returns : ∃ b, (∃ fuel, f.isdirempty fuel (2 * sizeofDirent) = some (.ok b)) ∧
    (b = true ↔ f.OnlyDots)

section Empty

variable {off fuel : ℕ} (hs : f.size < 2 ^ 32) (hwhole : sizeofDirent ∣ f.size)

theorem isdirempty_end (h : f.size ≤ off) : f.isdirempty (fuel + 1) off = some (.ok true) := by
  rw [isdirempty, if_neg (by omega)]

include hs hwhole

theorem isdirempty_round (fuel : ℕ) (hoff : sizeofDirent ∣ off) (hlt : off < f.size) :
    f.isdirempty (fuel + 1) off =
      if f.slot off ≠ 0 then some (.ok false) else f.isdirempty fuel (off + sizeofDirent) := by
  have hroom : off + sizeofDirent ≤ f.size := by
    simp only [sizeofDirent] at *
    omega
  have hslot : le16 (fun k => (f.readi off sizeofDirent).2.getD k 0) 0 = f.slot off := by
    rw [readi_eq hroom hs]
    simp [slot, le16, sizeofDirent]
  have hret : (f.readi off sizeofDirent).1 = sizeofDirent := by rw [readi_eq hroom hs]
  rw [isdirempty]
  dsimp only
  rw [if_pos hlt, if_neg (not_not.2 hret), hslot, Nat.mod_eq_of_lt (by omega)]

/-- The loop returns whether all words that it looks at are zero. -/
theorem isdirempty_outcome (off : ℕ) (hoff : sizeofDirent ∣ off) :
    ∃ b, (b = true ↔ ∀ o, off ≤ o → o < f.size → sizeofDirent ∣ o → f.slot o = 0) ∧
      (∃ fuel, f.isdirempty fuel off = some (.ok b)) ∧
      ∀ fuel, f.isdirempty fuel off = none ∨ f.isdirempty fuel off = some (.ok b) := by
  induction hd : f.size - off using Nat.strong_induction_on generalizing off with
  | _ d ih =>
    rcases Nat.lt_or_ge off f.size with hlt | hge
    · have hround := fun fuel => isdirempty_round hs hwhole fuel hoff hlt
      by_cases hz : f.slot off = 0
      · simp only [hz, ne_eq, not_true_eq_false, if_false] at hround
        obtain ⟨b, hb, ⟨fuel, hrun⟩, hall⟩ := ih (f.size - (off + sizeofDirent))
          (by simp only [sizeofDirent]; omega) _ (Nat.dvd_add hoff (dvd_refl _)) rfl
        refine ⟨b, hb.trans ?_, ⟨fuel + 1, (hround fuel).trans hrun⟩, fun fuel => ?_⟩
        · constructor
          · intro h o hle ho hdvd
            rcases Nat.lt_or_eq_of_le hle with hgt | rfl
            · exact h o (by simp only [sizeofDirent] at *; omega) ho hdvd
            · exact hz
          · exact fun h o hle => h o (by omega)
        · cases fuel with
          | zero => exact .inl rfl
          | succ fuel => exact hround fuel ▸ hall fuel
      · simp only [hz, ne_eq, not_false_eq_true, if_true] at hround
        refine ⟨false, ⟨fun h => absurd h (by decide), fun h => absurd (h off le_rfl hlt hoff) hz⟩,
          ⟨1, hround 0⟩, fun fuel => ?_⟩
        cases fuel with
        | zero => exact .inl rfl
        | succ fuel => exact .inr (hround fuel)
    · refine ⟨true, ⟨fun _ o hle hlt => absurd hlt (by omega), fun _ => rfl⟩,
        ⟨1, isdirempty_end hge⟩, fun fuel => ?_⟩
      cases fuel with
      | zero => exact .inl rfl
      | succ fuel => exact .inr (isdirempty_end hge)

end Empty

/-- **`isdirempty` is right exactly on the directories in which a word at a multiple of 16, from 32
on, is nonzero if and only if there is a live record behind the first two.** -/
theorem isdirempty_exact (f : File) (hw : f.WellFormed) :
    f.EmptyExact ↔
      ((∀ o, 2 * sizeofDirent ≤ o → o < f.size → sizeofDirent ∣ o → f.slot o = 0) ↔
        f.OnlyDots) := by
  have hwhole : sizeofDirent ∣ f.size := Nat.dvd_trans (by decide) hw.whole
  obtain ⟨b, hb, ⟨fuel, hrun⟩, hall⟩ :=
    isdirempty_outcome hw.size_lt hwhole (2 * sizeofDirent) (by decide)
  constructor
  · rintro ⟨-, b', ⟨fuel', hrun'⟩, hb'⟩
    have hbb : b' = b := by
      rcases hall fuel' with h | h
      · exact nomatch h.symm.trans hrun'
      · simpa using hrun'.symm.trans h
    rw [← hb, ← hbb]
    exact hb'
  · intro h
    refine ⟨fun fuel' msg he => ?_, b, ⟨fuel, hrun⟩, hb.trans h⟩
    rcases hall fuel' with h | h <;> exact nomatch h.symm.trans he

theorem slots_dirAt :
    (((dirAt 24).entry 0).recLen = 12 ∧ (dirAt 24).slot 32 ≠ 0) ∧
    ((dirAt 36).entry 0).recLen = 12 ∧
    (((dirAt 36).entry 0).inode ≠ 0 ∧ ((dirAt 36).entry 0).text = [46]) ∧
    (((dirAt 36).entry 12).inode ≠ 0 ∧ ((dirAt 36).entry 12).text = [46, 46]) ∧
    ∀ k < 64, 2 ≤ k → (dirAt 36).slot (sizeofDirent * k) = 0 := by
  decide +kernel

/-- In the directory with the record of `a` at offset 24 the name of the entry is seen. -/
theorem isdirempty_exact_seen : ¬(dirAt 24).OnlyDots ∧ (dirAt 24).EmptyExact := by
  obtain ⟨hw, -, hname⟩ := dirAt_24
  have hmore : ¬(dirAt 24).OnlyDots := by
    intro h
    rcases h 24 hname.1 with h | h
    · exact absurd h (by decide)
    · exact absurd h (by decide)
  refine ⟨hmore, (isdirempty_exact (dirAt 24) hw).2 (iff_of_false (fun h => ?_) hmore)⟩
  exact slots_dirAt.1.2 (h 32 (by decide) (by decide) (by decide))

theorem dirAt_36 : DirAt 36 := dirAt_of_records (by decide +kernel)

theorem slot_dirAt_36 {o : ℕ} (hlo : 2 * sizeofDirent ≤ o) (hlt : o < (dirAt 36).size)
    (hdvd : sizeofDirent ∣ o) : (dirAt 36).slot o = 0 := by
  have hall := slots_dirAt.2.2.2.2
  obtain ⟨k, rfl⟩ := hdvd
  change sizeofDirent * k < 1024 at hlt
  simp only [sizeofDirent] at hlo hlt
  exact hall k (by omega) (by omega)

/-- **With the record of `a` at offset 36 `isdirempty` takes the directory for empty.** -/
theorem isdirempty_misses : (dirAt 36).WellFormed ∧ (dirAt 36).Named [46] 0 ∧
    (dirAt 36).Named [46, 46] 12 ∧ (dirAt 36).Named [97] 36 ∧
    (∃ fuel, (dirAt 36).isdirempty fuel (2 * sizeofDirent) = some (.ok true)) ∧
    ¬(dirAt 36).EmptyExact := by
  obtain ⟨hw, hrec, hname⟩ := dirAt_36
  have hmore : ¬(dirAt 36).OnlyDots := by
    intro h
    rcases h 36 hname.1 with h | h
    · exact absurd h (by decide)
    · exact absurd h (by decide)
  obtain ⟨b, hb, ⟨fuel, hrun⟩, hall⟩ := isdirempty_outcome (f := dirAt 36) (by decide) (by decide)
    (2 * sizeofDirent) (by decide)
  rw [hb.2 fun o => slot_dirAt_36] at hrun hall
  obtain ⟨-, -, hdot, hdotdot, -⟩ := slots_dirAt
  refine ⟨hw, ⟨⟨(hrec 0).2 (.inl rfl), hdot.1⟩, hdot.2⟩,
    ⟨⟨(hrec 12).2 (.inr (.inl rfl)), hdotdot.1⟩, hdotdot.2⟩, hname, ⟨fuel, hrun⟩, ?_⟩
  rintro ⟨-, b', ⟨fuel', hrun'⟩, hb'⟩
  rcases hall fuel' with h | h
  · exact nomatch h.symm.trans hrun'
  · obtain rfl : b' = true := by simpa using hrun'.symm.trans h
    exact hmore (hb'.1 rfl)

end File

namespace FileTree

variable {s s' : FileTree} {dp : ℕ} {name : Bytes}

theorem file_remove {i off : ℕ} (hne : i ≠ dp) (hlinks : 2 ≤ (s dp).nlink)
    (hs : (s dp).file.size < 2 ^ 32) (hroom : off + sizeofDirent ≤ (s dp).file.size)
    (h : s.remove dp i off = .ret 0 s') : (s' dp).file = (s dp).file.erase off := by
  unfold remove at h
  rw [File.writei_eq hroom hs] at h
  dsimp only at h
  rw [if_neg (not_not.2 rfl), Unlinked.ret.injEq] at h
  have hkeep : ¬((if (s i).type = .dir then (s dp).nlink - 1 else (s dp).nlink) = 0 ∧
      (s dp).ref = 1) := by
    split_ifs <;> omega
  rw [← h.2]
  simp only [iput, update_of_ne (Ne.symm hne), update_self, Inode.iput, if_neg hkeep, File.erase]

/-- The directory that a successful `sys_unlink` leaves. -/
theorem file_of_unlinks (hw : (s dp).file.WellFormed) (hlinks : 2 ≤ (s dp).nlink)
    (hname : (0 : UInt8) ∉ name) (h : s.Unlinks dp name (.ret 0 s')) :
    ∃ r, (s dp).file.Hit name r ∧ r + DirEntry.sizeof ≤ (s dp).file.size ∧
      (s' dp).file = (s dp).file.erase r := by
  obtain ⟨fuel, h⟩ := h
  unfold sysUnlink at h
  split_ifs at h with hdots
  · simp at h
  cases hl : (s dp).file.ext2fsDirlookup name fuel with
  | none => simp [hl] at h
  | some res =>
    cases res with
    | panic msg => simp [hl] at h
    | absent => simp [hl] at h
    | found i off =>
      obtain ⟨hit, hroom, -⟩ := (hw.looks_found_iff hname).1 ⟨fuel, hl⟩
      refine ⟨off, hit, hroom, ?_⟩
      simp only [hl] at h
      split_ifs at h with hdp hnlink
      · simp at h
      · simp at h
      · have hkeep : (update s i { s i with ref := (s i).ref + 1 }) dp = s dp :=
          update_of_ne (Ne.symm hdp) _ _
        generalize update s i { s i with ref := (s i).ref + 1 } = t at h hkeep
        cases hrm : (t i).removable fuel with
        | none => simp [hrm] at h
        | some e =>
          simp only [hrm] at h
          rcases e with msg | (_ | _)
          · simp at h
          · simp at h
          · rw [← hkeep] at hw hlinks hroom ⊢
            have hroom' : off + sizeofDirent ≤ (t dp).file.size :=
              (Nat.add_le_add_left (by decide) off).trans hroom
            exact file_remove hdp hlinks hw.size_lt hroom' (Option.some.inj h)

/-- **A successful `sys_unlink` never removes a name**: whatever the directory, the name and the
contents of the name buffer, afterwards the lookup of the name finds it or does not stop. -/
theorem unlink_not_removed (s s' : FileTree) (dp : ℕ) (name behind : Bytes)
    (hw : (s dp).file.WellFormed) (hlinks : 2 ≤ (s dp).nlink) (hname : (0 : UInt8) ∉ name)
    (h : s.Unlinks dp (nameBuffer name behind) (.ret 0 s')) :
    ¬(s dp).file.Removed (s' dp).file name := by
  obtain ⟨r, hit, hroom, hfile⟩ := file_of_unlinks hw hlinks (nameBuffer_noNul hname behind) h
  rw [hfile]
  exact File.not_removed_erase hw hit.1.1 hroom hname

theorem unlinks_file {i off : ℕ} (hw : (s dp).file.WellFormed) (hname : (0 : UInt8) ∉ name)
    (hdots : ¬(namecmp name [46] = 0 ∨ namecmp name [46, 46] = 0))
    (hl : (s dp).file.Looks name (.found i off)) (hne : i ≠ dp) (hn : 1 ≤ (s i).nlink)
    (hfile : (s i).type ≠ .dir) : ∃ s', s.Unlinks dp name (.ret 0 s') := by
  obtain ⟨-, hroom, -⟩ := (hw.looks_found_iff hname).1 hl
  have hroom' : off + sizeofDirent ≤ (s dp).file.size :=
    (Nat.add_le_add_left (by decide) off).trans hroom
  obtain ⟨fuel, hl⟩ := hl
  have hkeep : (update s i { s i with ref := (s i).ref + 1 }) dp = s dp :=
    update_of_ne (Ne.symm hne) _ _
  obtain ⟨s', hs'⟩ : ∃ s',
      remove (update s i { s i with ref := (s i).ref + 1 }) dp i off = .ret 0 s' := by
    unfold remove
    rw [hkeep, File.writei_eq hroom' hw.size_lt]
    exact ⟨_, rfl⟩
  refine ⟨s', fuel, ?_⟩
  unfold sysUnlink
  rw [if_neg hdots, hl]
  dsimp only
  rw [if_neg hne, if_neg (by simpa using hn), Inode.removable, if_neg (by simpa using hfile)]
  rw [hs']

/-- A directory with the entries `.`, `..` and `a`, in the layout that `mke2fs` gives it. -/
def dirA : File where
  size := 1024
  block _ := fun j =>
    [2, 0, 0, 0, 12, 0, 1, 2, 46, 0, 0, 0, 2, 0, 0, 0, 12, 0, 2, 2, 46, 46, 0, 0,
      12, 0, 0, 0, 232, 3, 1, 1, 97].getD j.val 0

theorem entries_dirA : dirA.RecordsAt [0, 12, 24] ∧ (dirA.entry 24).inode = 12 ∧
    (dirA.entry 24).text = [97] := by
  decide +kernel

theorem wellFormed_dirA : dirA.WellFormed := entries_dirA.1.wellFormed

theorem hit_dirA : dirA.Hit [97] 24 := by
  obtain ⟨hl, hi, ht⟩ := entries_dirA
  refine ⟨⟨hl.record.2 (by decide), ?_⟩, ht⟩
  decide

/-- Inode 12 is a file, inode 2 the directory with its name. -/
def treeA : FileTree := fun i =>
  if i = 12 then ⟨.file, 1, 0, ⟨0, fun _ => Block.zero⟩⟩ else ⟨.dir, 2, 1, dirA⟩

theorem unlinks_treeA : ∃ s', treeA.Unlinks 2 [97] (.ret 0 s') := by
  have hl : (treeA 2).file.Looks [97] (.found 12 24) :=
    (wellFormed_dirA.looks_found_iff (by decide)).2 ⟨hit_dirA, by decide, entries_dirA.2.1⟩
  exact unlinks_file wellFormed_dirA (by decide) (by decide) hl (by decide) (by decide) (by decide)

/-- After `unlink("a")` in the directory the name `a` is not gone. -/
theorem unlink_not_removed_treeA :
    ∃ s', treeA.Unlinks 2 (nameBuffer [97] []) (.ret 0 s') ∧
      ¬(treeA 2).file.Removed (s' 2).file [97] := by
  obtain ⟨s', h⟩ := unlinks_treeA
  exact ⟨s', h, unlink_not_removed treeA s' 2 [97] [] wellFormed_dirA (by decide) (by decide) h⟩

/-- **After `unlink("a")` in the directory a lookup of `a` does not stop.** -/
theorem unlink_lookup_hangs :
    (treeA 2).file.WellFormed ∧ (treeA 2).file.Hit [97] 24 ∧
      ∃ s', treeA.Unlinks 2 [97] (.ret 0 s') ∧ (∀ r, ¬(s' 2).file.Looks [97] r) ∧
        ¬(treeA 2).file.Removed (s' 2).file [97] := by
  refine ⟨wellFormed_dirA, hit_dirA, ?_⟩
  obtain ⟨s', h⟩ := unlinks_treeA
  obtain ⟨r, hit, hroom, hfile⟩ := file_of_unlinks wellFormed_dirA (by decide) (by decide) h
  refine ⟨s', h, fun res => ?_, ?_⟩
  · rw [hfile]
    exact File.not_looks_erased wellFormed_dirA (by decide) hit hroom res
  · rw [hfile]
    exact File.not_removed_erase wellFormed_dirA hit.1.1 hroom (by decide)

end FileTree

end Cinux
