import Cinux.Ext2.Dir

/-!
# Adding a name to a directory

`ext2fs_dirlink` looks for a free place in steps of `sizeof(struct ext2_dir_entry_2)`, while the
records of the directory are chained by `rec_len`.  The new entry claims a whole block from the
place that is found, and the size of the directory is set to its end.

The directory is given by its file and its inode number: the callers hold the lock of the
directory, so the `iput` of an entry that leads back to it waits for ever.
-/

namespace Cinux

open DirEntry

namespace DirEntry

/-- Byte `k` of the entry in memory. -/
def bytes (de : DirEntry) (k : ℕ) : UInt8 :=
  if k < 4 then byteOf de.inode k
  else if k < 6 then byteOf de.recLen (k - 4)
  else if k = 6 then byteOf de.nameLen 0
  else if k = 7 then 0
  else de.name.getD (k - 8) 0

/-- The entry that `ext2fs_dirlink` fills in. -/
def link (name : Bytes) (inum : ℕ) : DirEntry where
  inode := inum
  recLen := BSIZE
  nameLen := strlen name % 2 ^ 8
  name := strncpy EXT2_NAME_LEN name

/-- What `ext2fs_writei` finds at `&de`: the entry, and the stack behind it. -/
def image (de : DirEntry) (stack : ℕ → UInt8) (k : ℕ) : UInt8 :=
  if k < sizeof then de.bytes k else stack (k - sizeof)

end DirEntry

/-- How `ext2fs_dirlink` ends. -/
inductive Linked where
  | ret (r : ℤ) (f : File)
  | panic (msg : String)
  /-- `ext2fs_iput` waits for the lock that the caller holds. -/
  | deadlock

namespace File

/-- The second loop of `ext2fs_dirlink` from `off` on: the offset where it breaks off or ends,
or its panic. -/
def slotLoop (f : File) : ℕ → ℕ → Option (Except String ℕ)
  | 0, _ => none
  | fuel + 1, off =>
    if (off : ℤ) < toInt32 f.size then
      let (r, b) := f.readi off DirEntry.sizeof
      let de := DirEntry.decode fun k => b.getD k 0
      if r ≠ DirEntry.sizeof then some (.error "ext2fs_dirlink read")
      else if de.inode = 0 then some (.ok off)
      else f.slotLoop fuel (off + DirEntry.sizeof)
    else some (.ok off)

/-- The directory after the entry has been written at `off`. -/
def insertAt (f : File) (off : ℕ) (de : DirEntry) (stack : ℕ → UInt8) : File :=
  ({ f with size := (off + de.recLen) % 2 ^ 32 }.writei off de.recLen (de.image stack)).2

/-- `ext2fs_dirlink` on the directory with inode number `dinum`, for `fuel` rounds of each
loop. -/
def ext2fsDirlink (f : File) (dinum : ℕ) (name : Bytes) (inum : ℕ) (stack : ℕ → UInt8)
    (fuel : ℕ) : Option Linked :=
  match f.ext2fsDirlookup name fuel with
  | none => none
  | some (.panic msg) => some (.panic msg)
  | some (.found i _) => if i = dinum then some .deadlock else some (.ret (-1) f)
  | some .absent =>
    match f.slotLoop fuel 0 with
    | none => none
    | some (.error msg) => some (.panic msg)
    | some (.ok off) => some (.ret 0 (f.insertAt off (.link name inum) stack))

/-- A call of `ext2fs_dirlink`: its arguments, and the bytes that lie behind its `de`. -/
structure Call where
  name : Bytes
  inum : ℕ
  stack : ℕ → UInt8

/-- The calls that are considered: a name of at most 13 bytes and an inode number. -/
structure Call.Ok (c : Call) : Prop where
  nonempty : 1 ≤ c.name.length
  short : c.name.length ≤ 13
  noNul : (0 : UInt8) ∉ c.name
  noSlash : (47 : UInt8) ∉ c.name
  inum_pos : 0 < c.inum
  inum_lt : c.inum < 2 ^ 32

/-- The call stops with `r`. -/
def Links (f : File) (dinum : ℕ) (c : Call) (r : Linked) : Prop :=
  ∃ fuel, f.ext2fsDirlink dinum c.name c.inum c.stack fuel = some r

/-- The call inserts into the directory as into a map: a name that is present is refused, any
other is added, and nothing else changes. -/
structure Inserts (f : File) (dinum : ℕ) (c : Call) : Prop where
  present : (∃ o, f.Hit c.name o) → f.Links dinum c (.ret (-1) f)
  absent : (¬∃ o, f.Hit c.name o) → ∃ f', f.Links dinum c (.ret 0 f') ∧ f'.WellFormed ∧
    (∃ o, f'.Looks c.name (.found c.inum o)) ∧
    ∀ m, (0 : UInt8) ∉ m → m ≠ c.name → ∀ r, f'.Looks m r ↔ f.Looks m r

/-- The first multiple of `sizeof(struct ext2_dir_entry_2)` at which the word that would be an
inode number is zero, or the end of the directory if that is such a multiple and there is no other;
offset 0 when the size is negative as an `int`. -/
def FirstFree (f : File) (o : ℕ) : Prop :=
  2 ^ 31 ≤ f.size ∧ o = 0 ∨
    f.size < 2 ^ 31 ∧ DirEntry.sizeof ∣ o ∧ o ≤ f.size ∧
      (∀ k < o, DirEntry.sizeof ∣ k → (f.entry k).inode ≠ 0) ∧
      (o < f.size → (f.entry o).inode = 0)

/-- The directories on which `ext2fs_dirlink` is right.  If the name is present, its record is not
among the last 263 bytes and does not lead back to the directory.  If it is not, no record starts
among the last 263 bytes, and the first free offset is the start of a block with no live record in
it or behind it. -/
structure Fits (f : File) (dinum : ℕ) (name : Bytes) : Prop where
  present : ∀ o, f.Hit name o → o + DirEntry.sizeof ≤ f.size ∧ (f.entry o).inode ≠ dinum
  absent : (¬∃ o, f.Hit name o) → (∀ r, f.Record r → r + DirEntry.sizeof ≤ f.size) ∧
    ∃ o, f.FirstFree o ∧ BSIZE ∣ o ∧ ∀ r, f.Live r → r < o

end File

/-! ### The new entry -/

namespace DirEntry

theorem byte_image {de : DirEntry} {stack : ℕ → UInt8} {k : ℕ} (h : k < sizeof) :
    de.image stack k = de.bytes k := if_pos h

theorem decode_image {de : DirEntry} (hi : de.inode < 2 ^ 32) (hr : de.recLen < 2 ^ 16)
    (hn : de.nameLen < 2 ^ 8) (hname : de.name.length = EXT2_NAME_LEN) (stack : ℕ → UInt8) :
    decode (de.image stack) = de := by
  obtain ⟨inode, recLen, nameLen, name⟩ := de
  dsimp only at hi hr hn hname
  have hb : ∀ k < 8, image ⟨inode, recLen, nameLen, name⟩ stack k =
      bytes ⟨inode, recLen, nameLen, name⟩ k :=
    fun k hk => byte_image (hk.trans (by decide))
  simp only [decode, mk.injEq]
  refine ⟨?_, ?_, ?_, ?_⟩
  · simp [le32, hb, bytes, toNat_byteOf]
    omega
  · simp [le16, hb, bytes, toNat_byteOf]
    omega
  · simp [hb, bytes, toNat_byteOf]
    omega
  · refine List.ext_getElem (by simp [hname]) fun k h1 h2 => ?_
    have hk : 8 + k < sizeof := by
      simp only [hname, EXT2_NAME_LEN] at h2
      simp only [sizeof]
      omega
    simp only [List.getElem_map, List.getElem_range, byte_image hk]
    rw [bytes, if_neg (by omega), if_neg (by omega), if_neg (by omega), if_neg (by omega)]
    simp [h2]

theorem text_link {name : Bytes} (hn : (0 : UInt8) ∉ name)
    (hlen : name.length ≤ EXT2_NAME_LEN) (inum : ℕ) : (link name inum).text = name := by
  have hmod : strlen name % 2 ^ 8 = name.length := by
    rw [strlen, cstr_of_not_mem hn]
    simp only [EXT2_NAME_LEN] at hlen
    omega
  simp only [text, link, hmod, strncpy_of_ge hn hlen, List.take_left']

end DirEntry

namespace File

variable {f : File} {o : ℕ}

/-! ### The search for a free place -/

theorem add_sizeof_le {j k : ℕ} (hj : sizeof ∣ j) (hk : sizeof ∣ k)
    (h : j < k) : j + sizeof ≤ k := by
  simp only [sizeof] at *
  omega

section Slot

variable {fuel : ℕ} (hs : f.size < 2 ^ 31)
include hs

theorem slotLoop_round (h : o + sizeof ≤ f.size) :
    f.slotLoop (fuel + 1) o =
      if (f.entry o).inode = 0 then some (.ok o) else f.slotLoop fuel (o + sizeof) := by
  have hs' : f.size < 2 ^ 32 := by omega
  have hret : (f.readi o sizeof).1 = sizeof := by rw [readi_eq h hs']
  have hpos : 0 < sizeof := by decide
  rw [slotLoop]
  dsimp only
  rw [toInt32_of_fits hs, if_pos (by omega), if_neg (not_not.2 hret), decode_readi h hs']

theorem slotLoop_end (h : f.size ≤ o) : f.slotLoop (fuel + 1) o = some (.ok o) := by
  rw [slotLoop, toInt32_of_fits hs, if_neg (by omega)]

theorem slotLoop_short (h : o < f.size) (hlt : f.size < o + sizeof) :
    f.slotLoop (fuel + 1) o = some (.error "ext2fs_dirlink read") := by
  have hs' : o + sizeof < 2 ^ 32 := by
    simp only [sizeof] at *
    omega
  have hne : (f.readi o sizeof).1 ≠ sizeof := by
    rw [readi_short h.le hlt hs']
    omega
  rw [slotLoop]
  dsimp only
  rw [toInt32_of_fits hs, if_pos (by omega), if_pos hne]

theorem slotLoop_sound {k : ℕ} (hk : sizeof ∣ k) (hle : k ≤ f.size)
    (h : f.slotLoop fuel k = some (.ok o)) :
    sizeof ∣ o ∧ o ≤ f.size ∧ (∀ j < o, k ≤ j → sizeof ∣ j → (f.entry j).inode ≠ 0) ∧
      (o < f.size → (f.entry o).inode = 0 ∧ o + sizeof ≤ f.size) := by
  induction fuel generalizing k with
  | zero => cases h
  | succ fuel ih =>
    by_cases hend : f.size ≤ k
    · rw [slotLoop_end hs hend] at h
      obtain rfl : k = o := by simpa using h
      exact ⟨hk, hle, fun j hj hj' => absurd hj (Nat.not_lt.2 hj'), fun h => absurd h (by omega)⟩
    · by_cases hshort : f.size < k + sizeof
      · rw [slotLoop_short hs (by omega) hshort] at h
        cases h
      · rw [slotLoop_round hs (by omega)] at h
        split_ifs at h with hfree
        · obtain rfl : k = o := by simpa using h
          exact ⟨hk, hle, fun j hj hj' => absurd hj (Nat.not_lt.2 hj'), fun _ => ⟨hfree, by omega⟩⟩
        · obtain ⟨h1, h2, h3, h4⟩ := ih (Nat.dvd_add hk (dvd_refl _)) (by omega) h
          refine ⟨h1, h2, fun j hj hkj hdvd => ?_, h4⟩
          rcases Nat.lt_or_eq_of_le hkj with hlt | rfl
          · exact h3 j hj (add_sizeof_le hk hdvd hlt) hdvd
          · exact hfree

theorem slotLoop_complete {k : ℕ} (hk : sizeof ∣ k) (hko : k ≤ o)
    (ho : sizeof ∣ o) (hle : o ≤ f.size)
    (hused : ∀ j < o, sizeof ∣ j → (f.entry j).inode ≠ 0)
    (hfree : o < f.size → (f.entry o).inode = 0 ∧ o + sizeof ≤ f.size)
    (hfuel : o - k < fuel) : f.slotLoop fuel k = some (.ok o) := by
  induction fuel generalizing k with
  | zero => omega
  | succ fuel ih =>
    rcases Nat.lt_or_eq_of_le hko with hlt | rfl
    · have hnext := add_sizeof_le hk ho hlt
      have hpos : 0 < sizeof := by decide
      rw [slotLoop_round hs (hnext.trans hle), if_neg (hused k hlt hk)]
      exact ih (Nat.dvd_add hk (dvd_refl _)) hnext (by omega)
    · rcases Nat.lt_or_eq_of_le hle with hlt | rfl
      · rw [slotLoop_round hs (hfree hlt).2, if_pos (hfree hlt).1]
      · exact slotLoop_end hs le_rfl

end Slot

theorem slotLoop_large {fuel : ℕ} (hs : 2 ^ 31 ≤ f.size) (hs' : f.size < 2 ^ 32) :
    f.slotLoop (fuel + 1) 0 = some (.ok 0) := by
  have hneg : toInt32 f.size < 0 := by
    unfold toInt32
    rw [Int.bmod_def]
    omega
  rw [slotLoop, if_neg (by omega)]

theorem FirstFree.of_slotLoop {fuel : ℕ} (hs : f.size < 2 ^ 32)
    (h : f.slotLoop fuel 0 = some (.ok o)) : f.FirstFree o := by
  by_cases hsmall : f.size < 2 ^ 31
  · obtain ⟨h1, h2, h3, h4⟩ := slotLoop_sound hsmall (dvd_zero _) (Nat.zero_le _) h
    exact .inr ⟨hsmall, h1, h2, fun k hk => h3 k hk (Nat.zero_le k), fun hlt => (h4 hlt).1⟩
  · cases fuel with
    | zero => cases h
    | succ fuel =>
      rw [slotLoop_large (Nat.not_lt.1 hsmall) hs] at h
      exact .inl ⟨Nat.not_lt.1 hsmall, by simpa using h.symm⟩

theorem FirstFree.slotLoop_room {fuel : ℕ} (hs : f.size < 2 ^ 32) (hfree : f.FirstFree o)
    (hroom : o < f.size → o + sizeof ≤ f.size) (hfuel : o < fuel) :
    f.slotLoop fuel 0 = some (.ok o) := by
  rcases hfree with ⟨hlarge, rfl⟩ | ⟨hsmall, hdvd, hle, hused, hfree⟩
  · obtain ⟨fuel, rfl⟩ : ∃ k, fuel = k + 1 := ⟨fuel - 1, by omega⟩
    exact slotLoop_large hlarge hs
  · exact slotLoop_complete hsmall (dvd_zero _) (Nat.zero_le _) hdvd hle hused
      (fun hlt => ⟨hfree hlt, hroom hlt⟩) (by omega)

theorem FirstFree.slotLoop {fuel : ℕ} (hw : f.WellFormed) (hfree : f.FirstFree o)
    (ho : BSIZE ∣ o) (hfuel : o < fuel) : f.slotLoop fuel 0 = some (.ok o) := by
  refine hfree.slotLoop_room hw.size_lt (fun hlt => ?_) hfuel
  have := hw.whole
  simp only [BSIZE, sizeof] at *
  omega

theorem FirstFree.le (h : f.FirstFree o) : o ≤ f.size := by
  rcases h with ⟨_, rfl⟩ | ⟨_, _, h, _⟩
  · exact Nat.zero_le _
  · exact h

theorem FirstFree.lt (h : f.FirstFree o) : o < 2 ^ 31 := by
  rcases h with ⟨_, rfl⟩ | ⟨h, _, h', _⟩ <;> omega

/-- What a call that returns has found. -/
theorem ext2fsDirlink_ret {f' : File} {dinum inum fuel : ℕ} {name : Bytes}
    {stack : ℕ → UInt8} {v : ℤ}
    (h : f.ext2fsDirlink dinum name inum stack fuel = some (.ret v f')) :
    (∃ i r, f.ext2fsDirlookup name fuel = some (.found i r) ∧ i ≠ dinum ∧ v = -1 ∧ f' = f) ∨
      f.ext2fsDirlookup name fuel = some .absent ∧ ∃ o, f.slotLoop fuel 0 = some (.ok o) ∧
        v = 0 ∧ f' = f.insertAt o (.link name inum) stack := by
  unfold ext2fsDirlink at h
  split at h
  · cases h
  · cases h
  · next i r hl =>
    split_ifs at h with hi
    · cases h
    · cases h
      exact .inl ⟨i, r, hl, hi, rfl, rfl⟩
  · next hl =>
    split at h
    · cases h
    · cases h
    · next o hslot =>
      cases h
      exact .inr ⟨hl, o, hslot, rfl, rfl⟩

/-! ### The directory with the new entry -/

/-- The directory after `c` has put its entry at `o`. -/
def Call.insert (c : Call) (f : File) (o : ℕ) : File :=
  f.insertAt o (.link c.name c.inum) c.stack

section Insert

variable {c : Call} (hlt : o + BSIZE < 2 ^ 32)
include hlt

theorem insertAt_eq (de : DirEntry) (hde : de.recLen = BSIZE) (stack : ℕ → UInt8) :
    f.insertAt o de stack =
      { f with size := o + BSIZE }.writeLoop o BSIZE (de.image stack) := by
  unfold insertAt
  rw [hde, Nat.mod_eq_of_lt hlt]
  have hroom : o + BSIZE ≤ ({ f with size := o + BSIZE } : File).size := le_rfl
  rw [writei_eq hroom hlt]

theorem insert_size : (c.insert f o).size = o + BSIZE := by
  rw [Call.insert, insertAt_eq hlt _ rfl, writeLoop_size]

theorem byte_insert (i : ℕ) : (c.insert f o).byte i =
    if o ≤ i ∧ i < o + BSIZE then (link c.name c.inum).image c.stack (i - o)
    else f.byte i := by
  rw [Call.insert, insertAt_eq hlt _ rfl, byte_writeLoop]
  rfl

theorem entry_insert_self (hc : c.Ok) : (c.insert f o).entry o = .link c.name c.inum := by
  have himage : (c.insert f o).entry o = decode ((link c.name c.inum).image c.stack) := by
    refine decode_congr fun k hk => ?_
    have hin : o ≤ o + k ∧ o + k < o + BSIZE := by
      simp only [sizeof, BSIZE] at *
      omega
    rw [byte_insert hlt, if_pos hin, Nat.add_sub_cancel_left]
  rw [himage]
  have hrec : (link c.name c.inum).recLen < 2 ^ 16 := by simp [link, BSIZE]
  exact decode_image hc.inum_lt hrec (Nat.mod_lt _ (by decide)) (length_strncpy _ _) _

theorem entry_insert_below {r n : ℕ} (h : r + n ≤ o) (hn : 8 ≤ n) :
    ((c.insert f o).entry r).inode = (f.entry r).inode ∧
      ((c.insert f o).entry r).recLen = (f.entry r).recLen ∧
      ((c.insert f o).entry r).nameLen = (f.entry r).nameLen ∧
      ((f.entry r).nameLen + 8 ≤ n → ((c.insert f o).entry r).text = (f.entry r).text) := by
  refine entry_congr (fun k hk => ?_) hn
  rw [byte_insert hlt, if_neg (by omega)]

end Insert

end File

end Cinux
