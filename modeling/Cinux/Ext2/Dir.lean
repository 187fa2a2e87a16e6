import Cinux.Ext2.File
import Cinux.Kernel.CString

/-!
# Looking up a name in a directory

An ext2 directory is a file of records.  `ext2fs_dirlookup` reads a whole
`struct ext2_dir_entry_2` at the start of each record, which is 264 bytes with its padding, and
goes from one record to the next by `rec_len`.  Nothing in the loop makes sure that `rec_len` is
positive, so it runs on fuel here: `File.Looks f name r` says that the loop stops with result `r`.

A directory is well formed when its size is a whole number of blocks, its records tile each block,
and no two live records have one name.  On a well-formed directory the loop always stops
(`WellFormed.looks`), and `WellFormed.looks_found_iff`, `WellFormed.looks_absent_iff` say what it
finds.
-/

namespace Cinux

/-- Longest name of a directory entry. -/
def EXT2_NAME_LEN : ℕ := 255

/-- `struct ext2_dir_entry_2`; nothing reads its `file_type`. -/
structure DirEntry where
  inode : ℕ
  recLen : ℕ
  nameLen : ℕ
  name : Bytes

namespace DirEntry

/-- `sizeof(struct ext2_dir_entry_2)`: the 263 bytes of the fields, aligned to 4. -/
def sizeof : ℕ := 264

/-- The entry whose fields are stored at `b`. -/
def decode (b : ℕ → UInt8) : DirEntry where
  inode := le32 b 0
  recLen := le16 b 4
  nameLen := (b 6).toNat
  name := (List.range EXT2_NAME_LEN).map fun k => b (8 + k)

/-- The bytes of the name. -/
def text (de : DirEntry) : Bytes := de.name.take de.nameLen

theorem decode_congr {b b' : ℕ → UInt8} (h : ∀ k < sizeof, b k = b' k) :
    decode b = decode b' := by
  have h0 := h 0 (by decide)
  have h1 := h 1 (by decide)
  have h2 := h 2 (by decide)
  have h3 := h 3 (by decide)
  have h4 := h 4 (by decide)
  have h5 := h 5 (by decide)
  have h6 := h 6 (by decide)
  unfold decode
  simp only [le32, le16, Nat.zero_add, h0, h1, h2, h3, h4, h5, h6, mk.injEq, true_and]
  refine List.map_congr_left fun k hk => h _ ?_
  have := List.mem_range.1 hk
  simp only [EXT2_NAME_LEN, sizeof] at *
  omega

end DirEntry

/-- `ext2fs_namecmp`. -/
def ext2fsNamecmp (s t : Bytes) : ℤ := strncmp EXT2_NAME_LEN s t

/-- How `ext2fs_dirlookup` ends: with the inode number that it passes to `iget` and `*poff`, with
a null pointer, or in its panic. -/
inductive Lookup where
  | found (inum off : ℕ)
  | absent
  | panic (msg : String)
  deriving DecidableEq

/-- The inode number and the offset that it finds. -/
def Lookup.place : Lookup → Option (ℕ × ℕ)
  | .found inum off => some (inum, off)
  | _ => none

namespace File

/-- Entry `off` of the directory as a whole: the `de` that the loops see at that offset. -/
def entry (f : File) (off : ℕ) : DirEntry := .decode fun k => f.byte (off + k)

/-- The loop of `ext2fs_dirlookup` from `off` on. -/
def lookupLoop (f : File) (name : Bytes) : ℕ → ℕ → Option Lookup
  | 0, _ => none
  | fuel + 1, off =>
    if off < f.size then
      let (r, b) := f.readi off DirEntry.sizeof
      let de := DirEntry.decode fun k => b.getD k 0
      let fileName := strncpy de.nameLen de.name ++ [0]
      if r ≠ DirEntry.sizeof then some (.panic "ext2fs_dirlookup: read error")
      else if de.inode ≠ 0 ∧ ext2fsNamecmp name fileName = 0 then some (.found de.inode off)
      else f.lookupLoop name fuel ((off + de.recLen) % 2 ^ 32)
    else some .absent

/-- `ext2fs_dirlookup`, for `fuel` rounds of its loop. -/
def ext2fsDirlookup (f : File) (name : Bytes) (fuel : ℕ) : Option Lookup :=
  f.lookupLoop name fuel 0

/-- `ext2fs_dirlookup` stops with `r`. -/
def Looks (f : File) (name : Bytes) (r : Lookup) : Prop :=
  ∃ fuel, f.ext2fsDirlookup name fuel = some r

/-- A record of the directory starts at this offset. -/
inductive Record (f : File) : ℕ → Prop
  | first : 0 < f.size → Record f 0
  | next {o : ℕ} : Record f o → o + (f.entry o).recLen < f.size →
      Record f (o + (f.entry o).recLen)

/-- A record that is in use. -/
def Live (f : File) (o : ℕ) : Prop := f.Record o ∧ (f.entry o).inode ≠ 0

/-- The live record at `o` is the one that a lookup of `name` is after: names are compared up to
`EXT2_NAME_LEN`. -/
def Hit (f : File) (name : Bytes) (o : ℕ) : Prop :=
  f.Live o ∧ (f.entry o).text = name.take EXT2_NAME_LEN

/-- A well-formed directory. -/
structure WellFormed (f : File) : Prop where
  size_lt : f.size < 2 ^ 32
  whole : BSIZE ∣ f.size
  /-- A record has room for its header. -/
  header : ∀ o, f.Record o → 8 ≤ (f.entry o).recLen
  /-- A record lies in one block. -/
  inside : ∀ o, f.Record o → o % BSIZE + (f.entry o).recLen ≤ BSIZE
  /-- The name of a live record lies in the record, is not empty and has no NUL. -/
  named : ∀ o, f.Live o → 1 ≤ (f.entry o).nameLen ∧
    (f.entry o).nameLen + 8 ≤ (f.entry o).recLen ∧ (0 : UInt8) ∉ (f.entry o).text
  unique : ∀ o o', f.Live o → f.Live o' → (f.entry o).text = (f.entry o').text → o = o'

variable {f : File} {name : Bytes} {o : ℕ}

theorem Record.lt (h : f.Record o) : o < f.size := by
  cases h with
  | first h => exact h
  | next _ h => exact h

/-- The list has the offsets of the records from `o` to the end of the directory. -/
def recordsFrom (f : File) : ℕ → List ℕ → Bool
  | o, [] => f.size ≤ o
  | o, r :: l => o = r && r < f.size && recordsFrom f (r + (f.entry r).recLen) l

/-- The directory has the records at `l`, and they are as those of a well-formed one. -/
def RecordsAt (f : File) (l : List ℕ) : Prop :=
  f.recordsFrom 0 l = true ∧ f.size < 2 ^ 32 ∧ BSIZE ∣ f.size ∧
    (∀ r ∈ l, 8 ≤ (f.entry r).recLen ∧ r % BSIZE + (f.entry r).recLen ≤ BSIZE ∧
      1 ≤ (f.entry r).nameLen ∧ (f.entry r).nameLen + 8 ≤ (f.entry r).recLen ∧
      (0 : UInt8) ∉ (f.entry r).text) ∧
    ∀ r ∈ l, ∀ r' ∈ l, (f.entry r).text = (f.entry r').text → r = r'

instance (f : File) (l : List ℕ) : Decidable (f.RecordsAt l) :=
  inferInstanceAs (Decidable (_ ∧ _))

variable {l : List ℕ}

theorem recordsFrom_next (h : f.recordsFrom o l = true) {r : ℕ} (hr : r ∈ l)
    (hlt : r + (f.entry r).recLen < f.size) : r + (f.entry r).recLen ∈ l := by
  induction l generalizing o with
  | nil => cases hr
  | cons r' l ih =>
    simp only [recordsFrom, Bool.and_eq_true, decide_eq_true_eq] at h
    rcases List.mem_cons.1 hr with rfl | hr
    · cases l with
      | nil =>
        simp only [recordsFrom, decide_eq_true_eq] at h
        omega
      | cons r' l =>
        simp only [recordsFrom, Bool.and_eq_true, decide_eq_true_eq] at h
        rw [h.2.1.1]
        simp
    · exact List.mem_cons_of_mem _ (ih h.2 hr)

theorem record_of_recordsFrom (h : f.recordsFrom o l = true)
    (ho : o < f.size → f.Record o) {r : ℕ} (hr : r ∈ l) : f.Record r := by
  induction l generalizing o with
  | nil => cases hr
  | cons r' l ih =>
    simp only [recordsFrom, Bool.and_eq_true, decide_eq_true_eq] at h
    obtain ⟨⟨rfl, hlt⟩, h⟩ := h
    rcases List.mem_cons.1 hr with rfl | hr
    · exact ho hlt
    · exact ih h (fun hlt' => (ho hlt).next hlt') hr

theorem RecordsAt.record (h : f.RecordsAt l) : f.Record o ↔ o ∈ l := by
  refine ⟨fun ho => ?_, fun ho => record_of_recordsFrom h.1 .first ho⟩
  induction ho with
  | first hpos =>
    cases l with
    | nil => exact absurd hpos (by simpa [RecordsAt, recordsFrom] using h.1)
    | cons r l =>
      obtain ⟨⟨rfl, -⟩, -⟩ : (0 = r ∧ r < f.size) ∧ _ := by simpa [recordsFrom] using h.1
      exact List.mem_cons_self
  | next _ hlt ih => exact recordsFrom_next h.1 ih hlt

theorem RecordsAt.wellFormed (h : f.RecordsAt l) : f.WellFormed := by
  have hrec := fun o => h.record (o := o)
  obtain ⟨-, hsize, hwhole, hall, huniq⟩ := h
  refine ⟨hsize, hwhole, fun o ho => (hall o ((hrec o).1 ho)).1,
    fun o ho => (hall o ((hrec o).1 ho)).2.1, fun o ho => (hall o ((hrec o).1 ho.1)).2.2,
    fun o o' ho ho' => huniq o ((hrec o).1 ho.1) o' ((hrec o').1 ho'.1)⟩

theorem nameLen_lt (f : File) (o : ℕ) : (f.entry o).nameLen < 256 := UInt8.toNat_lt _

theorem length_name (f : File) (o : ℕ) : (f.entry o).name.length = EXT2_NAME_LEN := by
  simp [entry, DirEntry.decode]

theorem decode_readi (h : o + DirEntry.sizeof ≤ f.size) (hs : f.size < 2 ^ 32) :
    (DirEntry.decode fun k => (f.readi o DirEntry.sizeof).2.getD k 0) = f.entry o := by
  refine DirEntry.decode_congr fun k hk => ?_
  rw [readi_eq h hs]
  simp [List.getD_eq_getElem?_getD, hk]

theorem entry_congr {g : File} {n : ℕ} (h : ∀ k < n, g.byte (o + k) = f.byte (o + k))
    (hn : 8 ≤ n) :
    (g.entry o).inode = (f.entry o).inode ∧ (g.entry o).recLen = (f.entry o).recLen ∧
      (g.entry o).nameLen = (f.entry o).nameLen ∧
      ((f.entry o).nameLen + 8 ≤ n → (g.entry o).text = (f.entry o).text) := by
  have h0 := h 0 (by omega)
  have h1 := h 1 (by omega)
  have h2 := h 2 (by omega)
  have h3 := h 3 (by omega)
  have h4 := h 4 (by omega)
  have h5 := h 5 (by omega)
  have h6 := h 6 (by omega)
  have hlen : (g.entry o).nameLen = (f.entry o).nameLen := by
    simp only [entry, DirEntry.decode, h6]
  refine ⟨?_, ?_, hlen, fun hname => ?_⟩
  · simp only [entry, DirEntry.decode, le32, Nat.zero_add, h0, h1, h2, h3]
  · simp only [entry, DirEntry.decode, le16, h4, h5]
  · rw [DirEntry.text, DirEntry.text, hlen]
    refine List.ext_getElem (by simp [length_name]) fun k h1 h2 => ?_
    have hk : k < (f.entry o).nameLen := by
      simp only [List.length_take] at h2
      omega
    simp only [List.getElem_take]
    simp only [entry, DirEntry.decode, List.getElem_map, List.getElem_range]
    exact h (8 + k) (by omega)

/-! ### Where records start -/

theorem start : 0 = f.size ∨ f.Record 0 := by
  rcases Nat.eq_zero_or_pos f.size with h | h
  · exact .inl h.symm
  · exact .inr (.first h)

theorem Record.add_recLen_le {r : ℕ} (ho : f.Record o) (hr : f.Record r) (h : r < o) :
    r + (f.entry r).recLen ≤ o := by
  induction ho generalizing r with
  | first => omega
  | @next o ho _ ih =>
    -- the loop reaches no record strictly inside the one at `o`
    have hgap : ∀ r, f.Record r → o < r → o + (f.entry o).recLen ≤ r := by
      intro r hr
      induction hr with
      | first => omega
      | @next r hr _ ih' =>
        intro hlt
        rcases Nat.lt_trichotomy r o with h | h | h
        · have := ih hr h
          omega
        · rw [h]
        · exact (ih' h).trans (Nat.le_add_right _ _)
    rcases Nat.lt_trichotomy r o with h' | h' | h'
    · exact (ih hr h').trans (Nat.le_add_right _ _)
    · rw [h']
    · exact absurd h (Nat.not_lt.2 (hgap r hr h'))

namespace WellFormed

theorem next_le (hw : f.WellFormed) (h : f.Record o) : o + (f.entry o).recLen ≤ f.size := by
  have hlt := h.lt
  have hin := hw.inside o h
  have := hw.whole
  simp only [BSIZE] at *
  omega

theorem next (hw : f.WellFormed) (h : f.Record o) :
    o + (f.entry o).recLen = f.size ∨ f.Record (o + (f.entry o).recLen) := by
  rcases Nat.lt_or_eq_of_le (hw.next_le h) with hlt | heq
  · exact .inr (.next h hlt)
  · exact .inl heq

theorem record_block (hw : f.WellFormed) {b : ℕ} (hb : BSIZE ∣ b) (hlt : b < f.size) :
    f.Record b := by
  have key : ∀ d o, f.Record o → o ≤ b → b - o = d → f.Record b := by
    intro d
    induction d using Nat.strong_induction_on with
    | _ d ih =>
      intro o ho hle hd
      rcases Nat.lt_or_eq_of_le hle with h | rfl
      · have hin := hw.inside o ho
        have hpos := hw.header o ho
        have hnext : o + (f.entry o).recLen ≤ b := by
          simp only [BSIZE] at *
          omega
        exact ih (b - (o + (f.entry o).recLen)) (by omega) _ (.next ho (by omega)) hnext rfl
      · exact ho
  exact key b 0 (.first (by omega)) (Nat.zero_le b) rfl

theorem hit_unique (hw : f.WellFormed) {o' : ℕ} (h : f.Hit name o) (h' : f.Hit name o') :
    o = o' :=
  hw.unique o o' h.1 h'.1 (h.2.trans h'.2.symm)

end WellFormed

/-! ### The rounds of the loop -/

theorem ext2fsNamecmp_eq_zero_iff {de : DirEntry} (hn : (0 : UInt8) ∉ name)
    (hlen : de.nameLen ≤ de.name.length) (hmax : de.nameLen ≤ EXT2_NAME_LEN)
    (ht : (0 : UInt8) ∉ de.text) :
    ext2fsNamecmp name (strncpy de.nameLen de.name ++ [0]) = 0 ↔
      de.text = name.take EXT2_NAME_LEN := by
  have hlong : de.text.take EXT2_NAME_LEN = de.text :=
    List.take_of_length_le ((List.length_take_le _ _).trans hmax)
  rw [ext2fsNamecmp, strncmp_eq_zero_iff, strncpy_of_le ht hlen, ← DirEntry.text,
    cstr_of_not_mem hn, cstr_append_zero ht, hlong, eq_comm]

theorem lookupLoop_step (h : o + DirEntry.sizeof ≤ f.size) (hs : f.size < 2 ^ 32) (fuel : ℕ) :
    f.lookupLoop name (fuel + 1) o = if (f.entry o).inode ≠ 0 ∧ ext2fsNamecmp name
          (strncpy (f.entry o).nameLen (f.entry o).name ++ [0]) = 0 then
        some (.found (f.entry o).inode o)
      else f.lookupLoop name fuel ((o + (f.entry o).recLen) % 2 ^ 32) := by
  have hret : (f.readi o DirEntry.sizeof).1 = DirEntry.sizeof := by rw [readi_eq h hs]
  have hlt : o < f.size := Nat.lt_of_lt_of_le (Nat.lt_add_of_pos_right (by decide)) h
  rw [lookupLoop]
  dsimp only
  rw [if_pos hlt, if_neg (not_not.2 hret), decode_readi h hs]

theorem lookupLoop_short (hs : f.size < 2 ^ 32) (ho : o < f.size)
    (h : f.size < o + DirEntry.sizeof) (fuel : ℕ) :
    f.lookupLoop name (fuel + 1) o = some (.panic "ext2fs_dirlookup: read error") := by
  have hne : (f.readi o DirEntry.sizeof).1 ≠ DirEntry.sizeof := by
    rcases Nat.lt_or_ge (o + DirEntry.sizeof) (2 ^ 32) with hlt | hge
    · rw [readi_short ho.le h hlt]
      omega
    · have hwrap : (o + DirEntry.sizeof) % 2 ^ 32 < o := by
        simp only [DirEntry.sizeof] at *
        omega
      unfold readi
      rw [if_pos (.inr hwrap)]
      decide
  unfold lookupLoop
  dsimp only
  rw [if_pos ho, if_pos hne]

namespace WellFormed

variable (hw : f.WellFormed) (hn : (0 : UInt8) ∉ name) (ho : f.Record o)
include hw ho hn

theorem lookupLoop_round (h : o + DirEntry.sizeof ≤ f.size) (fuel : ℕ) :
    (f.Hit name o → f.lookupLoop name (fuel + 1) o = some (.found (f.entry o).inode o)) ∧
      (¬f.Hit name o → f.lookupLoop name (fuel + 1) o =
        f.lookupLoop name fuel (o + (f.entry o).recLen)) := by
  have hmod : (o + (f.entry o).recLen) % 2 ^ 32 = o + (f.entry o).recLen :=
    Nat.mod_eq_of_lt ((hw.next_le ho).trans_lt hw.size_lt)
  have hcmp : ((f.entry o).inode ≠ 0 ∧ ext2fsNamecmp name
      (strncpy (f.entry o).nameLen (f.entry o).name ++ [0]) = 0) ↔ f.Hit name o := by
    have hlen : (f.entry o).nameLen ≤ EXT2_NAME_LEN := Nat.lt_succ_iff.1 (nameLen_lt f o)
    constructor
    · rintro ⟨hlive, hc⟩
      exact ⟨⟨ho, hlive⟩, (ext2fsNamecmp_eq_zero_iff hn (length_name f o ▸ hlen) hlen
        (hw.named o ⟨ho, hlive⟩).2.2).1 hc⟩
    · intro hit
      exact ⟨hit.1.2, (ext2fsNamecmp_eq_zero_iff hn (length_name f o ▸ hlen) hlen
        (hw.named o hit.1).2.2).2 hit.2⟩
  rw [lookupLoop_step h hw.size_lt, hmod]
  exact ⟨fun hit => if_pos (hcmp.2 hit), fun hit => if_neg (mt hcmp.1 hit)⟩

end WellFormed

/-- What the result of a lookup that starts at `o` says about the records from there on. -/
def Outcome (f : File) (name : Bytes) (o : ℕ) : Lookup → Prop
  | .found i r => f.Hit name r ∧ r + DirEntry.sizeof ≤ f.size ∧ i = (f.entry r).inode
  | .absent => ∀ r, f.Record r → o ≤ r → ¬f.Hit name r ∧ r + DirEntry.sizeof ≤ f.size
  | .panic _ => ∃ p, f.Record p ∧ f.size < p + DirEntry.sizeof ∧
      ∀ r, f.Record r → o ≤ r → r < p → ¬f.Hit name r

variable {r : Lookup}

theorem Outcome.back (ho : f.Record o) (hit : ¬f.Hit name o)
    (h : o + DirEntry.sizeof ≤ f.size)
    (hr : f.Outcome name (o + (f.entry o).recLen) r) : f.Outcome name o r := by
  have hcase : ∀ r, f.Record r → o ≤ r → r = o ∨ o + (f.entry o).recLen ≤ r := by
    intro r hrec hle
    rcases Nat.lt_or_eq_of_le hle with hlt | heq
    · exact .inr (hrec.add_recLen_le ho hlt)
    · exact .inl heq.symm
  cases r with
  | found i r => exact hr
  | absent =>
    intro r hrec hle
    rcases hcase r hrec hle with rfl | hle
    · exact ⟨hit, h⟩
    · exact hr r hrec hle
  | panic msg =>
    obtain ⟨p, hp, hshort, hnone⟩ := hr
    refine ⟨p, hp, hshort, fun r hrec hle hlt => ?_⟩
    rcases hcase r hrec hle with rfl | hle
    · exact hit
    · exact hnone r hrec hle hlt

namespace WellFormed

variable (hw : f.WellFormed) (hn : (0 : UInt8) ∉ name)
include hw hn

/-- With enough fuel the loop stops, and its result is right. -/
theorem lookupLoop_outcome (o : ℕ) (ho : o = f.size ∨ f.Record o) :
    ∃ r, f.Outcome name o r ∧ ∀ fuel, f.size - o < fuel → f.lookupLoop name fuel o = some r := by
  induction hd : f.size - o using Nat.strong_induction_on generalizing o with
  | _ d ih =>
    rcases ho with rfl | ho
    · refine ⟨.absent, fun r hr hle => absurd hr.lt (Nat.not_lt.2 hle), fun fuel hfuel => ?_⟩
      obtain ⟨fuel, rfl⟩ : ∃ k, fuel = k + 1 := ⟨fuel - 1, by omega⟩
      simp [lookupLoop]
    · have hlt := ho.lt
      by_cases hshort : f.size < o + DirEntry.sizeof
      · refine ⟨.panic "ext2fs_dirlookup: read error", ⟨o, ho, hshort, fun r _ hle hlt =>
          absurd hlt (Nat.not_lt.2 hle)⟩, fun fuel hfuel => ?_⟩
        obtain ⟨fuel, rfl⟩ : ∃ k, fuel = k + 1 := ⟨fuel - 1, by omega⟩
        exact lookupLoop_short hw.size_lt hlt hshort fuel
      · have hroom := Nat.not_lt.1 hshort
        by_cases hit : f.Hit name o
        · refine ⟨.found (f.entry o).inode o, ⟨hit, hroom, rfl⟩, fun fuel hfuel => ?_⟩
          obtain ⟨fuel, rfl⟩ : ∃ k, fuel = k + 1 := ⟨fuel - 1, by omega⟩
          exact (hw.lookupLoop_round hn ho hroom fuel).1 hit
        · have hpos := hw.header o ho
          have hle := hw.next_le ho
          obtain ⟨r, hr, hfuel⟩ := ih (f.size - (o + (f.entry o).recLen)) (by omega) _
            (hw.next ho) rfl
          refine ⟨r, hr.back ho hit hroom, fun fuel hf => ?_⟩
          obtain ⟨fuel, rfl⟩ : ∃ k, fuel = k + 1 := ⟨fuel - 1, by omega⟩
          rw [(hw.lookupLoop_round hn ho hroom fuel).2 hit]
          exact hfuel fuel (by omega)

end WellFormed

theorem lookupLoop_succ {fuel : ℕ} (h : f.lookupLoop name fuel o = some r) :
    f.lookupLoop name (fuel + 1) o = some r := by
  induction fuel generalizing o with
  | zero => cases h
  | succ fuel ih =>
    rw [lookupLoop] at h ⊢
    dsimp only at h ⊢
    split_ifs at h ⊢
    · exact h
    · exact h
    · exact ih h
    · exact h

theorem lookupLoop_mono {fuel : ℕ} (k : ℕ) (h : f.lookupLoop name fuel o = some r) :
    f.lookupLoop name (fuel + k) o = some r := by
  induction k with
  | zero => exact h
  | succ k ih => exact lookupLoop_succ ih

theorem Looks.unique {r r' : Lookup} (h : f.Looks name r) (h' : f.Looks name r') : r = r' := by
  obtain ⟨n, hr⟩ := h
  obtain ⟨n', hr'⟩ := h'
  have h1 := lookupLoop_mono n' hr
  rw [Nat.add_comm, lookupLoop_mono n hr'] at h1
  exact (Option.some.inj h1).symm

namespace WellFormed

variable (hw : f.WellFormed) (hn : (0 : UInt8) ∉ name)
include hw hn

theorem looks : ∃ r, f.Looks name r ∧ f.Outcome name 0 r := by
  obtain ⟨r, hr, hfuel⟩ := hw.lookupLoop_outcome hn 0 start
  exact ⟨r, ⟨f.size + 1, hfuel _ (by omega)⟩, hr⟩

theorem outcome (h : f.Looks name r) : f.Outcome name 0 r := by
  obtain ⟨r', hr', hout⟩ := hw.looks hn
  rwa [h.unique hr']

/-- **A lookup finds a name exactly when a live record has it** and the record is not among the
last 263 bytes of the directory. -/
theorem looks_found_iff {i r : ℕ} : f.Looks name (.found i r) ↔
    f.Hit name r ∧ r + DirEntry.sizeof ≤ f.size ∧ i = (f.entry r).inode := by
  refine ⟨fun h => hw.outcome hn h, fun ⟨hit, hroom, hi⟩ => ?_⟩
  obtain ⟨res, hres, hout⟩ := hw.looks hn
  cases res with
  | found i' r' =>
    obtain ⟨hit', -, hi'⟩ := hout
    rwa [hi, hw.hit_unique hit hit', ← hi']
  | absent => exact absurd hit (hout r hit.1.1 (Nat.zero_le r)).1
  | panic msg =>
    obtain ⟨p, -, hshort, hnone⟩ := hout
    exact absurd hit (hnone r hit.1.1 (Nat.zero_le r) (by omega))

/-- **A lookup finds nothing exactly when no live record has the name** and no record starts
among the last 263 bytes of the directory. -/
theorem looks_absent_iff : f.Looks name .absent ↔
    ∀ r, f.Record r → ¬f.Hit name r ∧ r + DirEntry.sizeof ≤ f.size := by
  constructor
  · exact fun h r hr => hw.outcome hn h r hr (Nat.zero_le r)
  · intro h
    obtain ⟨res, hres, hout⟩ := hw.looks hn
    cases res with
    | found i r => exact absurd hout.1 (h r hout.1.1.1).1
    | absent => exact hres
    | panic msg =>
      obtain ⟨p, hp, hshort, -⟩ := hout
      exact absurd (h p hp).2 (Nat.not_le.2 hshort)

end WellFormed

end File

end Cinux
