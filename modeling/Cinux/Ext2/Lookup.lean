import Cinux.Ext2.Dir
import Cinux.System.Iteration

/-!
# Exact lookups, and lookups that end

`ext2fs_dirlookup` reads 264 bytes for every record, whatever its length.  In a well-formed
directory it is exact unless a record that it has to look at starts among the last 263 bytes, or the
name is longer than any entry and only its beginning is compared: `File.lookup_exact`.

Whatever the bytes of the directory are, the loop of a lookup is an iteration on offsets below
`2 ^ 32`, so it ends unless it comes back to an offset: `File.lookup_ends`.  In directories that are
not almost `2 ^ 32` bytes long only a record of length 0 can make it do so.
-/

namespace Cinux

namespace File

variable {f : File} {name : Bytes} {o p r : ℕ}

/-! ### Exact lookups -/

/-- The live record at `o` has exactly this name. -/
def Named (f : File) (name : Bytes) (o : ℕ) : Prop := f.Live o ∧ (f.entry o).text = name

/-- `ext2fs_dirlookup` finds the record with the name, wherever it is, and nothing if there is
none. -/
structure LookupExact (f : File) (name : Bytes) : Prop where
  noPanic : ∀ msg, ¬f.Looks name (.panic msg)
  absent : f.Looks name .absent ↔ ¬∃ o, f.Named name o
  found : ∀ o, f.Named name o → f.Looks name (.found (f.entry o).inode o)

/-- The record with the name is not among the last 263 bytes.  If there is none, no record is, and
none has the first 255 bytes of the name as its name. -/
structure LookupFits (f : File) (name : Bytes) : Prop where
  present : ∀ o, f.Named name o → o + DirEntry.sizeof ≤ f.size
  absent : (¬∃ o, f.Named name o) →
    ∀ r, f.Record r → ¬f.Hit name r ∧ r + DirEntry.sizeof ≤ f.size

theorem length_text_le (f : File) (o : ℕ) : (f.entry o).text.length ≤ EXT2_NAME_LEN := by
  rw [DirEntry.text, List.length_take, length_name]
  exact min_le_right _ _

theorem Named.hit (h : f.Named name o) : f.Hit name o := by
  refine ⟨h.1, ?_⟩
  have hlen := length_text_le f o
  rw [h.2] at hlen ⊢
  exact (List.take_of_length_le hlen).symm

/-- **`ext2fs_dirlookup` is exact exactly on the directories and names that fit.** -/
theorem lookup_exact (f : File) (name : Bytes) (hw : f.WellFormed)
    (hn : (0 : UInt8) ∉ name) : f.LookupExact name ↔ f.LookupFits name := by
  constructor
  · intro h
    refine ⟨fun o ho => ?_, fun hnone => ?_⟩
    · exact ((hw.looks_found_iff hn).1 (h.found o ho)).2.1
    · exact (hw.looks_absent_iff hn).1 (h.absent.2 hnone)
  · intro h
    refine ⟨fun msg hl => ?_, ⟨fun hl => ?_, fun hnone => ?_⟩, fun o ho => ?_⟩
    · -- a panic comes from a record at the end, before which the name has not been found
      obtain ⟨p, hp, hshort, hbefore⟩ := hw.outcome hn hl
      by_cases hname : ∃ o, f.Named name o
      · obtain ⟨o, ho⟩ := hname
        have hroom := h.present o ho
        exact hbefore o ho.1.1 (Nat.zero_le o) (by omega) ho.hit
      · exact absurd (h.absent hname p hp).2 (by omega)
    · rintro ⟨o, ho⟩
      exact ((hw.looks_absent_iff hn).1 hl o ho.1.1).1 ho.hit
    · exact (hw.looks_absent_iff hn).2 (h.absent hnone)
    · exact (hw.looks_found_iff hn).2 ⟨ho.hit, h.present o ho, rfl⟩

/-! ### Directories of three records -/

/-- The directory of one block with the entries `.`, `..` and `a`, where the record of `a` starts at
`p` and takes the rest of the block. -/
def dirAt (p : ℕ) : File where
  size := 1024
  block _ := fun j =>
    if j.val < p then
      [2, 0, 0, 0, 12, 0, 1, 2, 46, 0, 0, 0, 2, 0, 0, 0, byteOf (p - 12) 0, byteOf (p - 12) 1, 2, 2,
        46, 46].getD j.val 0
    else [12, 0, 0, 0, byteOf (1024 - p) 0, byteOf (1024 - p) 1, 1, 1, 97].getD (j.val - p) 0

/-- What the directory with the last record at `p` is, as far as a lookup sees it. -/
def DirAt (p : ℕ) : Prop :=
  (dirAt p).WellFormed ∧ (∀ r, (dirAt p).Record r ↔ r = 0 ∨ r = 12 ∨ r = p) ∧
    (dirAt p).Named [97] p

theorem dirAt_of_records (h : (dirAt p).RecordsAt [0, 12, p] ∧ ((dirAt p).entry p).inode ≠ 0 ∧
    ((dirAt p).entry p).text = [97]) : DirAt p := by
  obtain ⟨hl, hlive⟩ := h
  refine ⟨hl.wellFormed, fun r => ?_, ⟨hl.record.2 (by simp), hlive.1⟩, hlive.2⟩
  rw [hl.record]
  simp

theorem dirAt_24_780 : DirAt 24 ∧ DirAt 780 :=
  ⟨dirAt_of_records (by decide +kernel), dirAt_of_records (by decide +kernel)⟩

theorem dirAt_24 : DirAt 24 := dirAt_24_780.1

theorem dirAt_780 : DirAt 780 := dirAt_24_780.2

/-- With all records in the first part of the block the lookup of `a` is exact. -/
theorem lookup_exact_a : (dirAt 24).LookupFits [97] ∧ (dirAt 24).LookupExact [97] := by
  obtain ⟨hw, hrec, hname⟩ := dirAt_24
  have hfits : (dirAt 24).LookupFits [97] := by
    refine ⟨fun o ho => ?_, fun hnone => absurd ⟨_, hname⟩ hnone⟩
    rcases (hrec o).1 ho.1.1 with rfl | rfl | rfl <;> decide
  exact ⟨hfits, (lookup_exact (dirAt 24) [97] hw (by decide)).2 hfits⟩

/-- **With its record in the last 244 bytes of the directory the lookup of `a` panics.** -/
theorem lookup_panics : (dirAt 780).WellFormed ∧ (dirAt 780).Named [97] 780 ∧
    (∃ msg, (dirAt 780).Looks [97] (.panic msg)) ∧ ¬(dirAt 780).LookupExact [97] := by
  obtain ⟨hw, hrec, hname⟩ := dirAt_780
  have hno : ∀ r, (dirAt 780).Looks [97] r → ∃ msg, r = .panic msg := by
    intro r hl
    have hout := hw.outcome (by decide) hl
    cases r with
    | found i o =>
      obtain ⟨hit, hroom, -⟩ := hout
      rw [hw.hit_unique hit hname.hit] at hroom
      exact absurd hroom (by decide)
    | absent => exact absurd hname.hit (hout 780 hname.1.1 (Nat.zero_le _)).1
    | panic msg => exact ⟨msg, rfl⟩
  obtain ⟨r, hl, -⟩ : ∃ r, (dirAt 780).Looks [97] r ∧ (dirAt 780).Outcome [97] 0 r :=
    hw.looks (by decide)
  obtain ⟨msg, rfl⟩ := hno r hl
  exact ⟨hw, hname, ⟨msg, hl⟩, fun h => h.noPanic msg hl⟩

/-! ### Lookups that end -/

/-- A round of the loop of `ext2fs_dirlookup` at offset `o`: the offset of the next one, if there is
one. -/
def lookupNext (f : File) (name : Bytes) (o : ℕ) : Option ℕ :=
  if o + DirEntry.sizeof ≤ f.size ∧ ¬((f.entry o).inode ≠ 0 ∧
      ext2fsNamecmp name (strncpy (f.entry o).nameLen (f.entry o).name ++ [0]) = 0) then
    some ((o + (f.entry o).recLen) % 2 ^ 32)
  else none

section Ends

variable (hs : f.size < 2 ^ 32)

include hs

theorem lookupLoop_next (name : Bytes) (o fuel : ℕ) :
    match f.lookupNext name o with
    | none => ∃ r, f.lookupLoop name (fuel + 1) o = some r
    | some o' => f.lookupLoop name (fuel + 1) o = f.lookupLoop name fuel o' := by
  by_cases hroom : o + DirEntry.sizeof ≤ f.size
  · rw [lookupLoop_step hroom hs, lookupNext]
    by_cases hmatch : (f.entry o).inode ≠ 0 ∧
        ext2fsNamecmp name (strncpy (f.entry o).nameLen (f.entry o).name ++ [0]) = 0
    · rw [if_neg fun h => h.2 hmatch, if_pos hmatch]
      exact ⟨_, rfl⟩
    · rw [if_pos ⟨hroom, hmatch⟩, if_neg hmatch]
  · rw [lookupNext, if_neg fun h => hroom h.1]
    by_cases ho : o < f.size
    · exact ⟨_, lookupLoop_short hs ho (by omega) fuel⟩
    · exact ⟨.absent, if_neg ho⟩

theorem halts_iff_lookupLoop :
    Iteration.Halts (f.lookupNext name) o ↔ ∃ fuel r, f.lookupLoop name fuel o = some r := by
  constructor
  · intro h
    induction h with
    | @stop o hn =>
      have := lookupLoop_next hs name o 0
      rw [hn] at this
      exact ⟨1, this⟩
    | @round o o' hn _ ih =>
      obtain ⟨fuel, r, hr⟩ := ih
      have := lookupLoop_next hs name o fuel
      rw [hn] at this
      exact ⟨fuel + 1, r, this.trans hr⟩
  · rintro ⟨fuel, r, hr⟩
    induction fuel generalizing o with
    | zero => cases hr
    | succ fuel ih =>
      have hstep := lookupLoop_next hs name o fuel
      cases hn : f.lookupNext name o with
      | none => exact .stop hn
      | some o' =>
        rw [hn] at hstep
        exact .round hn (ih (hstep.symm.trans hr))

end Ends

theorem lookupNext_lt {o' : ℕ} (h : f.lookupNext name o = some o') : o' < 2 ^ 32 := by
  unfold lookupNext at h
  split_ifs at h
  cases h
  exact Nat.mod_lt _ (by decide)

theorem finite_reaches (f : File) (name : Bytes) :
    {o | Iteration.Reaches (f.lookupNext name) 0 o}.Finite := by
  refine (Set.finite_lt_nat (2 ^ 32)).subset fun o ho => ?_
  rcases Relation.ReflTransGen.cases_tail ho with rfl | ⟨_, -, hstep⟩
  · exact Nat.two_pow_pos 32
  · exact lookupNext_lt hstep

/-- The loop of `ext2fs_dirlookup` gets to offset `o`, and does not end there. -/
def PassesOver (f : File) (name : Bytes) (o : ℕ) : Prop :=
  Iteration.Reaches (f.lookupNext name) 0 o ∧ (f.lookupNext name o).isSome

theorem lookupNext_of_small (hs : f.size + 2 ^ 16 ≤ 2 ^ 32) {o' : ℕ}
    (h : f.lookupNext name o = some o') : o' = o + (f.entry o).recLen := by
  unfold lookupNext at h
  split_ifs at h with hc
  cases h
  have hlen : (f.entry o).recLen < 2 ^ 16 := le16_lt _ _
  have hroom := hc.1
  exact Nat.mod_eq_of_lt (by omega)

theorem cycle_of_small (hs : f.size + 2 ^ 16 ≤ 2 ^ 32) {o' : ℕ}
    (h : Relation.TransGen (Iteration.Leads (f.lookupNext name)) o o') :
    o < o' ∨ o' = o ∧ (f.entry o).recLen = 0 := by
  induction h with
  | single hstep =>
    have := lookupNext_of_small hs hstep
    omega
  | tail _ hstep ih =>
    have := lookupNext_of_small hs hstep
    rcases ih with hlt | ⟨rfl, hz⟩
    · omega
    · omega

/-- **When a lookup ends.**  For every directory and every name the loop of `ext2fs_dirlookup` ends
exactly if no record that it passes over leads back to itself; and in a directory of at most
`2 ^ 32 - 2 ^ 16` bytes, exactly if no record that it passes over has length 0. -/
theorem lookup_ends (f : File) (name : Bytes) (hs : f.size < 2 ^ 32) :
    ((∃ r, f.Looks name r) ↔ ¬∃ o, f.PassesOver name o ∧
      Relation.TransGen (Iteration.Leads (f.lookupNext name)) o o) ∧
    (f.size + 2 ^ 16 ≤ 2 ^ 32 →
      ((∃ r, f.Looks name r) ↔ ∀ o, f.PassesOver name o → (f.entry o).recLen ≠ 0)) := by
  have hends : (∃ r, f.Looks name r) ↔ ¬∃ o, f.PassesOver name o ∧
      Relation.TransGen (Iteration.Leads (f.lookupNext name)) o o := by
    have hhalts : (∃ r, f.Looks name r) ↔ Iteration.Halts (f.lookupNext name) 0 := by
      rw [halts_iff_lookupLoop hs]
      exact exists_comm
    rw [hhalts, Iteration.halts_iff (finite_reaches f name)]
    refine not_congr (exists_congr fun o => ⟨fun ⟨hr, hc⟩ => ⟨⟨hr, ?_⟩, hc⟩,
      fun ⟨hp, hc⟩ => ⟨hp.1, hc⟩⟩)
    obtain ⟨o', hstep, -⟩ := Relation.TransGen.head'_iff.1 hc
    exact Option.isSome_iff_exists.2 ⟨o', hstep⟩
  refine ⟨hends, fun hsmall => hends.trans ?_⟩
  constructor
  · intro hno o hp hz
    obtain ⟨o', hstep⟩ := Option.isSome_iff_exists.1 hp.2
    refine hno ⟨o, hp, .single ?_⟩
    rw [Iteration.Leads, hstep, lookupNext_of_small hsmall hstep, hz, Nat.add_zero]
  · rintro hpos ⟨o, hp, hc⟩
    rcases cycle_of_small hsmall hc with hlt | ⟨-, hz⟩
    · exact lt_irrefl o hlt
    · exact hpos o hp hz

/-- The lookup of `a` goes over two records and ends at the third. -/
theorem lookup_ends_a : (∀ o, (dirAt 24).PassesOver [97] o → ((dirAt 24).entry o).recLen ≠ 0) ∧
    ∃ r, (dirAt 24).Looks [97] r := by
  have hnext : (dirAt 24).lookupNext [97] 0 = some 12 ∧ (dirAt 24).lookupNext [97] 12 = some 24 ∧
      (dirAt 24).lookupNext [97] 24 = none := by
    decide +kernel
  have hreach : ∀ o, Iteration.Reaches ((dirAt 24).lookupNext [97]) 0 o →
      o = 0 ∨ o = 12 ∨ o = 24 := by
    intro o ho
    induction ho with
    | refl => exact .inl rfl
    | tail _ hstep ih =>
      rcases ih with rfl | rfl | rfl
      · exact .inr (.inl (Option.some.inj (hstep.symm.trans hnext.1)))
      · exact .inr (.inr (Option.some.inj (hstep.symm.trans hnext.2.1)))
      · exact nomatch hstep.symm.trans hnext.2.2
  have hpos : ∀ o, (dirAt 24).PassesOver [97] o → ((dirAt 24).entry o).recLen ≠ 0 := by
    intro o ho
    rcases hreach o ho.1 with rfl | rfl | rfl <;> decide +kernel
  exact ⟨hpos, ((lookup_ends (dirAt 24) [97] (by decide)).2 (by decide)).2 hpos⟩

/-- **In a directory block of zeros the lookup of `a` does not end.** -/
theorem lookup_hangs : (⟨1024, fun _ => Block.zero⟩ : File).size < 2 ^ 32 ∧
    ¬∃ r, File.Looks ⟨1024, fun _ => Block.zero⟩ [97] r := by
  refine ⟨by decide, ?_⟩
  have hself : lookupNext ⟨1024, fun _ => Block.zero⟩ [97] 0 = some 0 := by
    have hentry : (entry ⟨1024, fun _ => Block.zero⟩ 0).inode = 0 ∧
        (entry ⟨1024, fun _ => Block.zero⟩ 0).recLen = 0 := by decide +kernel
    rfl
  rintro ⟨r, fuel, hr⟩
  have hhalts := (halts_iff_lookupLoop (by decide)).2 ⟨fuel, r, hr⟩
  exact hhalts.not_cycle (.single hself)

end File

end Cinux
