import Cinux.Ext2.Dirlink

/-!
# When a directory behaves as a map

`ext2fs_dirlink` inserts into a well-formed directory as into a map exactly when `File.Fits` holds
(`File.inserts_iff_fits`).  A directory as `mke2fs` leaves it does not: its two records fill one
block, the search stops inside the second, and the size becomes 1288.
-/

namespace Cinux

open Function

open DirEntry

namespace File

variable {f : File} {o r : ℕ} {c : Call}

/-! ### The new directory is well formed -/

/-- An entry of the call `c` can be put at `o`: at the start of a block, or behind the last. -/
structure Place (f : File) (o : ℕ) : Prop where
  block : BSIZE ∣ o
  le : o ≤ f.size
  lt : o + BSIZE < 2 ^ 32

theorem text_take (f : File) (r : ℕ) : (f.entry r).text.take EXT2_NAME_LEN = (f.entry r).text :=
  List.take_of_length_le ((List.length_take_le _ _).trans (Nat.lt_succ_iff.1 (nameLen_lt f r)))

theorem take_name (hc : c.Ok) : c.name.take EXT2_NAME_LEN = c.name :=
  List.take_of_length_le (hc.short.trans (by decide))

theorem hit_of_text (hc : c.Ok) (h : f.Live r) (ht : (f.entry r).text = c.name) :
    f.Hit c.name r :=
  ⟨h, by rw [ht, take_name hc]⟩

variable {m : Bytes}

theorem eq_name_of_take (hc : c.Ok) (h : c.name = m.take EXT2_NAME_LEN) :
    m = c.name := by
  have hlen := congrArg List.length h
  rw [List.length_take] at hlen
  have hshort := hc.short
  rw [h, List.take_of_length_le]
  simp only [EXT2_NAME_LEN] at *
  omega

namespace Place

theorem text_self (hp : f.Place o) (hc : c.Ok) : ((c.insert f o).entry o).text = c.name := by
  rw [entry_insert_self hp.lt hc]
  exact text_link hc.noNul (hc.short.trans (by decide)) _

theorem nameLen_self (hp : f.Place o) (hc : c.Ok) :
    ((c.insert f o).entry o).nameLen = c.name.length := by
  have hshort := hc.short
  rw [entry_insert_self hp.lt hc]
  simp only [link, strlen, cstr_of_not_mem hc.noNul]
  omega

variable (hp : f.Place o) (hw : f.WellFormed)
include hp hw

theorem add_recLen_le (hr : f.Record r) (h : r < o) : r + (f.entry r).recLen ≤ o := by
  have hin := hw.inside r hr
  have hb := hp.block
  simp only [BSIZE] at *
  omega

theorem recLen_eq (hr : f.Record r) (h : r < o) :
    ((c.insert f o).entry r).recLen = (f.entry r).recLen :=
  (entry_insert_below hp.lt (hp.add_recLen_le hw hr h) (hw.header r hr)).2.1

theorem nameLen_eq (hr : f.Record r) (h : r < o) :
    ((c.insert f o).entry r).nameLen = (f.entry r).nameLen :=
  (entry_insert_below hp.lt (hp.add_recLen_le hw hr h) (hw.header r hr)).2.2.1

theorem inode_eq (hr : f.Record r) (h : r < o) :
    ((c.insert f o).entry r).inode = (f.entry r).inode :=
  (entry_insert_below hp.lt (hp.add_recLen_le hw hr h) (hw.header r hr)).1

theorem text_eq (hr : f.Live r) (h : r < o) :
    ((c.insert f o).entry r).text = (f.entry r).text :=
  (entry_insert_below hp.lt (hp.add_recLen_le hw hr.1 h) (hw.header r hr.1)).2.2.2
    (hw.named r hr).2.1

theorem record_of_le (hr : f.Record r) (h : r ≤ o) : (c.insert f o).Record r := by
  have hsize : (c.insert f o).size = o + BSIZE := insert_size hp.lt
  have hpos : 0 < BSIZE := by decide
  induction hr with
  | first _ => exact .first (by omega)
  | @next r hr _ ih =>
    have hbelow : r < o := by
      have := hw.header r hr
      omega
    have hstep : ((c.insert f o).entry r).recLen = (f.entry r).recLen := hp.recLen_eq hw hr hbelow
    rw [← hstep] at h ⊢
    exact .next (ih hbelow.le) (by omega)

variable (hc : c.Ok)
include hc

theorem record_cases (h : (c.insert f o).Record r) : f.Record r ∧ r < o ∨ r = o := by
  induction h with
  | first _ =>
    rcases Nat.eq_zero_or_pos o with h0 | h0
    · exact .inr h0.symm
    · exact .inl ⟨.first (h0.trans_le hp.le), h0⟩
  | @next r hr hlt ih =>
    rw [insert_size hp.lt] at hlt
    rcases ih with ⟨hold, hbelow⟩ | rfl
    · rw [hp.recLen_eq hw hold hbelow] at hlt ⊢
      rcases Nat.lt_or_eq_of_le (hp.add_recLen_le hw hold hbelow) with h | h
      · exact .inl ⟨.next hold (h.trans_le hp.le), h⟩
      · exact .inr h
    · have : (link c.name c.inum).recLen = BSIZE := rfl
      rw [entry_insert_self hp.lt hc, this] at hlt
      exact absurd hlt (lt_irrefl _)

theorem live_cases (h : (c.insert f o).Live r) : f.Live r ∧ r < o ∨ r = o := by
  rcases hp.record_cases hw hc h.1 with ⟨hr, hlt⟩ | hr
  · exact .inl ⟨⟨hr, hp.inode_eq hw hr hlt ▸ h.2⟩, hlt⟩
  · exact .inr hr

/-- **Inserting a name that is not there keeps the directory well formed.** -/
theorem wellFormed_insert (hnew : ¬∃ o, f.Hit c.name o) : (c.insert f o).WellFormed where
  size_lt := by
    rw [insert_size hp.lt]
    exact hp.lt
  whole := by
    rw [insert_size hp.lt]
    exact Nat.dvd_add hp.block (dvd_refl _)
  header r hr := by
    rcases hp.record_cases hw hc hr with ⟨hold, hlt⟩ | rfl
    · rw [hp.recLen_eq hw hold hlt]
      exact hw.header r hold
    · rw [entry_insert_self hp.lt hc]
      simp [link, BSIZE]
  inside r hr := by
    rcases hp.record_cases hw hc hr with ⟨hold, hlt⟩ | rfl
    · rw [hp.recLen_eq hw hold hlt]
      exact hw.inside r hold
    · rw [entry_insert_self hp.lt hc, Nat.mod_eq_zero_of_dvd hp.block, Nat.zero_add]
      simp [link]
  named r hr := by
    rcases hp.live_cases hw hc hr with ⟨hold, hlt⟩ | rfl
    · rw [hp.recLen_eq hw hold.1 hlt, hp.nameLen_eq hw hold.1 hlt, hp.text_eq hw hold hlt]
      exact hw.named r hold
    · rw [hp.nameLen_self hc, hp.text_self hc, entry_insert_self hp.lt hc]
      have hshort := hc.short
      exact ⟨hc.nonempty, by simp only [link, BSIZE]; omega, hc.noNul⟩
  unique r r' hr hr' ht := by
    rcases hp.live_cases hw hc hr with ⟨hold, hlt⟩ | rfl <;>
      rcases hp.live_cases hw hc hr' with ⟨hold', hlt'⟩ | rfl
    · rw [hp.text_eq hw hold hlt, hp.text_eq hw hold' hlt'] at ht
      exact hw.unique r r' hold hold' ht
    · rw [hp.text_eq hw hold hlt, hp.text_self hc] at ht
      exact absurd ⟨r, hit_of_text hc hold ht⟩ hnew
    · rw [hp.text_eq hw hold' hlt', hp.text_self hc] at ht
      exact absurd ⟨r', hit_of_text hc hold' ht.symm⟩ hnew
    · rfl

theorem record_self (hnew : ¬∃ o, f.Hit c.name o) : (c.insert f o).Record o := by
  refine (hp.wellFormed_insert hw hc hnew).record_block hp.block ?_
  rw [insert_size hp.lt]
  simp [BSIZE]

theorem hit_self (hnew : ¬∃ o, f.Hit c.name o) : (c.insert f o).Hit c.name o := by
  refine ⟨⟨hp.record_self hw hc hnew, ?_⟩, (hp.text_self hc).trans (take_name hc).symm⟩
  rw [entry_insert_self hp.lt hc]
  exact hc.inum_pos.ne'

theorem hit_iff (hm : m ≠ c.name) :
    (c.insert f o).Hit m r ↔ f.Hit m r ∧ r < o := by
  constructor
  · rintro ⟨hlive, ht⟩
    rcases hp.live_cases hw hc hlive with ⟨hold, hlt⟩ | rfl
    · rw [hp.text_eq hw hold hlt] at ht
      exact ⟨⟨hold, ht⟩, hlt⟩
    · rw [hp.text_self hc] at ht
      exact absurd (eq_name_of_take hc ht) hm
  · rintro ⟨⟨hlive, ht⟩, hlt⟩
    refine ⟨⟨hp.record_of_le hw hlive.1 hlt.le, (hp.inode_eq hw hlive.1 hlt).trans_ne hlive.2⟩, ?_⟩
    rw [hp.text_eq hw hlive hlt, ht]

end Place

/-! ### The condition is exact -/

theorem FirstFree.place (h : f.FirstFree o) (ho : BSIZE ∣ o) : f.Place o where
  block := ho
  le := h.le
  lt := by
    have := h.lt
    simp only [BSIZE]
    omega

theorem FirstFree.slotLoop_size (hw : f.WellFormed) (h : f.FirstFree o) (ho : BSIZE ∣ o)
    (fuel : ℕ) (hfuel : f.size < fuel) : f.slotLoop fuel 0 = some (.ok o) :=
  h.slotLoop hw ho (h.le.trans_lt hfuel)

theorem links_ret {dinum : ℕ} {f' : File} {v : ℤ} (hs : f.size < 2 ^ 32)
    (h : f.Links dinum c (.ret v f')) :
    (∃ i r, f.Looks c.name (.found i r) ∧ i ≠ dinum ∧ v = -1 ∧ f' = f) ∨
      f.Looks c.name .absent ∧ ∃ o, f.FirstFree o ∧ v = 0 ∧ f' = c.insert f o := by
  obtain ⟨fuel, h⟩ := h
  obtain ⟨i, r, hl, hi, hv, hf⟩ | ⟨hl, o, hslot, hv, hf⟩ := ext2fsDirlink_ret h
  · exact .inl ⟨i, r, ⟨fuel, hl⟩, hi, hv, hf⟩
  · exact .inr ⟨⟨fuel, hl⟩, o, .of_slotLoop hs hslot, hv, hf⟩

section Exact

variable {dinum : ℕ} (hw : f.WellFormed) (hc : c.Ok)
include hw hc

theorem Fits.links_present (hfit : f.Fits dinum c.name) (hit : f.Hit c.name o) :
    f.Links dinum c (.ret (-1) f) := by
  obtain ⟨hroom, hother⟩ := hfit.present o hit
  obtain ⟨fuel, hl⟩ := (hw.looks_found_iff hc.noNul).2 ⟨hit, hroom, rfl⟩
  refine ⟨fuel, ?_⟩
  simp only [ext2fsDirlink, hl, if_neg hother]

theorem links_insert (hroom : ∀ r, f.Record r → r + sizeof ≤ f.size)
    (hnew : ¬∃ o, f.Hit c.name o)
    (hslot : ∀ fuel, f.size < fuel → f.slotLoop fuel 0 = some (.ok o)) :
    f.Links dinum c (.ret 0 (c.insert f o)) := by
  have hnone : ∀ r, f.Record r → ¬f.Hit c.name r ∧ r + sizeof ≤ f.size :=
    fun r hr => ⟨fun hit => hnew ⟨r, hit⟩, hroom r hr⟩
  obtain ⟨res, hout, hfuel⟩ := hw.lookupLoop_outcome hc.noNul 0 start
  obtain ⟨fuel, hlt⟩ : ∃ fuel, f.size < fuel := ⟨_, Nat.lt_succ_self _⟩
  have hlook : f.ext2fsDirlookup c.name fuel = some res := hfuel fuel hlt
  have hres : res = .absent := Looks.unique ⟨fuel, hlook⟩ ((hw.looks_absent_iff hc.noNul).2 hnone)
  refine ⟨fuel, ?_⟩
  unfold ext2fsDirlink
  rw [hlook, hres]
  rw [hslot fuel hlt]
  rfl

/-- In the new directory a lookup of another name ends as before. -/
theorem looks_insert_iff (hp : f.Place o) (hnew : ¬∃ o, f.Hit c.name o)
    (hroom : ∀ r, f.Record r → r + sizeof ≤ f.size) (hbelow : ∀ r, f.Live r → r < o)
    (hm : (0 : UInt8) ∉ m) (hne : m ≠ c.name) (res : Lookup) :
    (c.insert f o).Looks m res ↔ f.Looks m res := by
  have hw' := hp.wellFormed_insert hw hc hnew
  have hroom' : ∀ r, (c.insert f o).Record r → r + sizeof ≤ (c.insert f o).size := by
    intro r hr
    have hle : r ≤ o := by
      rcases hp.record_cases hw hc hr with ⟨_, h⟩ | h
      · exact h.le
      · exact h.le
    rw [insert_size hp.lt]
    simp only [sizeof, BSIZE]
    omega
  have hhit : ∀ r, (c.insert f o).Hit m r ↔ f.Hit m r := fun r => by
    rw [hp.hit_iff hw hc hne]
    exact ⟨And.left, fun h => ⟨h, hbelow r h.1⟩⟩
  cases res with
  | found i r =>
    rw [hw.looks_found_iff hm, hw'.looks_found_iff hm, hhit]
    refine and_congr_right fun hit => ?_
    have hi : ((c.insert f o).entry r).inode = (f.entry r).inode :=
      hp.inode_eq hw hit.1.1 (hbelow r hit.1)
    rw [hi]
    exact and_congr_left fun _ => iff_of_true (hroom' r ((hhit r).2 hit).1.1) (hroom r hit.1.1)
  | absent =>
    rw [hw.looks_absent_iff hm, hw'.looks_absent_iff hm]
    constructor
    · exact fun h r hr => ⟨fun hit => (h r ((hhit r).2 hit).1.1).1 ((hhit r).2 hit), hroom r hr⟩
    · exact fun h r hr => ⟨fun hit => (h r ((hhit r).1 hit).1.1).1 ((hhit r).1 hit), hroom' r hr⟩
  | panic msg =>
    refine iff_of_false (fun h => ?_) fun h => ?_
    · obtain ⟨p, hrec, hshort, -⟩ := hw'.outcome hm h
      exact absurd (hroom' p hrec) (Nat.not_le.2 hshort)
    · obtain ⟨p, hrec, hshort, -⟩ := hw.outcome hm h
      exact absurd (hroom p hrec) (Nat.not_le.2 hshort)

theorem Fits.inserts (hfit : f.Fits dinum c.name) : f.Inserts dinum c where
  present := fun ⟨_, hit⟩ => hfit.links_present hw hc hit
  absent hnew := by
    obtain ⟨hroom, o, hfree, ho, hbelow⟩ := hfit.absent hnew
    have hp := hfree.place ho
    have hw' := hp.wellFormed_insert hw hc hnew
    refine ⟨c.insert f o, links_insert hw hc hroom hnew (hfree.slotLoop_size hw ho), hw', ⟨o, ?_⟩,
      fun m hm hne res => looks_insert_iff hw hc hp hnew hroom hbelow hm hne res⟩
    refine (hw'.looks_found_iff hc.noNul).2 ⟨hp.hit_self hw hc hnew, ?_, ?_⟩
    · rw [insert_size hp.lt]
      simp [sizeof, BSIZE]
    · rw [entry_insert_self hp.lt hc]
      rfl

theorem Inserts.fits (hins : f.Inserts dinum c) : f.Fits dinum c.name where
  present o hit := by
    rcases links_ret hw.size_lt (hins.present ⟨o, hit⟩) with ⟨i, r, hl, hi, -⟩ | ⟨hl, -⟩
    · obtain ⟨hit', hroom, hi'⟩ := (hw.looks_found_iff hc.noNul).1 hl
      obtain rfl := hw.hit_unique hit hit'
      exact ⟨hroom, hi' ▸ hi⟩
    · exact absurd hit ((hw.looks_absent_iff hc.noNul).1 hl o hit.1.1).1
  absent hnew := by
    obtain ⟨f', hlinks, hw', -, hsame⟩ := hins.absent hnew
    rcases links_ret hw.size_lt hlinks with ⟨i, r, hl, -, h, -⟩ | ⟨hl, o, hfree, -, rfl⟩
    · cases h
    · have hnone := (hw.looks_absent_iff hc.noNul).1 hl
      have hlt : o + BSIZE < 2 ^ 32 := by
        have := hfree.lt
        simp only [BSIZE]
        omega
      have hsize : (c.insert f o).size = o + BSIZE := insert_size hlt
      have ho : BSIZE ∣ o := by
        have := hw'.whole
        rw [hsize] at this
        exact (Nat.dvd_add_left (dvd_refl _)).1 this
      refine ⟨fun r hr => (hnone r hr).2, o, hfree, ho, fun r hr => ?_⟩
      by_contra hge
      -- the name of a live record at or behind `o` is found in the new directory too, where
      -- only the new entry is left there
      have hname : (f.entry r).text ≠ c.name := fun h => (hnone r hr.1).1 (hit_of_text hc hr h)
      have hlook : f.Looks (f.entry r).text (.found (f.entry r).inode r) :=
        (hw.looks_found_iff (hw.named r hr).2.2).2
          ⟨⟨hr, (text_take f r).symm⟩, (hnone r hr.1).2, rfl⟩
      have hit' := ((hw'.looks_found_iff (hw.named r hr).2.2).1
        ((hsame _ (hw.named r hr).2.2 hname _).2 hlook)).1
      exact hge (((hfree.place ho).hit_iff hw hc hname).1 hit').2

end Exact

/-- **`ext2fs_dirlink` inserts as into a map exactly when the directory fits.** -/
theorem inserts_iff_fits {dinum : ℕ} (hw : f.WellFormed) (hc : c.Ok) :
    f.Inserts dinum c ↔ f.Fits dinum c.name :=
  ⟨Inserts.fits hw hc, Fits.inserts hw hc⟩

/-! ### Sequences of insertions -/

/-- The map that a directory stands for: the live names with their inode numbers. -/
def Represents (f : File) (μ : Bytes → Option ℕ) : Prop :=
  ∀ m i, (0 : UInt8) ∉ m → (μ m = some i ↔ ∃ o, f.Hit m o ∧ (f.entry o).inode = i)

/-- Insertion into a map, with the result of the call. -/
def Call.mapInsert (c : Call) (μ : Bytes → Option ℕ) : ℤ × (Bytes → Option ℕ) :=
  if (μ c.name).isSome then (-1, μ) else (0, update μ c.name (some c.inum))

/-- A sequence of insertions into a map, with the results of the calls. -/
def mapInsertAll (μ : Bytes → Option ℕ) : List Call → List ℤ × (Bytes → Option ℕ)
  | [] => ([], μ)
  | c :: cs =>
    ((c.mapInsert μ).1 :: (mapInsertAll (c.mapInsert μ).2 cs).1,
      (mapInsertAll (c.mapInsert μ).2 cs).2)

/-- Calls of `ext2fs_dirlink` one after the other, with their results. -/
inductive Runs (dinum : ℕ) : File → List Call → List ℤ → File → Prop
  | nil {f : File} : Runs dinum f [] [] f
  | cons {f f' f'' : File} {c : Call} {cs : List Call} {v : ℤ} {vs : List ℤ} :
      f.Links dinum c (.ret v f') → Runs dinum f' cs vs f'' → Runs dinum f (c :: cs) (v :: vs) f''

/-- Every call of the sequence finds a directory that fits. -/
def FitsAll (dinum : ℕ) : File → List Call → Prop
  | _, [] => True
  | f, c :: cs => f.Fits dinum c.name ∧ ∀ v f', f.Links dinum c (.ret v f') → FitsAll dinum f' cs

section Map

variable {dinum : ℕ} {μ : Bytes → Option ℕ}

theorem Represents.isSome_iff (hμ : f.Represents μ) (hc : c.Ok) :
    (μ c.name).isSome ↔ ∃ o, f.Hit c.name o := by
  rw [Option.isSome_iff_exists]
  constructor
  · rintro ⟨i, hi⟩
    obtain ⟨o, hit, -⟩ := (hμ _ i hc.noNul).1 hi
    exact ⟨o, hit⟩
  · rintro ⟨o, hit⟩
    exact ⟨_, (hμ _ _ hc.noNul).2 ⟨o, hit, rfl⟩⟩

theorem Represents.insert (hμ : f.Represents μ) (hw : f.WellFormed) (hc : c.Ok) (hp : f.Place o)
    (hnew : ¬∃ o, f.Hit c.name o) (hbelow : ∀ r, f.Live r → r < o) :
    (c.insert f o).Represents (update μ c.name (some c.inum)) := by
  intro m i hm
  by_cases hne : m = c.name
  · subst hne
    have hself := hp.hit_self hw hc hnew
    have hinode : ((c.insert f o).entry o).inode = c.inum := by
      rw [entry_insert_self hp.lt hc]
      rfl
    rw [update_self, Option.some.injEq]
    constructor
    · rintro rfl
      exact ⟨o, hself, hinode⟩
    · rintro ⟨r, hit, rfl⟩
      rw [← (hp.wellFormed_insert hw hc hnew).hit_unique hself hit, hinode]
  · rw [update_of_ne hne, hμ m i hm]
    refine exists_congr fun r => ?_
    rw [hp.hit_iff hw hc hne]
    constructor
    · rintro ⟨hit, hi⟩
      have hlt := hbelow r hit.1
      exact ⟨⟨hit, hlt⟩, (hp.inode_eq hw hit.1.1 hlt).trans hi⟩
    · rintro ⟨⟨hit, hlt⟩, hi⟩
      exact ⟨hit, (hp.inode_eq hw hit.1.1 hlt).symm.trans hi⟩

theorem Fits.links (hfit : f.Fits dinum c.name) (hw : f.WellFormed) (hc : c.Ok)
    (hμ : f.Represents μ) :
    ∃ f', f.Links dinum c (.ret (c.mapInsert μ).1 f') ∧ f'.WellFormed ∧
      f'.Represents (c.mapInsert μ).2 := by
  unfold Call.mapInsert
  by_cases hit : ∃ o, f.Hit c.name o
  · rw [if_pos ((hμ.isSome_iff hc).2 hit)]
    obtain ⟨o, hit⟩ := hit
    exact ⟨f, hfit.links_present hw hc hit, hw, hμ⟩
  · rw [if_neg (mt (hμ.isSome_iff hc).1 hit)]
    obtain ⟨hroom, o, hfree, ho, hbelow⟩ := hfit.absent hit
    have hp := hfree.place ho
    exact ⟨c.insert f o, links_insert hw hc hroom hit (hfree.slotLoop_size hw ho),
      hp.wellFormed_insert hw hc hit, hμ.insert hw hc hp hit hbelow⟩

theorem FitsAll.runs {cs : List Call} (hfit : FitsAll dinum f cs) (hw : f.WellFormed)
    (hcs : ∀ c ∈ cs, c.Ok) (hμ : f.Represents μ) :
    ∃ f', Runs dinum f cs (mapInsertAll μ cs).1 f' ∧ f'.WellFormed ∧
      f'.Represents (mapInsertAll μ cs).2 := by
  induction cs generalizing f μ with
  | nil => exact ⟨f, .nil, hw, hμ⟩
  | cons c cs ih =>
    obtain ⟨f', hlinks, hw', hμ'⟩ := hfit.1.links hw (hcs c (by simp)) hμ
    obtain ⟨f'', hruns, hw'', hμ''⟩ :=
      ih (hfit.2 _ f' hlinks) hw' (fun c hc => hcs c (by simp [hc])) hμ'
    exact ⟨f'', .cons hlinks hruns, hw'', hμ''⟩

theorem Represents.looks (hμ : f.Represents μ) (hw : f.WellFormed) (hm : (0 : UInt8) ∉ m) :
    (∀ i o, f.Looks m (.found i o) → μ m = some i) ∧ (f.Looks m .absent → μ m = none) := by
  constructor
  · intro i o hl
    obtain ⟨hit, -, rfl⟩ := (hw.looks_found_iff hm).1 hl
    exact (hμ m _ hm).2 ⟨o, hit, rfl⟩
  · intro hl
    have hnone := (hw.looks_absent_iff hm).1 hl
    refine Option.eq_none_iff_forall_ne_some.2 fun i hi => ?_
    obtain ⟨o, hit, -⟩ := (hμ m i hm).1 hi
    exact (hnone o hit.1.1).1 hit

end Map

/-- `ext2fs_dirlink(dp, "a", 12)`, with zeros on the stack. -/
def linkA : Call := ⟨[97], 12, fun _ => 0⟩

theorem linkA_ok : linkA.Ok where
  nonempty := by decide
  short := by decide
  noNul := by decide
  noSlash := by decide
  inum_pos := by decide
  inum_lt := by decide

/-- The root directory that `mke2fs` makes: the records of `.` and `..` in one block. -/
def rootDir : File where
  size := 1024
  block _ := fun j =>
    [2, 0, 0, 0, 12, 0, 1, 2, 46, 0, 0, 0, 2, 0, 0, 0, 244, 3, 2, 2, 46, 46].getD j.val 0

theorem entries_rootDir : rootDir.RecordsAt [0, 12] ∧
    ((rootDir.entry 0).text = [46] ∧ (rootDir.entry 12).text = [46, 46]) ∧
    (rootDir.entry 0).inode = 2 ∧ (rootDir.entry sizeof).inode = 0 := by
  decide +kernel

theorem record_rootDir {r : ℕ} (h : rootDir.Record r) : r = 0 ∨ r = 12 := by
  simpa using entries_rootDir.1.record.1 h

theorem wellFormed_rootDir : rootDir.WellFormed := entries_rootDir.1.wellFormed

theorem not_hit_rootDir : ¬∃ o, rootDir.Hit linkA.name o := by
  rintro ⟨o, ⟨hrec, -⟩, ht⟩
  obtain ⟨-, ⟨h0, h12⟩, -⟩ := entries_rootDir
  rcases record_rootDir hrec with rfl | rfl
  · exact absurd (h0.symm.trans ht) (by decide)
  · exact absurd (h12.symm.trans ht) (by decide)

theorem inode_rootDir :
    (rootDir.entry 0).inode = 2 ∧ (rootDir.entry sizeof).inode = 0 :=
  entries_rootDir.2.2

theorem slotLoop_rootDir (fuel : ℕ) (h : rootDir.size < fuel) :
    rootDir.slotLoop fuel 0 = some (.ok sizeof) := by
  have hs : rootDir.size < 2 ^ 31 := by decide
  have hroom : 0 + sizeof ≤ rootDir.size ∧ sizeof + sizeof ≤ rootDir.size := by decide
  obtain ⟨fuel, rfl⟩ : ∃ k, fuel = k + 2 := ⟨fuel - 2, by simp only [rootDir] at h; omega⟩
  rw [slotLoop_round hs hroom.1, inode_rootDir.1, if_neg (by decide), Nat.zero_add,
    slotLoop_round hs hroom.2, inode_rootDir.2, if_pos rfl]

/-- **The new root directory is spoilt by the first insertion**: the entry is written at offset
264, and the directory ends up with a size that is not a whole number of blocks. -/
theorem dirlink_spoils_rootDir :
    rootDir.WellFormed ∧ linkA.Ok ∧ (¬∃ o, rootDir.Hit linkA.name o) ∧
      rootDir.Links 2 linkA (.ret 0 (linkA.insert rootDir 264)) ∧
      (linkA.insert rootDir 264).size = 1288 ∧ ¬rootDir.Inserts 2 linkA := by
  have hroom : ∀ r, rootDir.Record r → r + sizeof ≤ rootDir.size := fun r hr => by
    rcases record_rootDir hr with rfl | rfl <;> decide
  refine ⟨wellFormed_rootDir, linkA_ok, not_hit_rootDir,
    links_insert wellFormed_rootDir linkA_ok hroom not_hit_rootDir slotLoop_rootDir,
    insert_size (by decide), fun hins => ?_⟩
  obtain ⟨-, o, hfree, ho, -⟩ := (hins.fits wellFormed_rootDir linkA_ok).absent not_hit_rootDir
  have hslot := hfree.slotLoop_size wellFormed_rootDir ho 1025 (by decide)
  rw [slotLoop_rootDir 1025 (by decide)] at hslot
  obtain rfl : sizeof = o := by simpa using hslot
  exact absurd ho (by decide)

end File

end Cinux
