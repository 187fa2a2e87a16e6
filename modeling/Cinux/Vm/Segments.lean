import Cinux.Vm.Arguments

/-!
# The segments of a program

What is in the memory of a program that `kexec` has started: each segment has its own pages, with
the bytes of the file and zeros behind them.  `loadseg` takes the offset in the file as an `uint`,
so the upper half of `ph.off` is lost, and a segment that is not in the file may be loaded from
elsewhere in it.

* `ExecFile.segments` : the headers that the loop of `kexec` comes across;
* `Phys.SegLoaded` : a segment as `loadseg` reads it;
* `Phys.Building.kexecLoad_segments` : the loop loads all segments, if they are in ascending order;
* `Phys.SegmentInMemory` : a segment as the header describes it;
* `segments_loaded_iff` : they agree if the offsets are below 2^32.
-/

namespace Cinux

open List

/-- A regular file, whose size is an `uint`. -/
structure ExecFile where
  bytes : List UInt8
  small : bytes.length < 2 ^ 32

namespace ExecFile

/-- What `readi` copies from it: nothing from behind the end, or when the sum of its two `uint`s
wraps around, and no more than there is. -/
def image (f : ExecFile) : Image where
  read off n :=
    if f.bytes.length < off ∨ (off + n) % 2 ^ 32 < off then []
    else (f.bytes.drop off).take n

/-- The headers of segments among the next `k` program headers, from `off` on. -/
def segmentsFrom (f : ExecFile) : ℕ → ℤ → List Proghdr
  | 0, _ => []
  | k + 1, off =>
    let rest := segmentsFrom f k (toInt32 (off + Proghdr.size))
    if (f.image.header off).type = ELF_PROG_LOAD then f.image.header off :: rest else rest

/-- The headers of segments, where `kexec` reads them. -/
def segments (f : ExecFile) : List Proghdr :=
  f.segmentsFrom f.image.elf.phnum (toInt32 f.image.elf.phoff)

theorem read_full {f : ExecFile} {off n : ℕ} (hn : 0 < n)
    (h : (f.image.read off n).length = n) :
    off + n ≤ f.bytes.length ∧ f.image.read off n = (f.bytes.drop off).take n := by
  unfold image at *
  dsimp only at *
  split_ifs at * with hout
  · rw [length_nil] at h
    omega
  · rw [length_take, length_drop] at h
    exact ⟨by omega, rfl⟩

end ExecFile

/-- The segments are in ascending order, and no two are on one page. -/
def Ascending (l : List Proghdr) : Prop :=
  l.Pairwise fun a b => pages (a.vaddr + a.memsz) ≤ b.vaddr / PGSIZE

/-- The flags of the pages of a segment: `PTE_V`, `PTE_R`, `PTE_U` and `flags2perm(ph.flags)`. -/
def Proghdr.perm (ph : Proghdr) : Perm := ⟨true, ph.flags.testBit 1, ph.flags.testBit 0, true⟩

theorem pages_mono {a b : ℕ} (h : a ≤ b) : pages a ≤ pages b := Nat.div_le_div_right (by omega)

theorem pages_max (a b : ℕ) : pages (max a b) = max (pages a) (pages b) := by
  rcases le_total a b with h | h
  · rw [max_eq_right h, max_eq_right (pages_mono h)]
  · rw [max_eq_left h, max_eq_left (pages_mono h)]

namespace Phys

open VmM
open Building (SegRead segByte segPage chunk Loads)

variable {T : ℕ} {R H : Set ℕ} {m₀ m m' m'' : Phys} {r tf sz sz' n : ℕ} {f : ExecFile}
  {ph : Proghdr} {p p' : UserMem}

/-- **A segment is in memory** as `loadseg` reads it. -/
structure SegLoaded (ip : Image) (r : ℕ) (ph : Proghdr) (m : Phys) : Prop where
  filesz : ph.filesz ≤ ph.memsz
  align : ph.vaddr % PGSIZE = 0
  read : SegRead ip (ph.off % 2 ^ 32) ph.filesz 0
  user : pages (ph.vaddr + ph.memsz) ≤ userPages
  page : ∀ v, ph.vaddr / PGSIZE ≤ v → v < pages (ph.vaddr + ph.memsz) →
    ∃ q, m.leaf r v = some ⟨q, ph.perm⟩ ∧ ∀ j < PGSIZE, m.data q j =
      if v * PGSIZE + j < ph.vaddr + ph.filesz then
        segByte ip (ph.off % 2 ^ 32) ph.filesz (v * PGSIZE + j - ph.vaddr)
      else 0

variable {ip : Image}

theorem SegLoaded.same (h : SegLoaded ip r ph m) (hsame : SameBelow r n m m')
    (hn : pages (ph.vaddr + ph.memsz) ≤ n) : SegLoaded ip r ph m' := by
  refine ⟨h.filesz, h.align, h.read, h.user, fun v hlo hhi => ?_⟩
  obtain ⟨q, hq, hdata⟩ := h.page v hlo hhi
  obtain ⟨hleaf, hkeep⟩ := hsame v (by omega)
  refine ⟨q, hleaf.trans hq, fun j hj => ?_⟩
  rw [hkeep _ hq, hdata j hj]

namespace Building

theorem segLoaded {sz1 : ℕ} (h1 : Building T R H m₀ r tf sz1 m')
    (hloads : Loads R H r ip ph sz m sz1 m') (habove : pages sz ≤ ph.vaddr / PGSIZE) :
    SegLoaded ip r ph m' := by
  have huser := pages_le h1.space.size
  rw [hloads.size, pages_max] at huser
  obtain ⟨m1, c, hfills, -, hwrites⟩ := hloads.steps
  rw [hloads.size, pages_max] at hfills
  refine ⟨hloads.filesz, hloads.align, hloads.read, by omega, fun v hlo hhi => ?_⟩
  obtain ⟨q, hq, hzero⟩ := hfills.zeros v (by omega) (by omega)
  refine ⟨q, (hwrites.leaf r v).trans hq, fun j hj => ?_⟩
  have hstart : ph.vaddr ≤ v * PGSIZE := by
    have halign := hloads.align
    simp only [PGSIZE] at *
    omega
  rw [hwrites.data v (by omega) _ hq j, hzero j]
  by_cases hin : v * PGSIZE + j < ph.vaddr + ph.filesz
  · rw [if_pos ⟨hj, by omega, hin⟩, if_pos hin]
  · rw [if_neg (by omega), if_neg hin]

theorem sameBelow_loads {sz1 : ℕ} (h : Building T R H m₀ r tf sz m)
    (hloads : Loads R H r ip ph sz m sz1 m') (habove : pages sz ≤ ph.vaddr / PGSIZE) :
    SameBelow r (pages sz) m m' := by
  obtain ⟨m1, c, hfills, htakes, hwrites⟩ := hloads.steps
  have hlow : pages sz * PGSIZE ≤ ph.vaddr :=
    (Nat.mul_le_mul_right PGSIZE habove).trans (Nat.div_mul_le_self _ _)
  exact (h.sameBelow_fills hfills htakes).trans
    (hwrites.sameBelow hlow (pages_le h.space.size))

/-- **The loop over the program headers loads all segments**, if they are in ascending order above
what is there. -/
theorem kexecLoad_segments (h : Building T R H m₀ r tf sz m) (hfull : Full m r sz) (k : ℕ)
    (off : ℤ) (hrun : kexecLoad f.image r k off sz m = .ok ((true, sz'), m'))
    (habove : ∀ ph ∈ f.segmentsFrom k off, pages sz ≤ ph.vaddr / PGSIZE)
    (hasc : Ascending (f.segmentsFrom k off)) :
    SameBelow r (pages sz) m m' ∧ pages sz ≤ pages sz' ∧
      ∀ ph ∈ f.segmentsFrom k off, SegLoaded f.image r ph m' ∧
        pages (ph.vaddr + ph.memsz) ≤ pages sz' := by
  induction k generalizing off sz m with
  | zero =>
    obtain ⟨hout, rfl⟩ := Program.pure_eq_ok.1 hrun
    cases hout
    exact ⟨.refl r _ m, le_rfl, nofun⟩
  | succ k ih =>
    rcases h.kexecLoad_step hfull f.image k off with
      ⟨sz1, m1, hstep, -⟩ | ⟨htype, hstep⟩ | ⟨htype, sz1, m1, h1, hfull1, hloads, hstep⟩
    · cases hstep.symm.trans hrun
    · rw [ExecFile.segmentsFrom, if_neg htype] at *
      exact ih h hfull _ (hstep.symm.trans hrun) habove hasc
    · rw [ExecFile.segmentsFrom, if_pos htype] at *
      obtain ⟨hfirst, hrest⟩ := pairwise_cons.1 hasc
      have hnow := habove _ mem_cons_self
      have hsize : pages sz1 =
          max (pages sz) (pages ((f.image.header off).vaddr + (f.image.header off).memsz)) := by
        rw [hloads.size, pages_max]
      obtain ⟨hsame, hle, hall⟩ := ih h1 hfull1 _ (hstep.symm.trans hrun) (fun ph hph => by
        rw [hsize]
        exact max_le (habove ph (mem_cons_of_mem _ hph)) (hfirst ph hph)) hrest
      refine ⟨(h.sameBelow_loads hloads hnow).trans (hsame.mono (by omega)), by omega,
        fun ph hph => ?_⟩
      rcases mem_cons.1 hph with rfl | hph
      · exact ⟨(h1.segLoaded hloads hnow).same hsame (by omega), by omega⟩
      · exact hall ph hph

end Building

/-! ### The bytes of the file -/

/-- A segment that has been read whole is in the file, if its offset has not lost its upper half. -/
theorem Building.SegRead.inside {off size : ℕ} (hoff : off < 2 ^ 32)
    (h : SegRead f.image off size 0) (k : ℕ) (hk : k * PGSIZE < size) :
    off + k * PGSIZE + chunk size (k * PGSIZE) ≤ f.bytes.length ∧
      segPage f.image off size (k * PGSIZE) =
        (f.bytes.drop (off + k * PGSIZE)).take (chunk size (k * PGSIZE)) := by
  have hpos : 0 < chunk size (k * PGSIZE) := by
    unfold chunk
    split_ifs
    · omega
    · decide
  -- the page before this one ends in the file
  have hlt : off + k * PGSIZE < 2 ^ 32 := by
    cases k with
    | zero => omega
    | succ k =>
      have hsmall := f.small
      rw [Nat.succ_mul] at hk ⊢
      obtain ⟨hend, -⟩ := inside hoff h k (by omega)
      have hfull : chunk size (k * PGSIZE) = PGSIZE := by
        unfold chunk
        rw [if_neg (by omega)]
      omega
  have hread := h (k * PGSIZE) (Nat.zero_le _) hk (Nat.mul_mod_left _ _)
  unfold segPage at *
  rw [Nat.mod_eq_of_lt hlt] at *
  exact ExecFile.read_full hpos hread
termination_by k

theorem Building.SegRead.byte {off size i : ℕ} (hoff : off < 2 ^ 32)
    (h : SegRead f.image off size 0) (hi : i < size) :
    f.bytes[off + i]? = some (segByte f.image off size i) := by
  have hdown : pgrounddown i = i / PGSIZE * PGSIZE := rfl
  have hmod := Nat.div_add_mod' i PGSIZE
  have hpg : i % PGSIZE < PGSIZE := Nat.mod_lt _ (by decide)
  obtain ⟨hend, hpage⟩ := h.inside hoff (i / PGSIZE) (by omega)
  have hin : i - i / PGSIZE * PGSIZE < chunk size (i / PGSIZE * PGSIZE) := by
    unfold chunk
    split_ifs <;> omega
  unfold segByte
  rw [hdown, hpage, getD_eq_getElem?_getD, List.getElem?_take_of_lt hin, List.getElem?_drop,
    show off + i / PGSIZE * PGSIZE + (i - i / PGSIZE * PGSIZE) = off + i by omega]
  have hlt : off + i < f.bytes.length := by omega
  rw [List.getElem?_eq_getElem hlt, Option.getD_some]

/-- **A segment is in memory** as its header describes it, with all fields at face value: it is in
the file, its bytes are those of the file and zeros, and its pages have the flags it asks for. -/
structure SegmentInMemory (file : List UInt8) (r : ℕ) (ph : Proghdr) (m : Phys) : Prop where
  inside : ∀ i < ph.filesz, ph.off + i < file.length
  bytes : ∀ i < ph.filesz, m.userByte r (ph.vaddr + i) = file[ph.off + i]?
  zeros : ∀ i, ph.filesz ≤ i → i < ph.memsz → m.userByte r (ph.vaddr + i) = some 0
  perms : ∀ v, ph.vaddr / PGSIZE ≤ v → v < pages (ph.vaddr + ph.memsz) →
    ∃ q, m.leaf r v = some ⟨q, ph.perm⟩

theorem SegLoaded.userByte (h : SegLoaded ip r ph m) {i : ℕ} (hi : i < ph.memsz) :
    m.userByte r (ph.vaddr + i) =
      some (if i < ph.filesz then segByte ip (ph.off % 2 ^ 32) ph.filesz i else 0) := by
  have halign := h.align
  have huser := h.user
  have hmod := Nat.div_add_mod' (ph.vaddr + i) PGSIZE
  have hpg : (ph.vaddr + i) % PGSIZE < PGSIZE := Nat.mod_lt _ (by decide)
  have hhi : (ph.vaddr + i) / PGSIZE < pages (ph.vaddr + ph.memsz) := by
    simp only [pages, PGSIZE]
    omega
  have hlo : ph.vaddr / PGSIZE ≤ (ph.vaddr + i) / PGSIZE := Nat.div_le_div_right (by omega)
  obtain ⟨q, hq, hdata⟩ := h.page _ hlo hhi
  have hmul := Own.mul_le_trapframe (show (ph.vaddr + i) / PGSIZE + 1 ≤ userPages by omega)
  have hmax : TRAPFRAME < MAXVA := by decide
  rw [Nat.succ_mul] at hmul
  rw [Phys.userByte, if_neg (by omega), hq, Option.bind_some,
    if_pos (show (Pte.perm ⟨q, ph.perm⟩).u = true from rfl), hdata _ hpg, hmod,
    Nat.add_sub_cancel_left]
  simp only [Nat.add_lt_add_iff_left]

theorem SegLoaded.inMemory (h : SegLoaded f.image r ph m) (hoff : 0 < ph.filesz → ph.off < 2 ^ 32) :
    SegmentInMemory f.bytes r ph m := by
  have hread := h.read
  have hbyte : ∀ i < ph.filesz,
      f.bytes[ph.off + i]? = some (segByte f.image (ph.off % 2 ^ 32) ph.filesz i) := by
    intro i hi
    have hlt := hoff (by omega)
    rw [Nat.mod_eq_of_lt hlt] at hread ⊢
    exact hread.byte hlt hi
  have hfile := h.filesz
  refine ⟨fun i hi => ?_, fun i hi => ?_, fun i hlo hhi => ?_, fun v hlo hhi => ?_⟩
  · obtain ⟨hin, -⟩ := List.getElem?_eq_some_iff.1 (hbyte i hi)
    exact hin
  · rw [h.userByte (by omega), if_pos hi, hbyte i hi]
  · rw [h.userByte hhi, if_neg (by omega)]
  · obtain ⟨q, hq, -⟩ := h.page v hlo hhi
    exact ⟨q, hq⟩

theorem SegmentInMemory.congr {file : List UInt8} (h : SegmentInMemory file r ph m)
    (hleaf : ∀ v, m'.leaf r v = m.leaf r v) (hbyte : m'.userByte r = m.userByte r) :
    SegmentInMemory file r ph m' := by
  refine ⟨h.inside, fun i hi => ?_, fun i hlo hhi => ?_, fun v hlo hhi => ?_⟩
  · rw [hbyte, h.bytes i hi]
  · rw [hbyte, h.zeros i hlo hhi]
  · rw [hleaf v]
    exact h.perms v hlo hhi

end Phys

open VmM in
/-- **The segments of a program are in memory after `exec`, if and only if no segment with bytes has
an offset of 2^32 or more.**  Such a segment is not in the file, but `exec` succeeds when there are
bytes at the lower half of the offset. -/
theorem segments_loaded_iff {T : ℕ} {R H : Set ℕ} {m m' : Phys} {p p' : UserMem} {tf k : ℕ}
    (h : m.Own R H) (hp : p.pagetable ∈ R) (hs : m.Space T p.pagetable tf p.sz) (htf : tf ∈ H)
    (f : ExecFile) (hasc : Ascending f.segments) (argv : Argv)
    (hrun : kexec T p tf (some f.image) argv m = .ok ((some k, p'), m')) :
    (∀ ph ∈ f.segments, m'.SegmentInMemory f.bytes p'.pagetable ph) ↔
      ∀ ph ∈ f.segments, 0 < ph.filesz → ph.off < 2 ^ 32 := by
  constructor
  · intro hall ph hph hpos
    have := (hall ph hph).inside 0 hpos
    have := f.small
    omega
  · intro hoff ph hph
    rcases h.kexec_cases T p tf (some f.image) argv with
      ⟨m'', hfail, -⟩ | ⟨img, r, sz, m1, m2, himg, hloaded, h1, hfull, h2, hbuilt, hcommit⟩
    · cases hfail.symm.trans hrun
    cases himg
    obtain ⟨m₀, h0, hfull0, hload⟩ := hloaded.start h
    obtain ⟨-, -, hsegs⟩ := h0.kexecLoad_segments hfull0 _ _ hload (fun ph _ => by
      rw [show pages 0 = 0 by decide]
      exact Nat.zero_le _) hasc
    obtain ⟨hseg, hle⟩ := hsegs ph hph
    -- neither the stack nor the end of the old image changes it
    obtain ⟨out, m'', hend, rfl, hcommitted⟩ := h2.commit_runs hp hs f.image.elf
      argv.strings.length (Stack.pointer 16 ((pages sz + 2) * PGSIZE)
        (stackBlocks argv ((pages sz + 2) * PGSIZE)))
    obtain ⟨hout, rfl⟩ := Program.ok_inj (hend.symm.trans (hcommit.symm.trans hrun))
    cases hout
    have hne : r ≠ p.pagetable := fun he => h2.fresh (he ▸ hp)
    exact ((hseg.same hbuilt.below hle).inMemory (hoff ph hph)).congr
      (hcommitted.leaves r h2.mem_root hne) (hcommitted.userByte h2 hp htf)

/-- The program header of a segment. -/
def segmentHeader (flags off vaddr filesz memsz : ℕ) : List UInt8 :=
  [1, 0, 0, 0] ++ leBytes 4 flags ++ leBytes 8 off ++ leBytes 8 vaddr ++ List.replicate 8 0 ++
    leBytes 8 filesz ++ leBytes 8 memsz ++ List.replicate 8 0

/-- A program with a segment of code from offset `off` of the file, and one of data with four bytes
from the file and four zeros. -/
def twoSegments (off : ℕ) : ExecFile where
  bytes :=
    -- the ELF header, with the program headers behind it
    [0x7F, 0x45, 0x4C, 0x46] ++ List.replicate 28 0 ++ leBytes 8 64 ++ List.replicate 16 0 ++
      [2, 0] ++ List.replicate 6 0 ++ segmentHeader 5 off 0 4 4 ++ segmentHeader 6 68 PGSIZE 4 8
  small := by
    simp only [segmentHeader, List.length_append, List.length_replicate, length_leBytes]
    decide

theorem segments_twoSegments :
    (twoSegments 64).segments = [⟨1, 5, 64, 0, 4, 4⟩, ⟨1, 6, 68, PGSIZE, 4, 8⟩] ∧
    (twoSegments (2 ^ 32)).segments = [⟨1, 5, 2 ^ 32, 0, 4, 4⟩, ⟨1, 6, 68, PGSIZE, 4, 8⟩] := by
  decide +kernel

open VmM in
/-- With the offset 64 both segments are in memory. -/
theorem segments_loaded_iff_two : ∃ (m m' : Phys) (r tf k : ℕ) (p' : UserMem),
    kexec 1 ⟨r, 0⟩ tf (some (twoSegments 64).image) argvTwo m = .ok ((some k, p'), m') ∧
      m'.SegmentInMemory (twoSegments 64).bytes p'.pagetable ⟨1, 5, 64, 0, 4, 4⟩ ∧
      m'.SegmentInMemory (twoSegments 64).bytes p'.pagetable ⟨1, 6, 68, PGSIZE, 4, 8⟩ := by
  obtain ⟨m, r, tf, ⟨k, p'⟩, m', hown, hspace, hrun, hout⟩ := Phys.exists_process
    (k := fun r tf => kexec 1 ⟨r, 0⟩ tf (some (twoSegments 64).image) argvTwo)
    (P := fun out _ => out.1.isSome) (by decide +kernel)
  obtain ⟨k, rfl⟩ := Option.isSome_iff_exists.1 hout
  have hsegs := segments_twoSegments.1
  have hiff := segments_loaded_iff (p := ⟨r, 0⟩) hown (Set.mem_singleton r) hspace
    (Set.mem_singleton tf) (twoSegments 64) (by rw [hsegs, Ascending]; decide) argvTwo hrun
  rw [hsegs] at hiff
  have hmem := hiff.2 (by decide)
  exact ⟨m, m', r, tf, k, p', hrun, hmem _ (by simp), hmem _ (by simp)⟩

open VmM in
/-- **With the offset 2^32 it is loaded from the beginning of the file**, which is no part of it. -/
theorem exec_loads_other_bytes : Ascending (twoSegments (2 ^ 32)).segments ∧
    ∃ (m m' : Phys) (r tf k : ℕ) (p' : UserMem), m.Own {r} {tf} ∧ m.Space 1 r tf 0 ∧
      kexec 1 ⟨r, 0⟩ tf (some (twoSegments (2 ^ 32)).image) argvTwo m = .ok ((some k, p'), m') ∧
      m'.userByte p'.pagetable 0 = some 0x7F ∧
      ¬∀ ph ∈ (twoSegments (2 ^ 32)).segments,
        m'.SegmentInMemory (twoSegments (2 ^ 32)).bytes p'.pagetable ph := by
  obtain ⟨m, r, tf, ⟨k, p'⟩, m', hown, hspace, hrun, hout⟩ := Phys.exists_process
    (k := fun r tf => kexec 1 ⟨r, 0⟩ tf (some (twoSegments (2 ^ 32)).image) argvTwo)
    (P := fun out m => out.1.isSome && decide (m.userByte out.2.pagetable 0 = some 0x7F))
    (by decide +kernel)
  rw [Bool.and_eq_true] at hout
  obtain ⟨k, rfl⟩ := Option.isSome_iff_exists.1 hout.1
  rw [segments_twoSegments.2]
  refine ⟨by rw [Ascending]; decide, m, m', r, tf, k, p', hown, hspace, hrun,
    of_decide_eq_true hout.2, fun hall => ?_⟩
  have hin : 2 ^ 32 + 0 < (twoSegments (2 ^ 32)).bytes.length :=
    (hall _ mem_cons_self).inside 0 (by decide)
  have := (twoSegments (2 ^ 32)).small
  omega

end Cinux
