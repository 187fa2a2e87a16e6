import Cinux.Vm.Process
import Mathlib.Data.List.GetD

/-!
# `kexec`

`exec.c`: a new address space is built from an ELF file, with a stack that has the arguments, and
takes the place of the old one.  When something fails the new one is thrown away and the process
goes on as it was.

The file is given by what `readi` copies from it, which may be anything, and the arguments by
what `sys_exec` passes on.

* `VmM.kexec` : the function, with its loops `loadseg`, `kexecLoad` and `kexecArgs`;
* `Phys.Building` : the new address space beside the old ones;
* `Phys.Writes` : bytes of an address space have been written, and nothing else;
* `Phys.Building.kexecLoad_step` : a round of the loop over the program headers.
-/

namespace Cinux

open Function

/-- `ELF_MAGIC`. -/
def ELF_MAGIC : ℕ := 0x464C457F

/-- `ELF_PROG_LOAD`. -/
def ELF_PROG_LOAD : ℕ := 1

/-- The largest number of arguments of `exec`. -/
def MAXARG : ℕ := 32

/-- Pages of a user stack. -/
def USERSTACK : ℕ := 1

/-- A little-endian number of eight bytes. -/
def le64 (f : ℕ → UInt8) (i : ℕ) : ℕ := le32 f i + 2 ^ 32 * le32 f (i + 4)

/-- The low `k` bytes of a number, little-endian. -/
def leBytes : ℕ → ℕ → List UInt8
  | 0, _ => []
  | k + 1, n => UInt8.ofNat n :: leBytes k (n / 256)

/-- `struct elfhdr`, as far as it is used. -/
structure Elfhdr where
  /-- Must equal `ELF_MAGIC`. -/
  magic : ℕ
  /-- The address of the first instruction. -/
  entry : ℕ
  /-- Where the program headers are in the file, -/
  phoff : ℕ
  /-- and how many there are. -/
  phnum : ℕ

/-- `sizeof(struct elfhdr)`. -/
def Elfhdr.size : ℕ := 64

/-- A file header from its bytes. -/
def Elfhdr.ofBytes (f : ℕ → UInt8) : Elfhdr := ⟨le32 f 0, le64 f 24, le64 f 32, le16 f 56⟩

/-- `struct proghdr`, as far as it is used. -/
structure Proghdr where
  type : ℕ
  flags : ℕ
  /-- Where the bytes of the segment are in the file, -/
  off : ℕ
  /-- where they go in memory, -/
  vaddr : ℕ
  /-- how many there are, -/
  filesz : ℕ
  /-- and the size of the segment with the zeros behind them. -/
  memsz : ℕ
  deriving DecidableEq

/-- `sizeof(struct proghdr)`. -/
def Proghdr.size : ℕ := 56

/-- A program header from its bytes. -/
def Proghdr.ofBytes (f : ℕ → UInt8) : Proghdr :=
  ⟨le32 f 0, le32 f 4, le64 f 8, le64 f 16, le64 f 32, le64 f 40⟩

/-- A file: the bytes that `readi(ip, 0, dst, off, n)` copies. -/
structure Image where
  read : ℕ → ℕ → List UInt8

/-- The bytes as memory. -/
def bytesAt (bytes : List UInt8) (i : ℕ) : UInt8 := bytes.getD i 0

/-- The program header at `off`. -/
def Image.header (ip : Image) (off : ℤ) : Proghdr :=
  Proghdr.ofBytes (bytesAt (ip.read (off % 2 ^ 32).toNat Proghdr.size))

/-- The arguments that `sys_exec` passes. -/
structure Argv where
  /-- The strings, without their NULs. -/
  strings : List (List UInt8)
  /-- Each fits into a page with its NUL, -/
  short : ∀ s ∈ strings, s.length < PGSIZE
  /-- and there is room for the null pointer. -/
  few : strings.length < MAXARG

/-- `flags2perm`: whether a segment has `PTE_W` and `PTE_X`. -/
def flags2perm (flags : ℕ) : Bool × Bool := (flags.testBit 1, flags.testBit 0)

namespace VmM

/-- The loop of `loadseg`, with `k` pages left. -/
def loadsegLoop (pagetable va : ℕ) (ip : Image) (offset sz : ℕ) : ℕ → ℕ → VmM Bool
  | 0, _ => pure true
  | k + 1, i => do
    match ← walkaddr pagetable ((va + i) % 2 ^ 64) with
    | none => stop "loadseg: address should exist"
    | some pa =>
      let n := if sz - i < PGSIZE then sz - i else PGSIZE
      let bytes := ip.read ((offset + i) % 2 ^ 32) n
      storeBytes pa 0 bytes
      if bytes.length ≠ n then pure false
      else loadsegLoop pagetable va ip offset sz k (i + PGSIZE)

/-- `loadseg`, whose `offset` and `sz` are `uint`. -/
def loadseg (pagetable va : ℕ) (ip : Image) (offset sz : ℕ) : VmM Bool :=
  loadsegLoop pagetable va ip offset sz ((sz + (PGSIZE - 1)) / PGSIZE) 0

/-- What `kexec` does with a header of type `ELF_PROG_LOAD`: whether it goes on, and the size. -/
def loadSegment (ip : Image) (pagetable : ℕ) (ph : Proghdr) (sz : ℕ) : VmM (Bool × ℕ) :=
  if ph.memsz < ph.filesz then pure (false, sz)
  else if (ph.vaddr + ph.memsz) % 2 ^ 64 < ph.vaddr then pure (false, sz)
  else if ph.vaddr % PGSIZE ≠ 0 then pure (false, sz)
  else do
    let perm := flags2perm ph.flags
    let sz1 ← uvmalloc pagetable sz ((ph.vaddr + ph.memsz) % 2 ^ 64) perm.1 perm.2
    if sz1 = 0 then pure (false, sz)
    else
      let ok ← loadseg pagetable ph.vaddr ip (ph.off % 2 ^ 32) (ph.filesz % 2 ^ 32)
      pure (ok, sz1)

/-- The loop of `kexec` over the program headers, with `k` left: whether it gets to their end, and
the size.  `off` is an `int`. -/
def kexecLoad (ip : Image) (pagetable : ℕ) : ℕ → ℤ → ℕ → VmM (Bool × ℕ)
  | 0, _, sz => pure (true, sz)
  | k + 1, off, sz =>
    if (ip.read (off % 2 ^ 32).toNat Proghdr.size).length ≠ Proghdr.size then pure (false, sz)
    else if (ip.header off).type ≠ ELF_PROG_LOAD then
      kexecLoad ip pagetable k (toInt32 (off + Proghdr.size)) sz
    else do
      let (ok, sz) ← loadSegment ip pagetable (ip.header off) sz
      if ok then kexecLoad ip pagetable k (toInt32 (off + Proghdr.size)) sz else pure (false, sz)

/-- The loop of `kexec` over the arguments: the stack pointer and `ustack`. -/
def kexecArgs (p : UserMem) (pagetable stackbase : ℕ) :
    List (List UInt8) → ℕ → List ℕ → VmM (Option (ℕ × List ℕ))
  | [], sp, ustack => pure (some (sp, ustack))
  | s :: argv, sp, ustack =>
    if MAXARG ≤ ustack.length then pure none
    else
      let sp := addInt sp (-(s.length + 1))
      let sp := sp - sp % 16
      if sp < stackbase then pure none
      else do
        if ← copyout p.pagetable p.sz pagetable sp (s ++ [0]) then
          kexecArgs p pagetable stackbase argv sp (ustack ++ [sp])
        else pure none

/-- The exit `bad` of `kexec`, with a page table. -/
def kexecBad (p : UserMem) (pagetable sz : ℕ) : VmM (Option ℕ × UserMem) := do
  procFreepagetable pagetable sz
  pure (none, p)

/-- The end of `kexec`: the new image takes the place of the old one. -/
def commit (p : UserMem) (trapframe pagetable : ℕ) (elf : Elfhdr) (argc sp sz : ℕ) :
    VmM (Option ℕ × UserMem) := do
  storeBytes trapframe 120 (leBytes 8 sp)
  storeBytes trapframe 24 (leBytes 8 elf.entry)
  storeBytes trapframe 48 (leBytes 8 sp)
  procFreepagetable p.pagetable p.sz
  pure (some argc, ⟨pagetable, sz⟩)

/-- `kexec` from the pointers to the arguments on. -/
def kexecPointers (p : UserMem) (trapframe pagetable : ℕ) (elf : Elfhdr) (stackbase sz sp : ℕ)
    (ustack : List ℕ) : VmM (Option ℕ × UserMem) := do
  let sp := addInt sp (-((ustack.length + 1) * 8))
  let sp := sp - sp % 16
  if sp < stackbase then kexecBad p pagetable sz
  else if ← copyout p.pagetable p.sz pagetable sp ((ustack ++ [0]).flatMap (leBytes 8)) then
    commit p trapframe pagetable elf ustack.length sp sz
  else kexecBad p pagetable sz

/-- `kexec` from the stack on. -/
def kexecStack (p : UserMem) (trapframe pagetable : ℕ) (elf : Elfhdr) (argv : Argv) (sz : ℕ) :
    VmM (Option ℕ × UserMem) := do
  let sz := pgroundup sz
  let sz1 ← uvmalloc pagetable sz (sz + (USERSTACK + 1) * PGSIZE) true false
  if sz1 = 0 then kexecBad p pagetable sz
  else
    uvmclear pagetable (sz1 - (USERSTACK + 1) * PGSIZE)
    let stackbase := sz1 - USERSTACK * PGSIZE
    match ← kexecArgs p pagetable stackbase argv.strings sz1 [] with
    | none => kexecBad p pagetable sz1
    | some (sp, ustack) => kexecPointers p trapframe pagetable elf stackbase sz1 sp ustack

/-- `kexec` of the file that `namei` has found, if it has: what it returns and the memory of the
process. -/
def kexec (trampoline : ℕ) (p : UserMem) (trapframe : ℕ) (ip : Option Image) (argv : Argv) :
    VmM (Option ℕ × UserMem) :=
  match ip with
  | none => pure (none, p)
  | some ip =>
    let bytes := ip.read 0 Elfhdr.size
    let elf := Elfhdr.ofBytes (bytesAt bytes)
    if bytes.length ≠ Elfhdr.size then pure (none, p)
    else if elf.magic ≠ ELF_MAGIC then pure (none, p)
    else do
      match ← procPagetable trampoline trapframe with
      | none => pure (none, p)
      | some pagetable =>
        let (ok, sz) ← kexecLoad ip pagetable elf.phnum (toInt32 elf.phoff) 0
        if ok then kexecStack p trapframe pagetable elf argv sz else kexecBad p pagetable sz

end VmM

theorem le64_lt (f : ℕ → UInt8) (i : ℕ) : le64 f i < 2 ^ 64 := by
  have h0 := le32_lt f i
  have h1 := le32_lt f (i + 4)
  unfold le64
  omega

theorem pgrounddown_eq {i a : ℕ} (hi : i % PGSIZE = 0) (hlo : i ≤ a) (hhi : a < i + PGSIZE) :
    pgrounddown a = i := by
  simp only [pgrounddown, PGSIZE] at *
  omega

namespace Phys

open Program (Runs)
open VmM

variable {T : ℕ} {R H : Set ℕ} {m₀ m m' m'' : Phys} {r tf sz va n i v lo mid hi : ℕ} {e : Pte}
  {f g : ℕ → UInt8}

/-! ### Writing bytes -/

/-- The virtual pages of `r` below `n` are as they were. -/
def SameBelow (r n : ℕ) (m m' : Phys) : Prop :=
  ∀ v < n, m'.leaf r v = m.leaf r v ∧ ∀ e, m.leaf r v = some e → m'.data e.page = m.data e.page

theorem SameBelow.refl (r n : ℕ) (m : Phys) : SameBelow r n m m := fun _ _ => ⟨rfl, fun _ _ => rfl⟩

theorem SameBelow.mono (h : SameBelow r n m m') {k : ℕ} (hk : k ≤ n) : SameBelow r k m m' :=
  fun v hv => h v (by omega)

theorem SameBelow.trans (h : SameBelow r n m m') (h' : SameBelow r n m' m'') :
    SameBelow r n m m'' := by
  refine fun v hv => ⟨(h' v hv).1.trans (h v hv).1, fun e he => ?_⟩
  rw [(h' v hv).2 e ((h v hv).1.trans he), (h v hv).2 e he]

/-- The bytes from `lo` to below `hi` of the address space of `r` are those of `f` now, and nothing
else has changed. -/
structure Writes (H : Set ℕ) (r lo hi : ℕ) (f : ℕ → UInt8) (m m' : Phys) : Prop where
  pt : m'.pt = m.pt
  free : m'.free = m.free
  kept : Kept H m m'
  data : ∀ v < userPages, ∀ e, m.leaf r v = some e → ∀ j, m'.data e.page j =
    if j < PGSIZE ∧ lo ≤ v * PGSIZE + j ∧ v * PGSIZE + j < hi then f (v * PGSIZE + j)
    else m.data e.page j

namespace Writes

theorem leaf (h : Writes H r lo hi f m m') (r' v : ℕ) : m'.leaf r' v = m.leaf r' v :=
  entry_congr (fun _ _ _ _ _ => by rw [h.pt]) le_rfl v

theorem empty (H : Set ℕ) (r : ℕ) (f : ℕ → UInt8) (m : Phys) (hle : hi ≤ lo) :
    Writes H r lo hi f m m := by
  refine ⟨rfl, rfl, .refl H m, fun v _ e _ j => ?_⟩
  rw [if_neg (by omega)]

theorem congr (h : Writes H r lo hi f m m') (hfg : ∀ a, lo ≤ a → a < hi → f a = g a) :
    Writes H r lo hi g m m' := by
  refine ⟨h.pt, h.free, h.kept, fun v hv e he j => ?_⟩
  rw [h.data v hv e he j]
  split_ifs with hj
  · exact hfg _ hj.2.1 hj.2.2
  · rfl

theorem append (h : Writes H r lo mid f m m') (h' : Writes H r mid hi f m' m'') (hlo : lo ≤ mid)
    (hhi : mid ≤ hi) : Writes H r lo hi f m m'' := by
  refine ⟨h'.pt.trans h.pt, h'.free.trans h.free, h.kept.trans h'.kept, fun v hv e he j => ?_⟩
  rw [h'.data v hv e ((h.leaf r v).trans he) j, h.data v hv e he j]
  by_cases hhigh : j < PGSIZE ∧ mid ≤ v * PGSIZE + j ∧ v * PGSIZE + j < hi
  · rw [if_pos hhigh, if_pos ⟨hhigh.1, by omega, hhigh.2.2⟩]
  · rw [if_neg hhigh]
    by_cases hlow : j < PGSIZE ∧ lo ≤ v * PGSIZE + j ∧ v * PGSIZE + j < mid
    · rw [if_pos hlow, if_pos ⟨hlow.1, hlow.2.1, by omega⟩]
    · rw [if_neg hlow, if_neg (by omega)]

theorem append_empty (h : Writes H r lo hi f m m') (h' : Writes H r mid hi f m' m'')
    (hle : hi ≤ mid) : Writes H r lo hi f m m'' := by
  refine ⟨h'.pt.trans h.pt, h'.free.trans h.free, h.kept.trans h'.kept, fun v hv e he j => ?_⟩
  rw [h'.data v hv e ((h.leaf r v).trans he) j, if_neg (by omega), h.data v hv e he j]

theorem sameBelow (h : Writes H r lo hi f m m') (hn : n * PGSIZE ≤ lo) (huser : n ≤ userPages) :
    SameBelow r n m m' := by
  refine fun v hv => ⟨h.leaf r v, fun e he => funext fun j => ?_⟩
  have hle : (v + 1) * PGSIZE ≤ n * PGSIZE := Nat.mul_le_mul_right _ hv
  rw [Nat.succ_mul] at hle
  rw [h.data v (by omega) e he j, if_neg (by omega)]

end Writes

namespace Own

theorem not_held_of_leaf (h : Own R H m) (hr : r ∈ R) (hv : v < userPages)
    (he : m.leaf r v = some e) : e.page ∉ H :=
  fun hin => nomatch h.owned.unique (at_leaf hr hv he) (show m.At R H .held e.page from hin)

theorem leaf_inj (h : Own R H m) (hr : r ∈ R) (hv : v < userPages) (he : m.leaf r v = some e)
    {v' : ℕ} {e' : Pte} (hv' : v' < userPages) (he' : m.leaf r v' = some e')
    (hpage : e'.page = e.page) : v' = v :=
  (PagePlace.page.inj (h.owned.unique (at_leaf hr hv' he') (hpage ▸ at_leaf hr hv he))).2

/-- Bytes that are stored in a user page. -/
theorem writes_storeBytes (h : Own R H m) (hr : r ∈ R) (hv : v < userPages)
    (he : m.leaf r v = some e) {off : ℕ} {bytes : List UInt8} (hend : off + bytes.length ≤ PGSIZE) :
    Writes H r (v * PGSIZE + off) (v * PGSIZE + off + bytes.length)
      (fun a => bytes.getD (a - (v * PGSIZE + off)) 0) m (m.storeBytes e.page off bytes) := by
  refine ⟨rfl, rfl, .of_ne rfl (fun _ _ => rfl) (fun x hx => update_of_ne hx _ _)
    (h.not_held_of_leaf hr hv he), fun v' hv' e' he' j => ?_⟩
  by_cases hpage : e'.page = e.page
  · obtain rfl := h.leaf_inj hr hv he hv' he' hpage
    obtain rfl := Option.some.inj (he.symm.trans he')
    simp only [storeBytes, update_self]
    by_cases hoff : off ≤ j
    · rw [if_pos hoff, show v' * PGSIZE + j - (v' * PGSIZE + off) = j - off by omega]
      by_cases hj : j - off < bytes.length
      · rw [if_pos (by omega), List.getD_eq_getElem _ _ hj, List.getD_eq_getElem _ _ hj]
      · rw [if_neg (by omega), List.getD_eq_default _ _ (not_lt.1 hj)]
    · rw [if_neg hoff, if_neg (by omega)]
  · -- another page: its addresses are elsewhere
    have hne : v' ≠ v := by
      rintro rfl
      exact hpage (congrArg Pte.page (Option.some.inj (he'.symm.trans he)))
    have haway : ¬(j < PGSIZE ∧ v * PGSIZE + off ≤ v' * PGSIZE + j ∧
        v' * PGSIZE + j < v * PGSIZE + off + bytes.length) := by
      rintro ⟨hj, hlo, hhi⟩
      rcases Nat.lt_or_gt_of_ne hne with hlt | hlt
      · have := Nat.mul_le_mul_right PGSIZE (Nat.succ_le_of_lt hlt)
        rw [Nat.succ_mul] at this
        omega
      · have := Nat.mul_le_mul_right PGSIZE (Nat.succ_le_of_lt hlt)
        rw [Nat.succ_mul] at this
        omega
    rw [if_neg haway]
    simp only [storeBytes, update_of_ne hpage]

end Own

/-! ### The new address space -/

/-- **A new address space** beside those of `R`, which are as they were in `m₀`. -/
structure Building (T : ℕ) (R H : Set ℕ) (m₀ : Phys) (r tf sz : ℕ) (m : Phys) : Prop where
  fresh : r ∉ R
  own : Own (insert r R) H m
  space : Space T m r tf sz
  others : SameLeaves R m₀ m
  kept : Kept H m₀ m

/-- All pages below the size are there, and the user can reach them. -/
def Full (m : Phys) (r sz : ℕ) : Prop := ∀ v < pages sz, ∃ e, m.leaf r v = some e ∧ e.perm.u = true

theorem Full.congr (h : Full m r sz) (hsame : ∀ v, m'.leaf r v = m.leaf r v) : Full m' r sz := by
  intro v hv
  rw [hsame v]
  exact h v hv

namespace Building

theorem mem_root (_ : Building T R H m₀ r tf sz m) : r ∈ insert r R := Set.mem_insert r R

theorem same (h : Building T R H m₀ r tf sz m) (hown : Own (insert r R) H m')
    (hsame : SameLeaves (insert r R) m m') (hkept : Kept H m m') :
    Building T R H m₀ r tf sz m' :=
  ⟨h.fresh, hown, h.space.congr (hsame r h.mem_root),
    h.others.trans fun r' hr' v => hsame r' (Set.mem_insert_of_mem r hr') v, h.kept.trans hkept⟩

theorem storeBytes (h : Building T R H m₀ r tf sz m) (hv : v < pages sz)
    (he : m.leaf r v = some e) (off : ℕ) (bytes : List UInt8) :
    Building T R H m₀ r tf sz (m.storeBytes e.page off bytes) := by
  have huser := pages_le h.space.size
  obtain ⟨hown, hsame⟩ : Own (insert r R) H (m.storeBytes e.page off bytes) ∧
    SameTrees (insert r R) m (m.storeBytes e.page off bytes) := h.own.same_pt rfl rfl rfl
  exact h.same hown hsame.leaves (.of_ne rfl (fun _ _ => rfl)
    (fun x hx => update_of_ne hx _ _) (h.own.not_held_of_leaf h.mem_root (by omega) he))

theorem only (h : Building T R H m₀ r tf sz m) (hown : Own (insert r R) H m') {lo sz' : ℕ}
    (honly : Only (insert r R) r lo (pages sz') m m') (hkept : Kept H m m') (hle : sz ≤ sz')
    (hsize : sz' ≤ TRAPFRAME) : Building T R H m₀ r tf sz' m' := by
  refine ⟨h.fresh, hown, h.space.of_only h.mem_root honly hle hsize, fun r' hr' v => ?_,
    h.kept.trans hkept⟩
  have hne : r' ≠ r := fun he => h.fresh (he ▸ hr')
  rw [honly r' (Set.mem_insert_of_mem r hr') v fun hin => hne hin.1, h.others r' hr' v]

/-! ### The program -/

/-- The number of bytes that a round of `loadseg` reads. -/
def chunk (n i : ℕ) : ℕ := if n - i < PGSIZE then n - i else PGSIZE

/-- What `readi` copies into the page at offset `i` of a segment. -/
def segPage (ip : Image) (offset n i : ℕ) : List UInt8 :=
  ip.read ((offset + i) % 2 ^ 32) (chunk n i)

/-- Byte `i` of a segment, as `loadseg` reads it page by page. -/
def segByte (ip : Image) (offset n i : ℕ) : UInt8 :=
  (segPage ip offset n (pgrounddown i)).getD (i - pgrounddown i) 0

/-- Every page of the segment from offset `i` on is read whole. -/
def SegRead (ip : Image) (offset n i : ℕ) : Prop :=
  ∀ j, i ≤ j → j < n → j % PGSIZE = 0 → (segPage ip offset n j).length = chunk n j

/-- **The loop of `loadseg`** in memory that is there. -/
theorem loadsegLoop_runs (h : Building T R H m₀ r tf sz m) (hfull : Full m r sz) (ip : Image)
    (offset : ℕ) {k : ℕ} (hva : va % PGSIZE = 0) (hi : i % PGSIZE = 0) (hend : va + n ≤ sz)
    (hk : i + k * PGSIZE < n + PGSIZE) (hk' : n ≤ i + k * PGSIZE) :
    Runs (loadsegLoop r va ip offset n k i) m fun ok m' => Building T R H m₀ r tf sz m' ∧
      Full m' r sz ∧ (ok = true → SegRead ip offset n i ∧
        Writes H r (va + i) (va + n) (fun a => segByte ip offset n (a - va)) m m') := by
  induction k generalizing m i with
  | zero =>
    refine .pure ⟨h, hfull, fun _ => ⟨fun j hj hj' => ?_, .empty H r _ m (by omega)⟩⟩
    omega
  | succ k ih =>
    rw [Nat.succ_mul] at hk hk'
    have hin : va + i < sz := by omega
    have hsize := h.space.size
    have hmax : TRAPFRAME < MAXVA ∧ MAXVA < 2 ^ 64 := by decide
    have hpos : 0 < PGSIZE := by decide
    have hpage : (va + i) / PGSIZE < pages sz := by
      simp only [pages, PGSIZE]
      omega
    have huser := pages_le hsize
    obtain ⟨e, he, hu⟩ := hfull _ hpage
    have haddr := Own.walkaddr_eq m r (show va + i < MAXVA by omega)
    rw [he, Option.bind_some, if_pos hu] at haddr
    have hstart : (va + i) / PGSIZE * PGSIZE + 0 = va + i := by
      simp only [PGSIZE] at *
      omega
    have hchunk : chunk n i ≤ PGSIZE ∧ (chunk n i < PGSIZE → chunk n i = n - i) := by
      unfold chunk
      split_ifs <;> omega
    unfold loadsegLoop
    rw [Nat.mod_eq_of_lt (show va + i < 2 ^ 64 by omega)]
    refine .step haddr ?_
    change Runs (do
      VmM.storeBytes e.page 0 (segPage ip offset n i)
      if (segPage ip offset n i).length ≠ chunk n i then pure false
      else loadsegLoop r va ip offset n k (i + PGSIZE)) m _
    have h1 := h.storeBytes hpage he 0 (segPage ip offset n i)
    have hfull1 : Full (m.storeBytes e.page 0 (segPage ip offset n i)) r sz := hfull.congr fun v =>
      entry_congr (fun _ _ _ _ _ => by rfl) le_rfl v
    refine .step rfl ?_
    split_ifs with hlen
    · exact .pure ⟨h1, hfull1, by simp⟩
    rw [not_not] at hlen
    refine (ih h1 hfull1 (by rw [Nat.add_mod_right]; exact hi) (by omega) (by omega)).conseq
      fun ok m₂ h2 => ⟨h2.1, h2.2.1, fun hok => ⟨fun j hj hj' hj2 => ?_, ?_⟩⟩
    · -- the first page, or a later one
      by_cases hji : j = i
      · rw [hji, hlen]
      · refine (h2.2.2 hok).1 j ?_ hj' hj2
        simp only [PGSIZE] at *
        omega
    · have hw := h.own.writes_storeBytes h.mem_root (by omega) he
        (show 0 + (segPage ip offset n i).length ≤ PGSIZE by omega)
      rw [hstart, hlen] at hw
      have hw' : Writes H r (va + i) (va + i + chunk n i) (fun a => segByte ip offset n (a - va)) m
          (m.storeBytes e.page 0 (segPage ip offset n i)) := by
        refine hw.congr fun a ha ha' => ?_
        have hround := pgrounddown_eq hi (show i ≤ a - va by omega) (by omega)
        rw [segByte, hround, show a - va - i = a - (va + i) by omega]
      by_cases hlast : chunk n i < PGSIZE
      · -- the last page is not full
        have hend' := hchunk.2 hlast
        rw [show va + i + chunk n i = va + n by omega] at hw'
        exact hw'.append_empty (h2.2.2 hok).2 (by omega)
      · rw [show chunk n i = PGSIZE by omega,
          show va + i + PGSIZE = va + (i + PGSIZE) by omega] at hw'
        have hle : i + PGSIZE ≤ n := by
          have : chunk n i = PGSIZE := by omega
          unfold chunk at this
          split_ifs at this with hlt
          · omega
          · omega
        exact hw'.append (h2.2.2 hok).2 (by omega) (by omega)

theorem loadseg_runs (h : Building T R H m₀ r tf sz m) (hfull : Full m r sz) (ip : Image)
    (offset : ℕ) (hva : va % PGSIZE = 0) (hend : va + n ≤ sz) :
    Runs (loadseg r va ip offset n) m fun ok m' => Building T R H m₀ r tf sz m' ∧ Full m' r sz ∧
      (ok = true → SegRead ip offset n 0 ∧
        Writes H r va (va + n) (fun a => segByte ip offset n (a - va)) m m') := by
  refine h.loadsegLoop_runs hfull ip offset hva (Nat.zero_mod _) hend ?_ ?_
  · simp only [PGSIZE]
    omega
  · simp only [PGSIZE]
    omega

/-- `uvmalloc` in a full address space, for whatever size the file asks for. -/
theorem uvmalloc_runs (h : Building T R H m₀ r tf sz m) (hfull : Full m r sz) (new : ℕ)
    (w x : Bool) :
    Runs (uvmalloc r sz new w x) m fun sz1 m' =>
      (sz1 = 0 ∧ Building T R H m₀ r tf sz m' ∧ Full m' r sz) ∨
        (sz1 = max sz new ∧ Building T R H m₀ r tf sz1 m' ∧ Full m' r sz1 ∧
          Fills (insert r R) r (pages sz) (pages sz1) ⟨true, w, x, true⟩ m m' ∧
          ∃ c, Takes c m m') := by
  rcases lt_or_ge new sz with hlt | hle
  · have hback : uvmalloc r sz new w x m = .ok (sz, m) := by
      unfold uvmalloc
      rw [if_pos hlt]
      rfl
    exact ⟨sz, m, hback, .inr ⟨(max_eq_left hlt.le).symm, h, hfull,
      ⟨fun _ _ _ _ => rfl, fun v hv hv' => absurd hv' (not_lt.2 hv)⟩, 0, .refl m⟩⟩
  · have hmapped : ∀ v < pages sz, m.leaf r v ≠ none := by
      intro v hv
      obtain ⟨e, he, -⟩ := hfull v hv
      rw [he]
      exact Option.some_ne_none e
    refine (h.own.uvmalloc_runs h.mem_root h.space.size hle h.space.none (.inr hmapped) w x).conseq
      fun sz1 m₁ h1 => ?_
    obtain ⟨hown, hkept, ⟨rfl, hsame, -⟩ | ⟨rfl, hsize, hfills, htakes⟩⟩ := h1
    · exact .inl ⟨rfl, h.same hown hsame hkept, hfull.congr (hsame r h.mem_root)⟩
    · refine .inr ⟨(max_eq_right hle).symm, h.only hown hfills.only hkept hle hsize, fun v hv => ?_,
        hfills, _, htakes⟩
      by_cases hold : v < pages sz
      · rw [hfills.only r h.mem_root v (by omega)]
        exact hfull v hold
      · obtain ⟨q, hq, -⟩ := hfills.zeros v (by omega) hv
        exact ⟨_, hq, rfl⟩

theorem sameBelow_fills (h : Building T R H m₀ r tf sz m) {perm : Perm} {c : ℕ}
    (hfills : Fills (insert r R) r (pages sz) hi perm m m') (htakes : Takes c m m') :
    SameBelow r (pages sz) m m' := by
  have huser := pages_le h.space.size
  refine fun v hv => ⟨hfills.only r h.mem_root v (by omega), fun e he => ?_⟩
  exact htakes.data (h.own.leaf_not_free h.mem_root (by omega) he)

theorem size_le (h : Building T R H m₀ r tf sz m) (hfull : Full m r sz) : sz ≤ PHYSTOP := by
  have hmapped := h.own.mapped_le h.mem_root (pages_le h.space.size) fun v hv => by
    obtain ⟨e, he, -⟩ := hfull v hv
    rw [he]
    exact Option.some_ne_none e
  simp only [pages, PHYSTOP, PGSIZE] at *
  omega

/-! ### The program headers -/

/-- A segment has been loaded: there are pages for it, and the bytes of the file are in them. -/
structure Loads (R H : Set ℕ) (r : ℕ) (ip : Image) (ph : Proghdr) (sz : ℕ) (m : Phys) (sz1 : ℕ)
    (m₂ : Phys) : Prop where
  size : sz1 = max sz (ph.vaddr + ph.memsz)
  filesz : ph.filesz ≤ ph.memsz
  align : ph.vaddr % PGSIZE = 0
  read : SegRead ip (ph.off % 2 ^ 32) ph.filesz 0
  steps : ∃ m₁ c, Fills (insert r R) r (pages sz) (pages sz1)
      ⟨true, ph.flags.testBit 1, ph.flags.testBit 0, true⟩ m m₁ ∧ Takes c m m₁ ∧
    Writes H r ph.vaddr (ph.vaddr + ph.filesz)
      (fun a => segByte ip (ph.off % 2 ^ 32) ph.filesz (a - ph.vaddr)) m₁ m₂

theorem loadSegment_cases (h : Building T R H m₀ r tf sz m) (hfull : Full m r sz) (ip : Image)
    (ph : Proghdr) (hbound : ph.vaddr < 2 ^ 64 ∧ ph.memsz < 2 ^ 64) :
    (∃ sz' m', loadSegment ip r ph sz m = .ok ((false, sz'), m') ∧
      Building T R H m₀ r tf sz' m' ∧ Full m' r sz') ∨
    ∃ sz1 m₂, Building T R H m₀ r tf sz1 m₂ ∧ Full m₂ r sz1 ∧ Loads R H r ip ph sz m sz1 m₂ ∧
      loadSegment ip r ph sz m = .ok ((true, sz1), m₂) := by
  unfold loadSegment
  split_ifs with hsmall hwrap halign
  · exact .inl ⟨sz, m, rfl, h, hfull⟩
  · exact .inl ⟨sz, m, rfl, h, hfull⟩
  · exact .inl ⟨sz, m, rfl, h, hfull⟩
  rw [not_not] at halign
  -- the sum of address and size has not wrapped around
  have hsum : (ph.vaddr + ph.memsz) % 2 ^ 64 = ph.vaddr + ph.memsz := by omega
  rw [hsum]
  obtain ⟨sz1, m₁, halloc, hout⟩ := h.uvmalloc_runs hfull (ph.vaddr + ph.memsz)
    (ph.flags.testBit 1) (ph.flags.testBit 0)
  dsimp only [flags2perm]
  rw [Program.bind_ok halloc]
  obtain ⟨rfl, h1, hfull1⟩ | ⟨hmax, h1, hfull1, hfills, c, htakes⟩ := hout
  · exact .inl ⟨sz, m₁, rfl, h1, hfull1⟩
  by_cases hzero : sz1 = 0
  · -- size 0 looks like a failure
    obtain rfl : sz = sz1 := by omega
    rw [if_pos hzero]
    exact .inl ⟨sz, m₁, rfl, h1, hfull1⟩
  rw [if_neg hzero]
  have hphys := h1.size_le hfull1
  have hmem : PHYSTOP < 2 ^ 32 := by decide
  rw [Nat.mod_eq_of_lt (show ph.filesz < 2 ^ 32 by omega)]
  obtain ⟨ok, m₂, hseg, h2, hfull2, hwrites⟩ := h1.loadseg_runs hfull1 ip (ph.off % 2 ^ 32) halign
    (show ph.vaddr + ph.filesz ≤ sz1 by omega)
  rw [Program.bind_ok hseg]
  cases ok with
  | false => exact .inl ⟨sz1, m₂, rfl, h2, hfull2⟩
  | true =>
    exact .inr ⟨sz1, m₂, h2, hfull2,
      ⟨hmax, by omega, halign, (hwrites rfl).1, m₁, c, hfills, htakes,
      (hwrites rfl).2⟩, rfl⟩

/-- **A round of the loop over the program headers**: it fails, or passes over a header, or loads a
segment. -/
theorem kexecLoad_step (h : Building T R H m₀ r tf sz m) (hfull : Full m r sz) (ip : Image)
    (k : ℕ) (off : ℤ) :
    (∃ sz' m', kexecLoad ip r (k + 1) off sz m = .ok ((false, sz'), m') ∧
      Building T R H m₀ r tf sz' m' ∧ Full m' r sz') ∨
    ((ip.header off).type ≠ ELF_PROG_LOAD ∧ kexecLoad ip r (k + 1) off sz m =
      kexecLoad ip r k (toInt32 (off + Proghdr.size)) sz m) ∨
    ((ip.header off).type = ELF_PROG_LOAD ∧ ∃ sz1 m₂, Building T R H m₀ r tf sz1 m₂ ∧
      Full m₂ r sz1 ∧ Loads R H r ip (ip.header off) sz m sz1 m₂ ∧
      kexecLoad ip r (k + 1) off sz m =
        kexecLoad ip r k (toInt32 (off + Proghdr.size)) sz1 m₂) := by
  have hbound : (ip.header off).vaddr < 2 ^ 64 ∧ (ip.header off).memsz < 2 ^ 64 :=
    ⟨le64_lt _ _, le64_lt _ _⟩
  rw [kexecLoad]
  generalize ip.header off = ph at *
  by_cases hlen : (ip.read (off % 2 ^ 32).toNat Proghdr.size).length ≠ Proghdr.size
  · rw [if_pos hlen]
    exact .inl ⟨sz, m, rfl, h, hfull⟩
  rw [if_neg hlen]
  by_cases htype : ph.type ≠ ELF_PROG_LOAD
  · rw [if_pos htype]
    exact .inr (.inl ⟨htype, rfl⟩)
  rw [if_neg htype]
  obtain ⟨sz', m', hfail, hrest⟩ | ⟨sz1, m₂, h2, hfull2, hload, hrun⟩ :=
    h.loadSegment_cases hfull ip ph hbound
  · refine .inl ⟨sz', m', ?_, hrest⟩
    rw [Program.bind_ok hfail]
    rfl
  · refine .inr (.inr ⟨not_not.1 htype, sz1, m₂, h2, hfull2, hload, ?_⟩)
    rw [Program.bind_ok hrun]
    rfl

/-- **The loop over the program headers.** -/
theorem kexecLoad_runs (h : Building T R H m₀ r tf sz m) (hfull : Full m r sz) (ip : Image)
    (k : ℕ) (off : ℤ) :
    Runs (kexecLoad ip r k off sz) m fun out m' =>
      Building T R H m₀ r tf out.2 m' ∧ Full m' r out.2 := by
  induction k generalizing off sz m with
  | zero => exact .pure ⟨h, hfull⟩
  | succ k ih =>
    rcases h.kexecLoad_step hfull ip k off with
      ⟨sz', m', hrun, h', hfull'⟩ | ⟨-, hrun⟩ | ⟨-, sz1, m₂, h2, hfull2, -, hrun⟩
    · exact ⟨_, _, hrun, h', hfull'⟩
    · obtain ⟨out, m', hrest, hout⟩ := ih h hfull (toInt32 (off + Proghdr.size))
      exact ⟨out, m', hrun.trans hrest, hout⟩
    · obtain ⟨out, m', hrest, hout⟩ := ih h2 hfull2 (toInt32 (off + Proghdr.size))
      exact ⟨out, m', hrun.trans hrest, hout⟩

end Building

end Phys

end Cinux
