import Cinux.Kernel.Block
import Cinux.System.Program

/-!
# Pages and page tables

`kalloc.c` and `vm.c`: the allocator of physical pages, and the page tables of user processes, which
are trees of pages with three levels.

A physical page is known by its number, and the memory is looked at in two ways: as tables of page
table entries and as bytes.  Every page is used in one of them only, from the `memset` after its
allocation on.  `kalloc` may fail at any call: the list `luck` says when it does although there is a
free page.

Functions that return a page or fail give an `Option`; those that return 0 or -1 give a `Bool`.
-/

namespace Cinux

open Function

/-- Bytes per page. -/
def PGSIZE : ℕ := 4096

/-- One beyond the highest virtual address. -/
def MAXVA : ℕ := 2 ^ 38

/-- The trampoline page, at the highest address. -/
def TRAMPOLINE : ℕ := MAXVA - PGSIZE

/-- The trap frame, below it. -/
def TRAPFRAME : ℕ := TRAMPOLINE - PGSIZE

/-- The end of the physical memory. -/
def PHYSTOP : ℕ := 0x80000000 + 128 * 1024 * 1024

/-- `PGROUNDUP`. -/
def pgroundup (sz : ℕ) : ℕ := (sz + (PGSIZE - 1)) % 2 ^ 64 / PGSIZE * PGSIZE

/-- `PGROUNDDOWN`. -/
def pgrounddown (a : ℕ) : ℕ := a / PGSIZE * PGSIZE

/-- `PX`: the index into a table of the given level. -/
def PX (level va : ℕ) : ℕ := va / 2 ^ (12 + 9 * level) % 512

/-- The flags of an entry but for `PTE_V`. -/
structure Perm where
  r : Bool
  w : Bool
  x : Bool
  u : Bool
  deriving DecidableEq

/-- The flags of an entry that leads to a table. -/
def Perm.none : Perm := ⟨false, false, false, false⟩

/-- `pte & (PTE_R|PTE_W|PTE_X)` is not 0. -/
def Perm.isLeaf (p : Perm) : Bool := p.r || p.w || p.x

/-- A valid entry: the page it leads to and its flags. -/
structure Pte where
  page : ℕ
  perm : Perm
  deriving DecidableEq

/-- A word as an entry, `none` without `PTE_V`. -/
def Pte.ofWord (n : ℕ) : Option Pte :=
  if n.testBit 0 then some ⟨n / 2 ^ 10, ⟨n.testBit 1, n.testBit 2, n.testBit 3, n.testBit 4⟩⟩
  else none

/-- The physical memory. -/
structure Phys where
  /-- `kmem.freelist`. -/
  free : List ℕ
  /-- The pages as tables. -/
  pt : ℕ → ℕ → Option Pte
  /-- The pages as bytes. -/
  data : ℕ → ℕ → UInt8
  /-- Which of the next calls of `kalloc` fail. -/
  luck : List Bool
  /-- The number of the first page after the kernel, at `PGROUNDUP(end)`. -/
  kend : ℕ

/-- How code comes to a stop. -/
inductive VmStop where
  | panic (msg : String)
  /-- `freewalk` goes below the third level. -/
  | depth
  deriving DecidableEq

/-- Code on the physical memory. -/
abbrev VmM := Program VmStop Phys

namespace Phys

/-- `memset(page, c, PGSIZE)`. -/
def fill (m : Phys) (page : ℕ) (c : UInt8) : Phys :=
  { m with
    pt := update m.pt page fun _ => Pte.ofWord (c.toNat * 0x0101010101010101)
    data := update m.data page fun _ => c }

/-- Assignment to entry `i` of a table. -/
def setPte (m : Phys) (q i : ℕ) (e : Option Pte) : Phys :=
  { m with pt := update m.pt q (update (m.pt q) i e) }

/-- `memmove(dst, src, PGSIZE)`. -/
def copyPage (m : Phys) (dst src : ℕ) : Phys :=
  { m with data := update m.data dst (m.data src) }

/-- `memmove` of `bytes` to offset `off` of a page. -/
def storeBytes (m : Phys) (page off : ℕ) (bytes : List UInt8) : Phys :=
  { m with
    data := update m.data page fun i =>
      if off ≤ i then bytes.getD (i - off) (m.data page i) else m.data page i }

end Phys

namespace VmM

/-- `panic`. -/
def stop {α : Type} (msg : String) : VmM α := throw (.panic msg)

/-- `kalloc`. -/
def kalloc : VmM (Option ℕ) := fun m =>
  if m.luck.headD false then .ok (none, { m with luck := m.luck.tail })
  else
    match m.free with
    | [] => .ok (none, { m with luck := m.luck.tail })
    | q :: f => .ok (some q, { m.fill q 5 with free := f, luck := m.luck.tail })

/-- `kfree`. -/
def kfree (q : ℕ) : VmM Unit := fun m =>
  if q < m.kend ∨ PHYSTOP / PGSIZE ≤ q then .error (.panic "kfree")
  else .ok ((), { m.fill q 1 with free := q :: m.free })

/-- `memset(page, 0, PGSIZE)`. -/
def clear (q : ℕ) : VmM Unit := fun m => .ok ((), m.fill q 0)

/-- Entry `i` of table `q`. -/
def pte (q i : ℕ) : VmM (Option Pte) := fun m => .ok (m.pt q i, m)

@[inherit_doc Phys.setPte]
def setPte (q i : ℕ) (e : Option Pte) : VmM Unit := fun m => .ok ((), m.setPte q i e)

@[inherit_doc Phys.copyPage]
def copyPage (dst src : ℕ) : VmM Unit := fun m => .ok ((), m.copyPage dst src)

@[inherit_doc Phys.storeBytes]
def storeBytes (page off : ℕ) (bytes : List UInt8) : VmM Unit := fun m =>
  .ok ((), m.storeBytes page off bytes)

/-- A round of the loop of `walk`: from table `q` to the next one. -/
def walkLevel (alloc : Bool) (q i : ℕ) : VmM (Option ℕ) := do
  match ← pte q i with
  | some e => pure (some e.page)
  | none =>
    if alloc then
      match ← kalloc with
      | none => pure none
      | some c =>
        clear c
        setPte q i (some ⟨c, .none⟩)
        pure (some c)
    else pure none

/-- `walk`: the table and the index of the entry for `va`. -/
def walk (pagetable va : ℕ) (alloc : Bool) : VmM (Option (ℕ × ℕ)) :=
  if MAXVA ≤ va then stop "walk"
  else do
    match ← walkLevel alloc pagetable (PX 2 va) with
    | none => pure none
    | some q =>
      match ← walkLevel alloc q (PX 1 va) with
      | none => pure none
      | some q => pure (some (q, PX 0 va))

/-- The value of the entry for `va`, `none` if it is not valid or there is no table for it. -/
def lookup (pagetable va : ℕ) : VmM (Option Pte) := do
  match ← walk pagetable va false with
  | none => pure none
  | some (q, i) => pte q i

/-- `walkaddr`. -/
def walkaddr (pagetable va : ℕ) : VmM (Option ℕ) :=
  if MAXVA ≤ va then pure none
  else do
    match ← lookup pagetable va with
    | none => pure none
    | some e => pure (if e.perm.u then some e.page else none)

/-- The loop of `mappages`, with `k` pages left. -/
def mappagesLoop (pagetable : ℕ) (perm : Perm) : ℕ → ℕ → ℕ → VmM Bool
  | 0, _, _ => pure true
  | k + 1, a, pa => do
    match ← walk pagetable a true with
    | none => pure false
    | some (q, i) =>
      match ← pte q i with
      | some _ => stop "mappages: remap"
      | none =>
        setPte q i (some ⟨pa, perm⟩)
        mappagesLoop pagetable perm k (a + PGSIZE) (pa + 1)

/-- `mappages`, of the pages from `pa` on.  The numbers of pages are unbounded, where `pa += PGSIZE`
of the code wraps at 2^64. -/
def mappages (pagetable va size pa : ℕ) (perm : Perm) : VmM Bool :=
  if va % PGSIZE ≠ 0 then stop "mappages: va not aligned"
  else if size % PGSIZE ≠ 0 then stop "mappages: size not aligned"
  else if size = 0 then stop "mappages: size"
  else mappagesLoop pagetable perm (size / PGSIZE) va pa

/-- `uvmcreate`. -/
def uvmcreate : VmM (Option ℕ) := do
  match ← kalloc with
  | none => pure none
  | some pagetable =>
    clear pagetable
    pure (some pagetable)

/-- A round of the loop of `uvmunmap`. -/
def unmapPage (pagetable a : ℕ) (doFree : Bool) : VmM Unit := do
  match ← walk pagetable a false with
  | none => pure ()
  | some (q, i) =>
    match ← pte q i with
    | none => pure ()
    | some e =>
      if doFree then kfree e.page else pure ()
      setPte q i none

/-- The loop of `uvmunmap`. -/
def uvmunmapLoop (pagetable : ℕ) (doFree : Bool) : ℕ → ℕ → VmM Unit
  | 0, _ => pure ()
  | n + 1, a => do
    unmapPage pagetable a doFree
    uvmunmapLoop pagetable doFree n (a + PGSIZE)

/-- `uvmunmap`. -/
def uvmunmap (pagetable va npages : ℕ) (doFree : Bool) : VmM Unit :=
  if va % PGSIZE ≠ 0 then stop "uvmunmap: not aligned"
  else uvmunmapLoop pagetable doFree npages va

/-- `uvmdealloc`.  The number of pages goes through an `int`. -/
def uvmdealloc (pagetable oldsz newsz : ℕ) : VmM ℕ :=
  if oldsz ≤ newsz then pure oldsz
  else if pgroundup newsz < pgroundup oldsz then do
    let npages := toInt32 ((pgroundup oldsz - pgroundup newsz) / PGSIZE : ℕ)
    uvmunmap pagetable (pgroundup newsz) (npages % 2 ^ 64).toNat true
    pure newsz
  else pure newsz

/-- The loop of `uvmalloc`, with `k` pages left. -/
def uvmallocLoop (pagetable oldsz newsz : ℕ) (perm : Perm) : ℕ → ℕ → VmM ℕ
  | 0, _ => pure newsz
  | k + 1, a => do
    match ← kalloc with
    | none =>
      let _ ← uvmdealloc pagetable a oldsz
      pure 0
    | some mem =>
      clear mem
      if ← mappages pagetable a PGSIZE mem perm then
        uvmallocLoop pagetable oldsz newsz perm k (a + PGSIZE)
      else
        kfree mem
        let _ ← uvmdealloc pagetable a oldsz
        pure 0

/-- `uvmalloc`; `w` and `x` are the flags of `xperm`. -/
def uvmalloc (pagetable oldsz newsz : ℕ) (w x : Bool) : VmM ℕ :=
  if newsz < oldsz then pure oldsz
  else
    let oldsz := pgroundup oldsz
    uvmallocLoop pagetable oldsz newsz ⟨true, w, x, true⟩ ((newsz + (PGSIZE - 1) - oldsz) / PGSIZE)
      oldsz

/-- `freewalk`, of a tree with `d` levels. -/
def freewalk : ℕ → ℕ → VmM Unit
  | 0, _ => throw .depth
  | d + 1, pagetable => do
    (List.range 512).forM fun i => do
      match ← pte pagetable i with
      | some e =>
        if e.perm.isLeaf then stop "freewalk: leaf"
        else do
          freewalk d e.page
          setPte pagetable i none
      | none => pure ()
    kfree pagetable

/-- `uvmfree`. -/
def uvmfree (pagetable sz : ℕ) : VmM Unit := do
  if 0 < sz then uvmunmap pagetable 0 (pgroundup sz / PGSIZE) true else pure ()
  freewalk 3 pagetable

/-- The exit `err` of `uvmcopy`. -/
def uvmcopyErr (new i : ℕ) : VmM Bool := do
  uvmunmap new 0 (i / PGSIZE) true
  pure false

/-- The loop of `uvmcopy`, with `k` pages left. -/
def uvmcopyLoop (old new : ℕ) : ℕ → ℕ → VmM Bool
  | 0, _ => pure true
  | k + 1, i => do
    match ← lookup old i with
    | none => uvmcopyLoop old new k (i + PGSIZE)
    | some e =>
      match ← kalloc with
      | none => uvmcopyErr new i
      | some mem =>
        copyPage mem e.page
        if ← mappages new i PGSIZE mem e.perm then uvmcopyLoop old new k (i + PGSIZE)
        else
          kfree mem
          uvmcopyErr new i

/-- `uvmcopy`. -/
def uvmcopy (old new sz : ℕ) : VmM Bool := uvmcopyLoop old new ((sz + (PGSIZE - 1)) / PGSIZE) 0

/-- `uvmclear`. -/
def uvmclear (pagetable va : ℕ) : VmM Unit := do
  match ← walk pagetable va false with
  | none => stop "uvmclear"
  | some (q, i) =>
    let e ← pte q i
    setPte q i (e.map fun e => { e with perm := { e.perm with u := false } })

/-- `ismapped`. -/
def ismapped (pagetable va : ℕ) : VmM Bool := do
  let e ← lookup pagetable va
  pure e.isSome

/-- `vmfault`, in a process with page table `own` and size `sz`. -/
def vmfault (own sz pagetable va : ℕ) : VmM (Option ℕ) :=
  if sz ≤ va then pure none
  else do
    let va := pgrounddown va
    if ← ismapped pagetable va then pure none
    else
      match ← kalloc with
      | none => pure none
      | some mem =>
        clear mem
        if ← mappages own va PGSIZE mem ⟨true, true, false, true⟩ then pure (some mem)
        else
          kfree mem
          pure none

/-- The page for `va0`, which is brought in if need be. -/
def touch (own sz pagetable va0 : ℕ) : VmM (Option ℕ) := do
  match ← walkaddr pagetable va0 with
  | some pa => pure (some pa)
  | none => vmfault own sz pagetable va0

/-- The loop of `copyout`; a round copies at least one byte. -/
def copyoutLoop (own sz pagetable : ℕ) : ℕ → ℕ → List UInt8 → VmM Bool
  | 0, _, _ => pure true
  | k + 1, dstva, src =>
    if src = [] then pure true
    else
      let va0 := pgrounddown dstva
      if MAXVA ≤ va0 then pure false
      else do
        match ← touch own sz pagetable va0 with
        | none => pure false
        | some pa =>
          match ← lookup pagetable va0 with
          | none => pure false
          | some e =>
            if e.perm.w then
              let n := PGSIZE - (dstva - va0)
              storeBytes pa (dstva - va0) (src.take n)
              copyoutLoop own sz pagetable k ((va0 + PGSIZE) % 2 ^ 64) (src.drop n)
            else pure false

/-- `copyout`. -/
def copyout (own sz pagetable dstva : ℕ) (src : List UInt8) : VmM Bool :=
  copyoutLoop own sz pagetable src.length dstva src

/-- The inner loop of `copyinstr` over at most `n` bytes from `off` on: what it stores, and whether
it has found the NUL. -/
def scan (page : ℕ → UInt8) : ℕ → ℕ → List UInt8 × Bool
  | 0, _ => ([], false)
  | n + 1, off =>
    if page off = 0 then ([0], true)
    else
      let (bytes, found) := scan page n (off + 1)
      (page off :: bytes, found)

/-- The loop of `copyinstr`; a round without a NUL takes at least one byte of `max`. -/
def copyinstrLoop (pagetable : ℕ) : ℕ → ℕ → ℕ → VmM (Bool × List UInt8)
  | 0, _, _ => pure (false, [])
  | k + 1, srcva, max =>
    if max = 0 then pure (false, [])
    else do
      let va0 := pgrounddown srcva
      match ← walkaddr pagetable va0 with
      | none => pure (false, [])
      | some pa => fun m =>
        let n := min (PGSIZE - (srcva - va0)) max
        let (bytes, found) := scan (m.data pa) n (srcva - va0)
        if found then .ok ((true, bytes), m)
        else
          (do
            let (r, rest) ← copyinstrLoop pagetable k ((va0 + PGSIZE) % 2 ^ 64) (max - n)
            pure (r, bytes ++ rest)) m

/-- `copyinstr`: whether it returns 0, and the bytes it stores at `dst`. -/
def copyinstr (pagetable srcva max : ℕ) : VmM (Bool × List UInt8) :=
  copyinstrLoop pagetable max srcva max

end VmM

end Cinux
