import Cinux.Vm.Owned

/-!
# The size of a process

`sys_sbrk` with `growproc`, and the hooks `sys_anon_allocate` and `sys_vm_map` through which the
C library gets memory.  The size that the library asks for is a `size_t`; `argint` makes an `int` of
it, and its sign says whether the process grows.

* `VmM.growproc`, `VmM.sysSbrk` : the kernel's side;
* `VmM.sysAnonAllocate`, `VmM.sysVmMap` : the library's side;
* `anonAllocate_iff` : which requests are served.
-/

namespace Cinux

open Program

/-- The memory of a process. -/
structure UserMem where
  /-- The number of the root page of `p->pagetable`. -/
  pagetable : ℕ
  /-- `p->sz`, in bytes. -/
  sz : ℕ
  deriving DecidableEq

/-- `SBRK_EAGER`. -/
def SBRK_EAGER : ℤ := 1

/-- `a + n` for a `uint64` and an `int`. -/
def addInt (a : ℕ) (n : ℤ) : ℕ := ((a + n) % 2 ^ 64).toNat

namespace VmM

/-- `growproc`: whether it returns 0, and the process. -/
def growproc (p : UserMem) (n : ℤ) : VmM (Bool × UserMem) :=
  if 0 < n then
    if TRAPFRAME < addInt p.sz n then pure (false, p)
    else do
      let sz ← uvmalloc p.pagetable p.sz (addInt p.sz n) true false
      if sz = 0 then pure (false, p) else pure (true, { p with sz := sz })
  else if n < 0 then do
    let sz ← uvmdealloc p.pagetable p.sz (addInt p.sz n)
    pure (true, { p with sz := sz })
  else pure (true, p)

/-- `sys_sbrk` with `a0` and `a1` in the trap frame: what it returns, as a `uint64`, and the
process. -/
def sysSbrk (p : UserMem) (a0 a1 : ℕ) : VmM (ℕ × UserMem) :=
  let n := toInt32 a0
  let t := toInt32 a1
  let addr := p.sz
  if t = SBRK_EAGER ∨ n < 0 then do
    let (ok, p) ← growproc p n
    if ok then pure (addr, p) else pure (2 ^ 64 - 1, p)
  else if addInt addr n < addr then pure (2 ^ 64 - 1, p)
  else if TRAPFRAME < addInt addr n then pure (2 ^ 64 - 1, p)
  else pure (addr, { p with sz := addInt p.sz n })

/-- `sys_anon_allocate`: the pointer, or `none` for `ENOMEM`. -/
def sysAnonAllocate (p : UserMem) (size : ℕ) : VmM (Option ℕ × UserMem) := do
  let (ret, p) ← sysSbrk p size 0
  if ret = 2 ^ 64 - 1 then pure (none, p) else pure (some ret, p)

/-- `sys_vm_map`, which looks at the size only. -/
def sysVmMap (p : UserMem) (_hint size _prot _flags _fd _offset : ℕ) :
    VmM (Option ℕ × UserMem) :=
  sysAnonAllocate p size

end VmM

/-- **A request is served**: the call returns; with a pointer, the `size` bytes at it belong to the
process, and no page of the process is gone; without one, nothing has changed. -/
def Serves (call : VmM (Option ℕ × UserMem)) (p : UserMem) (size : ℕ) (m : Phys) : Prop :=
  ∃ r p' m', call m = .ok ((r, p'), m') ∧
    (∀ a, r = some a → a + size ≤ p'.sz ∧
      ∀ v < userPages, m.leaf p.pagetable v ≠ none →
        m'.leaf p'.pagetable v = m.leaf p.pagetable v) ∧
    (r = none → p' = p ∧ m' = m)

open VmM

theorem toInt32_eq (n : ℤ) :
    toInt32 n = if n % 2 ^ 32 < 2 ^ 31 then n % 2 ^ 32 else n % 2 ^ 32 - 2 ^ 32 := by
  unfold toInt32
  rw [Int.bmod_def]
  norm_num

variable {p p' : UserMem} {m m' : Phys} {size : ℕ}

/-! ### Growing and shrinking -/

theorem uvmdealloc_le {pagetable old new sz : ℕ}
    (h : uvmdealloc pagetable old new m = .ok (sz, m')) : sz ≤ old := by
  unfold uvmdealloc at h
  split_ifs at h with hle hpages
  · exact (pure_eq_ok.1 h).1.ge
  · obtain ⟨_, m1, -, h⟩ := bind_eq_ok.1 h
    have := (pure_eq_ok.1 h).1
    omega
  · have := (pure_eq_ok.1 h).1
    omega

theorem growproc_neg {n : ℤ} (hn : n < 0) {ok : Bool}
    (h : growproc p n m = .ok ((ok, p'), m')) : ok = true ∧ p'.sz ≤ p.sz := by
  unfold growproc at h
  rw [if_neg (by omega), if_pos hn] at h
  obtain ⟨sz, m1, hd, h⟩ := bind_eq_ok.1 h
  obtain ⟨he, -⟩ := pure_eq_ok.1 h
  cases he
  exact ⟨rfl, uvmdealloc_le hd⟩

section Call

variable (hsz : p.sz ≤ TRAPFRAME)

include hsz

theorem sysAnonAllocate_neg (hn : toInt32 size < 0) {r : Option ℕ}
    (h : sysAnonAllocate p size m = .ok ((r, p'), m')) : r = some p.sz ∧ p'.sz ≤ p.sz := by
  unfold sysAnonAllocate sysSbrk at h
  obtain ⟨⟨ret, p1⟩, m1, hs, h⟩ := bind_eq_ok.1 h
  dsimp only at hs
  rw [if_pos (.inr hn)] at hs
  obtain ⟨⟨ok, p2⟩, m2, hg, hs⟩ := bind_eq_ok.1 hs
  obtain ⟨rfl, hle⟩ := growproc_neg hn hg
  obtain ⟨he, -⟩ := pure_eq_ok.1 hs
  cases he
  have hne : p.sz ≠ 2 ^ 64 - 1 := by
    have : TRAPFRAME < 2 ^ 64 - 1 := by decide
    omega
  dsimp only at h
  rw [if_neg hne] at h
  obtain ⟨he, -⟩ := pure_eq_ok.1 h
  cases he
  exact ⟨rfl, hle⟩

theorem sysAnonAllocate_nonneg (hn : 0 ≤ toInt32 size) :
    sysAnonAllocate p size m = .ok (if TRAPFRAME < p.sz + (toInt32 size).toNat then (none, p)
        else (some p.sz, { p with sz := p.sz + (toInt32 size).toNat }), m) := by
  obtain ⟨k, hk⟩ := Int.eq_ofNat_of_zero_le hn
  have hlt : (k : ℤ) < 2 ^ 31 := by
    rw [← hk, toInt32_eq]
    split_ifs <;> omega
  have hmax : TRAPFRAME + 2 ^ 31 < 2 ^ 64 - 1 := by decide
  have hadd : addInt p.sz k = p.sz + k := by
    unfold addInt
    omega
  have hzero : toInt32 0 ≠ SBRK_EAGER := by decide
  unfold sysAnonAllocate sysSbrk
  dsimp only
  rw [hk, Int.toNat_natCast, hadd, if_neg (by rintro (h | h); exacts [hzero h, by omega]),
    if_neg (by omega)]
  split_ifs with hbig
  · rfl
  · rw [bind_ok rfl]
    dsimp only
    rw [if_neg (by omega)]
    rfl

theorem serves_iff (m : Phys) (size : ℕ) :
    Serves (sysAnonAllocate p size) p size m ↔
      size < 2 ^ 31 ∨ 0 ≤ toInt32 size ∧ TRAPFRAME < p.sz + (toInt32 size).toNat := by
  have hint := toInt32_eq size
  rcases lt_or_ge (toInt32 size) 0 with hneg | hpos
  · -- the process does not grow, and the size is not 0
    have hbig : 2 ^ 31 ≤ size := by
      split_ifs at hint <;> omega
    refine iff_of_false ?_ (by omega)
    rintro ⟨r, p', m', hr, hsome, -⟩
    obtain ⟨rfl, hle⟩ := sysAnonAllocate_neg hsz hneg hr
    have := (hsome _ rfl).1
    omega
  · unfold Serves
    rw [sysAnonAllocate_nonneg hsz hpos]
    by_cases hbig : TRAPFRAME < p.sz + (toInt32 size).toNat
    · rw [if_pos hbig]
      exact iff_of_true ⟨none, p, m, rfl, nofun, fun _ => ⟨rfl, rfl⟩⟩ (.inr ⟨hpos, hbig⟩)
    · rw [if_neg hbig]
      constructor
      · rintro ⟨r, p', m', hr, hsome, -⟩
        obtain ⟨he, -⟩ := ok_inj hr
        cases he
        have hfit : p.sz + size ≤ p.sz + (toInt32 size).toNat := (hsome _ rfl).1
        split_ifs at hint <;> omega
      · intro h
        have hsmall : toInt32 size = size := toInt32_of_fits (by omega)
        refine ⟨_, _, m, rfl, fun a ha => ?_, nofun⟩
        cases ha
        refine ⟨?_, fun _ _ _ => rfl⟩
        dsimp only
        omega

/-- **Which requests are served**: those below 2 GiB, and those that fail because their `int`, which
is not negative, would take the process beyond the trap frame. -/
theorem anonAllocate_iff (m : Phys) (hint size prot flags fd offset : ℕ) :
    (Serves (sysAnonAllocate p size) p size m ↔
      size < 2 ^ 31 ∨ 0 ≤ toInt32 size ∧ TRAPFRAME < p.sz + (toInt32 size).toNat) ∧
    (Serves (sysVmMap p hint size prot flags fd offset) p size m ↔
      size < 2 ^ 31 ∨ 0 ≤ toInt32 size ∧ TRAPFRAME < p.sz + (toInt32 size).toNat) :=
  ⟨serves_iff hsz m size, serves_iff hsz m size⟩

end Call

/-- A process of two pages: tables 1, 2 and 3, pages 4 and 5. -/
def twoPages : Phys where
  free := []
  pt q i :=
    if q = 1 ∧ i = 0 then some ⟨2, .none⟩
    else if q = 2 ∧ i = 0 then some ⟨3, .none⟩
    else if q = 3 ∧ i = 0 then some ⟨4, ⟨true, true, false, true⟩⟩
    else if q = 3 ∧ i = 1 then some ⟨5, ⟨true, true, false, true⟩⟩
    else none
  data _ _ := 0
  luck := []
  kend := 1

/-- A page more for it. -/
theorem anonAllocate_iff_page :
    Serves (sysAnonAllocate ⟨1, 8192⟩ 4096) ⟨1, 8192⟩ 4096 twoPages ∧
      Serves (sysVmMap ⟨1, 8192⟩ 0 4096 3 0 0 0) ⟨1, 8192⟩ 4096 twoPages := by
  obtain ⟨hanon, hmap⟩ := anonAllocate_iff (p := ⟨1, 8192⟩) (by decide) twoPages 0 4096 3 0 0 0
  exact ⟨hanon.2 (.inl (by decide)), hmap.2 (.inl (by decide))⟩

/-- **A request for 4 GiB less a page** gives it the pointer 8192, and takes away
its second page. -/
theorem anonAllocate_shrinks : ∃ m',
    sysAnonAllocate ⟨1, 8192⟩ (2 ^ 32 - 4096) twoPages = .ok ((some 8192, ⟨1, 4096⟩), m') ∧
      twoPages.leaf 1 1 = some ⟨5, ⟨true, true, false, true⟩⟩ ∧ m'.leaf 1 1 = none := by
  obtain ⟨⟨r, p'⟩, m', hr, hp⟩ := exists_of_returns
    (m := sysAnonAllocate ⟨1, 8192⟩ (2 ^ 32 - 4096)) (s := twoPages)
    (p := fun x m' => decide (x = (some 8192, ⟨1, 4096⟩) ∧ m'.leaf 1 1 = none))
    (by decide +kernel)
  obtain ⟨hx, hleaf⟩ := of_decide_eq_true hp
  rw [hx] at hr
  exact ⟨m', hr, by decide, hleaf⟩

end Cinux
