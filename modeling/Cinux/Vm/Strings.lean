import Cinux.Vm.Replace

/-!
# Strings from user memory

`copyinstr` copies a string page by page.  A page that `sys_sbrk` has promised but that nobody has
touched yet is not there, and unlike `copyin` and `copyout` it does not call `vmfault`.

* `cstring` : reading a string byte by byte, from memory that has holes;
* `Phys.copyinstr_eq` : `copyinstr` reads that string;
* `copyinstr_lazy_iff` : when it makes a difference whether memory was added at once or lazily.
-/

namespace Cinux

open Program

/-! ### Strings in memory with holes -/

/-- A string of at most `n` bytes at `a`: whether there is a NUL, and the bytes up to it, or up to
the first that cannot be read. -/
def cstring (byte : ℕ → Option UInt8) : ℕ → ℕ → Bool × List UInt8
  | 0, _ => (false, [])
  | n + 1, a =>
    match byte a with
    | none => (false, [])
    | some b =>
      if b = 0 then (true, [0])
      else ((cstring byte n (a + 1)).1, b :: (cstring byte n (a + 1)).2)

variable {byte byte' : ℕ → Option UInt8} {n k a off : ℕ}

theorem cstring_none (h : byte a = none) : cstring byte n a = (false, []) := by
  cases n with
  | zero => rfl
  | succ n => rw [cstring, h]

theorem cstring_scan {page : ℕ → UInt8} (h : ∀ j < n, byte (a + j) = some (page (off + j))) :
    cstring byte (n + k) a = if (VmM.scan page n off).2 then (true, (VmM.scan page n off).1)
      else ((cstring byte k (a + n)).1, (VmM.scan page n off).1 ++ (cstring byte k (a + n)).2) := by
  induction n generalizing a off with
  | zero =>
    rw [Nat.zero_add]
    rfl
  | succ n ih =>
    have hrest : ∀ j < n, byte (a + 1 + j) = some (page (off + 1 + j)) := by
      intro j hj
      rw [Nat.add_assoc, Nat.add_comm 1 j, h (j + 1) (by omega), Nat.add_assoc, Nat.add_comm 1 j]
    have hfirst : byte a = some (page off) := h 0 (by omega)
    rw [show n + 1 + k = n + k + 1 by omega, cstring, hfirst, VmM.scan]
    dsimp only
    by_cases hb : page off = 0
    · rw [if_pos hb, if_pos hb]
      rfl
    · rw [if_neg hb, if_neg hb, ih hrest, show a + 1 + n = a + (n + 1) by omega]
      dsimp only
      split_ifs <;> rfl

/-- **Filling holes with NULs** is noticed exactly if the string gets to one of them. -/
theorem cstring_eq_iff {New : ℕ → Prop} (hnew : ∀ a, New a → byte a = none ∧ byte' a = some 0)
    (hold : ∀ a, ¬New a → byte' a = byte a) :
    cstring byte' n a = cstring byte n a ↔
      ¬∃ k < n, (∀ j < k, ∃ b, byte (a + j) = some b ∧ b ≠ 0) ∧ New (a + k) := by
  induction n generalizing a with
  | zero => simp [cstring]
  | succ n ih =>
    rw [cstring, cstring]
    by_cases ha : New a
    · rw [(hnew a ha).1, (hnew a ha).2]
      refine iff_of_false (by simp) (not_not.2 ⟨0, by omega, fun j hj => by omega, ha⟩)
    rw [hold a ha]
    cases hb : byte a with
    | none =>
      refine iff_of_true rfl ?_
      rintro ⟨k, -, hread, hk⟩
      cases k with
      | zero => exact ha hk
      | succ k =>
        obtain ⟨b, hb', -⟩ := hread 0 (by omega)
        rw [Nat.add_zero, hb] at hb'
        cases hb'
    | some b =>
      dsimp only
      by_cases hzero : b = 0
      · rw [if_pos hzero, if_pos hzero]
        refine iff_of_true rfl ?_
        rintro ⟨k, -, hread, hk⟩
        cases k with
        | zero => exact ha hk
        | succ k =>
          obtain ⟨b', hb', hne⟩ := hread 0 (by omega)
          rw [Nat.add_zero, hb] at hb'
          exact hne (Option.some.inj hb' ▸ hzero)
      · rw [if_neg hzero, if_neg hzero]
        have htail : (((cstring byte' n (a + 1)).1, b :: (cstring byte' n (a + 1)).2) =
            ((cstring byte n (a + 1)).1, b :: (cstring byte n (a + 1)).2)) ↔
            cstring byte' n (a + 1) = cstring byte n (a + 1) := by
          rw [Prod.ext_iff, Prod.ext_iff]
          simp
        rw [htail, ih, not_iff_not]
        -- the first byte is read, so what matters is the rest
        constructor
        · rintro ⟨k, hk, hread, hnew'⟩
          refine ⟨k + 1, by omega, fun j hj => ?_,
            by rwa [Nat.add_assoc, Nat.add_comm 1 k] at hnew'⟩
          cases j with
          | zero => exact ⟨b, hb, hzero⟩
          | succ j =>
            obtain ⟨b', hb', hne⟩ := hread j (by omega)
            rw [Nat.add_assoc, Nat.add_comm 1 j] at hb'
            exact ⟨b', hb', hne⟩
        · rintro ⟨k, hk, hread, hnew'⟩
          cases k with
          | zero => exact absurd hnew' ha
          | succ k =>
            refine ⟨k, by omega, fun j hj => ?_, by rwa [Nat.add_assoc, Nat.add_comm 1 k]⟩
            rw [Nat.add_assoc, Nat.add_comm 1 j]
            exact hread (j + 1) (by omega)

/-! ### `copyinstr` -/

namespace Phys

open VmM

/-- **`copyinstr` reads the string** that user code sees. -/
theorem copyinstrLoop_eq (m : Phys) (r : ℕ) {srcva max : ℕ} (hk : max ≤ k) :
    copyinstrLoop r k srcva max m = .ok (cstring (m.userByte r) max srcva, m) := by
  induction k generalizing srcva max with
  | zero =>
    obtain rfl : max = 0 := by omega
    rfl
  | succ k ih =>
    rw [copyinstrLoop]
    split_ifs with hmax
    · rw [hmax]
      rfl
    have hdiv : pgrounddown srcva / PGSIZE = srcva / PGSIZE := Nat.mul_div_cancel _ (by decide)
    dsimp only
    by_cases hva : MAXVA ≤ pgrounddown srcva
    · have haddr : walkaddr r (pgrounddown srcva) m = .ok (none, m) := by
        unfold walkaddr
        rw [if_pos hva]
        rfl
      rw [bind_ok haddr, cstring_none]
      · rfl
      · rw [userByte, if_pos (hva.trans (Nat.div_mul_le_self srcva PGSIZE))]
    rw [not_le] at hva
    have hlast : srcva < MAXVA := by
      simp only [pgrounddown, MAXVA, PGSIZE] at *
      omega
    rw [bind_ok (Own.walkaddr_eq m r hva), hdiv]
    have hbyte : m.userByte r srcva = (m.leaf r (srcva / PGSIZE)).bind fun e =>
        if e.perm.u then some (m.data e.page (srcva % PGSIZE)) else none := by
      rw [userByte, if_neg (by omega)]
    cases hleaf : m.leaf r (srcva / PGSIZE) with
    | none =>
      rw [hleaf] at hbyte
      rw [cstring_none hbyte]
      rfl
    | some e =>
      rw [hleaf, Option.bind_some] at hbyte
      rw [Option.bind_some]
      by_cases hu : e.perm.u
      · rw [if_pos hu]
        dsimp only
        -- a stretch of the page, and then the rest
        generalize hn : min (PGSIZE - (srcva - pgrounddown srcva)) max = n
        have hin : ∀ j < n, m.userByte r (srcva + j) =
            some (m.data e.page (srcva - pgrounddown srcva + j)) := by
          intro j hj
          have hpage : (srcva + j) / PGSIZE = srcva / PGSIZE ∧ srcva + j < MAXVA ∧
              (srcva + j) % PGSIZE = srcva - pgrounddown srcva + j := by
            simp only [pgrounddown, MAXVA, PGSIZE] at *
            omega
          rw [userByte, if_neg (by omega), hpage.1, hleaf, Option.bind_some, if_pos hu, hpage.2.2]
        have hscan := cstring_scan (k := max - n) hin
        rw [show n + (max - n) = max by omega] at hscan
        rw [hscan]
        obtain ⟨bytes, found⟩ := scan (m.data e.page) n (srcva - pgrounddown srcva)
        dsimp only
        split_ifs with hfound
        · rfl
        have hpos : 0 < n := by
          simp only [pgrounddown, PGSIZE] at *
          omega
        rw [bind_ok (ih (by omega))]
        have hnext : cstring (m.userByte r) (max - n) ((pgrounddown srcva + PGSIZE) % 2 ^ 64) =
            cstring (m.userByte r) (max - n) (srcva + n) := by
          rcases le_total (PGSIZE - (srcva - pgrounddown srcva)) max with hle | hle
          · have haddr : (pgrounddown srcva + PGSIZE) % 2 ^ 64 = srcva + n := by
              simp only [pgrounddown, MAXVA, PGSIZE] at *
              omega
            rw [haddr]
          · rw [show max - n = 0 by omega, cstring, cstring]
        rw [hnext]
        rfl
      · rw [if_neg hu] at hbyte
        rw [if_neg hu, cstring_none hbyte]
        rfl

theorem copyinstr_eq (m : Phys) (r srcva max : ℕ) :
    copyinstr r srcva max m = .ok (cstring (m.userByte r) max srcva, m) :=
  copyinstrLoop_eq m r le_rfl

end Phys

/-! ### Lazy and eager growth -/

open Phys VmM

section Growth

variable {T : ℕ} {R H : Set ℕ} {m m' : Phys} {p : UserMem} {tf grow eager lazy : ℕ}
  (h : Own R H m) (hr : p.pagetable ∈ R) (hs : Space T m p.pagetable tf p.sz)
  (hgrow : toInt32 grow = k) (hfits : p.sz + k ≤ TRAPFRAME)

include h hr hs hgrow hfits

omit h hr hs in
theorem addInt_grow : addInt p.sz (toInt32 grow) = p.sz + k := by
  have hmax : TRAPFRAME < 2 ^ 64 := by decide
  rw [hgrow]
  unfold addInt
  omega

/-- An eager `sys_sbrk`, with enough free pages: the new pages have zeros. -/
theorem sysSbrk_eager (heager : toInt32 eager = SBRK_EAGER)
    (hfree : ¬Short (3 * (pages (p.sz + k) - pages p.sz)) m) :
    ∃ m', sysSbrk p grow eager m = .ok ((p.sz, { p with sz := p.sz + k }), m') ∧ Own R H m' ∧
      Fills R p.pagetable (pages p.sz) (pages (p.sz + k)) ⟨true, true, false, true⟩ m m' ∧
      Takes (3 * (pages (p.sz + k) - pages p.sz)) m m' := by
  have hadd := addInt_grow hgrow hfits
  unfold sysSbrk
  dsimp only
  rw [if_pos (.inl heager)]
  rcases Nat.eq_zero_or_pos k with rfl | hpos
  · have hzero : growproc p (toInt32 grow) m = .ok ((true, p), m) := by
      unfold growproc
      rw [hgrow]
      rfl
    rw [bind_ok hzero]
    exact ⟨m, rfl, h, ⟨fun _ _ _ _ => rfl, fun v hv hv' => absurd hv' (not_lt.2 hv)⟩,
      (Takes.refl m).mono (Nat.zero_le _)⟩
  · obtain ⟨sz, m', hrun, hown, -, hout⟩ := h.uvmalloc_runs hr hs.size (Nat.le_add_right p.sz k)
      hs.none (.inl hfits) true false
    obtain ⟨-, -, hshort⟩ | ⟨rfl, -, hfills, htakes⟩ := hout
    · exact absurd hshort hfree
    have hgrown : growproc p (toInt32 grow) m = .ok ((true, { p with sz := p.sz + k }), m') := by
      unfold growproc
      rw [if_pos (by omega), hadd, if_neg (by omega), bind_ok hrun, if_neg (by omega)]
      rfl
    rw [bind_ok hgrown]
    exact ⟨m', rfl, hown, hfills, htakes⟩

omit h hr hs in
theorem sysSbrk_lazy (hlazy : toInt32 lazy ≠ SBRK_EAGER) :
    sysSbrk p grow lazy m = .ok ((p.sz, { p with sz := p.sz + k }), m) := by
  have hadd := addInt_grow hgrow hfits
  unfold sysSbrk
  dsimp only
  rw [hadd, if_neg (by rintro (he | hneg); exacts [hlazy he, by omega]), if_neg (by omega),
    if_neg (by omega)]
  rfl

omit hgrow in
/-- What user code sees outside the new pages is the same, and there it is NULs or nothing. -/
theorem userByte_grown {c : ℕ}
    (hfills : Fills R p.pagetable (pages p.sz) (pages (p.sz + k)) ⟨true, true, false, true⟩ m m')
    (htakes : Takes c m m') (a : ℕ) :
    (pages p.sz ≤ a / PGSIZE ∧ a / PGSIZE < pages (p.sz + k) →
      m.userByte p.pagetable a = none ∧ m'.userByte p.pagetable a = some 0) ∧
    (¬(pages p.sz ≤ a / PGSIZE ∧ a / PGSIZE < pages (p.sz + k)) →
      m'.userByte p.pagetable a = m.userByte p.pagetable a) := by
  have huser := pages_le hfits
  constructor
  · rintro ⟨hlo, hhi⟩
    have hva : ¬MAXVA ≤ a := by
      simp only [userPages, TRAPFRAME, TRAMPOLINE, MAXVA, PGSIZE] at *
      omega
    obtain ⟨q, hq, hzero⟩ := hfills.zeros _ hlo hhi
    rw [userByte, userByte, if_neg hva, if_neg hva, hs.none _ hlo (by omega), hq]
    exact ⟨rfl, congrArg some (hzero _)⟩
  · intro hout
    rw [userByte, userByte, hfills.only _ hr _ fun hin => hout hin.2]
    split_ifs
    · rfl
    cases he : m.leaf p.pagetable (a / PGSIZE) with
    | none => rfl
    | some e =>
      rw [Option.bind_some, Option.bind_some]
      split_ifs with hu
      · -- a page that the user can reach is theirs, and was not free
        have hv : a / PGSIZE < userPages := by
          by_contra hge
          rw [hs.not_user (not_lt.1 hge) he] at hu
          cases hu
        rw [htakes.data (h.leaf_not_free hr hv he)]
      · rfl

/-- The string at `addr` gets to a page from `lo` to below `hi`: one of its first `max` bytes is
there, and the bytes before it can be read and are not NUL. -/
def Reaches (m : Phys) (r addr max lo hi : ℕ) : Prop :=
  ∃ k < max, (∀ j < k, ∃ b, m.userByte r (addr + j) = some b ∧ b ≠ 0) ∧
    lo ≤ (addr + k) / PGSIZE ∧ (addr + k) / PGSIZE < hi

/-- **Lazy and eager growth give `copyinstr` the same string exactly if the string does not get to
the new pages.** -/
theorem copyinstr_lazy_iff (heager : toInt32 eager = SBRK_EAGER)
    (hlazy : toInt32 lazy ≠ SBRK_EAGER) (hfree : ¬Short (3 * (pages (p.sz + k) - pages p.sz)) m)
    (addr max : ℕ) :
    ∃ p' m' out out',
      sysSbrk p grow eager m = .ok ((p.sz, p'), m') ∧
      sysSbrk p grow lazy m = .ok ((p.sz, p'), m) ∧
      copyinstr p.pagetable addr max m' = .ok (out, m') ∧
      copyinstr p.pagetable addr max m = .ok (out', m) ∧
      (out = out' ↔ ¬Reaches m p.pagetable addr max (pages p.sz) (pages p'.sz)) := by
  obtain ⟨m', hrun, -, hfills, htakes⟩ := sysSbrk_eager h hr hs hgrow hfits heager hfree
  have hbyte := userByte_grown h hr hs hfits hfills htakes
  refine ⟨_, m', _, _, hrun, sysSbrk_lazy hgrow hfits hlazy, copyinstr_eq m' _ addr max,
    copyinstr_eq m _ addr max, ?_⟩
  exact cstring_eq_iff (fun a => (hbyte a).1) fun a => (hbyte a).2

end Growth

/-- A process of one page that asks for another one, and a string at the end of the first. -/
theorem copyinstr_lazy_iff_grown : ∃ (m m' : Phys) (p p' : UserMem) (out out' : Bool × List UInt8),
    p.sz = 4096 ∧ sysSbrk p 4096 1 m = .ok ((p.sz, p'), m') ∧
      sysSbrk p 4096 2 m = .ok ((p.sz, p'), m) ∧
      copyinstr p.pagetable 4090 10 m' = .ok (out, m') ∧
      copyinstr p.pagetable 4090 10 m = .ok (out', m) ∧
      (out = out' ↔ ¬Reaches m p.pagetable 4090 10 (pages p.sz) (pages p'.sz)) := by
  obtain ⟨m₀, r, tf, ⟨_, p⟩, m, hown₀, hspace₀, hrun, hout⟩ := exists_process
    (k := fun r _ => sysSbrk ⟨r, 0⟩ 4096 1)
    (P := fun out m => decide (out.2.sz = 4096 ∧ 3 ≤ m.free.length ∧ true ∉ m.luck))
    (by decide +kernel)
  obtain ⟨hsz, hlen, hluck⟩ := of_decide_eq_true hout
  obtain ⟨_, _, hrun', hown, -, hr, hspace, -⟩ :=
    hown₀.sysSbrk_runs (p := ⟨r, 0⟩) (Set.mem_singleton r) hspace₀ 4096 1
  obtain ⟨rfl, rfl⟩ := ok_inj (hrun.symm.trans hrun')
  have hshort : ¬Short (3 * (pages (p.sz + 4096) - pages p.sz)) m := by
    rw [hsz, show 3 * (pages (4096 + 4096) - pages 4096) = 3 by decide]
    rintro (hlt | hbad)
    · omega
    · exact hluck hbad
  have hgrow : toInt32 (4096 : ℕ) = (4096 : ℕ) := by decide
  have heager : toInt32 (1 : ℕ) = SBRK_EAGER := by decide
  have hlazy : toInt32 (2 : ℕ) ≠ SBRK_EAGER := by decide
  have hfits : p.sz + 4096 ≤ TRAPFRAME := by rw [hsz]; decide
  obtain ⟨p', m', out, out', h⟩ := copyinstr_lazy_iff hown hr (hr ▸ hspace) hgrow hfits heager hlazy
    hshort 4090 10
  exact ⟨m, m', p, p', out, out', hsz, h⟩

/-- A process of two pages, as in `twoPages`, with an `a` at the end of its memory, and a free
page. -/
def lastByte : Phys :=
  { twoPages with
    free := [6]
    data := fun q i => if q = 5 ∧ i = 4095 then 97 else 0 }

theorem string_of_returns {t : ℕ} {out : Bool × List UInt8}
    (h : Program.returns (sysSbrk ⟨1, 8192⟩ 4096 t) lastByte (fun x m' =>
      decide (x = (8192, ⟨1, 12288⟩)) &&
        Program.returns (copyinstr 1 8191 10) m' fun y _ => decide (y = out)) = true) :
    ∃ m' m'', sysSbrk ⟨1, 8192⟩ 4096 t lastByte = .ok ((8192, ⟨1, 12288⟩), m') ∧
      copyinstr 1 8191 10 m' = .ok (out, m'') := by
  obtain ⟨x, m', hrun, hok⟩ := exists_of_returns h
  obtain ⟨hx, hcopy⟩ := (Bool.and_eq_true _ _).mp hok
  obtain ⟨y, m'', hrun', hy⟩ := exists_of_returns hcopy
  rw [of_decide_eq_true hx] at hrun
  rw [of_decide_eq_true hy] at hrun'
  exact ⟨m', m'', hrun, hrun'⟩

/-- **The string at the last byte**: after an eager `sys_sbrk` it is `a`, after a lazy one
`copyinstr` fails. -/
theorem copyinstr_misses_lazy :
    (∃ m' m'', sysSbrk ⟨1, 8192⟩ 4096 1 lastByte = .ok ((8192, ⟨1, 12288⟩), m') ∧
      copyinstr 1 8191 10 m' = .ok ((true, [97, 0]), m'')) ∧
    ∃ m' m'', sysSbrk ⟨1, 8192⟩ 4096 2 lastByte = .ok ((8192, ⟨1, 12288⟩), m') ∧
      copyinstr 1 8191 10 m' = .ok ((false, [97]), m'') :=
  ⟨string_of_returns (by decide +kernel), string_of_returns (by decide +kernel)⟩

end Cinux
