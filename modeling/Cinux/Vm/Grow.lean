import Cinux.Vm.Unmap
import Mathlib.Data.Finset.Card

/-!
# Getting memory

`uvmalloc`, `uvmcopy`, `vmfault` and `copyout`: pages of the free list become pages of an address
space.  Every call of `kalloc` may fail, and then what has been mapped so far is given back.

* `Phys.Only` : entries have changed for a range of virtual pages only;
* `Phys.Fills` : the virtual pages of a range have new pages with zeros;
* `Phys.Copies` : those of a range have new pages with the contents of other ones;
* `Phys.Own.newPage_runs` : one new page, the step of `uvmalloc` and `vmfault`;
* `Phys.Own.uvmalloc_runs`, `uvmcopy_runs`, `vmfault_runs`, `copyout_runs` : the functions.
-/

namespace Cinux

namespace Phys

open Program (Runs)

variable {R H : Set ℕ} {m m' m'' : Phys} {r r' d k q c c' i v va n lo mid hi : ℕ} {perm : Perm}

/-- Only entries of `r` for virtual pages from `lo` to below `hi` have changed. -/
def Only (R : Set ℕ) (r lo hi : ℕ) (m m' : Phys) : Prop :=
  ∀ r' ∈ R, ∀ v, ¬(r' = r ∧ lo ≤ v ∧ v < hi) → m'.leaf r' v = m.leaf r' v

theorem SameLeaves.only (h : SameLeaves R m m') : Only R r lo hi m m' :=
  fun r' hr' v _ => h r' hr' v

theorem SetsLeaf.only {e : Option Pte} (h : SetsLeaf R r v e m m') (hlo : lo ≤ v) (hhi : v < hi) :
    Only R r lo hi m m' := by
  intro r' hr' v' hne
  rw [h r' hr' v', if_neg]
  rintro ⟨rfl, rfl⟩
  exact hne ⟨rfl, hlo, hhi⟩

theorem Clears.only (h : Clears R r lo hi m m') : Only R r lo hi m m' := by
  intro r' hr' v hne
  rw [h r' hr' v, if_neg hne]

theorem Only.trans (h : Only R r lo hi m m') (h' : Only R r lo hi m' m'') : Only R r lo hi m m'' :=
  fun r' hr' v hne => (h' r' hr' v hne).trans (h r' hr' v hne)

theorem Only.mono (h : Only R r lo hi m m') {lo' hi' : ℕ} (hlo : lo' ≤ lo) (hhi : hi ≤ hi') :
    Only R r lo' hi' m m' :=
  fun r' hr' v hne => h r' hr' v fun hin => hne ⟨hin.1, by omega, by omega⟩

theorem Clears.of_only (h : Only R r lo hi m m') (h' : Clears R r lo hi m' m'') :
    Clears R r lo hi m m'' := by
  intro r' hr' v
  rw [h' r' hr' v]
  split_ifs with hv
  · rfl
  · exact h r' hr' v hv

theorem Clears.widen (h : Clears R r lo mid m m') (hmid : mid ≤ hi)
    (hnone : ∀ v, mid ≤ v → v < hi → m.leaf r v = none) : Clears R r lo hi m m' := by
  intro r' hr' v
  rw [h r' hr' v]
  by_cases hv : r' = r ∧ lo ≤ v ∧ v < mid
  · rw [if_pos hv, if_pos ⟨hv.1, hv.2.1, by omega⟩]
  · split_ifs with hv'
    · obtain ⟨rfl, hlo, hhi⟩ := hv'
      exact hnone v (by_contra fun hlt => hv ⟨rfl, hlo, by omega⟩) hhi
    · rfl

/-- The virtual pages of `r` from `lo` to below `hi` have pages with zeros. -/
structure Fills (R : Set ℕ) (r lo hi : ℕ) (perm : Perm) (m m' : Phys) : Prop where
  only : Only R r lo hi m m'
  zeros : ∀ v, lo ≤ v → v < hi → ∃ q, m'.leaf r v = some ⟨q, perm⟩ ∧ ∀ j, m'.data q j = 0

/-- The tree with root `r`, with its user pages, is among the pages in `H`. -/
structure Within (H : Set ℕ) (m : Phys) (r : ℕ) : Prop where
  tables : ∀ d ≤ 2, ∀ k q, m.table r d k = some q → q ∈ H
  pages : ∀ v < userPages, ∀ e, m.leaf r v = some e → e.page ∈ H

theorem Within.leaf (h : Within H m r) (hkept : Kept H m m') (v : ℕ) : m'.leaf r v = m.leaf r v :=
  entry_congr (fun d k q hd ht => hkept.pt q (h.tables d hd k q ht)) le_rfl v

theorem Within.kept (h : Within H m r) (hkept : Kept H m m') : Within H m' r := by
  refine ⟨fun d hd k q ht => ?_, fun v hv e he => ?_⟩
  · have hsame := table_congr (fun d k q hd ht => hkept.pt q (h.tables d (by omega) k q ht)) hd k
    exact h.tables d hd k q (hsame.symm.trans ht)
  · exact h.pages v hv e ((h.leaf hkept v).symm.trans he)

/-- The virtual pages of `r'` from `lo` to below `hi` are copies of those of `r`: where there is a
page, one that was free has its flags and its contents. -/
structure Copies (R : Set ℕ) (r r' lo hi : ℕ) (m m' : Phys) : Prop where
  only : Only R r' lo hi m m'
  holes : ∀ v, lo ≤ v → v < hi → m.leaf r v = none → m'.leaf r' v = none
  pages : ∀ v, lo ≤ v → v < hi → ∀ e, m.leaf r v = some e →
    ∃ q ∈ m.free, m'.leaf r' v = some ⟨q, e.perm⟩ ∧ m'.data q = m.data e.page

theorem Takes.data (h : Takes c m m') (hq : q ∉ m.free) : m'.data q = m.data q := by
  obtain ⟨-, -, l, -, hfree, hdata⟩ := h
  refine hdata q fun hl => hq ?_
  rw [hfree]
  exact List.mem_append_left _ hl

/-- The byte that user code sees at `a`. -/
def userByte (m : Phys) (r a : ℕ) : Option UInt8 :=
  if MAXVA ≤ a then none
  else (m.leaf r (a / PGSIZE)).bind fun e =>
    if e.perm.u then some (m.data e.page (a % PGSIZE)) else none

namespace Own

open VmM

/-! ### Reading entries and bytes -/

variable {e : Pte}

theorem at_leaf (hr : r ∈ R) (hv : v < userPages) (he : m.leaf r v = some e) :
    m.At R H (.page r v) e.page :=
  ⟨hr, hv, by rw [table_succ, show m.entry r 2 v = some e from he]; rfl⟩

theorem leaf_not_free (h : Own R H m) (hr : r ∈ R) (hv : v < userPages) (he : m.leaf r v = some e) :
    e.page ∉ m.free :=
  fun hf => nomatch h.owned.unique (at_leaf hr hv he) (show m.At R H .free e.page from hf)

theorem walkaddr_eq (m : Phys) (r : ℕ) (hva : va < MAXVA) :
    walkaddr r va m = .ok ((m.leaf r (va / PGSIZE)).bind fun e =>
      if e.perm.u then some e.page else none, m) := by
  unfold walkaddr
  rw [if_neg (by omega), Program.bind_ok (lookup_eq _ r hva)]
  cases m.leaf r (va / PGSIZE) <;> rfl

/-- **There are fewer pages than virtual pages.** -/
theorem mapped_le (h : Own R H m) (hr : r ∈ R) (hn : n ≤ userPages)
    (hall : ∀ v < n, m.leaf r v ≠ none) : n ≤ PHYSTOP / PGSIZE := by
  -- the pages of different virtual pages are different
  let f : ℕ → ℕ := fun v => ((m.leaf r v).map Pte.page).getD 0
  have hf : ∀ v < n, m.At R H (.page r v) (f v) := by
    intro v hv
    obtain ⟨e, he⟩ := Option.ne_none_iff_exists'.1 (hall v hv)
    rw [show f v = e.page by simp [f, he]]
    exact at_leaf hr (by omega) he
  have hmaps : ∀ v ∈ Finset.range n, f v ∈ Finset.range (PHYSTOP / PGSIZE) := by
    intro v hv
    exact Finset.mem_range.2 (h.owned.mem (hf v (Finset.mem_range.1 hv))).2
  have hinj : Set.InjOn f (Finset.range n) := by
    intro v hv w hw hvw
    rw [Finset.coe_range] at hv hw
    have hw' := hf w hw
    rw [← hvw] at hw'
    exact (PagePlace.page.inj (h.owned.unique (hf v hv) hw')).2
  have hcard := Finset.card_le_card_of_injOn f hmaps hinj
  rwa [Finset.card_range, Finset.card_range] at hcard

/-! ### One page -/

/-- **A new page with zeros for `va`**, or what is done when there is none. -/
theorem newPage_runs (h : Own R H m) (hr : r ∈ R) (hva : va / PGSIZE < userPages)
    (halign : va % PGSIZE = 0) (hnone : m.leaf r (va / PGSIZE) = none) {α : Type} {f : ℕ → VmM α}
    {g : VmM α} {Q : α → Phys → Prop}
    (hfail : ∀ m', Own R H m' → SameLeaves R m m' → Kept H m m' → Short 3 m → Runs g m' Q)
    (hok : ∀ q m', Own R H m' → SetsLeaf R r (va / PGSIZE) (some ⟨q, perm⟩) m m' → Takes 3 m m' →
      Kept H m m' → (∀ j, m'.data q j = 0) → Runs (f q) m' Q) :
    Runs (do
      match ← kalloc with
      | none => g
      | some mem => do
        clear mem
        if ← mappages r va PGSIZE mem perm then f mem
        else do
          kfree mem
          g) m Q := by
  have hmax : va < MAXVA := by
    simp only [userPages, TRAPFRAME, TRAMPOLINE, MAXVA, PGSIZE] at *
    omega
  refine h.kalloc_clear_runs (fun m1 hown hsame _ hkept hshort => ?_)
    fun q m1 hin hout hown hsame htakes hkept _ hzero => ?_
  · exact hfail m1 hown hsame.leaves hkept (hshort.mono (by omega))
  have hheld : insert q H \ {q} = H := insert_sdiff_self_of_notMem (h.not_held_of_free hin)
  refine (hown.mappages_runs hr hmax halign ((hsame.leaves r hr _).trans hnone)
    (fun _ => Set.mem_insert q H) perm).bind fun ok m2 h2 => ?_
  obtain ⟨htakes2, hkept2, ⟨rfl, hown2, hsame2, hshort⟩ | ⟨rfl, hown2, hsets⟩⟩ := h2
  · refine (hown2.kfree_runs (Set.mem_insert q H)).bind fun _ m3 h3 => ?_
    obtain ⟨hown3, hsame3, -, hkept3⟩ := h3
    rw [hheld] at hown3 hkept3
    exact hfail m3 hown3 ((hsame.leaves.trans hsame2).trans hsame3.leaves)
      ((hkept.trans (hkept2.mono (Set.subset_insert q H))).trans hkept3) (htakes.short hshort)
  · rw [if_pos hva, hheld] at hown2
    refine hok q m2 hown2 (.of_same hsame.leaves hsets) (htakes.trans htakes2)
      (hkept.trans (hkept2.mono (Set.subset_insert q H))) fun j => ?_
    rw [htakes2.data hout, hzero j]

/-! ### `uvmalloc` -/

/-- A range of virtual pages is within the user's part, or the pages below it use up the memory. -/
def Room (m : Phys) (r lo n : ℕ) : Prop :=
  lo + n ≤ userPages ∨ (lo < userPages ∧ ∀ v < lo, m.leaf r v ≠ none)

theorem pages_mul (n : ℕ) : pages (n * PGSIZE) = n := by
  simp only [pages, PGSIZE]
  omega

theorem mul_le_trapframe (h : n ≤ userPages) : n * PGSIZE ≤ TRAPFRAME := by
  simp only [userPages, TRAPFRAME, TRAMPOLINE, MAXVA, PGSIZE] at *
  omega

/-- **The loop of `uvmalloc`**, which has come from virtual page `base` to `lo`.  If it fails,
nothing is left of what it has mapped. -/
theorem uvmallocLoop_runs (h : Own R H m) (hr : r ∈ R) {base new : ℕ} (hbase : base ≤ lo)
    (hroom : Room m r lo n) (hlo : lo ≤ userPages)
    (hnone : ∀ v, lo ≤ v → v < userPages → m.leaf r v = none) :
    Runs (uvmallocLoop r (base * PGSIZE) new perm n (lo * PGSIZE)) m fun sz m' => Own R H m' ∧
      Kept H m m' ∧ ((sz = 0 ∧ Clears R r base userPages m m' ∧ Short (3 * n) m) ∨
        (sz = new ∧ lo + n ≤ userPages ∧ Fills R r lo (lo + n) perm m m' ∧
          Takes (3 * n) m m')) := by
  -- the induction is on the number of pages left
  induction n generalizing lo m with
  | zero =>
    refine .pure ⟨h, .refl H m, .inr ⟨rfl, hlo, ⟨fun _ _ _ _ => rfl, fun v _ _ => ?_⟩, .refl m⟩⟩
    omega
  | succ n ih =>
    have hlt : lo < userPages := by
      rcases hroom with hle | ⟨hlt, -⟩ <;> omega
    have hdiv : lo * PGSIZE / PGSIZE = lo := Nat.mul_div_cancel _ (by decide)
    refine h.newPage_runs hr (by rw [hdiv]; exact hlt) (Nat.mul_mod_left _ _)
      (by rw [hdiv]; exact hnone lo le_rfl hlt) (fun m1 hown hsame hkept hshort => ?_)
      fun q m1 hown hsets htakes hkept hzero => ?_
    · -- there is no page: back to where the loop started
      refine (hown.uvmdealloc_runs hr (mul_le_trapframe hlo) (base * PGSIZE)).bind
        fun _ m2 h2 => ?_
      obtain ⟨hown2, hkept2, -, hclears⟩ := h2
      rw [pages_mul, pages_mul] at hclears
      refine .pure ⟨hown2, hkept.trans hkept2,
        .inl ⟨rfl, .of_only hsame.only (hclears.widen hlo fun v hv hv' => ?_),
          hshort.mono (by omega)⟩⟩
      rw [hsame r hr v, hnone v hv hv']
    rw [hdiv] at hsets
    have hmap : m1.leaf r lo = some ⟨q, perm⟩ := by rw [hsets r hr lo, if_pos ⟨rfl, rfl⟩]
    have hroom' : Room m1 r (lo + 1) n := by
      refine hroom.imp (by omega) fun ⟨_, hall⟩ => ?_
      have hall' : ∀ v < lo + 1, m1.leaf r v ≠ none := by
        intro v hv
        rw [hsets r hr v]
        split_ifs with he
        · simp
        · exact hall v (by omega)
      have hle := hown.mapped_le hr hlt hall'
      have hmem : PHYSTOP / PGSIZE < userPages := by decide
      exact ⟨by omega, hall'⟩
    have hnext : lo * PGSIZE + PGSIZE = (lo + 1) * PGSIZE := (Nat.succ_mul lo PGSIZE).symm
    rw [hnext]
    refine (ih hown (by omega) hroom' hlt fun v hv hv' => ?_).conseq fun sz m2 h2 => ?_
    · rw [hsets r hr v, if_neg (by omega), hnone v (by omega) hv']
    obtain ⟨hown2, hkept2, ⟨hsz, hclears, hshort⟩ | ⟨hsz, hle, hfills, htakes2⟩⟩ := h2
    · refine ⟨hown2, hkept.trans hkept2, .inl ⟨hsz, .of_only (hsets.only hbase hlt) hclears, ?_⟩⟩
      exact (htakes.short hshort).mono (by omega)
    · refine ⟨hown2, hkept.trans hkept2, .inr ⟨hsz, by omega, ⟨?_, fun v hv hv' => ?_⟩, ?_⟩⟩
      · exact (hsets.only le_rfl (by omega)).trans (hfills.only.mono (by omega) (by omega))
      · by_cases he : v = lo
        · subst he
          refine ⟨q, ?_, fun j => ?_⟩
          · rw [hfills.only r hr v (by omega), hmap]
          · rw [htakes2.data (hown.leaf_not_free hr hlt hmap), hzero j]
        · exact hfills.zeros v (by omega) (by omega)
      · exact (htakes.trans htakes2).mono (by omega)

/-- **`uvmalloc`**: new pages with zeros up to the new size, or nothing. -/
theorem uvmalloc_runs (h : Own R H m) (hr : r ∈ R) {old new : ℕ} (hold : old ≤ TRAPFRAME)
    (hle : old ≤ new) (hnone : ∀ v, pages old ≤ v → v < userPages → m.leaf r v = none)
    (hroom : new ≤ TRAPFRAME ∨ ∀ v < pages old, m.leaf r v ≠ none) (w x : Bool) :
    Runs (uvmalloc r old new w x) m fun sz m' => Own R H m' ∧ Kept H m m' ∧
      ((sz = 0 ∧ SameLeaves R m m' ∧ Short (3 * (pages new - pages old)) m) ∨
        (sz = new ∧ new ≤ TRAPFRAME ∧ Fills R r (pages old) (pages new) ⟨true, w, x, true⟩ m m' ∧
          Takes (3 * (pages new - pages old)) m m')) := by
  have hpages := pages_le hold
  have hcount : (new + (PGSIZE - 1) - pages old * PGSIZE) / PGSIZE = pages new - pages old := by
    simp only [pages, PGSIZE]
    omega
  have hmono : pages old ≤ pages new := Nat.div_le_div_right (by omega)
  have hroom' : Room m r (pages old) (pages new - pages old) := by
    refine hroom.imp (fun hnew => ?_) fun hall => ⟨?_, hall⟩
    · have := pages_le hnew
      omega
    · have hmapped := h.mapped_le hr hpages hall
      have hmem : PHYSTOP / PGSIZE < userPages := by decide
      omega
  unfold uvmalloc
  rw [if_neg (by omega)]
  dsimp only
  rw [pgroundup_eq hold, hcount]
  refine (h.uvmallocLoop_runs hr le_rfl hroom' hpages hnone).conseq fun sz m' h' => ?_
  obtain ⟨hown, hkept, ⟨hsz, hclears, hshort⟩ | ⟨hsz, hend, hfills, htakes⟩⟩ := h'
  · refine ⟨hown, hkept, .inl ⟨hsz, fun r' hr' v => ?_, hshort⟩⟩
    rw [hclears r' hr' v]
    split_ifs with hv
    · obtain ⟨rfl, hlo, hhi⟩ := hv
      exact (hnone v hlo hhi).symm
    · rfl
  · rw [show pages old + (pages new - pages old) = pages new by omega] at hend hfills
    refine ⟨hown, hkept, .inr ⟨hsz, ?_, hfills, htakes⟩⟩
    simp only [pages, userPages, TRAPFRAME, TRAMPOLINE, MAXVA, PGSIZE] at hend ⊢
    omega

/-! ### `uvmcopy` -/

/-- **The exit `err` of `uvmcopy`**: the pages that have been copied go. -/
theorem uvmcopyErr_runs (h : Own R H m) (hr : r ∈ R) (hlo : lo ≤ userPages) :
    Runs (uvmcopyErr r (lo * PGSIZE)) m fun ok m' => Own R H m' ∧ Kept H m m' ∧ ok = false ∧
      Clears R r 0 lo m m' := by
  have hrun := h.uvmunmap_runs hr (by rwa [Nat.zero_add] : 0 + lo ≤ userPages)
  rw [Nat.zero_mul, Nat.zero_add] at hrun
  unfold uvmcopyErr
  rw [Nat.mul_div_cancel _ (by decide)]
  refine hrun.bind fun _ m1 h1 => ?_
  obtain ⟨hown, hkept, hclears⟩ := h1
  exact .pure ⟨hown, hkept, rfl, hclears⟩

/-- A copy of one page, or what is done when there is none. -/
theorem copyPage_runs (h : Own R H m) (hr' : r' ∈ R) (hlo : lo < userPages)
    (hnone : m.leaf r' lo = none) (he : e.page ∈ H) {f : VmM Bool} {g : VmM Bool}
    {Q : Bool → Phys → Prop}
    (hfail : ∀ m', Own R H m' → SameLeaves R m m' → Kept H m m' → Runs g m' Q)
    (hok : ∀ q ∈ m.free, ∀ m', Own R H m' → SetsLeaf R r' lo (some ⟨q, e.perm⟩) m m' →
      Takes 3 m m' → Kept H m m' → m'.data q = m.data e.page → Runs f m' Q) :
    Runs (do
      match ← kalloc with
      | none => g
      | some mem => do
        VmM.copyPage mem e.page
        if ← mappages r' (lo * PGSIZE) PGSIZE mem e.perm then f
        else do
          kfree mem
          g) m Q := by
  have hdiv : lo * PGSIZE / PGSIZE = lo := Nat.mul_div_cancel _ (by decide)
  have hva : lo * PGSIZE < MAXVA := by
    simp only [userPages, TRAPFRAME, TRAMPOLINE, MAXVA, PGSIZE] at *
    omega
  refine h.kalloc_runs.bind fun o m1 ho => ?_
  obtain ⟨hsame, htakes, hkept, ⟨rfl, hown, -, -⟩ | ⟨q, rfl, hin, hout, hown⟩⟩ := ho
  · exact hfail m1 hown hsame.leaves hkept
  have hfresh : q ∉ H := h.not_held_of_free hin
  have hheld : insert q H \ {q} = H := insert_sdiff_self_of_notMem hfresh
  obtain ⟨hown2, hsame2⟩ : Own R (insert q H) (m1.copyPage q e.page) ∧
    SameTrees R m1 (m1.copyPage q e.page) := hown.same_pt rfl rfl rfl
  have hkept2 : Kept H m (m1.copyPage q e.page) :=
    hkept.trans (.of_ne rfl (fun _ _ => rfl) (fun x hx => Function.update_of_ne hx _ _) hfresh)
  have hcopy : (m1.copyPage q e.page).data q = m.data e.page :=
    (Function.update_self _ _ _).trans (hkept.data e.page he)
  have htakes2 : Takes 1 m (m1.copyPage q e.page) := by
    obtain ⟨hkend, hluck, l, hl, hfree, hdata⟩ := htakes
    have hql : q ∈ l := by
      rw [hfree, List.mem_append] at hin
      exact hin.resolve_right hout
    refine ⟨hkend, hluck, l, hl, hfree, fun x hx => ?_⟩
    have hne : x ≠ q := fun hxq => hx (hxq ▸ hql)
    exact (Function.update_of_ne hne _ _).trans (hdata x hx)
  have hleaves : SameLeaves R m (m1.copyPage q e.page) := hsame.leaves.trans hsame2.leaves
  refine .step rfl ?_
  have hmap : (m1.copyPage q e.page).leaf r' (lo * PGSIZE / PGSIZE) = none := by
    rw [hdiv, hleaves r' hr' lo, hnone]
  refine (hown2.mappages_runs hr' hva (Nat.mul_mod_left _ _) hmap
    (fun _ => Set.mem_insert q H) e.perm).bind fun ok m2 h2 => ?_
  rw [hdiv, if_pos hlo, hheld] at h2
  obtain ⟨htakes3, hkept3, ⟨rfl, hown3, hsame3, -⟩ | ⟨rfl, hown3, hsets⟩⟩ := h2
  · refine (hown3.kfree_runs (Set.mem_insert q H)).bind fun _ m3 h3 => ?_
    obtain ⟨hown4, hsame4, -, hkept4⟩ := h3
    rw [hheld] at hown4 hkept4
    exact hfail m3 hown4 ((hleaves.trans hsame3).trans hsame4.leaves)
      ((hkept2.trans (hkept3.mono (Set.subset_insert q H))).trans hkept4)
  · exact hok q hin m2 hown3 (.of_same hleaves hsets) (htakes2.trans htakes3)
      (hkept2.trans (hkept3.mono (Set.subset_insert q H)))
      ((hkept3.data q (Set.mem_insert q H)).trans hcopy)

theorem copies_cons (h : Own R H m') (hr' : r' ∈ R) (hold : Within H m r) (hkept : Kept H m m')
    (htakes : Takes c m m') (htakes' : Takes c' m' m'') (hlo : lo < hi) (hhi : hi ≤ userPages)
    (hfirst : Copies R r r' lo (lo + 1) m m') (hrest : Copies R r r' (lo + 1) hi m' m'') :
    Copies R r r' lo hi m m'' := by
  have hstay : m''.leaf r' lo = m'.leaf r' lo := hrest.only r' hr' lo (by omega)
  have hsame := hold.leaf hkept
  refine ⟨?_, fun v hv hv' he => ?_, fun v hv hv' e he => ?_⟩
  · exact (hfirst.only.mono le_rfl hlo).trans (hrest.only.mono (by omega) le_rfl)
  · rcases Nat.eq_or_lt_of_le hv with rfl | hlt
    · rw [hstay]
      exact hfirst.holes lo le_rfl (Nat.lt_succ_self lo) he
    · exact hrest.holes v hlt hv' ((hsame v).trans he)
  · rcases Nat.eq_or_lt_of_le hv with rfl | hlt
    · obtain ⟨q, hq, hleaf, hdata⟩ := hfirst.pages lo le_rfl (Nat.lt_succ_self lo) e he
      refine ⟨q, hq, hstay.trans hleaf, ?_⟩
      rw [htakes'.data (h.leaf_not_free hr' (by omega) hleaf), hdata]
    · obtain ⟨q, hq, hleaf, hdata⟩ := hrest.pages v hlt hv' e ((hsame v).trans he)
      obtain ⟨-, -, l, -, hfree, -⟩ := htakes
      refine ⟨q, hfree ▸ List.mem_append_right l hq, hleaf, ?_⟩
      rw [hdata, hkept.data e.page (hold.pages v (by omega) e he)]

/-- **The loop of `uvmcopy`**, which has come to virtual page `lo`.  If it fails, the new page table
has no user pages. -/
theorem uvmcopyLoop_runs (h : Own R H m) (hold : Within H m r) (hr' : r' ∈ R)
    (hend : lo + n ≤ userPages) (hnone : ∀ v, lo ≤ v → v < userPages → m.leaf r' v = none) :
    Runs (uvmcopyLoop r r' n (lo * PGSIZE)) m fun ok m' => Own R H m' ∧ Kept H m m' ∧
      ((ok = false ∧ Clears R r' 0 userPages m m') ∨
        (ok = true ∧ Copies R r r' lo (lo + n) m m' ∧ Takes (3 * n) m m')) := by
  induction n generalizing lo m with
  | zero =>
    exact .pure ⟨h, .refl H m, .inr ⟨rfl, ⟨fun _ _ _ _ => rfl, fun v _ _ => by omega,
      fun v _ _ => by omega⟩, .refl m⟩⟩
  | succ n ih =>
    have hlt : lo < userPages := by omega
    have hdiv : lo * PGSIZE / PGSIZE = lo := Nat.mul_div_cancel _ (by decide)
    have hva : lo * PGSIZE < MAXVA := by
      simp only [userPages, TRAPFRAME, TRAMPOLINE, MAXVA, PGSIZE] at *
      omega
    have hnext : lo * PGSIZE + PGSIZE = (lo + 1) * PGSIZE := (Nat.succ_mul lo PGSIZE).symm
    unfold uvmcopyLoop
    rw [hnext]
    refine .step (lookup_eq _ r hva) ?_
    -- the rest of the loop, once the entry for this page is as it should be
    have hrest : ∀ {m1 : Phys}, Own R H m1 → Kept H m m1 → Takes 3 m m1 →
        Copies R r r' lo (lo + 1) m m1 →
        Runs (uvmcopyLoop r r' n ((lo + 1) * PGSIZE)) m1 fun ok m' => Own R H m' ∧
          Kept H m m' ∧ ((ok = false ∧ Clears R r' 0 userPages m m') ∨
            (ok = true ∧ Copies R r r' lo (lo + (n + 1)) m m' ∧ Takes (3 * (n + 1)) m m')) := by
      intro m1 hown hkept htakes hcopies
      refine (ih hown (hold.kept hkept) (by omega) fun v hv hv' => ?_).conseq fun ok m2 h2 => ?_
      · rw [hcopies.only r' hr' v (by omega), hnone v (by omega) hv']
      obtain ⟨hown2, hkept2, ⟨hok, hclears⟩ | ⟨hok, hcopies2, htakes2⟩⟩ := h2
      · exact ⟨hown2, hkept.trans hkept2,
          .inl ⟨hok, .of_only (hcopies.only.mono (Nat.zero_le lo) hlt) hclears⟩⟩
      · rw [show lo + 1 + n = lo + (n + 1) by omega] at hcopies2
        exact ⟨hown2, hkept.trans hkept2, .inr ⟨hok,
          hown.copies_cons hr' hold hkept htakes htakes2 (by omega) hend hcopies hcopies2,
          (htakes.trans htakes2).mono (by omega)⟩⟩
    -- and its end, when a page is missing
    have herr : ∀ {m1 : Phys}, Own R H m1 → SameLeaves R m m1 → Kept H m m1 →
        Runs (uvmcopyErr r' (lo * PGSIZE)) m1 fun ok m' => Own R H m' ∧
          Kept H m m' ∧ ((ok = false ∧ Clears R r' 0 userPages m m') ∨
            (ok = true ∧ Copies R r r' lo (lo + (n + 1)) m m' ∧ Takes (3 * (n + 1)) m m')) := by
      intro m1 hown hsame hkept
      refine (hown.uvmcopyErr_runs hr' hlt.le).conseq fun ok m2 h2 => ?_
      obtain ⟨hown2, hkept2, hok, hclears⟩ := h2
      refine ⟨hown2, hkept.trans hkept2,
        .inl ⟨hok, .of_only hsame.only (hclears.widen hlt.le fun v hv hv' => ?_)⟩⟩
      rw [hsame r' hr' v, hnone v hv hv']
    rw [hdiv]
    cases he : m.leaf r lo with
    | none =>
      refine hrest h (.refl H m) ((Takes.refl m).mono (Nat.zero_le 3)) ⟨fun _ _ _ _ => rfl,
        fun v hv hv' _ => ?_, fun v hv hv' e hv2 => ?_⟩
      · exact hnone v hv (by omega)
      · obtain rfl : v = lo := by omega
        rw [he] at hv2
        cases hv2
    | some e =>
      refine h.copyPage_runs hr' hlt (hnone lo le_rfl hlt) (hold.pages lo hlt e he)
        (fun m1 hown hsame hkept => herr hown hsame hkept)
        fun q hq m1 hown hsets htakes hkept hdata => ?_
      refine hrest hown hkept htakes ⟨hsets.only le_rfl (Nat.lt_succ_self lo),
        fun v hv hv' hv2 => ?_, fun v hv hv' e' hv2 => ?_⟩
      · obtain rfl : v = lo := by omega
        rw [he] at hv2
        cases hv2
      · obtain rfl : v = lo := by omega
        rw [he] at hv2
        cases hv2
        exact ⟨q, hq, by rw [hsets r' hr' v, if_pos ⟨rfl, rfl⟩], hdata⟩

/-- **`uvmcopy`** into a page table without user pages: its pages are copies of those of the other
one then, and if it fails it has none. -/
theorem uvmcopy_runs (h : Own R H m) (hold : Within H m r) (hr' : r' ∈ R) {sz : ℕ}
    (hsz : sz ≤ TRAPFRAME) (hnone : ∀ v, v < userPages → m.leaf r' v = none) :
    Runs (uvmcopy r r' sz) m fun ok m' => Own R H m' ∧ Kept H m m' ∧
      ((ok = false ∧ SameLeaves R m m') ∨ (ok = true ∧ Copies R r r' 0 (pages sz) m m')) := by
  have hend : 0 + pages sz ≤ userPages := by
    rw [Nat.zero_add]
    exact pages_le hsz
  have hrun := h.uvmcopyLoop_runs hold hr' hend fun v _ hv => hnone v hv
  rw [Nat.zero_mul, Nat.zero_add] at hrun
  refine hrun.conseq fun ok m' h' => ?_
  obtain ⟨hown, hkept, ⟨hok, hclears⟩ | ⟨hok, hcopies, -⟩⟩ := h'
  · refine ⟨hown, hkept, .inl ⟨hok, fun r'' hr'' v => ?_⟩⟩
    rw [hclears r'' hr'' v]
    split_ifs with hv
    · obtain ⟨rfl, -, hhi⟩ := hv
      exact (hnone v hhi).symm
    · rfl
  · exact ⟨hown, hkept, .inr ⟨hok, hcopies⟩⟩

/-! ### `vmfault` and `copyout` -/

/-- **`vmfault`** in the page table of the process: at most one of its pages is new. -/
theorem vmfault_runs (h : Own R H m) (hr : r ∈ R) {sz : ℕ} (hsz : sz ≤ TRAPFRAME) (va : ℕ) :
    Runs (vmfault r sz r va) m fun _ m' => Own R H m' ∧ Kept H m m' ∧
      Only R r 0 (pages sz) m m' := by
  have hstay : Only R r 0 (pages sz) m m := fun _ _ _ _ => rfl
  unfold vmfault
  split_ifs with hle
  · exact .pure ⟨h, .refl H m, hstay⟩
  have hdiv : pgrounddown va / PGSIZE = va / PGSIZE := Nat.mul_div_cancel _ (by decide)
  have hpage : va / PGSIZE < pages sz := by
    simp only [pages, PGSIZE]
    omega
  have huser := pages_le hsz
  have hva : pgrounddown va < MAXVA := by
    simp only [pgrounddown, userPages, TRAPFRAME, TRAMPOLINE, MAXVA, PGSIZE] at *
    omega
  have halign : pgrounddown va % PGSIZE = 0 := Nat.mul_mod_left _ _
  have hmapped : ismapped r (pgrounddown va) m = .ok ((m.leaf r (va / PGSIZE)).isSome, m) := by
    unfold ismapped
    rw [Program.bind_ok (lookup_eq _ r hva), hdiv]
    rfl
  refine .step hmapped ?_
  cases he : m.leaf r (va / PGSIZE) with
  | some e => exact .pure ⟨h, .refl H m, hstay⟩
  | none =>
    refine h.newPage_runs hr (by omega) halign (by rw [hdiv]; exact he)
      (fun m1 hown hsame hkept _ => .pure ⟨hown, hkept, hsame.only⟩)
      fun q m1 hown hsets _ hkept _ => ?_
    rw [hdiv] at hsets
    exact .pure ⟨hown, hkept, hsets.only (Nat.zero_le _) hpage⟩

section Copyout

variable {own sz dstva : ℕ} {src : List UInt8} {P : Phys → Prop} {A : ℕ → Prop}

/-- **The loop of `copyout`** keeps what `touch` and the writing of bytes keep. -/
theorem copyoutLoop_keeps
    (htouch : ∀ m va0, P m → va0 < MAXVA → A (va0 / PGSIZE) →
      Runs (touch own sz r va0) m fun _ m' => P m')
    (hstore : ∀ m pa off bytes, P m → P (m.storeBytes pa off bytes)) (hm : P m)
    (hin : ∀ a, dstva ≤ a → a < dstva + src.length → A (a / PGSIZE)) :
    Runs (copyoutLoop own sz r n dstva src) m fun _ m' => P m' := by
  induction n generalizing m dstva src with
  | zero => exact .pure hm
  | succ n ih =>
    unfold copyoutLoop
    split_ifs with hsrc
    · exact .pure hm
    have hpos : 0 < src.length := List.length_pos_iff.2 hsrc
    have hdiv : pgrounddown dstva / PGSIZE = dstva / PGSIZE := Nat.mul_div_cancel _ (by decide)
    dsimp only
    split_ifs with hmax
    · exact .pure hm
    rw [not_le] at hmax
    refine (htouch m _ hm hmax (by rw [hdiv]; exact hin dstva le_rfl (by omega))).bind
      fun o m1 hm1 => ?_
    cases o with
    | none => exact .pure hm1
    | some pa =>
      refine .step (lookup_eq m1 r hmax) ?_
      cases m1.leaf r (pgrounddown dstva / PGSIZE) with
      | none => exact .pure hm1
      | some e =>
        dsimp only
        split_ifs
        · refine .step rfl (ih (hstore m1 _ _ _ hm1) fun a hlo hhi => hin a ?_ ?_)
          · simp only [pgrounddown, MAXVA, PGSIZE] at *
            omega
          · rw [List.length_drop] at hhi
            simp only [pgrounddown, MAXVA, PGSIZE] at *
            omega
        · exact .pure hm1

/-- **`copyout`** to the process itself: it may get new pages below its size. -/
theorem copyout_runs (h : Own R H m) (hr : r ∈ R) (hsz : sz ≤ TRAPFRAME) :
    Runs (copyout r sz r dstva src) m fun _ m' => Own R H m' ∧ m'.kend = m.kend ∧
      Only R r 0 (pages sz) m m' := by
  refine copyoutLoop_keeps (A := fun _ => True) (fun m1 va0 hm1 hva _ => ?_)
    (fun m1 pa off bytes hm1 => ?_) ⟨h, rfl, fun _ _ _ _ => rfl⟩ fun _ _ _ => trivial
  · obtain ⟨hown, hkend, honly⟩ := hm1
    refine .step (walkaddr_eq m1 r hva) ?_
    split
    · exact .pure ⟨hown, hkend, honly⟩
    · refine (hown.vmfault_runs hr hsz va0).conseq fun _ m2 h2 => ?_
      exact ⟨h2.1, h2.2.1.kend.trans hkend, honly.trans h2.2.2⟩
  · obtain ⟨hown, hkend, honly⟩ := hm1
    obtain ⟨hown', hsame⟩ : Own R H (m1.storeBytes pa off bytes) ∧
      SameTrees R m1 (m1.storeBytes pa off bytes) := hown.same_pt rfl rfl rfl
    exact ⟨hown', hkend, honly.trans hsame.leaves.only⟩

/-- **`copyout`** to a user page that is there. -/
theorem copyout_page (he : m.leaf r (dstva / PGSIZE) = some e) (hu : e.perm.u = true)
    (hw : e.perm.w = true) (hva : dstva < MAXVA) (hsrc : src ≠ [])
    (hend : dstva % PGSIZE + src.length ≤ PGSIZE) :
    copyout own sz r dstva src m = .ok (true, m.storeBytes e.page (dstva % PGSIZE) src) := by
  have hround : pgrounddown dstva < MAXVA := lt_of_le_of_lt (Nat.div_mul_le_self _ _) hva
  have hdiv : pgrounddown dstva / PGSIZE = dstva / PGSIZE := Nat.mul_div_cancel _ (by decide)
  have hoff : dstva - pgrounddown dstva = dstva % PGSIZE := by
    simp only [pgrounddown, PGSIZE]
    omega
  have htouch : touch own sz r (pgrounddown dstva) m = .ok (some e.page, m) := by
    have haddr := walkaddr_eq m r hround
    rw [hdiv, he, Option.bind_some, if_pos hu] at haddr
    exact Program.bind_ok haddr
  have hlookup := lookup_eq m r hround
  rw [hdiv, he] at hlookup
  obtain ⟨n, hn⟩ : ∃ n, src.length = n + 1 :=
    ⟨src.length - 1, by have := List.length_pos_iff.2 hsrc; omega⟩
  have htake : src.length ≤ PGSIZE - dstva % PGSIZE := by omega
  have hnil (k d : ℕ) (m : Phys) : copyoutLoop own sz r k d [] m = .ok (true, m) := by
    cases k <;> rfl
  rw [copyout, hn, copyoutLoop, if_neg hsrc]
  rw [if_neg (by omega), Program.bind_ok htouch]
  refine (Program.bind_ok hlookup).trans ?_
  dsimp only
  rw [if_pos hw, hoff, List.take_of_length_le htake, List.drop_of_length_le htake]
  exact hnil _ _ _

end Copyout

/-- **`uvmclear`** takes the flag `PTE_U` from an entry. -/
theorem uvmclear_runs (h : Own R H m) (hr : r ∈ R) (hva : va < MAXVA)
    (he : m.leaf r (va / PGSIZE) = some e) :
    Runs (uvmclear r va) m fun _ m' => Own R H m' ∧ Kept H m m' ∧ m'.data = m.data ∧
      SetsLeaf R r (va / PGSIZE) (some { e with perm := { e.perm with u := false } }) m m' := by
  refine (h.walk_runs hr hva false).bind fun o m1 ho => ?_
  obtain ⟨-, -, -, hsame, ho⟩ := ho
  obtain rfl := hsame rfl
  obtain ⟨rfl, hnone, -⟩ | ⟨q, rfl, hq⟩ := ho
  · rw [he] at hnone
    cases hnone
  refine .step (pte_leaf hq) ?_
  rw [he]
  refine ⟨(), _, rfl, h.reflag hr hq fun _ => ?_,
    (Kept.refl H m1).setPte (h.not_held_of_table hr le_rfl hq) _ _, rfl, h.leaf_setLeaf hr hq _⟩
  rw [he]
  rfl

end Own

end Phys

end Cinux
