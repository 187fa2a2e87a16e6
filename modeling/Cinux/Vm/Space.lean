import Cinux.Vm.Owned

/-!
# Allocating in an address space

What the functions of `vm.c` that allocate do with the pages of the allocator and with the entries
for virtual pages: `kalloc`, `walk`, `mappages`.  Each of them returns, whatever calls of `kalloc`
fail, and keeps each page in one place.

* `Phys.Kept H m m'` : the pages that are held have the contents they had;
* `Phys.Takes c m m'` : at most `c` pages have left the free list, and only their bytes have
  changed;
* `Phys.Short c m` : there may be less than `c` pages to be had;
* `Phys.Own.kalloc_runs`, `walk_runs`, `mappages_runs` : the specifications.
-/

namespace Cinux

open Function

/-! ### The indices of an address -/

theorem PX_two {va : ℕ} (h : va < MAXVA) : PX 2 va = va / PGSIZE / 512 ^ 2 := by
  simp only [PX, PGSIZE, MAXVA] at *
  omega

theorem PX_one (va : ℕ) : PX 1 va = va / PGSIZE / 512 % 512 := by
  simp only [PX, PGSIZE]
  omega

theorem PX_zero (va : ℕ) : PX 0 va = va / PGSIZE % 512 := by
  simp only [PX, PGSIZE]
  omega

namespace Phys

open Program (Runs)

variable {R H : Set ℕ} {m m' m'' : Phys} {r d k q c c' i v va n : ℕ}

/-- The entries for virtual pages are the same. -/
def SameLeaves (R : Set ℕ) (m m' : Phys) : Prop := ∀ r ∈ R, ∀ v, m'.leaf r v = m.leaf r v

/-- The entry of `r` for virtual page `v` is `e`, and the others are the same. -/
def SetsLeaf (R : Set ℕ) (r v : ℕ) (e : Option Pte) (m m' : Phys) : Prop :=
  ∀ r' ∈ R, ∀ v', m'.leaf r' v' = if r' = r ∧ v' = v then e else m.leaf r' v'

theorem SameTrees.leaves (h : SameTrees R m m') : SameLeaves R m m' :=
  fun r hr v => h r hr 2 le_rfl v

theorem SameLeaves.trans (h : SameLeaves R m m') (h' : SameLeaves R m' m'') : SameLeaves R m m'' :=
  fun r hr v => (h' r hr v).trans (h r hr v)

theorem SetsLeaf.of_same {e : Option Pte} (h : SameLeaves R m m') (h' : SetsLeaf R r v e m' m'') :
    SetsLeaf R r v e m m'' := by
  intro r' hr' v'
  rw [h' r' hr' v', h r' hr' v']

/-- The pages in `H` have the contents they had, as tables and as bytes. -/
structure Kept (H : Set ℕ) (m m' : Phys) : Prop where
  kend : m'.kend = m.kend
  pt : ∀ q ∈ H, m'.pt q = m.pt q
  data : ∀ q ∈ H, m'.data q = m.data q

theorem Kept.refl (H : Set ℕ) (m : Phys) : Kept H m m := ⟨rfl, fun _ _ => rfl, fun _ _ => rfl⟩

theorem Kept.trans (h : Kept H m m') (h' : Kept H m' m'') : Kept H m m'' :=
  ⟨h'.kend.trans h.kend, fun q hq => (h'.pt q hq).trans (h.pt q hq),
    fun q hq => (h'.data q hq).trans (h.data q hq)⟩

theorem Kept.mono {H' : Set ℕ} (h : Kept H m m') (hsub : H' ⊆ H) : Kept H' m m' :=
  ⟨h.kend, fun q hq => h.pt q (hsub hq), fun q hq => h.data q (hsub hq)⟩

theorem Kept.of_ne (hkend : m'.kend = m.kend) (hpt : ∀ x, x ≠ q → m'.pt x = m.pt x)
    (hdata : ∀ x, x ≠ q → m'.data x = m.data x) (hq : q ∉ H) : Kept H m m' :=
  ⟨hkend, fun x hx => hpt x fun he => hq (he ▸ hx), fun x hx => hdata x fun he => hq (he ▸ hx)⟩

theorem Kept.setPte (h : Kept H m m') (hq : q ∉ H) (i : ℕ) (e : Option Pte) :
    Kept H m (m'.setPte q i e) :=
  h.trans (.of_ne rfl (fun _ hx => setPte_pt_of_ne m' e hx) (fun _ _ => rfl) hq)

/-- At most `c` pages have been taken from the free list, and no other pages have new contents. -/
structure Takes (c : ℕ) (m m' : Phys) : Prop where
  kend : m'.kend = m.kend
  luck : ∀ b ∈ m'.luck, b ∈ m.luck
  free : ∃ l, l.length ≤ c ∧ m.free = l ++ m'.free ∧ ∀ q ∉ l, m'.data q = m.data q

theorem Takes.refl (m : Phys) : Takes 0 m m := ⟨rfl, fun _ h => h, [], le_rfl, rfl, fun _ _ => rfl⟩

theorem Takes.mono (h : Takes c m m') (hc : c ≤ c') : Takes c' m m' := by
  obtain ⟨hkend, hluck, l, hl, hfree, hdata⟩ := h
  exact ⟨hkend, hluck, l, hl.trans hc, hfree, hdata⟩

theorem Takes.trans (h : Takes c m m') (h' : Takes c' m' m'') : Takes (c + c') m m'' := by
  obtain ⟨hkend, hluck, l, hl, hfree, hdata⟩ := h
  obtain ⟨hkend', hluck', l', hl', hfree', hdata'⟩ := h'
  refine ⟨hkend'.trans hkend, fun b hb => hluck b (hluck' b hb), l ++ l', ?_, ?_, fun q hq => ?_⟩
  · rw [List.length_append]
    omega
  · rw [hfree, hfree', List.append_assoc]
  · rw [List.mem_append, not_or] at hq
    rw [hdata' q hq.2, hdata q hq.1]

/-- Fewer than `c` pages are free, or a call of `kalloc` is to fail. -/
def Short (c : ℕ) (m : Phys) : Prop := m.free.length < c ∨ true ∈ m.luck

theorem Short.mono (h : Short c m) (hc : c ≤ c') : Short c' m := h.imp_left (by omega)

theorem Takes.short (h : Takes c m m') (hs : Short c' m') : Short (c + c') m := by
  obtain ⟨-, hluck, l, hl, hfree, -⟩ := h
  refine hs.imp (fun hlt => ?_) (hluck true)
  rw [hfree, List.length_append]
  omega

theorem Takes.setPte (h : Takes c m m') (q i : ℕ) (e : Option Pte) :
    Takes c m (m'.setPte q i e) :=
  ⟨h.kend, h.luck, h.free⟩

/-- Tables may have been added. -/
structure Grown (R : Set ℕ) (c : ℕ) (m m' : Phys) : Prop where
  takes : Takes c m m'
  leaves : SameLeaves R m m'
  tables : ∀ r ∈ R, ∀ d ≤ 2, ∀ k q, m.table r d k = some q → m'.table r d k = some q

theorem Grown.refl (R : Set ℕ) (m : Phys) : Grown R 0 m m :=
  ⟨.refl m, fun _ _ _ => rfl, fun _ _ _ _ _ _ h => h⟩

theorem Grown.mono (h : Grown R c m m') (hc : c ≤ c') : Grown R c' m m' :=
  ⟨h.takes.mono hc, h.leaves, h.tables⟩

theorem Grown.trans (h : Grown R c m m') (h' : Grown R c' m' m'') : Grown R (c + c') m m'' :=
  ⟨h.takes.trans h'.takes, h.leaves.trans h'.leaves,
    fun r hr d hd k q ht => h'.tables r hr d hd k q (h.tables r hr d hd k q ht)⟩

theorem SameTrees.grown (h : SameTrees R m m') (ht : Takes c m m') : Grown R c m m' :=
  ⟨ht, h.leaves, fun _ hr _ hd k _ hq => (h.table hr (by omega) k).trans hq⟩

open VmM

/-! ### `kfree` -/

theorem kfree_of_managed (h : m.Managed q) :
    kfree q m = .ok ((), { m.fill q 1 with free := q :: m.free }) := by
  obtain ⟨hlow, hhigh⟩ := h
  unfold kfree
  rw [if_neg (by omega)]

theorem kfree_of_not_managed (h : ¬m.Managed q) : kfree q m = .error (.panic "kfree") := by
  unfold kfree
  rw [if_pos]
  by_contra hcon
  exact h ⟨by omega, by omega⟩

/-! ### Reading -/

theorem leaf_of_entry_none (hd : d < 2) (h : m.entry r d (v / 512 ^ (2 - d)) = none) :
    m.leaf r v = none := by
  obtain rfl | rfl : d = 0 ∨ d = 1 := by omega
  · have h1 : m.entry r 1 (v / 512) = none := by
      rw [entry, table_succ, Nat.div_div_eq_div_mul, show 512 * 512 = 512 ^ 2 by norm_num, h]
      rfl
    rw [leaf, entry, table_succ, h1]
    rfl
  · rw [show 512 ^ (2 - 1) = 512 by norm_num] at h
    rw [leaf, entry, table_succ, h]
    rfl

theorem pte_leaf (hq : m.table r 2 (v / 512) = some q) :
    pte q (v % 512) m = .ok (m.leaf r v, m) := by
  rw [leaf, entry, hq, Option.bind_some]
  rfl

theorem walkLevel_false (m : Phys) (q i : ℕ) :
    walkLevel false q i m = .ok ((m.pt q i).map Pte.page, m) := by
  unfold walkLevel
  rw [Program.bind_ok (show pte q i m = .ok (m.pt q i, m) from rfl)]
  cases m.pt q i <;> rfl

theorem walk_false (m : Phys) (r : ℕ) (hva : va < MAXVA) :
    ∃ o, walk r va false m = .ok (o, m) ∧ ((o = none ∧ m.leaf r (va / PGSIZE) = none) ∨
        ∃ q, o = some (q, va / PGSIZE % 512) ∧ m.table r 2 (va / PGSIZE / 512) = some q) := by
  have h1 : m.table r 1 (va / PGSIZE / 512 ^ 2) = (m.pt r (PX 2 va)).map Pte.page := by
    have hsmall : va / PGSIZE / 512 ^ 2 < 512 := by
      simp only [MAXVA, PGSIZE] at *
      omega
    rw [PX_two hva, table, Nat.div_eq_of_lt hsmall, Nat.mod_eq_of_lt hsmall]
    rfl
  have h2 : m.table r 2 (va / PGSIZE / 512) = (m.table r 1 (va / PGSIZE / 512 ^ 2)).bind fun q =>
      (m.pt q (PX 1 va)).map Pte.page := by
    rw [table, PX_one, Nat.div_div_eq_div_mul, show 512 * 512 = 512 ^ 2 by norm_num]
  unfold walk
  rw [if_neg (by omega), Program.bind_ok (walkLevel_false m r _), ← h1]
  cases hq1 : m.table r 1 (va / PGSIZE / 512 ^ 2) with
  | none =>
    rw [hq1] at h2
    exact ⟨none, rfl, .inl ⟨rfl, by rw [leaf, entry, h2]; rfl⟩⟩
  | some q =>
    rw [hq1, Option.bind_some] at h2
    dsimp only
    rw [Program.bind_ok (walkLevel_false m q _), ← h2, PX_zero]
    cases hq2 : m.table r 2 (va / PGSIZE / 512) with
    | none => exact ⟨none, rfl, .inl ⟨rfl, by rw [leaf, entry, hq2]; rfl⟩⟩
    | some q' => exact ⟨_, rfl, .inr ⟨q', rfl, rfl⟩⟩

/-- **`lookup`** reads the entry for `va`. -/
theorem lookup_eq (m : Phys) (r : ℕ) (hva : va < MAXVA) :
    lookup r va m = .ok (m.leaf r (va / PGSIZE), m) := by
  obtain ⟨o, hwalk, ⟨rfl, hnone⟩ | ⟨q, rfl, hq⟩⟩ := walk_false m r hva
  · unfold lookup
    rw [Program.bind_ok hwalk, hnone]
    rfl
  · unfold lookup
    rw [Program.bind_ok hwalk]
    exact pte_leaf hq

theorem insert_sdiff_self_of_notMem (h : q ∉ H) : insert q H \ {q} = H := by
  rw [Set.insert_sdiff_of_mem _ (Set.mem_singleton q), Set.sdiff_singleton_eq_self h]

namespace Own

theorem not_held_of_table (h : Own R H m) (hr : r ∈ R) (hd : d ≤ 2) (hq : m.table r d k = some q) :
    q ∉ H :=
  fun hin => nomatch h.owned.unique (show m.At R H (.table r d k) q from ⟨hr, hd, hq⟩)
    (show m.At R H .held q from hin)

/-! ### Pages -/

theorem same_pt (h : Own R H m) (hpt : m'.pt = m.pt) (hfree : m'.free = m.free)
    (hkend : m'.kend = m.kend) : Own R H m' ∧ SameTrees R m m' := by
  have hs : SameTrees R m m' := fun r _ d hd k => entry_congr (fun _ _ _ _ _ => by rw [hpt]) hd k
  refine ⟨⟨hfree ▸ h.nodup, ?_, h.interior_of_same hs⟩, hs⟩
  rw [managed_congr hkend]
  refine h.owned.congr fun a x => ?_
  cases a with
  | free => rw [At, At, hfree]
  | held => exact Iff.rfl
  | table r d k => exact at_of_same hs (by simp) (by simp) x
  | page r v => exact at_of_same hs (by simp) (by simp) x

/-- **`kalloc`**: a page from the free list, with new contents. -/
theorem kalloc_runs (h : Own R H m) :
    Runs kalloc m fun o m' => SameTrees R m m' ∧ Takes 1 m m' ∧ Kept H m m' ∧
      ((o = none ∧ Own R H m' ∧ m'.free = m.free ∧ Short 1 m) ∨
        ∃ q, o = some q ∧ q ∈ m.free ∧ q ∉ m'.free ∧ Own R (insert q H) m') := by
  unfold kalloc Runs
  dsimp only
  -- a failure changes nothing but the luck
  obtain ⟨hown, hsame⟩ : Own R H { m with luck := m.luck.tail } ∧
    SameTrees R m { m with luck := m.luck.tail } := h.same_pt rfl rfl rfl
  have htail : ∀ b ∈ m.luck.tail, b ∈ m.luck := fun b hb => List.mem_of_mem_tail hb
  have htakes : Takes 1 m { m with luck := m.luck.tail } :=
    ⟨rfl, htail, [], Nat.zero_le 1, rfl, fun _ _ => rfl⟩
  split_ifs with hluck
  · refine ⟨none, _, rfl, hsame, htakes, ⟨rfl, fun _ _ => rfl, fun _ _ => rfl⟩,
      .inl ⟨rfl, hown, rfl, .inr ?_⟩⟩
    cases hl : m.luck with
    | nil => simp [hl] at hluck
    | cons b l =>
      obtain rfl : b = true := by simpa [hl] using hluck
      exact List.mem_cons_self
  · cases hfree : m.free with
    | nil =>
      rw [hfree] at hown hsame htakes
      refine ⟨none, _, rfl, hsame, htakes, ⟨rfl, fun _ _ => rfl, fun _ _ => rfl⟩,
        .inl ⟨rfl, hown, rfl, .inl ?_⟩⟩
      rw [hfree]
      exact Nat.one_pos
    | cons q f =>
      have hnd := h.nodup
      rw [hfree, List.nodup_cons] at hnd
      obtain ⟨hown, hsame⟩ : Own R (insert q H) { m.fill q 5 with free := f, luck := m.luck.tail } ∧
          SameTrees R m { m.fill q 5 with free := f, luck := m.luck.tail } :=
        h.alloc (fun x hx => update_of_ne hx _ _) rfl hfree rfl
      have hheld : q ∉ H := h.not_held_of_free (show q ∈ m.free from hfree ▸ List.mem_cons_self)
      refine ⟨some q, _, rfl, hsame, ⟨rfl, htail, [q], le_rfl, hfree, fun x hx => ?_⟩,
        .of_ne rfl (fun x hx => update_of_ne hx _ _)
          (fun x hx => update_of_ne hx _ _) hheld,
        .inr ⟨q, rfl, List.mem_cons_self, hnd.1, hown⟩⟩
      exact update_of_ne (fun he => hx (List.mem_singleton.2 he)) _ _

/-- **`memset(page, 0, PGSIZE)`** of a page that is held: as a table it is empty. -/
theorem clear_runs (h : Own R H m) (hq : q ∈ H) :
    Runs (clear q) m fun _ m' => Own R H m' ∧ SameTrees R m m' ∧ (∀ j, m'.pt q j = none) ∧
      m'.free = m.free ∧ m'.luck = m.luck ∧ Kept (H \ {q}) m m' ∧ (∀ j, m'.data q j = 0) ∧
      ∀ x, x ≠ q → m'.data x = m.data x := by
  obtain ⟨hown, hsame⟩ : Own R H (m.fill q 0) ∧ SameTrees R m (m.fill q 0) :=
    h.scribble (fun x hx => update_of_ne hx _ _) rfl hq rfl
  refine ⟨(), _, rfl, hown, hsame, fun j => ?_, rfl, rfl, .of_ne rfl
    (fun x hx => update_of_ne hx _ _) (fun x hx => update_of_ne hx _ _)
    (fun hin => hin.2 rfl), fun j => ?_, fun x hx => ?_⟩
  · simp [fill, Pte.ofWord]
  · simp [fill]
  · exact update_of_ne hx _ _

/-- **`kfree`** of a page that is held. -/
theorem kfree_runs (h : Own R H m) (hq : q ∈ H) :
    Runs (kfree q) m fun _ m' => Own R (H \ {q}) m' ∧ SameTrees R m m' ∧
      m'.free = q :: m.free ∧ Kept (H \ {q}) m m' := by
  have hman : m.Managed q := h.owned.mem (show m.At R H .held q from hq)
  obtain ⟨hown, hsame⟩ : Own R (H \ {q}) { m.fill q 1 with free := q :: m.free } ∧
      SameTrees R m { m.fill q 1 with free := q :: m.free } :=
    h.release (fun x hx => update_of_ne hx _ _) rfl hq rfl
  exact ⟨(), _, kfree_of_managed hman, hown, hsame, rfl, .of_ne rfl
    (fun x hx => update_of_ne hx _ _) (fun x hx => update_of_ne hx _ _)
    fun hin => hin.2 rfl⟩

theorem kalloc_clear_runs (h : Own R H m) {α : Type} {f : ℕ → VmM α} {g : VmM α}
    {Q : α → Phys → Prop}
    (hnone : ∀ m', Own R H m' → SameTrees R m m' → Takes 1 m m' → Kept H m m' → Short 1 m →
      Runs g m' Q)
    (hsome : ∀ q m', q ∈ m.free → q ∉ m'.free → Own R (insert q H) m' → SameTrees R m m' →
      Takes 1 m m' → Kept H m m' → (∀ j, m'.pt q j = none) → (∀ j, m'.data q j = 0) →
      Runs (f q) m' Q) :
    Runs (do match ← kalloc with | none => g | some q => do clear q; f q) m Q := by
  refine h.kalloc_runs.bind fun o m1 ho => ?_
  obtain ⟨hsame, htakes, hkept, ⟨rfl, hown, -, hshort⟩ | ⟨q, rfl, hin, hout, hown⟩⟩ := ho
  · exact hnone m1 hown hsame htakes hkept hshort
  · refine (hown.clear_runs (Set.mem_insert q H)).bind fun _ m2 h2 => ?_
    obtain ⟨hown2, hsame2, hempty, hfree2, hluck2, hkept2, hzero, hdata2⟩ := h2
    rw [insert_sdiff_self_of_notMem (h.not_held_of_free hin)] at hkept2
    refine hsome q m2 hin (hfree2 ▸ hout) hown2 (hsame.trans hsame2) ?_ (hkept.trans hkept2) hempty
      hzero
    obtain ⟨hkend, hluck, l, hl, hfree, hdata⟩ := htakes
    have hql : q ∈ l := by
      rw [hfree, List.mem_append] at hin
      exact hin.resolve_right hout
    refine ⟨hkept2.kend.trans hkend, hluck2 ▸ hluck, l, hl, hfree2 ▸ hfree, fun x hx => ?_⟩
    rw [hdata2 x fun he => hx (he ▸ hql), hdata x hx]

/-! ### Tables -/

/-- **A round of `walk`**: the next table, which is new if there was none. -/
theorem walkLevel_runs (h : Own R H m) (hr : r ∈ R) (hd : d < 2) (hq : m.table r d k = some q)
    (hi : i < 512) (alloc : Bool) :
    Runs (walkLevel alloc q i) m fun o m' => Own R H m' ∧ Grown R 1 m m' ∧ Kept H m m' ∧
      (alloc = false → m' = m) ∧
      ((o = none ∧ m.entry r d (k * 512 + i) = none ∧ (alloc = true → Short 1 m)) ∨
        ∃ c, o = some c ∧ m'.table r (d + 1) (k * 512 + i) = some c) := by
  have hentry : m.entry r d (k * 512 + i) = m.pt q i := entry_of_table hq hi
  have hstay : Grown R 1 m m := (Grown.refl R m).mono (Nat.zero_le 1)
  refine .step rfl ?_
  cases he : m.pt q i with
  | some e =>
    refine .pure ⟨h, hstay, .refl H m, fun _ => rfl, .inr ⟨e.page, rfl, ?_⟩⟩
    rw [table_succ, hentry, he]
    rfl
  | none =>
    rw [he] at hentry
    cases alloc with
    | false => exact .pure ⟨h, hstay, .refl H m, fun _ => rfl, .inl ⟨rfl, hentry, nofun⟩⟩
    | true =>
      refine h.kalloc_clear_runs (fun m1 hown hsame htakes hkept hshort => ?_)
        fun c m1 hin hout hown hsame htakes hkept hempty _ => ?_
      · exact .pure ⟨hown, hsame.grown htakes, hkept, nofun, .inl ⟨rfl, hentry, fun _ => hshort⟩⟩
      · have hq1 : m1.table r d k = some q := (hsame.table hr (by omega) k).trans hq
        have hnone : m1.pt q i = none := by
          rw [← entry_of_table hq1 hi, hsame r hr d (by omega), hentry]
        have hc : c ∈ insert c H := Set.mem_insert c H
        have hlink {r' d'} := Phys.link (r := r') (d := d') hown.separate hr hd hq1 hi
          ((entry_of_table hq1 hi).trans hnone)
          (hown.notTable (show m1.At R (insert c H) .held c from hc) (by simp)) hempty
        have hfresh : c ∉ H := h.not_held_of_free hin
        have hown2 := hown.link hr hd hq1 hi hnone hc hempty
        rw [insert_sdiff_self_of_notMem hfresh] at hown2
        have hqH : q ∉ H := h.not_held_of_table hr (by omega) hq
        refine .step rfl (.pure ⟨hown2, ⟨htakes.setPte q i _, ?_, ?_⟩,
          hkept.setPte hqH i _, nofun, .inr ⟨c, rfl, ?_⟩⟩)
        · intro r' hr' v
          rw [leaf, (hlink hr' le_rfl v).2, if_neg (by omega)]
          exact hsame.leaves r' hr' v
        · intro r' hr' d' hd' k' q' ht
          have ht1 := (hsame.table hr' (by omega) k').trans ht
          rw [(hlink hr' hd' k').1, if_neg, ht1]
          -- there was no table in the new place
          rintro ⟨rfl, rfl, rfl⟩
          rw [table_succ, entry_of_table hq1 hi, hnone] at ht1
          cases ht1
        · rw [(hlink hr (by omega) _).1, if_pos ⟨rfl, rfl, rfl⟩]

/-- **`walk`**: the place of the entry for `va`, unless there is no table for it. -/
theorem walk_runs (h : Own R H m) (hr : r ∈ R) (hva : va < MAXVA) (alloc : Bool) :
    Runs (walk r va alloc) m fun o m' => Own R H m' ∧ Grown R 2 m m' ∧ Kept H m m' ∧
      (alloc = false → m' = m) ∧
      ((o = none ∧ m.leaf r (va / PGSIZE) = none ∧ (alloc = true → Short 2 m)) ∨
        ∃ q, o = some (q, va / PGSIZE % 512) ∧ m'.table r 2 (va / PGSIZE / 512) = some q) := by
  have hsmall : va / PGSIZE < 2 ^ 26 := by
    simp only [MAXVA, PGSIZE] at *
    omega
  unfold walk
  rw [if_neg (by omega), PX_two hva, PX_one, PX_zero]
  refine (h.walkLevel_runs hr (by omega) (table_root m r) (by omega)
    alloc).bind fun o m1 ho => ?_
  rw [Nat.zero_mul, Nat.zero_add] at ho
  obtain ⟨hown, hgrown, hkept, hsame, ⟨rfl, hnone, hshort⟩ | ⟨q, rfl, hq⟩⟩ := ho
  · exact .pure ⟨hown, hgrown.mono (by omega), hkept, hsame,
      .inl ⟨rfl, leaf_of_entry_none (by omega) hnone, fun ha => (hshort ha).mono (by omega)⟩⟩
  refine (hown.walkLevel_runs hr (by omega) hq (by omega)
    alloc).bind fun o m2 ho => ?_
  rw [show va / PGSIZE / 512 ^ 2 * 512 + va / PGSIZE / 512 % 512 = va / PGSIZE / 512 by omega] at ho
  obtain ⟨hown', hgrown', hkept', hsame', ⟨rfl, hnone, hshort⟩ | ⟨q', rfl, hq'⟩⟩ := ho
  · refine .pure ⟨hown', hgrown.trans hgrown', hkept.trans hkept',
      fun ha => (hsame' ha).trans (hsame ha),
      .inl ⟨rfl, ?_, fun ha => hgrown.takes.short (hshort ha)⟩⟩
    rw [← hgrown.leaves r hr]
    exact leaf_of_entry_none (by omega) hnone
  · exact .pure ⟨hown', hgrown.trans hgrown', hkept.trans hkept',
      fun ha => (hsame' ha).trans (hsame ha), .inr ⟨q', rfl, hq'⟩⟩

theorem leaf_setLeaf (h : Own R H m) (hr : r ∈ R) (hq : m.table r 2 (v / 512) = some q)
    (e : Option Pte) : SetsLeaf R r v e m (m.setPte q (v % 512) e) := by
  intro r' hr' v'
  rw [leaf, h.entry_setLeaf hr hq e r' hr' 2 le_rfl]
  simp only [true_and, leaf]

/-- **`mappages`** of one page. -/
theorem mappages_runs (h : Own R H m) (hr : r ∈ R) (hva : va < MAXVA) (halign : va % PGSIZE = 0)
    (hleaf : m.leaf r (va / PGSIZE) = none) (hc : va / PGSIZE < userPages → c ∈ H) (perm : Perm) :
    Runs (mappages r va PGSIZE c perm) m fun ok m' => Takes 2 m m' ∧ Kept H m m' ∧
      ((ok = false ∧ Own R H m' ∧ SameLeaves R m m' ∧ Short 2 m) ∨
        (ok = true ∧ Own R (if va / PGSIZE < userPages then H \ {c} else H) m' ∧
          SetsLeaf R r (va / PGSIZE) (some ⟨c, perm⟩) m m')) := by
  unfold mappages
  rw [if_neg (not_not.2 halign), if_neg (by decide), if_neg (by decide),
    show PGSIZE / PGSIZE = 1 by decide]
  refine (h.walk_runs hr hva true).bind fun o m1 ho => ?_
  obtain ⟨hown, hgrown, hkept, -, ⟨rfl, -, hshort⟩ | ⟨q, rfl, hq⟩⟩ := ho
  · exact .pure ⟨hgrown.takes, hkept, .inl ⟨rfl, hown, hgrown.leaves, hshort rfl⟩⟩
  have hnone : m1.leaf r (va / PGSIZE) = none := (hgrown.leaves r hr _).trans hleaf
  have hpte := pte_leaf hq
  rw [hnone] at hpte
  refine .step hpte (.step rfl ?_)
  refine .pure ⟨hgrown.takes.setPte _ _ _,
    hkept.setPte (hown.not_held_of_table hr le_rfl hq) _ _, .inr ⟨rfl, ?_,
    .of_same hgrown.leaves (hown.leaf_setLeaf hr hq _)⟩⟩
  split_ifs with hv
  · exact hown.map hr hq hnone hv (hc hv) perm
  · exact hown.reflag hr hq fun hv' => absurd hv' hv

end Own

end Phys

end Cinux
