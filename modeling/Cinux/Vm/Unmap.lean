import Cinux.Vm.Space

/-!
# Giving memory back

`uvmunmap`, `uvmdealloc`, `freewalk` and `uvmfree`: pages of an address space go back to the free
list, and in the end its tables.

* `Phys.Clears` : the entries for a range of virtual pages are gone;
* `Phys.Own.uvmunmap_runs`, `uvmdealloc_runs` : the functions clear their ranges;
* `Phys.Own.freewalk_runs` : a tree without entries for virtual pages goes, with all its tables.
-/

namespace Cinux

open Function

open List

/-- The number of pages of a process of size `sz`. -/
def pages (sz : ℕ) : ℕ := (sz + (PGSIZE - 1)) / PGSIZE

theorem pgroundup_eq {sz : ℕ} (h : sz ≤ TRAPFRAME) : pgroundup sz = pages sz * PGSIZE := by
  have hmax : TRAPFRAME + PGSIZE < 2 ^ 64 := by decide
  have hpg : 0 < PGSIZE := by decide
  unfold pgroundup pages
  rw [Nat.mod_eq_of_lt (by omega)]

theorem pages_le {sz : ℕ} (h : sz ≤ TRAPFRAME) : pages sz ≤ userPages := by
  simp only [pages, userPages, TRAPFRAME, TRAMPOLINE, MAXVA, PGSIZE] at *
  omega

namespace Phys

open Program (Runs)

variable {R H : Set ℕ} {m m' m'' : Phys} {r d k q c i v va n lo hi : ℕ}

/-- The entries of `r` for virtual pages from `lo` to below `hi` are gone, and the others are the
same. -/
def Clears (R : Set ℕ) (r lo hi : ℕ) (m m' : Phys) : Prop :=
  ∀ r' ∈ R, ∀ v, m'.leaf r' v = if r' = r ∧ lo ≤ v ∧ v < hi then none else m.leaf r' v

theorem SameLeaves.clears (h : SameLeaves R m m') (hle : hi ≤ lo) : Clears R r lo hi m m' := by
  intro r' hr' v
  rw [if_neg (by omega), h r' hr' v]

theorem Clears.cons (h : SetsLeaf R r lo none m m') (h' : Clears R r (lo + 1) hi m' m'')
    (hlt : lo < hi) : Clears R r lo hi m m'' := by
  intro r' hr' v
  rw [h' r' hr' v, h r' hr' v]
  by_cases hr : r' = r
  · subst hr
    by_cases hv : v = lo
    · subst hv
      rw [if_neg (by omega), if_pos ⟨rfl, rfl⟩, if_pos ⟨rfl, le_rfl, hlt⟩]
    · by_cases hin : lo ≤ v ∧ v < hi
      · rw [if_pos ⟨rfl, by omega, hin.2⟩, if_pos ⟨rfl, hin⟩]
      · rw [if_neg (by omega), if_neg (by omega), if_neg fun h => hin h.2]
  · rw [if_neg (by tauto), if_neg (by tauto), if_neg (by tauto)]

namespace Own

open VmM

/-! ### Entries -/

/-- The page of an entry goes to the free list, and then the entry: in between it is the target of
an entry although it is free. -/
theorem unmap_release (h : Own R H m) (hr : r ∈ R) (hq : m.table r 2 (v / 512) = some q) {e : Pte}
    (he : m.leaf r v = some e) (hv : v < userPages) (hm' : m' = Phys.setPte
      { m.fill e.page 1 with free := e.page :: m.free } q (v % 512) none) :
    m.Managed e.page ∧ Own R H m' ∧ Kept H m m' ∧ SetsLeaf R r v none m m' := by
  have hat : m.At R H (.page r v) e.page :=
    ⟨hr, hv, by rw [table_succ, show m.entry r 2 v = some e from he]; rfl⟩
  have hne : q ≠ e.page := by
    intro hqe
    exact nomatch h.owned.unique hat
      (show m.At R H (.table r 2 (v / 512)) e.page from ⟨hr, le_rfl, hqe ▸ hq⟩)
  have hheld : e.page ∉ H := fun hmem =>
    nomatch h.owned.unique hat (show m.At R H .held e.page from hmem)
  have hpt : ∀ x, x ≠ e.page → m'.pt x = (m.setPte q (v % 512) none).pt x := by
    intro x hx
    funext j
    rw [hm', setPte_pt, setPte_pt]
    simp only [fill, update_of_ne hx]
  obtain ⟨hown, hsame⟩ : Own R (insert e.page H \ {e.page}) m' ∧
      SameTrees R (m.setPte q (v % 512) none) m' :=
    (h.unmap hr hq he hv).release hpt (by rw [hm']; rfl) (Set.mem_insert _ _) (by rw [hm']; rfl)
  rw [insert_sdiff_self_of_notMem hheld] at hown
  have hkept : Kept H m { m.fill e.page 1 with free := e.page :: m.free } :=
    .of_ne rfl (fun x hx => update_of_ne hx _ _)
      (fun x hx => update_of_ne hx _ _) hheld
  refine ⟨h.owned.mem hat, hown, hm' ▸ hkept.setPte (h.not_held_of_table hr le_rfl hq) _ _,
    fun r' hr' v' => ?_⟩
  rw [hsame.leaves r' hr' v', h.leaf_setLeaf hr hq none r' hr' v']

/-- **A round of `uvmunmap`.**  Pages below the trap frame are freed, those above are not. -/
theorem unmapPage_runs (h : Own R H m) (hr : r ∈ R) (hva : va < MAXVA) {doFree : Bool}
    (hfree : doFree = true ↔ va / PGSIZE < userPages) :
    Runs (unmapPage r va doFree) m fun _ m' => Own R H m' ∧ Kept H m m' ∧
      SetsLeaf R r (va / PGSIZE) none m m' := by
  have hstay : m.leaf r (va / PGSIZE) = none → SetsLeaf R r (va / PGSIZE) none m m := by
    intro hnone r' _ v'
    split_ifs with hv
    · rw [hv.1, hv.2, hnone]
    · rfl
  refine (h.walk_runs hr hva false).bind fun o m₁ ho => ?_
  obtain ⟨-, -, -, hsame, ho⟩ := ho
  obtain rfl := hsame rfl
  obtain ⟨rfl, hnone, -⟩ | ⟨q, rfl, hq⟩ := ho
  · exact .pure ⟨h, .refl H m₁, hstay hnone⟩
  refine .step (pte_leaf hq) ?_
  cases he : m₁.leaf r (va / PGSIZE) with
  | none => exact .pure ⟨h, .refl H m₁, hstay he⟩
  | some e =>
    cases doFree with
    | false =>
      have hv : ¬va / PGSIZE < userPages := fun hv => absurd (hfree.2 hv) (by decide)
      exact ⟨(), m₁.setPte q (va / PGSIZE % 512) none, rfl, h.reflag hr hq fun hv' => absurd hv' hv,
        (Kept.refl H m₁).setPte (h.not_held_of_table hr le_rfl hq) _ _, h.leaf_setLeaf hr hq none⟩
    | true =>
      obtain ⟨hman, hown, hkept, hsets⟩ := h.unmap_release hr hq he (hfree.1 rfl) rfl
      exact .step (kfree_of_managed hman) ⟨(), _, rfl, hown, hkept, hsets⟩

/-- **The loop of `uvmunmap`.** -/
theorem uvmunmapLoop_runs (h : Own R H m) (hr : r ∈ R) (doFree : Bool) (n va : ℕ)
    (hend : va / PGSIZE + n ≤ MAXVA / PGSIZE)
    (hfree : ∀ v, va / PGSIZE ≤ v → v < va / PGSIZE + n → (doFree = true ↔ v < userPages)) :
    Runs (uvmunmapLoop r doFree n va) m fun _ m' => Own R H m' ∧ Kept H m m' ∧
      Clears R r (va / PGSIZE) (va / PGSIZE + n) m m' := by
  induction n generalizing va m with
  | zero =>
    exact .pure ⟨h, .refl H m, SameLeaves.clears (fun _ _ _ => rfl) le_rfl⟩
  | succ n ih =>
    have hnext : (va + PGSIZE) / PGSIZE = va / PGSIZE + 1 := Nat.add_div_right _ (by decide)
    have hva : va < MAXVA := by
      simp only [MAXVA, PGSIZE] at *
      omega
    refine (h.unmapPage_runs hr hva (hfree _ le_rfl (by omega))).bind fun _ m₁ h1 => ?_
    obtain ⟨hown, hkept, hsets⟩ := h1
    refine (ih hown (va + PGSIZE) (by omega) fun v hlo hhi => hfree v (by omega)
      (by omega)).conseq fun _ m2 h2 => ?_
    obtain ⟨hown2, hkept2, hclears⟩ := h2
    rw [hnext, show va / PGSIZE + 1 + n = va / PGSIZE + (n + 1) by omega] at hclears
    exact ⟨hown2, hkept.trans hkept2, .cons hsets hclears (by omega)⟩

/-- **`uvmunmap`** of user pages, which are freed. -/
theorem uvmunmap_runs (h : Own R H m) (hr : r ∈ R) {lo n : ℕ} (hend : lo + n ≤ userPages) :
    Runs (uvmunmap r (lo * PGSIZE) n true) m fun _ m' => Own R H m' ∧ Kept H m m' ∧
      Clears R r lo (lo + n) m m' := by
  have hdiv : lo * PGSIZE / PGSIZE = lo := Nat.mul_div_cancel _ (by decide)
  have hmax : userPages ≤ MAXVA / PGSIZE := by decide
  unfold uvmunmap
  rw [if_neg (not_not.2 (Nat.mul_mod_left _ _))]
  have hrun := h.uvmunmapLoop_runs hr true n (lo * PGSIZE) (by rw [hdiv]; omega)
    fun v _ hv => ⟨fun _ => by omega, fun _ => rfl⟩
  rwa [hdiv] at hrun

/-- **`uvmunmap`** of the trampoline or the trap frame, which is not freed. -/
theorem uvmunmap_special_runs (h : Own R H m) (hr : r ∈ R) (hv : userPages ≤ v)
    (hmax : v < MAXVA / PGSIZE) :
    Runs (uvmunmap r (v * PGSIZE) 1 false) m fun _ m' => Own R H m' ∧ Kept H m m' ∧
      Clears R r v (v + 1) m m' := by
  have hdiv : v * PGSIZE / PGSIZE = v := Nat.mul_div_cancel _ (by decide)
  unfold uvmunmap
  rw [if_neg (not_not.2 (Nat.mul_mod_left _ _))]
  have hrun := h.uvmunmapLoop_runs hr false 1 (v * PGSIZE) (by rw [hdiv]; omega)
    fun w _ hw => ⟨nofun, fun _ => by omega⟩
  rwa [hdiv] at hrun

/-- **`uvmdealloc`**: the pages between the two sizes go. -/
theorem uvmdealloc_runs (h : Own R H m) (hr : r ∈ R) {old : ℕ} (hold : old ≤ TRAPFRAME) (new : ℕ) :
    Runs (uvmdealloc r old new) m fun sz m' => Own R H m' ∧ Kept H m m' ∧
      sz = min old new ∧ Clears R r (pages new) (pages old) m m' := by
  have hsame : SameLeaves R m m := fun _ _ _ => rfl
  unfold uvmdealloc
  split_ifs with hle hpg
  · refine .pure ⟨h, .refl H m, (min_eq_left hle).symm, hsame.clears ?_⟩
    exact Nat.div_le_div_right (by omega)
  · have hnew : new ≤ TRAPFRAME := by omega
    have hpages := pages_le hold
    rw [pgroundup_eq hold, pgroundup_eq hnew] at hpg ⊢
    have hlt : pages new < pages old := Nat.lt_of_mul_lt_mul_right hpg
    have hcount :
        (toInt32 ((pages old * PGSIZE - pages new * PGSIZE) / PGSIZE : ℕ) % 2 ^ 64).toNat =
          pages old - pages new := by
      have huser : userPages < 2 ^ 31 := by decide
      rw [← Nat.sub_mul, Nat.mul_div_cancel _ (by decide), toInt32_of_fits (by omega)]
      omega
    dsimp only
    rw [hcount]
    refine (h.uvmunmap_runs hr (by omega : pages new + (pages old - pages new) ≤ userPages)).bind
      fun _ m₁ h1 => ?_
    obtain ⟨hown, hkept, hclears⟩ := h1
    rw [show pages new + (pages old - pages new) = pages old by omega] at hclears
    exact .pure ⟨hown, hkept, (min_eq_right (by omega)).symm, hclears⟩
  · have hnew : new ≤ TRAPFRAME := by omega
    rw [pgroundup_eq hold, pgroundup_eq hnew, not_lt] at hpg
    exact .pure ⟨h, .refl H m, (min_eq_right (by omega)).symm,
      hsame.clears (Nat.le_of_mul_le_mul_right hpg (by decide))⟩

end Own

/-! ### Tables -/

/-- Table `k'` of depth `d'` lies below, or is, table `k` of depth `d`. -/
def Below (d k d' k' : ℕ) : Prop := d ≤ d' ∧ d' ≤ 2 ∧ k' / 512 ^ (d' - d) = k

/-- The tables below table `k` of depth `d`, and the table itself. -/
def subtree (m : Phys) (r d k : ℕ) : Set ℕ :=
  {x | ∃ d' k', Below d k d' k' ∧ m.table r d' k' = some x}

theorem below_iff {d' k' : ℕ} (hd : d ≤ 2) :
    Below d k d' k' ↔ (d' = d ∧ k' = k) ∨ ∃ i < 512, Below (d + 1) (k * 512 + i) d' k' := by
  have hstep : d + 1 ≤ d' → k' / 512 ^ (d' - d) = k' / 512 ^ (d' - (d + 1)) / 512 := by
    intro hlt
    rw [show d' - d = d' - (d + 1) + 1 by omega, Nat.pow_succ, Nat.div_div_eq_div_mul]
  constructor
  · rintro ⟨hle, hle', hk⟩
    by_cases he : d' = d
    · subst he
      exact .inl ⟨rfl, by simpa using hk⟩
    · exact .inr ⟨k' / 512 ^ (d' - (d + 1)) % 512, Nat.mod_lt _ (by decide),
        by omega, hle', by omega⟩
  · rintro (⟨rfl, rfl⟩ | ⟨i, hi, hle, hle', hk⟩)
    · exact ⟨le_rfl, hd, by simp⟩
    · refine ⟨by omega, hle', ?_⟩
      omega

theorem exists_table_above {d' x : ℕ} (hle : d ≤ d') (h : m.table r d' k = some x) :
    ∃ y, m.table r d (k / 512 ^ (d' - d)) = some y := by
  induction d' generalizing k x with
  | zero =>
    obtain rfl : d = 0 := by omega
    exact ⟨x, by simpa using h⟩
  | succ d' ih =>
    by_cases he : d = d' + 1
    · subst he
      exact ⟨x, by simpa using h⟩
    · obtain ⟨y, hy, -⟩ := Option.bind_eq_some_iff.1 h
      obtain ⟨z, hz⟩ := ih (by omega) hy
      refine ⟨z, ?_⟩
      rwa [show d' + 1 - d = d' - d + 1 by omega, Nat.pow_succ', ← Nat.div_div_eq_div_mul]

theorem subtree_of_none (h : m.table r d k = none) : m.subtree r d k = ∅ := by
  refine Set.eq_empty_iff_forall_notMem.2 fun x hx => ?_
  obtain ⟨d', k', ⟨hle, -, rfl⟩, ht⟩ := hx
  obtain ⟨y, hy⟩ := exists_table_above hle ht
  rw [h] at hy
  cases hy

theorem mem_subtree_iff (hd : d ≤ 2) (hq : m.table r d k = some q) {x : ℕ} :
    x ∈ m.subtree r d k ↔ x = q ∨ ∃ i < 512, x ∈ m.subtree r (d + 1) (k * 512 + i) := by
  constructor
  · rintro ⟨d', k', hb, ht⟩
    rcases (below_iff hd).1 hb with ⟨rfl, rfl⟩ | ⟨i, hi, hb⟩
    · exact .inl (Option.some.inj (ht.symm.trans hq))
    · exact .inr ⟨i, hi, d', k', hb, ht⟩
  · rintro (rfl | ⟨i, hi, d', k', hb, ht⟩)
    · exact ⟨d, k, (below_iff hd).2 (.inl ⟨rfl, rfl⟩), hq⟩
    · exact ⟨d', k', (below_iff hd).2 (.inr ⟨i, hi, hb⟩), ht⟩

namespace Own

open VmM

theorem subtree_disjoint (h : Own R H m) (hr : r ∈ R) {k' x : ℕ} (hx : x ∈ m.subtree r d k)
    (hx' : x ∈ m.subtree r d k') : k = k' := by
  obtain ⟨d1, k1, ⟨-, hd1, rfl⟩, ht1⟩ := hx
  obtain ⟨d2, k2, ⟨-, hd2, rfl⟩, ht2⟩ := hx'
  obtain ⟨-, rfl, rfl⟩ := h.separate hr hr hd1 hd2 ht1 ht2
  rfl

theorem not_mem_subtree (h : Own R H m) (hr : r ∈ R) (hd : d ≤ 2) (hq : m.table r d k = some q)
    {k' : ℕ} : q ∉ m.subtree r (d + 1) k' := by
  rintro ⟨d', k'', ⟨hle, hle', -⟩, ht⟩
  have := (h.separate hr hr hd hle' hq ht).2.1
  omega

/-- The tables of `m` in the tree below table `k` of depth `d` have gone to the free list. -/
def FreesTree (m : Phys) (r d k : ℕ) (m₁ m₂ : Phys) : Prop :=
  ∃ l : List ℕ, l.Nodup ∧ (∀ x, x ∈ l ↔ x ∈ m.subtree r d k) ∧ m₂.free = l ++ m₁.free ∧
    (∀ x, x ∉ l → m₂.pt x = m₁.pt x) ∧ (∀ x, x ∉ l → m₂.data x = m₁.data x) ∧ m₂.kend = m₁.kend

/-- What the loop of `freewalk` over the entries of table `q` has done, with `rest` still to do: the
tables below the entries it has been through are free, and nothing else has changed but `q`. -/
def Freeing (m : Phys) (r d k q : ℕ) (m₁ : Phys) (rest : List ℕ) (s : Phys) : Prop :=
  ∃ past l, past ++ rest = List.range 512 ∧ l.Nodup ∧
    (∀ x, x ∈ l ↔ ∃ i ∈ past, x ∈ m.subtree r (d + 1) (k * 512 + i)) ∧
    s.free = l ++ m₁.free ∧ (∀ x, x ∉ l → x ≠ q → s.pt x = m₁.pt x) ∧
    (∀ x, x ∉ l → s.data x = m₁.data x) ∧ (∀ j ∈ rest, s.pt q j = m₁.pt q j) ∧ s.kend = m₁.kend

section Freewalk

variable {m₁ : Phys} (hpt : ∀ x ∈ m.subtree r d k, m₁.pt x = m.pt x) (hkend : m₁.kend = m.kend)

include hpt hkend

/-- A round of the loop of `freewalk`, where the recursive call does as it should. -/
theorem freewalk_round (h : Own R H m) (hr : r ∈ R) (hleaf : ∀ v, m.leaf r v = none) (hd : d ≤ 2)
    (hq : m.table r d k = some q)
    (ih : d < 2 → ∀ {k' q' : ℕ} {m1' : Phys}, m.table r (d + 1) k' = some q' →
      (∀ x ∈ m.subtree r (d + 1) k', m1'.pt x = m.pt x) → m1'.kend = m.kend →
      Runs (freewalk n q') m1' fun _ m2 => FreesTree m r (d + 1) k' m1' m2)
    {rest : List ℕ} {s : Phys} (hs : Freeing m r d k q m₁ (i :: rest) s) :
    Runs (do
      match ← pte q i with
      | some e =>
        if e.perm.isLeaf then stop "freewalk: leaf"
        else do
          freewalk n e.page
          VmM.setPte q i none
      | none => pure ()) s fun _ s' => Freeing m r d k q m₁ rest s' := by
  obtain ⟨past, l, hrange, hnd, hmem, hfree, hsame, hdata, hrest, hk⟩ := hs
  have hrange' : (past ++ [i]) ++ rest = List.range 512 := by rw [← hrange, append_assoc]; rfl
  have hi : i < 512 := mem_range.1 (hrange ▸ by simp)
  have hentry : s.pt q i = m.entry r d (k * 512 + i) := by
    rw [hrest i (by simp), hpt q ((mem_subtree_iff hd hq).2 (.inl rfl)), entry_of_table hq hi]
  refine .step rfl ?_
  rw [hentry]
  cases he : m.entry r d (k * 512 + i) with
  | none =>
    have hempty : m.subtree r (d + 1) (k * 512 + i) = ∅ :=
      subtree_of_none (by rw [table_succ, he]; rfl)
    refine .pure ⟨past ++ [i], l, hrange', hnd, fun x => ?_, hfree, hsame, hdata,
      fun j hj => hrest j (by simp [hj]), hk⟩
    rw [hmem x]
    simp [or_and_right, exists_or, hempty]
  | some e =>
    have hd' : d < 2 := by
      by_contra hlt
      obtain rfl : d = 2 := by omega
      exact absurd (he.symm.trans (hleaf _)) nofun
    have hperm := h.interior r hr d hd' _ e he
    simp only [hperm, Perm.isLeaf, Perm.none, Bool.or_self, Bool.false_eq_true, if_false]
    have ht : m.table r (d + 1) (k * 512 + i) = some e.page := by rw [table_succ, he]; rfl
    have hnodup : (past ++ i :: rest).Nodup := hrange ▸ nodup_range
    have hnew : i ∉ past ∧ i ∉ rest := by
      rw [nodup_append, nodup_cons] at hnodup
      exact ⟨fun hp => hnodup.2.2 i hp i (by simp) rfl, hnodup.2.1.1⟩
    -- what is below this entry is not below the earlier ones
    have hdisj : ∀ x ∈ m.subtree r (d + 1) (k * 512 + i), x ∉ l := by
      intro x hx hxl
      obtain ⟨j, hj, hxj⟩ := (hmem x).1 hxl
      have := h.subtree_disjoint hr hx hxj
      obtain rfl : i = j := by omega
      exact hnew.1 hj
    have hqsub : ∀ {k'}, q ∉ m.subtree r (d + 1) k' := h.not_mem_subtree hr hd hq
    have hq' : q ∉ l := fun hql => by
      obtain ⟨j, -, hqj⟩ := (hmem q).1 hql
      exact hqsub hqj
    refine (ih hd' ht (fun x hx => ?_) (hk.trans hkend)).bind fun _ s' hs' => ?_
    · rw [hsame x (hdisj x hx) fun hxq => hqsub (hxq ▸ hx)]
      exact hpt x ((mem_subtree_iff hd hq).2 (.inr ⟨i, hi, hx⟩))
    obtain ⟨l', hnd', hmem', hfree', hsame', hdata', hk'⟩ := hs'
    refine ⟨(), _, rfl, past ++ [i], l' ++ l, hrange', ?_, fun x => ?_, ?_, fun x hx hxq => ?_,
      fun x hx => ?_, fun j hj => ?_, hk'.trans hk⟩
    · exact nodup_append.2 ⟨hnd', hnd, fun x hx y hy hxy =>
        hdisj x ((hmem' x).1 hx) (hxy ▸ hy)⟩
    · rw [mem_append, hmem' x, hmem x]
      simp [or_and_right, exists_or, or_comm]
    · show s'.free = _
      rw [hfree', hfree, append_assoc]
    · rw [mem_append, not_or] at hx
      rw [setPte_pt_of_ne _ _ hxq, hsame' x hx.1, hsame x hx.2 hxq]
    · rw [mem_append, not_or] at hx
      exact (hdata' x hx.1).trans (hdata x hx.2)
    · have hji : j ≠ i := fun he => hnew.2 (he ▸ hj)
      rw [setPte_pt, if_neg fun hc => hji hc.2, hsame' q fun hql => hqsub ((hmem' q).1 hql),
        hrest j (by simp [hj])]

/-- `freewalk` of a table, where the recursive call does as it should. -/
theorem freewalk_table (h : Own R H m) (hr : r ∈ R) (hleaf : ∀ v, m.leaf r v = none) (hd : d ≤ 2)
    (hq : m.table r d k = some q)
    (ih : d < 2 → ∀ {k' q' : ℕ} {m1' : Phys}, m.table r (d + 1) k' = some q' →
      (∀ x ∈ m.subtree r (d + 1) k', m1'.pt x = m.pt x) → m1'.kend = m.kend →
      Runs (freewalk n q') m1' fun _ m2 => FreesTree m r (d + 1) k' m1' m2) :
    Runs (freewalk (n + 1) q) m₁ fun _ m2 => FreesTree m r d k m₁ m2 := by
  have hstart : Freeing m r d k q m₁ (List.range 512) m₁ :=
    ⟨[], [], nil_append _, nodup_nil, by simp, rfl, fun _ _ _ => rfl, fun _ _ => rfl,
      fun _ _ => rfl, rfl⟩
  refine (Runs.forM hstart fun i rest s hs => freewalk_round hpt hkend h hr hleaf hd hq ih hs).bind
    fun _ s hs => ?_
  obtain ⟨past, l, hrange, hnd, hmem, hfree, hsame, hdata, -, hk⟩ := hs
  rw [append_nil] at hrange
  rw [hrange] at hmem
  have hman : s.Managed q := by
    rw [Managed, hk, hkend]
    exact h.owned.mem (show m.At R H (.table r d k) q from ⟨hr, hd, hq⟩)
  refine ⟨(), _, kfree_of_managed hman, q :: l, nodup_cons.2 ⟨fun hql => ?_, hnd⟩,
    fun x => ?_, congrArg (q :: ·) hfree, fun x hx => ?_, fun x hx => ?_, hk⟩
  · obtain ⟨j, -, hqj⟩ := (hmem q).1 hql
    exact h.not_mem_subtree hr hd hq hqj
  · rw [mem_cons, hmem x, mem_subtree_iff hd hq]
    simp only [mem_range]
  · rw [mem_cons, not_or] at hx
    exact (update_of_ne hx.1 _ _).trans (hsame x hx.2 hx.1)
  · rw [mem_cons, not_or] at hx
    exact (update_of_ne hx.1 _ _).trans (hdata x hx.2)

end Freewalk

theorem freewalk_subtree (h : Own R H m) (hr : r ∈ R) (hleaf : ∀ v, m.leaf r v = none)
    (hn : n + d = 2) (hq : m.table r d k = some q) {m₁ : Phys}
    (hpt : ∀ x ∈ m.subtree r d k, m₁.pt x = m.pt x) (hkend : m₁.kend = m.kend) :
    Runs (freewalk (n + 1) q) m₁ fun _ m2 => FreesTree m r d k m₁ m2 := by
  -- the induction is on the number of levels below
  induction n generalizing d k q m₁ with
  | zero =>
    refine freewalk_table hpt hkend h hr hleaf (by omega) hq fun hlt => ?_
    omega
  | succ n ih =>
    exact freewalk_table hpt hkend h hr hleaf (by omega) hq fun _ _ _ _ ht hpt hkend =>
      ih (by omega) ht hpt hkend

/-- **`freewalk`** of a page table without entries for virtual pages: the page table goes, and all
its tables are free. -/
theorem freewalk_runs (h : Own R H m) (hr : r ∈ R) (hleaf : ∀ v, m.leaf r v = none) :
    Runs (freewalk 3 r) m fun _ m' =>
      Own (R \ {r}) H m' ∧ SameTrees (R \ {r}) m m' ∧ Kept H m m' := by
  refine (h.freewalk_subtree hr hleaf rfl (table_root m r) (fun _ _ => rfl)
    rfl).conseq fun _ m' hm' => ?_
  obtain ⟨l, hnd, hmem, hfree, hpt, hdata, hkend⟩ := hm'
  have hall : ∀ x, x ∈ l ↔ ∃ d k, d ≤ 2 ∧ m.table r d k = some x := by
    intro x
    rw [hmem x]
    constructor
    · rintro ⟨d, k, ⟨-, hd, -⟩, ht⟩
      exact ⟨d, k, hd, ht⟩
    · rintro ⟨d, k, hd, ht⟩
      obtain ⟨y, hy⟩ := exists_table_above (Nat.zero_le d) ht
      exact ⟨d, k, ⟨Nat.zero_le d, hd, (table_zero hy).1⟩, ht⟩
  obtain ⟨hown, hsame⟩ := h.destroy hr hleaf hnd hall hfree hpt hkend
  have hheld : ∀ q ∈ H, q ∉ l := by
    intro q hq hl
    obtain ⟨d, k, hd, ht⟩ := (hall q).1 hl
    exact h.not_held_of_table hr hd ht hq
  exact ⟨hown, hsame, hkend, fun q hq => hpt q (hheld q hq), fun q hq => hdata q (hheld q hq)⟩

/-- **`uvmfree`** of a page table whose entries are for the pages of a process of size `sz`. -/
theorem uvmfree_runs {sz : ℕ} (h : Own R H m) (hr : r ∈ R) (hsz : sz ≤ TRAPFRAME)
    (hleaf : ∀ v, pages sz ≤ v → m.leaf r v = none) :
    Runs (uvmfree r sz) m fun _ m' =>
      Own (R \ {r}) H m' ∧ SameLeaves (R \ {r}) m m' ∧ Kept H m m' := by
  unfold uvmfree
  split_ifs with hpos
  · rw [pgroundup_eq hsz, Nat.mul_div_cancel _ (by decide)]
    have hle : 0 + pages sz ≤ userPages := by
      rw [Nat.zero_add]
      exact pages_le hsz
    have hrun := h.uvmunmap_runs hr hle
    refine hrun.bind fun _ m₁ h1 => ?_
    obtain ⟨hown, hkept, hclears⟩ := h1
    refine (hown.freewalk_runs hr fun v => ?_).conseq fun _ m2 h2 => ?_
    · rw [hclears r hr v]
      split_ifs with hv
      · rfl
      · exact hleaf v (by omega)
    obtain ⟨hown2, hsame, hkept2⟩ := h2
    refine ⟨hown2, fun r' hr' v => ?_, hkept.trans hkept2⟩
    rw [hsame.leaves r' hr' v, hclears r' hr'.1 v, if_neg fun hv => hr'.2 hv.1]
  · obtain rfl : sz = 0 := by omega
    refine (h.freewalk_runs hr fun v => hleaf v ?_).conseq fun _ m2 h2 => ?_
    · exact Nat.zero_le v
    · exact ⟨h2.1, h2.2.1.leaves, h2.2.2⟩

end Own

end Phys

end Cinux
