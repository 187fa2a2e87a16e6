import Cinux.Vm.Space

/-!
# Page tables as finite maps

A page table is there to say, for every virtual page, which physical page it is and with which
flags.  Here `mappages` and `uvmunmap` are compared with the change they should make to this map,
for a tree of which only the following is known: each of its tables is reached by one path, and what
`kalloc` hands out is no table of it.

* `Phys.pageMap` : the map that `walk` computes;
* `Phys.Tabled.walk_runs` : `walk` adds tables, and the map stays;
* `Phys.Tabled.mappagesLoop_outcome` : the three ways in which the loop of `mappages` ends;
* `Phys.WellFormed.uvmunmapLoop_outcome` : the loop of `uvmunmap` takes its range out of the map.
-/

namespace Cinux

/-! ### Entries as words -/

/-- The flag of a valid entry. -/
def PTE_V : ℕ := 1 <<< 0

def PTE_R : ℕ := 1 <<< 1

def PTE_W : ℕ := 1 <<< 2

def PTE_X : ℕ := 1 <<< 3

def PTE_U : ℕ := 1 <<< 4

/-- `PA2PTE`: a physical address, shifted to its place in an entry. -/
def PA2PTE (pa : ℕ) : ℕ := pa >>> 12 <<< 10

/-- Flags as they are given to `mappages`. -/
def Perm.bits (p : Perm) : ℕ :=
  (if p.r then PTE_R else 0) ||| (if p.w then PTE_W else 0) ||| (if p.x then PTE_X else 0) |||
    if p.u then PTE_U else 0

theorem Pte.ofWord_PA2PTE (pa : ℕ) (perm : Perm) :
    Pte.ofWord (PA2PTE pa ||| perm.bits ||| PTE_V) = some ⟨pa / PGSIZE, perm⟩ := by
  have hsmall : perm.bits ||| PTE_V < 2 ^ 10 := by
    obtain ⟨r, w, x, u⟩ := perm
    cases r <;> cases w <;> cases x <;> cases u <;> decide
  have hword : PA2PTE pa ||| perm.bits ||| PTE_V =
      2 ^ 10 * (pa / PGSIZE) + (perm.bits ||| PTE_V) := by
    rw [Nat.or_assoc, PA2PTE, ← Nat.shiftLeft_add_eq_or_of_lt hsmall, Nat.shiftLeft_eq,
      Nat.shiftRight_eq_div_pow, Nat.mul_comm]
    rfl
  have hbit (j : ℕ) (hj : j < 10) :
      (2 ^ 10 * (pa / PGSIZE) + (perm.bits ||| PTE_V)).testBit j =
        (perm.bits ||| PTE_V).testBit j := by
    rw [Nat.testBit_two_pow_mul_add _ hsmall, if_pos hj]
  unfold Pte.ofWord
  rw [hword, hbit 0 (by decide), hbit 1 (by decide), hbit 2 (by decide), hbit 3 (by decide),
    hbit 4 (by decide), show (2 ^ 10 * (pa / PGSIZE) + (perm.bits ||| PTE_V)) / 2 ^ 10 =
      pa / PGSIZE by omega]
  obtain ⟨r, w, x, u⟩ := perm
  cases r <;> cases w <;> cases x <;> cases u <;> rfl

namespace Phys

open Program
open VmM

variable {m m' : Phys} {r d k q c i v va n : ℕ}

/-- Each table of the tree with root `r` is reached by one path. -/
def WellFormed (r : ℕ) (m : Phys) : Prop :=
  ∀ d d' k k' q, d ≤ 2 → d' ≤ 2 → m.table r d k = some q → m.table r d' k' = some q →
    d = d' ∧ k = k'

/-- What `kalloc` hands out is no table of the tree, and nothing is handed out twice. -/
structure Supply (r : ℕ) (m : Phys) : Prop where
  nodup : m.free.Nodup
  apart : ∀ q ∈ m.free, NotTable {r} m q

/-- The map from virtual pages to physical pages and flags that `walk` computes. -/
def pageMap (m : Phys) (r v : ℕ) : Option Pte :=
  match lookup r (v * PGSIZE) m with
  | .ok (e, _) => e
  | .error _ => none

/-- The map `M` with `n` pages from `v₀` on entered, with the physical pages from `pa` on. -/
def entered (M : ℕ → Option Pte) (v₀ n pa : ℕ) (perm : Perm) (v : ℕ) : Option Pte :=
  if v₀ ≤ v ∧ v < v₀ + n then some ⟨pa + (v - v₀), perm⟩ else M v

/-- The map `M` without the `n` pages from `v₀` on. -/
def removed (M : ℕ → Option Pte) (v₀ n v : ℕ) : Option Pte :=
  if v₀ ≤ v ∧ v < v₀ + n then none else M v

/-! ### The map and the tree -/

/-- A tree that `mappages` may work on. -/
structure Tabled (r : ℕ) (m : Phys) : Prop where
  wellFormed : WellFormed r m
  supply : Supply r m

/-- The tree is the same. -/
structure SameMap (r : ℕ) (m m' : Phys) : Prop where
  leaves : ∀ v, m'.leaf r v = m.leaf r v
  tables : ∀ d ≤ 2, ∀ k, m'.table r d k = m.table r d k

/-- Tables may have been added to the tree, and the entries for virtual pages are the same. -/
structure Extends (r : ℕ) (m m' : Phys) : Prop where
  leaves : ∀ v, m'.leaf r v = m.leaf r v
  tables : ∀ d ≤ 2, ∀ k q, m.table r d k = some q → m'.table r d k = some q

theorem Extends.refl (r : ℕ) (m : Phys) : Extends r m m := ⟨fun _ => rfl, fun _ _ _ _ h => h⟩

theorem SameMap.toExtends (h : SameMap r m m') : Extends r m m' :=
  ⟨h.leaves, fun d hd k _ ht => (h.tables d hd k).trans ht⟩

theorem SameMap.trans {m'' : Phys} (h : SameMap r m m') (h' : SameMap r m' m'') :
    SameMap r m m'' :=
  ⟨fun v => (h'.leaves v).trans (h.leaves v), fun d hd k => (h'.tables d hd k).trans
    (h.tables d hd k)⟩

theorem Extends.trans {m'' : Phys} (h : Extends r m m') (h' : Extends r m' m'') :
    Extends r m m'' :=
  ⟨fun v => (h'.leaves v).trans (h.leaves v),
    fun d hd k q ht => h'.tables d hd k q (h.tables d hd k q ht)⟩

theorem WellFormed.separate (h : WellFormed r m) : Separate {r} m := by
  rintro _ _ d d' k k' q rfl rfl hd hd' hq hq'
  exact ⟨rfl, h d d' k k' q hd hd' hq hq'⟩

theorem WellFormed.congr (h : WellFormed r m)
    (ht : ∀ d ≤ 2, ∀ k, m'.table r d k = m.table r d k) : WellFormed r m' := by
  intro d d' k k' q hd hd' hq hq'
  rw [ht d hd] at hq
  rw [ht d' hd'] at hq'
  exact h d d' k k' q hd hd' hq hq'

theorem notTable_congr (ht : ∀ d ≤ 2, ∀ k, m'.table r d k = m.table r d k)
    (h : NotTable {r} m q) : NotTable {r} m' q := by
  rintro r' rfl d hd k
  rw [ht d hd]
  exact h r' rfl d hd k

theorem entry_of_empty (h : ∀ i, m.pt r i = none) : m.entry r 0 k = none := by
  rw [entry, table]
  split_ifs
  · rw [Option.bind_some, h]
  · rfl

theorem tables_of_empty (h : ∀ i, m.pt r i = none) :
    WellFormed r m ∧ ∀ q, q ≠ r → NotTable {r} m q := by
  have hone (k : ℕ) : m.table r 1 k = none := by rw [table_succ, entry_of_empty h]; rfl
  have htwo (k : ℕ) : m.table r 2 k = none := by rw [table, hone]; rfl
  have htable {d k q : ℕ} (hd : d ≤ 2) (ht : m.table r d k = some q) : d = 0 ∧ k = 0 ∧ q = r := by
    obtain rfl | rfl | rfl : d = 0 ∨ d = 1 ∨ d = 2 := by omega
    · exact ⟨rfl, table_zero ht⟩
    · cases (hone k).symm.trans ht
    · cases (htwo k).symm.trans ht
  refine ⟨fun d d' k k' q hd hd' ht ht' => ?_, ?_⟩
  · obtain ⟨rfl, rfl, -⟩ := htable hd ht
    obtain ⟨rfl, rfl, -⟩ := htable hd' ht'
    exact ⟨rfl, rfl⟩
  · rintro q hne _ rfl d hd k ht
    exact hne (htable hd ht).2.2

theorem leaf_setPte (h : WellFormed r m) (hq : m.table r 2 (v / 512) = some q) (e : Option Pte)
    (v' : ℕ) : (m.setPte q (v % 512) e).leaf r v' = if v' = v then e else m.leaf r v' := by
  rw [leaf, entry_setPte h.separate rfl hq rfl le_rfl (Nat.mod_lt _ (by decide))]
  simp only [true_and, leaf, show v / 512 * 512 + v % 512 = v by omega]

theorem entered_succ {M M' : ℕ → Option Pte} {v0 pa : ℕ} {perm : Perm}
    (h : ∀ v, M' v = if v = v0 then some ⟨pa, perm⟩ else M v) (n v : ℕ) :
    entered M' (v0 + 1) n (pa + 1) perm v = entered M v0 (n + 1) pa perm v := by
  rw [entered, entered, h]
  by_cases hv : v = v0
  · rw [if_neg (by omega), if_pos hv, if_pos (by omega), hv, Nat.sub_self, Nat.add_zero]
  · by_cases hin : v0 + 1 ≤ v ∧ v < v0 + 1 + n
    · rw [if_pos hin, if_pos (by omega), show pa + 1 + (v - (v0 + 1)) = pa + (v - v0) by omega]
    · rw [if_neg hin, if_neg hv, if_neg (by omega)]

theorem removed_succ {M M' : ℕ → Option Pte} {v0 : ℕ}
    (h : ∀ v, M' v = if v = v0 then none else M v) (n v : ℕ) :
    removed M' (v0 + 1) n v = removed M v0 (n + 1) v := by
  rw [removed, removed, h]
  by_cases hv : v = v0
  · rw [if_neg (by omega), if_pos hv, if_pos (by omega)]
  · by_cases hin : v0 + 1 ≤ v ∧ v < v0 + 1 + n
    · rw [if_pos hin, if_pos (by omega)]
    · rw [if_neg hin, if_neg hv, if_neg (by omega)]

namespace Tabled

theorem outside (h : Tabled r m) (hc : NotTable {r} m c) (m' : Phys)
    (hpt : ∀ x, x ≠ c → m'.pt x = m.pt x) (hfree : m'.free.Sublist m.free) :
    Tabled r m' ∧ SameMap r m m' ∧ NotTable {r} m' c := by
  have hs : SameMap r m m' :=
    ⟨fun v => hc.entry hpt rfl le_rfl v, fun d hd k => hc.table hpt rfl hd k⟩
  refine ⟨⟨h.wellFormed.congr hs.tables, h.supply.nodup.sublist hfree, fun q hq => ?_⟩, hs,
    notTable_congr hs.tables hc⟩
  exact notTable_congr hs.tables (h.supply.apart q (hfree.subset hq))

theorem same_pt (h : Tabled r m) (m' : Phys) (hpt : m'.pt = m.pt) (hfree : m'.free = m.free) :
    Tabled r m' ∧ SameMap r m m' := by
  have hs : SameMap r m m' := ⟨fun v => entry_congr (fun _ _ _ _ _ => by rw [hpt]) le_rfl v,
      fun d hd k => table_congr (fun _ _ _ _ _ => by rw [hpt]) hd k⟩
  refine ⟨⟨h.wellFormed.congr hs.tables, hfree ▸ h.supply.nodup, fun q hq => ?_⟩, hs⟩
  exact notTable_congr hs.tables (h.supply.apart q (hfree ▸ hq))

/-- **`kalloc`**: the tree stays, and a new page is no table of it. -/
theorem kalloc_runs (h : Tabled r m) :
    Runs kalloc m fun o m' => Tabled r m' ∧ SameMap r m m' ∧
      ∀ c, o = some c → NotTable {r} m' c ∧ c ∉ m'.free := by
  unfold kalloc Runs
  dsimp only
  split_ifs with hluck
  · obtain ⟨h', hs⟩ := h.same_pt { m with luck := m.luck.tail } rfl rfl
    exact ⟨none, _, rfl, h', hs, nofun⟩
  · cases hfree : m.free with
    | nil =>
      obtain ⟨h', hs⟩ := h.same_pt { m with free := [], luck := m.luck.tail } rfl hfree.symm
      exact ⟨none, _, rfl, h', hs, nofun⟩
    | cons c f =>
      have hc : NotTable {r} m c := h.supply.apart c (hfree ▸ List.mem_cons_self)
      have hnd := h.supply.nodup
      rw [hfree, List.nodup_cons] at hnd
      obtain ⟨h', hs, hc'⟩ := h.outside hc { m.fill c 5 with free := f, luck := m.luck.tail }
        (fun x hx => Function.update_of_ne hx _ _) (hfree ▸ List.sublist_cons_self c f)
      refine ⟨some c, _, rfl, h', hs, ?_⟩
      rintro _ ⟨rfl⟩
      exact ⟨hc', hnd.1⟩

/-- An empty table is linked into the tree. -/
theorem link (h : Tabled r m) (hd : d < 2) (hq : m.table r d k = some q) (hi : i < 512)
    (hnone : m.entry r d (k * 512 + i) = none) (hc : NotTable {r} m c) (hfree : c ∉ m.free)
    (hempty : ∀ j, m.pt c j = none) :
    Tabled r (m.setPte q i (some ⟨c, .none⟩)) ∧ Extends r m (m.setPte q i (some ⟨c, .none⟩)) ∧
      (m.setPte q i (some ⟨c, .none⟩)).table r (d + 1) (k * 512 + i) = some c := by
  have hlink {d' : ℕ} (hd' : d' ≤ 2) (k' : ℕ) :=
    Phys.link h.wellFormed.separate rfl hd hq hi hnone hc hempty (Set.mem_singleton r) hd' k'
  simp only [true_and] at hlink
  refine ⟨⟨?_, h.supply.nodup, ?_⟩, ⟨fun v => ?_, fun d' hd' k' p ht => ?_⟩, ?_⟩
  · -- the new table is in its new place only
    intro d1 d2 k1 k2 p hd1 hd2 h1 h2
    rw [(hlink hd1 k1).1] at h1
    rw [(hlink hd2 k2).1] at h2
    split_ifs at h1 h2 with hn1 hn2 hn2
    · exact ⟨hn1.1.trans hn2.1.symm, hn1.2.trans hn2.2.symm⟩
    · exact absurd (h2.trans h1.symm) (hc _ rfl d2 hd2 k2)
    · exact absurd (h1.trans h2.symm) (hc _ rfl d1 hd1 k1)
    · exact h.wellFormed d1 d2 k1 k2 p hd1 hd2 h1 h2
  · rintro p hp r' rfl d' hd' k' ht
    rw [(hlink hd' k').1] at ht
    split_ifs at ht
    · exact hfree (Option.some.inj ht ▸ hp)
    · exact h.supply.apart p hp _ rfl d' hd' k' ht
  · rw [leaf, (hlink le_rfl v).2, if_neg (by omega)]
    rfl
  · rw [(hlink hd' k').1, if_neg, ht]
    rintro ⟨rfl, rfl⟩
    rw [table_succ, hnone] at ht
    cases ht
  · rw [(hlink (by omega) _).1, if_pos ⟨rfl, rfl⟩]

/-- **A round of `walk`.** -/
theorem walkLevel_runs (h : Tabled r m) (hd : d < 2) (hq : m.table r d k = some q) (hi : i < 512) :
    Runs (walkLevel true q i) m fun o m' => Tabled r m' ∧ Extends r m m' ∧
      ((o = none ∧ m.entry r d (k * 512 + i) = none) ∨
        ∃ c, o = some c ∧ m'.table r (d + 1) (k * 512 + i) = some c) := by
  have hentry : m.entry r d (k * 512 + i) = m.pt q i := entry_of_table hq hi
  refine .step rfl ?_
  cases he : m.pt q i with
  | some e =>
    refine .pure ⟨h, .refl r m, .inr ⟨e.page, rfl, ?_⟩⟩
    rw [table_succ, hentry, he]
    rfl
  | none =>
    rw [he] at hentry
    refine h.kalloc_runs.bind fun o m1 ho => ?_
    obtain ⟨h1, hs1, hnew⟩ := ho
    cases o with
    | none => exact .pure ⟨h1, hs1.toExtends, .inl ⟨rfl, hentry⟩⟩
    | some c =>
      obtain ⟨hc1, hfree⟩ := hnew c rfl
      obtain ⟨h2, hs2, hc2⟩ := h1.outside hc1 (m1.fill c 0)
        (fun x hx => Function.update_of_ne hx _ _) (List.Sublist.refl _)
      have hs := hs1.trans hs2
      have hempty : ∀ j, (m1.fill c 0).pt c j = none := by simp [fill, Pte.ofWord]
      have hq2 : (m1.fill c 0).table r d k = some q := (hs.tables d (by omega) k).trans hq
      -- the entry is still empty: no table has got a child at its place
      have hnone : (m1.fill c 0).entry r d (k * 512 + i) = none := by
        have := hs.tables (d + 1) (by omega) (k * 512 + i)
        rw [table_succ, table_succ, hentry] at this
        exact Option.map_eq_none_iff.1 this
      obtain ⟨h3, hext, htable⟩ := h2.link hd hq2 hi hnone hc2 hfree hempty
      refine .step (show VmM.clear c m1 = .ok ((), m1.fill c 0) from rfl) (.step rfl
        (.pure ⟨h3, hs.toExtends.trans hext, .inr ⟨c, rfl, htable⟩⟩))

/-- **`walk`** adds tables, and the map stays.  It fails only where there is no entry. -/
theorem walk_runs (h : Tabled r m) (hva : va < MAXVA) :
    Runs (walk r va true) m fun o m' => Tabled r m' ∧ Extends r m m' ∧
      ((o = none ∧ m.leaf r (va / PGSIZE) = none) ∨
        ∃ q, o = some (q, va / PGSIZE % 512) ∧ m'.table r 2 (va / PGSIZE / 512) = some q) := by
  have hsmall : va / PGSIZE < 2 ^ 26 := by
    simp only [MAXVA, PGSIZE] at *
    omega
  unfold walk
  rw [if_neg (by omega), PX_two hva, PX_one, PX_zero]
  refine (h.walkLevel_runs (by omega) (table_root m r)
    (by omega)).bind fun o m1 ho => ?_
  rw [Nat.zero_mul, Nat.zero_add] at ho
  obtain ⟨h1, hext1, ⟨rfl, hnone⟩ | ⟨q, rfl, hq⟩⟩ := ho
  · exact .pure ⟨h1, hext1, .inl ⟨rfl, leaf_of_entry_none (by omega) hnone⟩⟩
  refine (h1.walkLevel_runs (by omega) hq (by omega)).bind
    fun o m2 ho => ?_
  rw [show va / PGSIZE / 512 ^ 2 * 512 + va / PGSIZE / 512 % 512 = va / PGSIZE / 512 by omega] at ho
  obtain ⟨h2, hext2, ⟨rfl, hnone⟩ | ⟨q', rfl, hq'⟩⟩ := ho
  · refine .pure ⟨h2, hext1.trans hext2, .inl ⟨rfl, ?_⟩⟩
    rw [← hext1.leaves]
    exact leaf_of_entry_none (by omega) hnone
  · exact .pure ⟨h2, hext1.trans hext2, .inr ⟨q', rfl, hq'⟩⟩

theorem setLeaf (h : Tabled r m) (hq : m.table r 2 (v / 512) = some q) (e : Option Pte) :
    Tabled r (m.setPte q (v % 512) e) ∧
      ∀ v', (m.setPte q (v % 512) e).leaf r v' = if v' = v then e else m.leaf r v' := by
  have ht : ∀ d ≤ 2, ∀ k, (m.setPte q (v % 512) e).table r d k = m.table r d k :=
    fun d hd k => table_setPte h.wellFormed.separate rfl hq rfl hd k
  refine ⟨⟨h.wellFormed.congr ht, h.supply.nodup, fun p hp => ?_⟩, leaf_setPte h.wellFormed hq e⟩
  exact notTable_congr ht (h.supply.apart p hp)

/-! ### The loop of `mappages` -/

/-- **A round of `mappages`**: there is no table for the page, or the page is in the map, or it is
entered. -/
theorem mappagesLoop_step (h : Tabled r m) (perm : Perm) (va pa : ℕ) (hva : va < MAXVA) :
    (m.leaf r (va / PGSIZE) = none ∧ ∃ m', Tabled r m' ∧ (∀ v, m'.leaf r v = m.leaf r v) ∧
      ∀ n, mappagesLoop r perm (n + 1) va pa m = .ok (false, m')) ∨
    (m.leaf r (va / PGSIZE) ≠ none ∧
      ∀ n, mappagesLoop r perm (n + 1) va pa m = .error (.panic "mappages: remap")) ∨
    (m.leaf r (va / PGSIZE) = none ∧ ∃ m', Tabled r m' ∧
      (∀ v, m'.leaf r v = if v = va / PGSIZE then some ⟨pa, perm⟩ else m.leaf r v) ∧
      ∀ n, mappagesLoop r perm (n + 1) va pa m =
        mappagesLoop r perm n (va + PGSIZE) (pa + 1) m') := by
  obtain ⟨o, m1, hwalk, h1, hext, ⟨rfl, hnone⟩ | ⟨q, rfl, hq⟩⟩ := h.walk_runs hva
  · refine .inl ⟨hnone, m1, h1, hext.leaves, fun n => ?_⟩
    rw [mappagesLoop, bind_ok hwalk]
    rfl
  have hpte := pte_leaf hq
  rw [hext.leaves] at hpte
  cases he : m.leaf r (va / PGSIZE) with
  | some e =>
    refine .inr (.inl ⟨Option.some_ne_none e, fun n => ?_⟩)
    rw [he] at hpte
    rw [mappagesLoop, bind_ok hwalk]
    exact bind_ok hpte
  | none =>
    obtain ⟨h2, hset⟩ := h1.setLeaf hq (some ⟨pa, perm⟩)
    refine .inr (.inr ⟨rfl, _, h2, fun v => ?_, fun n => ?_⟩)
    · rw [hset, hext.leaves]
    · rw [he] at hpte
      rw [mappagesLoop, bind_ok hwalk]
      exact bind_ok hpte

/-- **The loop of `mappages`** enters all its pages, or those before the first one for which there
is no table, or it stops at the first one that is in the map already. -/
theorem mappagesLoop_outcome (h : Tabled r m) (perm : Perm) (n va pa : ℕ)
    (hend : va / PGSIZE + n ≤ MAXVA / PGSIZE) :
    (∃ m', mappagesLoop r perm n va pa m = .ok (true, m') ∧ Tabled r m' ∧
      ∀ v, m'.leaf r v = entered (m.leaf r) (va / PGSIZE) n pa perm v) ∨
    (∃ m', mappagesLoop r perm n va pa m = .ok (false, m') ∧ Tabled r m' ∧
      ∃ k < n, ∀ v, m'.leaf r v = entered (m.leaf r) (va / PGSIZE) k pa perm v) ∨
    (mappagesLoop r perm n va pa m = .error (.panic "mappages: remap") ∧
      ∃ k < n, m.leaf r (va / PGSIZE + k) ≠ none ∧
        ∃ m', mappagesLoop r perm k va pa m = .ok (true, m')) := by
  induction n generalizing m va pa with
  | zero =>
    refine .inl ⟨m, rfl, h, fun v => ?_⟩
    rw [entered, if_neg (by omega)]
  | succ n ih =>
    have hnext : (va + PGSIZE) / PGSIZE = va / PGSIZE + 1 := Nat.add_div_right _ (by decide)
    have hva : va < MAXVA := by
      simp only [MAXVA, PGSIZE] at *
      omega
    rcases h.mappagesLoop_step perm va pa hva with
      ⟨-, m1, h1, hleaves, hrun⟩ | ⟨hne, hrun⟩ | ⟨-, m1, h1, hset, hrun⟩
    · refine .inr (.inl ⟨m1, hrun n, h1, 0, by omega, fun v => ?_⟩)
      rw [hleaves, entered, if_neg (by omega)]
    · exact .inr (.inr ⟨hrun n, 0, by omega, hne, m, rfl⟩)
    · -- the first page is entered, and the rest of the loop does the others
      have hrest := ih h1 (va + PGSIZE) (pa + 1) (by omega)
      rw [hnext, ← hrun] at hrest
      rcases hrest with ⟨m', hr, h', hm'⟩ | ⟨m', hr, h', k, hk, hm'⟩ | ⟨hr, k, hk, hne, m', hk'⟩
      · exact .inl ⟨m', hr, h', fun v => (hm' v).trans (entered_succ hset n v)⟩
      · exact .inr (.inl ⟨m', hr, h', k + 1, by omega,
          fun v => (hm' v).trans (entered_succ hset k v)⟩)
      · refine .inr (.inr ⟨hr, k + 1, by omega, ?_, m', (hrun k).trans hk'⟩)
        rw [hset, if_neg (by omega)] at hne
        rwa [show va / PGSIZE + (k + 1) = va / PGSIZE + 1 + k by omega]

/-- A page that the loop comes to and that is in the map stops it. -/
theorem mappagesLoop_remap (h : Tabled r m) (perm : Perm) {k n : ℕ} (va pa : ℕ)
    (hend : va / PGSIZE + n ≤ MAXVA / PGSIZE) (hk : k < n) (hne : m.leaf r (va / PGSIZE + k) ≠ none)
    (hrun : mappagesLoop r perm k va pa m = .ok (true, m')) :
    mappagesLoop r perm n va pa m = .error (.panic "mappages: remap") := by
  induction k generalizing m va pa n with
  | zero =>
    obtain ⟨n, rfl⟩ : ∃ n', n = n' + 1 := ⟨n - 1, by omega⟩
    have hva : va < MAXVA := by
      simp only [MAXVA, PGSIZE] at *
      omega
    rcases h.mappagesLoop_step perm va pa hva with ⟨hnone, -⟩ | ⟨-, hstop⟩ | ⟨hnone, -⟩
    · exact absurd hnone hne
    · exact hstop n
    · exact absurd hnone hne
  | succ k ih =>
    obtain ⟨n, rfl⟩ : ∃ n', n = n' + 1 := ⟨n - 1, by omega⟩
    have hnext : (va + PGSIZE) / PGSIZE = va / PGSIZE + 1 := Nat.add_div_right _ (by decide)
    have hva : va < MAXVA := by
      simp only [MAXVA, PGSIZE] at *
      omega
    rcases h.mappagesLoop_step perm va pa hva with
      ⟨-, m1, -, -, hfail⟩ | ⟨-, hstop⟩ | ⟨-, m1, h1, hset, hloop⟩
    · cases (hfail k).symm.trans hrun
    · cases (hstop k).symm.trans hrun
    · rw [hloop] at hrun ⊢
      refine ih h1 (va + PGSIZE) (pa + 1) (by omega) (by omega) ?_ hrun
      rw [hnext, hset, if_neg (by omega), show va / PGSIZE + 1 + k = va / PGSIZE + (k + 1) by omega]
      exact hne

end Tabled

/-! ### The loop of `uvmunmap` -/

/-- The page `v` has left the map, and nothing else has changed. -/
structure Drops (r v : ℕ) (m m' : Phys) : Prop where
  kend : m'.kend = m.kend
  tables : ∀ d ≤ 2, ∀ k, m'.table r d k = m.table r d k
  leaves : ∀ v', m'.leaf r v' = if v' = v then none else m.leaf r v'

theorem Drops.of_none (h : m.leaf r v = none) : Drops r v m m := by
  refine ⟨rfl, fun _ _ _ => rfl, fun v' => ?_⟩
  split_ifs with hv
  · rw [hv, h]
  · rfl

theorem WellFormed.drops (h : WellFormed r m) (hq : m.table r 2 (v / 512) = some q) :
    Drops r v m (m.setPte q (v % 512) none) :=
  ⟨rfl, fun _ hd k => table_setPte h.separate rfl hq rfl hd k, leaf_setPte h hq none⟩

theorem WellFormed.drops_fill (h : WellFormed r m) (hq : m.table r 2 (v / 512) = some q)
    (hc : NotTable {r} m c) (hpt : ∀ x, x ≠ c → m'.pt x = m.pt x) (hkend : m'.kend = m.kend) :
    Drops r v m (m'.setPte q (v % 512) none) := by
  have ht : ∀ d ≤ 2, ∀ k, m'.table r d k = m.table r d k := fun d hd k => hc.table hpt rfl hd k
  have hdrop := (h.congr ht).drops ((ht 2 le_rfl _).trans hq)
  refine ⟨hkend, fun d hd k => (hdrop.tables d hd k).trans (ht d hd k), fun v' => ?_⟩
  rw [hdrop.leaves, leaf, hc.entry hpt rfl le_rfl]
  rfl

/-- **A round of `uvmunmap`**: the page leaves the map, unless `kfree` does not accept it. -/
theorem WellFormed.unmapPage_step (h : WellFormed r m) (hva : va < MAXVA) {doFree : Bool}
    (hfree : doFree = true → ∀ e, m.leaf r (va / PGSIZE) = some e → NotTable {r} m e.page) :
    ((doFree = true → ∀ e, m.leaf r (va / PGSIZE) = some e → m.Managed e.page) ∧
      ∃ m', unmapPage r va doFree m = .ok ((), m') ∧ Drops r (va / PGSIZE) m m') ∨
    (doFree = true ∧ (∃ e, m.leaf r (va / PGSIZE) = some e ∧ ¬m.Managed e.page) ∧
      unmapPage r va doFree m = .error (.panic "kfree")) := by
  obtain ⟨o, hwalk, ⟨rfl, hnone⟩ | ⟨q, rfl, hq⟩⟩ := walk_false m r hva
  · rw [hnone]
    refine .inl ⟨by simp, m, ?_, .of_none hnone⟩
    unfold unmapPage
    rw [bind_ok hwalk]
    rfl
  have hpte := pte_leaf hq
  cases he : m.leaf r (va / PGSIZE) with
  | none =>
    refine .inl ⟨by simp, m, ?_, .of_none he⟩
    unfold unmapPage
    rw [bind_ok hwalk]
    exact bind_ok (he ▸ hpte)
  | some e =>
    have hrun : unmapPage r va doFree m = (do
        if doFree then kfree e.page else pure ()
        VmM.setPte q (va / PGSIZE % 512) none : VmM Unit) m := by
      unfold unmapPage
      rw [bind_ok hwalk]
      exact bind_ok (he ▸ hpte)
    rw [hrun]
    cases doFree with
    | false => exact .inl ⟨by simp, _, rfl, h.drops hq⟩
    | true =>
      by_cases hman : m.Managed e.page
      · refine .inl ⟨?_, _, bind_ok (kfree_of_managed hman), h.drops_fill hq (hfree rfl e he)
          (fun x hx => Function.update_of_ne hx _ _) rfl⟩
        rintro - _ ⟨rfl⟩
        exact hman
      · exact .inr ⟨rfl, ⟨e, rfl, hman⟩, bind_error (kfree_of_not_managed hman)⟩

/-- `kfree` accepts the pages of the range. -/
def Accepted (r v₀ n : ℕ) (m : Phys) : Prop :=
  ∀ v, v₀ ≤ v → v < v₀ + n → ∀ e, m.leaf r v = some e → m.Managed e.page

theorem accepted_succ {v0 : ℕ} : Accepted r v0 (n + 1) m ↔
    (∀ e, m.leaf r v0 = some e → m.Managed e.page) ∧ Accepted r (v0 + 1) n m := by
  constructor
  · exact fun h => ⟨h v0 le_rfl (by omega), fun v h1 h2 => h v (by omega) (by omega)⟩
  · rintro ⟨hfirst, hrest⟩ v h1 h2
    rcases Nat.eq_or_lt_of_le h1 with rfl | hlt
    · exact hfirst
    · exact hrest v hlt (by omega)

theorem Drops.accepted_iff (h : Drops r v m m') :
    Accepted r (v + 1) n m' ↔ Accepted r (v + 1) n m := by
  refine forall_congr' fun v' => forall_congr' fun hv => ?_
  rw [h.leaves, if_neg (by omega)]
  simp only [Managed, h.kend]

/-- **The loop of `uvmunmap`** takes its range out of the map, unless `kfree` does not accept a page
of it. -/
theorem WellFormed.uvmunmapLoop_outcome (h : WellFormed r m) (doFree : Bool) (n va : ℕ)
    (hend : va / PGSIZE + n ≤ MAXVA / PGSIZE)
    (hfree : doFree = true → ∀ v, va / PGSIZE ≤ v → v < va / PGSIZE + n →
      ∀ e, m.leaf r v = some e → NotTable {r} m e.page) :
    ((doFree = true → Accepted r (va / PGSIZE) n m) ∧
      ∃ m', uvmunmapLoop r doFree n va m = .ok ((), m') ∧ WellFormed r m' ∧
        ∀ v, m'.leaf r v = removed (m.leaf r) (va / PGSIZE) n v) ∨
    (doFree = true ∧ ¬Accepted r (va / PGSIZE) n m ∧
      uvmunmapLoop r doFree n va m = .error (.panic "kfree")) := by
  induction n generalizing m va with
  | zero =>
    refine .inl ⟨fun _ v h1 h2 => by omega, m, rfl, h, fun v => ?_⟩
    rw [removed, if_neg (by omega)]
  | succ n ih =>
    have hnext : (va + PGSIZE) / PGSIZE = va / PGSIZE + 1 := Nat.add_div_right _ (by decide)
    have hva : va < MAXVA := by
      simp only [MAXVA, PGSIZE] at *
      omega
    rw [accepted_succ]
    rcases h.unmapPage_step hva fun hd => hfree hd _ le_rfl (by omega) with
      ⟨hacc, m1, hrun, hdrop⟩ | ⟨rfl, ⟨e, he, hman⟩, hrun⟩
    · have hrest := ih (h.congr hdrop.tables) (va + PGSIZE) (by omega) fun hd v hv1 hv2 e he => by
        rw [hdrop.leaves, if_neg (by omega)] at he
        exact notTable_congr hdrop.tables (hfree hd v (by omega) (by omega) e he)
      have hloop : uvmunmapLoop r doFree (n + 1) va m =
          uvmunmapLoop r doFree n (va + PGSIZE) m1 := bind_ok hrun
      rw [hnext, hdrop.accepted_iff, ← hloop] at hrest
      rcases hrest with ⟨hacc', m', hrun', h', hm'⟩ | ⟨rfl, hacc', hrun'⟩
      · exact .inl ⟨fun hd => ⟨hacc hd, hacc' hd⟩, m', hrun', h',
          fun v => (hm' v).trans (removed_succ hdrop.leaves n v)⟩
      · exact .inr ⟨rfl, fun hall => hacc' hall.2, hrun'⟩
    · exact .inr ⟨rfl, fun hall => hman (hall.1 e he), bind_error hrun⟩

/-! ### The map -/

theorem pageMap_eq (m : Phys) (r : ℕ) (hv : v < MAXVA / PGSIZE) : m.pageMap r v = m.leaf r v := by
  have hva : v * PGSIZE < MAXVA := by
    simp only [MAXVA, PGSIZE] at *
    omega
  rw [pageMap, lookup_eq m r hva, Nat.mul_div_cancel _ (by decide)]

theorem pageMap_of_le (m : Phys) (r : ℕ) (hv : MAXVA / PGSIZE ≤ v) : m.pageMap r v = none := by
  have hva : MAXVA ≤ v * PGSIZE := by
    simp only [MAXVA, PGSIZE] at *
    omega
  have hstop : lookup r (v * PGSIZE) m = .error (.panic "walk") := by
    unfold lookup walk
    rw [if_pos hva]
    exact bind_error rfl
  rw [pageMap, hstop]

theorem pageMap_entered {v0 pa : ℕ} {perm : Perm} (hend : v0 + n ≤ MAXVA / PGSIZE)
    (h : ∀ v, m'.leaf r v = entered (m.leaf r) v0 n pa perm v) :
    m'.pageMap r = entered (m.pageMap r) v0 n pa perm := by
  funext v
  rcases Nat.lt_or_ge v (MAXVA / PGSIZE) with hv | hv
  · rw [pageMap_eq m' r hv, h, entered, entered, pageMap_eq m r hv]
  · rw [pageMap_of_le m' r hv, entered, if_neg (by omega), pageMap_of_le m r hv]

theorem pageMap_removed {v0 : ℕ} (h : ∀ v, m'.leaf r v = removed (m.leaf r) v0 n v) :
    m'.pageMap r = removed (m.pageMap r) v0 n := by
  funext v
  rcases Nat.lt_or_ge v (MAXVA / PGSIZE) with hv | hv
  · rw [pageMap_eq m' r hv, h, removed, removed, pageMap_eq m r hv]
  · rw [pageMap_of_le m' r hv, removed, pageMap_of_le m r hv, ite_self]

/-- What `mappages` does to the map, by the way it ends. -/
structure MapsPages (r va size pa : ℕ) (perm : Perm) (m : Phys) : Prop where
  /-- 0: the pages are entered. -/
  zero : ∀ m', mappages r va size (pa / PGSIZE) perm m = .ok (true, m') →
    WellFormed r m' ∧ Supply r m' ∧
      m'.pageMap r = entered (m.pageMap r) (va / PGSIZE) (size / PGSIZE) (pa / PGSIZE) perm
  /-- -1: the first ones are entered. -/
  minusOne : ∀ m', mappages r va size (pa / PGSIZE) perm m = .ok (false, m') →
    WellFormed r m' ∧ Supply r m' ∧ ∃ k < size / PGSIZE,
      m'.pageMap r = entered (m.pageMap r) (va / PGSIZE) k (pa / PGSIZE) perm
  /-- There is one reason to stop, -/
  stops : ∀ e, mappages r va size (pa / PGSIZE) perm m = .error e → e = .panic "mappages: remap"
  /-- which is that the loop comes to a page that is in the map. -/
  remap : mappages r va size (pa / PGSIZE) perm m = .error (.panic "mappages: remap") ↔
    ∃ k < size / PGSIZE, (∃ m', mappagesLoop r perm k va (pa / PGSIZE) m = .ok (true, m')) ∧
      m.pageMap r (va / PGSIZE + k) ≠ none
  /-- An entry is what the word that is stored for it says. -/
  word : ∀ k, Pte.ofWord (PA2PTE (pa + k * PGSIZE) ||| perm.bits ||| PTE_V) =
    some ⟨pa / PGSIZE + k, perm⟩

/-- What `uvmunmap` does to the map: it returns unless `kfree` stops it. -/
structure UnmapsPages (r va n : ℕ) (doFree : Bool) (m : Phys) : Prop where
  returns : (∃ m', uvmunmap r va n doFree m = .ok ((), m')) ↔
    (doFree = true → ∀ v, va / PGSIZE ≤ v → v < va / PGSIZE + n → ∀ e, m.pageMap r v = some e →
      m.Managed e.page)
  stops : ∀ e, uvmunmap r va n doFree m = .error e → e = .panic "kfree"
  gone : ∀ m', uvmunmap r va n doFree m = .ok ((), m') →
    WellFormed r m' ∧ m'.pageMap r = removed (m.pageMap r) (va / PGSIZE) n

theorem Tabled.mapsPages (h : Tabled r m) {va size pa : ℕ} (perm : Perm) (hva : va % PGSIZE = 0)
    (hsize : size % PGSIZE = 0) (hpos : 0 < size) (hend : va + size ≤ MAXVA) :
    MapsPages r va size pa perm m := by
  have hloop : mappages r va size (pa / PGSIZE) perm m =
      mappagesLoop r perm (size / PGSIZE) va (pa / PGSIZE) m := by
    unfold mappages
    rw [if_neg (not_not.2 hva), if_neg (not_not.2 hsize), if_neg (by omega)]
  have hmax : va / PGSIZE + size / PGSIZE ≤ MAXVA / PGSIZE := by
    simp only [MAXVA, PGSIZE] at *
    omega
  have hout := h.mappagesLoop_outcome perm (size / PGSIZE) va (pa / PGSIZE) hmax
  rw [← hloop] at hout
  refine ⟨fun m' hrun => ?_, fun m' hrun => ?_, fun e hrun => ?_, ⟨fun hrun => ?_, ?_⟩, fun k => ?_⟩
  · rcases hout with ⟨m1, h1, ht, hm⟩ | ⟨m1, h1, -⟩ | ⟨h1, -⟩
    · obtain ⟨-, rfl⟩ := ok_inj (h1.symm.trans hrun)
      exact ⟨ht.wellFormed, ht.supply, pageMap_entered hmax hm⟩
    all_goals cases h1.symm.trans hrun
  · rcases hout with ⟨m1, h1, -⟩ | ⟨m1, h1, ht, k, hk, hm⟩ | ⟨h1, -⟩
    · cases h1.symm.trans hrun
    · obtain ⟨-, rfl⟩ := ok_inj (h1.symm.trans hrun)
      exact ⟨ht.wellFormed, ht.supply, k, hk, pageMap_entered (by omega) hm⟩
    · cases h1.symm.trans hrun
  · rcases hout with ⟨m1, h1, -⟩ | ⟨m1, h1, -⟩ | ⟨h1, -⟩
    · cases h1.symm.trans hrun
    · cases h1.symm.trans hrun
    · exact (Except.error.inj (h1.symm.trans hrun)).symm
  · rcases hout with ⟨m1, h1, -⟩ | ⟨m1, h1, -⟩ | ⟨-, k, hk, hne, hpre⟩
    · cases h1.symm.trans hrun
    · cases h1.symm.trans hrun
    · exact ⟨k, hk, hpre, by rwa [pageMap_eq m r (by omega)]⟩
  · rintro ⟨k, hk, ⟨m', hpre⟩, hne⟩
    rw [pageMap_eq m r (by omega)] at hne
    exact hloop.trans (h.mappagesLoop_remap perm va _ hmax hk hne hpre)
  · rw [Pte.ofWord_PA2PTE, Nat.add_mul_div_right _ _ (by decide)]

theorem WellFormed.unmapsPages (h : WellFormed r m) {va n : ℕ} {doFree : Bool}
    (hva : va % PGSIZE = 0) (hend : va + n * PGSIZE ≤ MAXVA)
    (hfree : doFree = true → ∀ v, va / PGSIZE ≤ v → v < va / PGSIZE + n →
      ∀ e, m.pageMap r v = some e → NotTable {r} m e.page) :
    UnmapsPages r va n doFree m := by
  have hloop : uvmunmap r va n doFree m = uvmunmapLoop r doFree n va m := by
    unfold uvmunmap
    rw [if_neg (not_not.2 hva)]
  have hmax : va / PGSIZE + n ≤ MAXVA / PGSIZE := by
    simp only [MAXVA, PGSIZE] at *
    omega
  have hmap {v : ℕ} (hv : v < va / PGSIZE + n) : m.pageMap r v = m.leaf r v :=
    pageMap_eq m r (by omega)
  have hout := h.uvmunmapLoop_outcome doFree n va hmax fun hd v hv1 hv2 e he =>
    hfree hd v hv1 hv2 e ((hmap hv2).trans he)
  rw [← hloop] at hout
  refine ⟨⟨?_, fun hacc => ?_⟩, fun e hrun => ?_, fun m' hrun => ?_⟩
  · rintro ⟨m', hrun⟩ hd v hv1 hv2 e he
    rcases hout with ⟨hacc, -⟩ | ⟨-, -, h1⟩
    · exact hacc hd v hv1 hv2 e ((hmap hv2).symm.trans he)
    · cases h1.symm.trans hrun
  · rcases hout with ⟨-, m', hrun, -⟩ | ⟨hd, hnot, -⟩
    · exact ⟨m', hrun⟩
    · exact absurd (fun v hv1 hv2 e he => hacc hd v hv1 hv2 e ((hmap hv2).trans he)) hnot
  · rcases hout with ⟨-, m', h1, -⟩ | ⟨-, -, h1⟩
    · cases h1.symm.trans hrun
    · exact (Except.error.inj (h1.symm.trans hrun)).symm
  · rcases hout with ⟨-, m1, h1, hwf, hm⟩ | ⟨-, -, h1⟩
    · obtain ⟨-, rfl⟩ := ok_inj (h1.symm.trans hrun)
      exact ⟨hwf, pageMap_removed hm⟩
    · cases h1.symm.trans hrun

/-- **The operations on page tables are operations on a finite map.**  On a tree each of whose
tables is reached by one path, `mappages` and `uvmunmap` change the map that `walk` computes in
their range only, as they should, and each table is still reached by one path. -/
theorem pagetable_refines_map (r : ℕ) (m : Phys) (hwf : WellFormed r m) :
    (Supply r m → ∀ va size pa perm, va % PGSIZE = 0 → size % PGSIZE = 0 → 0 < size →
      va + size ≤ MAXVA → MapsPages r va size pa perm m) ∧
    ∀ va n doFree, va % PGSIZE = 0 → va + n * PGSIZE ≤ MAXVA →
      (doFree = true → ∀ v, va / PGSIZE ≤ v → v < va / PGSIZE + n →
        ∀ e, m.pageMap r v = some e → NotTable {r} m e.page) →
      UnmapsPages r va n doFree m :=
  ⟨fun hsup _ _ _ perm hva hsize hpos hend =>
      (Tabled.mk hwf hsup).mapsPages perm hva hsize hpos hend,
    fun _ _ _ hva hend hfree => hwf.unmapsPages hva hend hfree⟩

/-- A memory with an empty page table and two free pages. -/
def newTable : Phys where
  free := [0x80102, 0x80103]
  pt := fun _ _ => none
  data := fun _ _ => 0
  luck := []
  kend := 0x80100

/-- Three pages are mapped; then a fourth one is added, and two of the three are taken out. -/
theorem pagetable_refines_map_mapped : ∃ m : Phys, m.pageMap 0x80101 3 =
      some ⟨0x80106, ⟨true, true, false, true⟩⟩ ∧
    MapsPages 0x80101 (4 * PGSIZE) PGSIZE 0x80107000 ⟨true, false, true, true⟩ m ∧
    UnmapsPages 0x80101 PGSIZE 2 false m := by
  obtain ⟨hwf, hnot⟩ := tables_of_empty (fun _ => rfl : ∀ i, newTable.pt 0x80101 i = none)
  have hsup : Supply 0x80101 newTable := by
    refine ⟨by decide, fun q hq => hnot q ?_⟩
    rintro rfl
    exact absurd hq (by decide)
  obtain ⟨m, hrun⟩ : ∃ m, mappages 0x80101 PGSIZE (3 * PGSIZE) 0x80104 ⟨true, true, false, true⟩
      newTable = .ok (true, m) := ⟨_, rfl⟩
  have hmaps := (pagetable_refines_map 0x80101 newTable hwf).1 hsup PGSIZE (3 * PGSIZE) 0x80104000
    ⟨true, true, false, true⟩ (by decide) (by decide) (by decide) (by decide)
  obtain ⟨hwf', hsup', hmap⟩ := hmaps.zero m hrun
  have h := pagetable_refines_map 0x80101 m hwf'
  refine ⟨m, by rw [hmap]; rfl, h.1 hsup' _ _ _ _ ?_ ?_ ?_ ?_, h.2 _ _ _ ?_ ?_ (by simp)⟩ <;> decide

end Phys

end Cinux
