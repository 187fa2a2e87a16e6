import Cinux.Vm.Memory
import Mathlib.Data.Set.Insert

/-!
# Page tables as trees

A page table is a tree of three levels with 512 entries in each table.  Its tables are numbered by
level: table `k` of depth `d + 1` is the one that entry `k` of depth `d` leads to, and entry `k` is
entry `k % 512` of table `k / 512`.  At depth 2 the number of an entry is the number of the virtual
page it is for.

* `Phys.table`, `Phys.entry`, `Phys.leaf` : the tree with root `r` as it stands in memory.
* `Phys.table_congr` : a tree depends on its own pages only.
* `Phys.entry_setPte`, `Phys.entry_link` : what an assignment to an entry does to all trees, if no
  table is in two places.
-/

namespace Cinux

open Option

namespace Phys

/-- Table `k` of depth `d` of the tree with root `r`. -/
def table (m : Phys) (r : ℕ) : ℕ → ℕ → Option ℕ
  | 0, k => if k = 0 then some r else none
  | d + 1, k => (m.table r d (k / 512)).bind fun q => (m.pt q (k % 512)).map Pte.page

/-- Entry `k` of depth `d`. -/
def entry (m : Phys) (r d k : ℕ) : Option Pte :=
  (m.table r d (k / 512)).bind fun q => m.pt q (k % 512)

/-- The entry for virtual page `v`. -/
def leaf (m : Phys) (r v : ℕ) : Option Pte := m.entry r 2 v

/-- No table of the trees with roots in `R` is in two places. -/
def Separate (R : Set ℕ) (m : Phys) : Prop :=
  ∀ {r r' d d' k k' q}, r ∈ R → r' ∈ R → d ≤ 2 → d' ≤ 2 → m.table r d k = some q →
    m.table r' d' k' = some q → r = r' ∧ d = d' ∧ k = k'

/-- Page `q` is not a table of the trees with roots in `R`. -/
def NotTable (R : Set ℕ) (m : Phys) (q : ℕ) : Prop :=
  ∀ r ∈ R, ∀ d ≤ 2, ∀ k, m.table r d k ≠ some q

variable {R : Set ℕ} {m m' : Phys} {r r0 d d0 k k0 q c i v : ℕ} {e : Option Pte}

@[simp] theorem table_root (m : Phys) (r : ℕ) : m.table r 0 0 = some r := rfl

theorem table_succ (m : Phys) (r d k : ℕ) : m.table r (d + 1) k = (m.entry r d k).map Pte.page := by
  rw [table, entry, Option.map_bind]
  rfl

theorem table_zero (h : m.table r 0 k = some q) : k = 0 ∧ q = r := by
  rw [table] at h
  split_ifs at h with hk
  exact ⟨hk, (some.inj h).symm⟩

theorem entry_of_table (h : m.table r d k = some q) (hi : i < 512) :
    m.entry r d (k * 512 + i) = m.pt q i := by
  rw [entry, show (k * 512 + i) / 512 = k by omega, h, bind_some,
    show (k * 512 + i) % 512 = i by omega]

theorem table_congr (h : ∀ d k q, d < 2 → m.table r d k = some q → m'.pt q = m.pt q)
    (hd : d ≤ 2) (k : ℕ) : m'.table r d k = m.table r d k := by
  induction d generalizing k with
  | zero => rfl
  | succ d ih =>
    rw [table, table, ih (by omega)]
    cases ht : m.table r d (k / 512) with
    | none => rfl
    | some q => rw [bind_some, bind_some, h d _ q (by omega) ht]

theorem entry_congr (h : ∀ d k q, d ≤ 2 → m.table r d k = some q → m'.pt q = m.pt q)
    (hd : d ≤ 2) (k : ℕ) : m'.entry r d k = m.entry r d k := by
  rw [entry, entry, table_congr (fun d k q hd => h d k q (by omega)) hd]
  cases ht : m.table r d (k / 512) with
  | none => rfl
  | some q => rw [bind_some, bind_some, h d _ q hd ht]

theorem NotTable.table (h : NotTable R m q) (hpt : ∀ p, p ≠ q → m'.pt p = m.pt p) (hr : r ∈ R)
    (hd : d ≤ 2) (k : ℕ) : m'.table r d k = m.table r d k :=
  table_congr (fun d k p hd ht => hpt p fun he => h r hr d (by omega) k (he ▸ ht)) hd k

theorem NotTable.entry (h : NotTable R m q) (hpt : ∀ p, p ≠ q → m'.pt p = m.pt p) (hr : r ∈ R)
    (hd : d ≤ 2) (k : ℕ) : m'.entry r d k = m.entry r d k :=
  entry_congr (fun d k p hd ht => hpt p fun he => h r hr d hd k (he ▸ ht)) hd k

theorem setPte_pt (m : Phys) (q i : ℕ) (e : Option Pte) (p j : ℕ) :
    (m.setPte q i e).pt p j = if p = q ∧ j = i then e else m.pt p j := by
  by_cases hp : p = q
  · subst hp
    by_cases hj : j = i <;> simp [setPte, hj]
  · simp [setPte, hp]

theorem setPte_pt_of_ne (m : Phys) {q i p : ℕ} (e : Option Pte) (h : p ≠ q) :
    (m.setPte q i e).pt p = m.pt p := by
  simp [setPte, h]

/-! ### Assignments to the third level -/

section Leaf

variable (hsep : Separate R m) (hr₀ : r0 ∈ R) (hq : m.table r0 2 k0 = some q)

include hsep hr₀ hq

theorem table_setPte (hr : r ∈ R) (hd : d ≤ 2) (k : ℕ) :
    (m.setPte q i e).table r d k = m.table r d k := by
  refine table_congr (fun d k p hd ht => setPte_pt_of_ne m e ?_) hd k
  rintro rfl
  have := (hsep hr hr₀ (by omega) le_rfl ht hq).2.1
  omega

theorem entry_setPte (hr : r ∈ R) (hd : d ≤ 2) (hi : i < 512) (k : ℕ) :
    (m.setPte q i e).entry r d k =
      if r = r0 ∧ d = 2 ∧ k = k0 * 512 + i then e else m.entry r d k := by
  rw [entry, table_setPte hsep hr₀ hq hr hd]
  cases ht : m.table r d (k / 512) with
  | none =>
    rw [if_neg, entry, ht]
    · rfl
    · rintro ⟨rfl, rfl, rfl⟩
      rw [show (k0 * 512 + i) / 512 = k0 by omega, hq] at ht
      cases ht
  | some p =>
    rw [bind_some, setPte_pt]
    have hentry : m.entry r d k = m.pt p (k % 512) := by rw [entry, ht, bind_some]
    by_cases hp : p = q
    · subst hp
      obtain ⟨rfl, rfl, hk⟩ := hsep hr hr₀ hd le_rfl ht hq
      by_cases hki : k % 512 = i
      · rw [if_pos ⟨rfl, hki⟩, if_pos ⟨rfl, rfl, by omega⟩]
      · rw [if_neg fun h => hki h.2, if_neg fun h => hki (by omega), hentry]
    · rw [if_neg fun h => hp h.1, if_neg, hentry]
      rintro ⟨rfl, rfl, rfl⟩
      rw [show (k0 * 512 + i) / 512 = k0 by omega, hq] at ht
      exact hp (some.inj ht).symm

end Leaf

/-! ### A new table -/

section Link

variable (hsep : Separate R m) (hr₀ : r0 ∈ R) (hd₀ : d0 < 2) (hq : m.table r0 d0 k0 = some q)
  (hi : i < 512) (hnone : m.entry r0 d0 (k0 * 512 + i) = none) (hc : NotTable R m c)
  (hempty : ∀ j, m.pt c j = none)

include hsep hr₀ hd₀ hq hi hnone hc hempty

/-- An empty table is linked into a tree: below it there is nothing, before and after, and one entry
changes. -/
theorem link (hr : r ∈ R) (hd : d ≤ 2) (k : ℕ) :
    (m.setPte q i (some ⟨c, .none⟩)).table r d k =
        (if r = r0 ∧ d = d0 + 1 ∧ k = k0 * 512 + i then some c else m.table r d k) ∧
      (m.setPte q i (some ⟨c, .none⟩)).entry r d k =
        if r = r0 ∧ d = d0 ∧ k = k0 * 512 + i then some ⟨c, .none⟩ else m.entry r d k := by
  have hqc : c ≠ q := fun he => hc r0 hr₀ d0 (by omega) k0 (he ▸ hq)
  -- the entries of a depth follow from its tables
  have hentries : ∀ {d}, d ≤ 2 → ∀ k, (m.setPte q i (some ⟨c, .none⟩)).table r d (k / 512) =
      (if r = r0 ∧ d = d0 + 1 ∧ k / 512 = k0 * 512 + i then some c else m.table r d (k / 512)) →
      (m.setPte q i (some ⟨c, .none⟩)).entry r d k =
        if r = r0 ∧ d = d0 ∧ k = k0 * 512 + i then some ⟨c, .none⟩ else m.entry r d k := by
    intro d hd k ht'
    rw [entry, ht']
    by_cases hnew : r = r0 ∧ d = d0 + 1 ∧ k / 512 = k0 * 512 + i
    · obtain ⟨rfl, rfl, hk⟩ := hnew
      rw [if_pos ⟨rfl, rfl, hk⟩, bind_some, setPte_pt_of_ne _ _ hqc, hempty,
        if_neg (by omega), entry, hk, table_succ, hnone]
      rfl
    · rw [if_neg hnew]
      cases ht : m.table r d (k / 512) with
      | none =>
        rw [if_neg, entry, ht]
        · rfl
        · rintro ⟨rfl, rfl, rfl⟩
          rw [show (k0 * 512 + i) / 512 = k0 by omega, hq] at ht
          cases ht
      | some p =>
        rw [bind_some, setPte_pt]
        have hentry : m.entry r d k = m.pt p (k % 512) := by rw [entry, ht, bind_some]
        by_cases hp : p = q
        · subst hp
          obtain ⟨rfl, rfl, hk⟩ := hsep hr hr₀ hd (by omega) ht hq
          by_cases hki : k % 512 = i
          · rw [if_pos ⟨rfl, hki⟩, if_pos ⟨rfl, rfl, by omega⟩]
          · rw [if_neg fun h => hki h.2, if_neg fun h => hki (by omega), hentry]
        · rw [if_neg fun h => hp h.1, if_neg, hentry]
          rintro ⟨rfl, rfl, rfl⟩
          rw [show (k0 * 512 + i) / 512 = k0 by omega, hq] at ht
          exact hp (some.inj ht).symm
  induction d generalizing k with
  | zero =>
    have ht : ∀ k, (m.setPte q i (some ⟨c, .none⟩)).table r 0 k =
        if r = r0 ∧ 0 = d0 + 1 ∧ k = k0 * 512 + i then some c else m.table r 0 k := by
      intro k
      rw [if_neg (by omega)]
      rfl
    exact ⟨ht k, hentries hd k (ht _)⟩
  | succ d ih =>
    have ht : ∀ k, (m.setPte q i (some ⟨c, .none⟩)).table r (d + 1) k =
        if r = r0 ∧ d + 1 = d0 + 1 ∧ k = k0 * 512 + i then some c else m.table r (d + 1) k := by
      intro k
      rw [table_succ, (ih (by omega) k).2, table_succ]
      by_cases h : r = r0 ∧ d = d0 ∧ k = k0 * 512 + i
      · rw [if_pos h, if_pos ⟨h.1, by omega, h.2.2⟩]
        rfl
      · rw [if_neg h, if_neg fun h' => h ⟨h'.1, by omega, h'.2.2⟩]
    exact ⟨ht k, hentries hd k (ht _)⟩

end Link

end Phys

end Cinux
