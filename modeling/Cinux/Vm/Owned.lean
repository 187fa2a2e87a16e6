import Cinux.System.Ownership
import Cinux.Vm.Tree

/-!
# Who owns a page

A page of the allocator's range is on the free list, held by kernel code, a table of a page table
or the target of a user entry.  `Phys.Own R H m` says that each page is in exactly one of these
places, where `R` are the roots of the page tables and `H` the pages that kernel code holds.

The lemmas here are the moves of a page from one place to another, one for each thing that the code
of `vm.c` does with a page:

* `Own.alloc`, `Own.release`, `Own.scribble` : a page comes from the free list, goes back to it, is
  overwritten while it is held.
* `Own.link`, `Own.create`, `Own.destroy` : a page becomes a table, or a root; all tables of a tree
  go.
* `Own.map`, `Own.unmap` : a page is entered for a virtual page, or taken out.
-/

namespace Cinux

/-- The number of virtual pages below the trap frame. -/
def userPages : ℕ := TRAPFRAME / PGSIZE

/-- Where a page may be. -/
inductive PagePlace where
  | free
  | held
  /-- Table `k` of depth `d` of the tree with root `r`. -/
  | table (r d k : ℕ)
  /-- The target of the entry for virtual page `v`. -/
  | page (r v : ℕ)

namespace Phys

/-- Page `q` is at a place. -/
def At (R H : Set ℕ) (m : Phys) : PagePlace → ℕ → Prop
  | .free, q => q ∈ m.free
  | .held, q => q ∈ H
  | .table r d k, q => r ∈ R ∧ d ≤ 2 ∧ m.table r d k = some q
  | .page r v, q => r ∈ R ∧ v < userPages ∧ m.table r 3 v = some q

/-- The pages of `[PGROUNDUP(end), PHYSTOP)`. -/
def Managed (m : Phys) (q : ℕ) : Prop := m.kend ≤ q ∧ q < PHYSTOP / PGSIZE

/-- Each page is at exactly one place, and once on the free list if it is there. -/
structure Own (R H : Set ℕ) (m : Phys) : Prop where
  nodup : m.free.Nodup
  owned : Owned (m.At R H) m.Managed
  /-- Entries that lead to tables have no flags. -/
  interior : ∀ r ∈ R, ∀ d < 2, ∀ k e, m.entry r d k = some e → e.perm = Perm.none

/-- The trees with roots in `R` are the same. -/
def SameTrees (R : Set ℕ) (m m' : Phys) : Prop :=
  ∀ r ∈ R, ∀ d ≤ 2, ∀ k, m'.entry r d k = m.entry r d k

variable {R H : Set ℕ} {m m' : Phys} {r r0 d d0 k k0 q c t i v : ℕ} {f : List ℕ} {perm : Perm}
  {e : Pte} {a : PagePlace}

theorem SameTrees.table (h : SameTrees R m m') (hr : r ∈ R) (hd : d ≤ 3) (k : ℕ) :
    m'.table r d k = m.table r d k := by
  cases d with
  | zero => rfl
  | succ d => rw [table_succ, table_succ, h r hr d (by omega)]

theorem SameTrees.trans {m1 m2 m3 : Phys} (h : SameTrees R m1 m2) (h' : SameTrees R m2 m3) :
    SameTrees R m1 m3 :=
  fun r hr d hd k => (h' r hr d hd k).trans (h r hr d hd k)

namespace Own

theorem separate (h : Own R H m) : Separate R m := by
  intro r r' d d' k k' q hr hr' hd hd' ht ht'
  have := h.owned.unique (a := .table r d k) (b := .table r' d' k') ⟨hr, hd, ht⟩ ⟨hr', hd', ht'⟩
  injection this with hr hd hk
  exact ⟨hr, hd, hk⟩

theorem notTable (h : Own R H m) (hq : m.At R H a q) (ha : ∀ r d k, a ≠ .table r d k) :
    NotTable R m q :=
  fun r hr d hd k ht => ha r d k (h.owned.unique hq (b := .table r d k) ⟨hr, hd, ht⟩)

theorem not_held_of_free (h : Own R H m) (hq : m.At R H .free q) : q ∉ H :=
  fun hq' => nomatch h.owned.unique hq (show m.At R H .held q from hq')

theorem at_root (hr : r ∈ R) : m.At R H (.table r 0 0) r := ⟨hr, by omega, rfl⟩

theorem managed_congr (hkend : m'.kend = m.kend) : m'.Managed = m.Managed := by
  funext q
  rw [Managed, Managed, hkend]

theorem sameTrees (h : Own R H m) (hq : m.At R H a q) (ha : ∀ r d k, a ≠ .table r d k)
    (hpt : ∀ x, x ≠ q → m'.pt x = m.pt x) : SameTrees R m m' :=
  fun _ hr _ hd => (h.notTable hq ha).entry hpt hr hd

theorem interior_of_same (h : Own R H m) (hs : SameTrees R m m') :
    ∀ r ∈ R, ∀ d < 2, ∀ k e, m'.entry r d k = some e → e.perm = Perm.none := by
  intro r hr d hd k e he
  exact h.interior r hr d hd k e ((hs r hr d (by omega) k).symm.trans he)

theorem at_of_same (hs : SameTrees R m m') {H' : Set ℕ} {a : PagePlace}
    (ha : a ≠ .free) (ha' : a ≠ .held) (x : ℕ) : m'.At R H' a x ↔ m.At R H a x := by
  cases a with
  | free => exact absurd rfl ha
  | held => exact absurd rfl ha'
  | table r d k =>
    refine and_congr_right fun hr => and_congr_right fun hd => ?_
    rw [hs.table hr (by omega)]
  | page r v =>
    refine and_congr_right fun hr => and_congr_right fun _ => ?_
    rw [hs.table hr le_rfl]

section Overwrite

variable (hpt : ∀ x, x ≠ q → m'.pt x = m.pt x) (hkend : m'.kend = m.kend)

include hpt hkend

theorem alloc (h : Own R H m) (hfree : m.free = q :: f) (hfree' : m'.free = f) :
    Own R (insert q H) m' ∧ SameTrees R m m' := by
  have hq : m.At R H .free q := by simp [At, hfree]
  have hnd := h.nodup
  rw [hfree, List.nodup_cons] at hnd
  have hs := h.sameTrees hq (by simp) hpt
  refine ⟨⟨hfree' ▸ hnd.2, ?_, h.interior_of_same hs⟩, hs⟩
  rw [managed_congr hkend]
  refine h.owned.move hq (b := PagePlace.held) (by simp) (fun x => ?_) (fun x => ?_)
    fun a ha ha' x => at_of_same hs ha ha' x
  · simp only [At, hfree, hfree', List.mem_cons]
    constructor
    · exact fun hx => ⟨.inr hx, fun he => hnd.1 (he ▸ hx)⟩
    · exact fun hx => hx.1.resolve_left hx.2
  · simp only [At, Set.mem_insert_iff]
    exact or_comm

theorem release (h : Own R H m) (hq : q ∈ H) (hfree : m'.free = q :: m.free) :
    Own R (H \ {q}) m' ∧ SameTrees R m m' := by
  have hat : m.At R H .held q := hq
  have hs := h.sameTrees hat (by simp) hpt
  refine ⟨⟨?_, ?_, h.interior_of_same hs⟩, hs⟩
  · rw [hfree]
    exact List.nodup_cons.2 ⟨fun hf => h.not_held_of_free hf hq, h.nodup⟩
  · rw [managed_congr hkend]
    refine h.owned.move hat (b := PagePlace.free) (by simp) (fun x => ?_) (fun x => ?_)
      fun a ha ha' x => at_of_same hs ha' ha x
    · simp only [At, Set.mem_sdiff, Set.mem_singleton_iff]
    · simp only [At, hfree, List.mem_cons]
      exact or_comm

theorem scribble (h : Own R H m) (hq : q ∈ H) (hfree : m'.free = m.free) :
    Own R H m' ∧ SameTrees R m m' := by
  have hs := h.sameTrees (show m.At R H .held q from hq) (by simp) hpt
  refine ⟨⟨hfree ▸ h.nodup, ?_, h.interior_of_same hs⟩, hs⟩
  rw [managed_congr hkend]
  refine h.owned.congr fun a x => ?_
  cases a with
  | free => rw [At, At, hfree]
  | held => exact Iff.rfl
  | table r d k => exact at_of_same hs (by simp) (by simp) x
  | page r v => exact at_of_same hs (by simp) (by simp) x

end Overwrite

/-- A held page without entries becomes a table. -/
theorem link (h : Own R H m) (hr₀ : r0 ∈ R) (hd0 : d0 < 2) (hq : m.table r0 d0 k0 = some q)
    (hi : i < 512) (hnone : m.pt q i = none) (hc : c ∈ H) (hempty : ∀ j, m.pt c j = none) :
    Own R (H \ {c}) (m.setPte q i (some ⟨c, .none⟩)) := by
  have hat : m.At R H .held c := hc
  have hentry : m.entry r0 d0 (k0 * 512 + i) = none := by rw [entry_of_table hq hi, hnone]
  have hlink {r d} := Phys.link (r := r) (d := d) h.separate hr₀ hd0 hq hi hentry
    (h.notTable hat (by simp)) hempty
  refine ⟨h.nodup, ?_, fun r hr d hd k e he => ?_⟩
  · change Owned _ m.Managed
    refine h.owned.move hat (b := PagePlace.table r0 (d0 + 1) (k0 * 512 + i)) (by simp)
      (fun x => ?_) (fun x => ?_) fun a ha ha' x => ?_
    · simp only [At, Set.mem_sdiff, Set.mem_singleton_iff]
    · simp only [At, hr₀, true_and, show d0 + 1 ≤ 2 by omega]
      rw [(hlink hr₀ (by omega) _).1, if_pos ⟨rfl, rfl, rfl⟩, table_succ, hentry]
      simp [eq_comm]
    · cases a with
      | free => exact Iff.rfl
      | held => exact absurd rfl ha
      | table r d k =>
        refine and_congr_right fun hr => and_congr_right fun hd => ?_
        rw [(hlink hr hd k).1, if_neg]
        rintro ⟨rfl, rfl, rfl⟩
        exact ha' rfl
      | page r v =>
        refine and_congr_right fun hr => and_congr_right fun _ => ?_
        rw [table_succ, (hlink hr le_rfl v).2, if_neg (by omega), ← table_succ]
  · rw [(hlink hr (by omega) k).2] at he
    split_ifs at he
    · cases he
      rfl
    · exact h.interior r hr d hd k e he

/-- A held page without entries becomes a root. -/
theorem create (h : Own R H m) (hc : c ∈ H) (hempty : ∀ j, m.pt c j = none) :
    Own (insert c R) (H \ {c}) m := by
  have hat : m.At R H .held c := hc
  have hroot : ∀ d k, m.entry c d k = none := by
    intro d
    induction d with
    | zero =>
      intro k
      rw [entry]
      cases ht : m.table c 0 (k / 512) with
      | none => rfl
      | some p =>
        obtain ⟨-, rfl⟩ := table_zero ht
        exact hempty _
    | succ d ih =>
      intro k
      rw [entry, table_succ, ih]
      rfl
  have hcR : c ∉ R := by
    intro hcR
    cases h.owned.unique hat (at_root hcR)
  refine ⟨h.nodup, ?_, fun r hr d hd k e he => ?_⟩
  · refine h.owned.move hat (b := PagePlace.table c 0 0) (by simp) (fun x => ?_) (fun x => ?_)
      fun a ha ha' x => ?_
    · simp only [At, Set.mem_sdiff, Set.mem_singleton_iff]
    · simp [At, hcR, eq_comm]
    · cases a with
      | free => exact Iff.rfl
      | held => exact absurd rfl ha
      | table r d k =>
        by_cases hrc : r = c
        · subst hrc
          simp only [At, Set.mem_insert_iff, true_or, true_and, hcR, false_and, iff_false, not_and]
          intro hd ht
          cases d with
          | zero => exact ha' (by rw [(table_zero ht).1])
          | succ d => simp [table_succ, hroot] at ht
        · simp [At, hrc]
      | page r v =>
        by_cases hrc : r = c
        · subst hrc
          simp [At, hcR, table_succ, hroot]
        · simp [At, hrc]
  · rcases hr with rfl | hr
    · simp [hroot] at he
    · exact h.interior r hr d hd k e he

/-! ### Entries for virtual pages -/

section Leaf

variable (h : Own R H m) (hr₀ : r0 ∈ R) (hq : m.table r0 2 (v / 512) = some q)

include h hr₀ hq

theorem entry_setLeaf (e' : Option Pte) : ∀ r ∈ R, ∀ d ≤ 2, ∀ k,
    (m.setPte q (v % 512) e').entry r d k =
      if r = r0 ∧ d = 2 ∧ k = v then e' else m.entry r d k := by
  intro r hr d hd k
  rw [entry_setPte h.separate hr₀ hq hr hd (by omega), show v / 512 * 512 + v % 512 = v by omega]

theorem interior_setLeaf (e' : Option Pte) : ∀ r ∈ R, ∀ d < 2, ∀ k e,
    (m.setPte q (v % 512) e').entry r d k = some e → e.perm = Perm.none := by
  intro r hr d hd k e he
  rw [h.entry_setLeaf hr₀ hq e' r hr d (by omega), if_neg (by omega)] at he
  exact h.interior r hr d hd k e he

theorem at_setLeaf {H' : Set ℕ} (e' : Option Pte) (ha : a ≠ .held) (ha' : a ≠ .page r0 v) (x : ℕ) :
    (m.setPte q (v % 512) e').At R H' a x ↔ m.At R H a x := by
  cases a with
  | free => exact Iff.rfl
  | held => exact absurd rfl ha
  | table r d k =>
    refine and_congr_right fun hr => and_congr_right fun hd => ?_
    rw [table_setPte h.separate hr₀ hq hr hd]
  | page r w =>
    refine and_congr_right fun hr => and_congr_right fun _ => ?_
    rw [table_succ, h.entry_setLeaf hr₀ hq e' r hr 2 le_rfl, if_neg, ← table_succ]
    rintro ⟨rfl, -, rfl⟩
    exact ha' rfl

theorem map (hleaf : m.leaf r0 v = none) (hv : v < userPages) (hc : c ∈ H) (perm : Perm) :
    Own R (H \ {c}) (m.setPte q (v % 512) (some ⟨c, perm⟩)) := by
  refine ⟨h.nodup, ?_, h.interior_setLeaf hr₀ hq _⟩
  change Owned _ m.Managed
  refine h.owned.move (show m.At R H .held c from hc) (b := PagePlace.page r0 v) (by simp)
    (fun x => ?_) (fun x => ?_) fun a ha ha' x => h.at_setLeaf hr₀ hq _ ha ha' x
  · simp only [At, Set.mem_sdiff, Set.mem_singleton_iff]
  · have hnone : m.entry r0 2 v = none := hleaf
    simp [At, table_succ, h.entry_setLeaf hr₀ hq _ r0 hr₀ 2 le_rfl, hnone, hr₀, hv, eq_comm]

theorem unmap (hleaf : m.leaf r0 v = some e) (hv : v < userPages) :
    Own R (insert e.page H) (m.setPte q (v % 512) none) := by
  have hsome : m.entry r0 2 v = some e := hleaf
  refine ⟨h.nodup, ?_, h.interior_setLeaf hr₀ hq _⟩
  change Owned _ m.Managed
  refine h.owned.move (a := PagePlace.page r0 v) (x := e.page)
    ⟨hr₀, hv, by rw [table_succ, hsome]; rfl⟩
    (b := PagePlace.held) (by simp) (fun x => ?_) (fun x => ?_)
    fun a ha ha' x => h.at_setLeaf hr₀ hq _ ha' ha x
  · simp [At, table_succ, h.entry_setLeaf hr₀ hq _ r0 hr₀ 2 le_rfl, hsome, hr₀, hv, eq_comm]
  · simp only [At, Set.mem_insert_iff]
    exact or_comm

theorem reflag {e' : Option Pte}
    (hsame : v < userPages → e'.map Pte.page = (m.leaf r0 v).map Pte.page) :
    Own R H (m.setPte q (v % 512) e') := by
  refine ⟨h.nodup, ?_, h.interior_setLeaf hr₀ hq _⟩
  change Owned _ m.Managed
  refine h.owned.congr fun a x => ?_
  by_cases ha : a = .held
  · rw [ha]
    exact Iff.rfl
  · by_cases hat : a = .page r0 v
    · rw [hat]
      refine and_congr_right fun _ => and_congr_right fun hv => ?_
      rw [table_succ, h.entry_setLeaf hr₀ hq _ r0 hr₀ 2 le_rfl, if_pos ⟨rfl, rfl, rfl⟩, hsame hv,
        table_succ]
      rfl
    · exact h.at_setLeaf hr₀ hq _ ha hat x

end Leaf

/-! ### The end of a tree -/

/-- All tables of a tree without virtual pages go to the free list. -/
theorem destroy (h : Own R H m) (hr : r ∈ R) (hleaf : ∀ v, m.leaf r v = none) {l : List ℕ}
    (hl : l.Nodup) (hmem : ∀ x, x ∈ l ↔ ∃ d k, d ≤ 2 ∧ m.table r d k = some x)
    (hfree : m'.free = l ++ m.free) (hpt : ∀ x, x ∉ l → m'.pt x = m.pt x)
    (hkend : m'.kend = m.kend) : Own (R \ {r}) H m' ∧ SameTrees (R \ {r}) m m' := by
  have hin : ∀ x, x ∈ l → ∃ d k, m.At R H (.table r d k) x := by
    intro x hx
    obtain ⟨d, k, hd, ht⟩ := (hmem x).1 hx
    exact ⟨d, k, hr, hd, ht⟩
  -- the other trees have no table in common with this one
  have hs : SameTrees (R \ {r}) m m' := by
    rintro r' ⟨hr', hne⟩ d hd k
    refine entry_congr (fun d k q hd ht => hpt q fun hq => ?_) hd k
    obtain ⟨d', k', hat⟩ := hin q hq
    have := h.owned.unique hat (b := PagePlace.table r' d k) ⟨hr', hd, ht⟩
    injection this with he
    exact hne he.symm
  refine ⟨⟨?_, ?_, fun r' hr' d hd k e he => ?_⟩, hs⟩
  · rw [hfree]
    refine List.nodup_append.2 ⟨hl, h.nodup, fun a ha b hb hab => ?_⟩
    obtain ⟨d, k, hat⟩ := hin a ha
    exact nomatch h.owned.unique hat (show m.At R H .free a from hab ▸ hb)
  · rw [managed_congr hkend]
    refine h.owned.moved (L := (· ∈ l)) (d := PagePlace.free) (fun x hx => ?_) fun a x => ?_
    · obtain ⟨d, k, hat⟩ := hin x hx
      exact h.owned.mem hat
    · -- elsewhere than in this tree there is none of its tables
      have hnot : (∀ d k, a ≠ .table r d k) → m.At R H a x → x ∉ l := by
        intro ha hat hx
        obtain ⟨d, k, hat'⟩ := hin x hx
        exact ha d k (h.owned.unique hat hat')
      cases a with
      | free =>
        simp only [At, hfree, List.mem_append, true_and]
        constructor
        · rintro (hx | hx)
          · exact .inr hx
          · exact .inl ⟨hx, hnot (by simp) hx⟩
        · exact fun hx => hx.symm.imp id And.left
      | held =>
        simp only [At, reduceCtorEq, false_and, or_false]
        exact ⟨fun hx => ⟨hx, hnot (by simp) hx⟩, And.left⟩
      | table r' d k =>
        simp only [reduceCtorEq, false_and, or_false]
        by_cases he : r' = r
        · subst he
          constructor
          · exact fun hx => absurd rfl hx.1.2
          · exact fun hx => absurd ((hmem x).2 ⟨d, k, hx.1.2.1, hx.1.2.2⟩) hx.2
        · constructor
          · rintro ⟨hr', hd, ht⟩
            have hat : m.At R H (.table r' d k) x :=
              ⟨hr'.1, hd, (hs.table hr' (by omega) k).symm.trans ht⟩
            exact ⟨hat, hnot (fun d k h => he (by injection h)) hat⟩
          · rintro ⟨⟨hr', hd, ht⟩, -⟩
            exact ⟨⟨hr', he⟩, hd, (hs.table ⟨hr', he⟩ (by omega) k).trans ht⟩
      | page r' v =>
        simp only [reduceCtorEq, false_and, or_false]
        by_cases he : r' = r
        · subst he
          constructor
          · exact fun hx => absurd rfl hx.1.2
          · rintro ⟨⟨-, -, ht⟩, -⟩
            rw [table_succ, show m.entry r' 2 v = none from hleaf v] at ht
            cases ht
        · constructor
          · rintro ⟨hr', hv, ht⟩
            have hat : m.At R H (.page r' v) x := ⟨hr'.1, hv, (hs.table hr' le_rfl v).symm.trans ht⟩
            exact ⟨hat, hnot (by simp) hat⟩
          · rintro ⟨⟨hr', hv, ht⟩, -⟩
            exact ⟨⟨hr', he⟩, hv, (hs.table ⟨hr', he⟩ le_rfl v).trans ht⟩
  · exact h.interior r' hr'.1 d hd k e ((hs r' hr' d (by omega) k).symm.trans he)

end Own

end Phys

end Cinux
