import Cinux.Vm.Grow

/-!
# Some of the page tables

Code that works on some of the page tables leaves the others as they are: to it, their tables and
pages are pages that somebody holds, and what is held is kept.  So every specification of a function
for all page tables says what it does to the others, once they are taken for held pages.

* `Phys.others` : the pages in use by anything but the page tables in `S`;
* `Phys.Own.focus` : each page is in one place also when those pages count as held;
* `Phys.Own.unfocus` : and back, if they have been kept.
-/

namespace Cinux

/-- The page table that a place belongs to. -/
def PagePlace.root : PagePlace → Option ℕ
  | .free => none
  | .held => none
  | .table r _ _ => some r
  | .page r _ => some r

namespace Phys

variable {R H S S' : Set ℕ} {m m' : Phys} {r q v d k : ℕ} {a : PagePlace}

/-- The pages in use other than those of the page tables in `S`. -/
def others (R H S : Set ℕ) (m : Phys) : Set ℕ :=
  {q | ∃ a, a ≠ .free ∧ (∀ r ∈ S, a.root ≠ some r) ∧ m.At R H a q}

theorem held_subset_others : H ⊆ others R H S m := fun _ hq => ⟨.held, nofun, fun _ _ => nofun, hq⟩

theorem within_others (hr : r ∈ R) (hS : r ∉ S) : Within (others R H S m) m r := by
  have hroot : ∀ r' ∈ S, some r ≠ some r' := fun r' hr' he => hS (Option.some.inj he ▸ hr')
  refine ⟨fun d hd k q ht => ⟨.table r d k, nofun, hroot, hr, hd, ht⟩, fun v hv e he => ?_⟩
  exact ⟨.page r v, nofun, hroot, Own.at_leaf hr hv he⟩

namespace Own

open Classical in
/-- The place of a page for code that knows the page tables in `S` only. -/
noncomputable def seen (S : Set ℕ) (a : PagePlace) : PagePlace :=
  if a = .free ∨ ∃ r ∈ S, a.root = some r then a else .held

theorem seen_table (hr : r ∈ S) (d k : ℕ) : seen S (.table r d k) = .table r d k :=
  if_pos (.inr ⟨r, hr, rfl⟩)

theorem seen_page (hr : r ∈ S) (v : ℕ) : seen S (.page r v) = .page r v :=
  if_pos (.inr ⟨r, hr, rfl⟩)

theorem seen_eq_held_iff : seen S a = .held ↔ a ≠ .free ∧ ∀ r ∈ S, a.root ≠ some r := by
  unfold seen
  split_ifs with h
  · constructor
    · rintro rfl
      exact ⟨nofun, fun _ _ => nofun⟩
    · rintro ⟨hfree, hroot⟩
      rcases h with h | ⟨r, hr, he⟩
      · exact absurd h hfree
      · exact absurd he (hroot r hr)
  · exact ⟨fun _ => ⟨fun hf => h (.inl hf), fun r hr he => h (.inr ⟨r, hr, he⟩)⟩, fun _ => rfl⟩

theorem of_seen {b : PagePlace} (h : seen S a = b) (hb : b ≠ .held) :
    a = b ∧ (b = .free ∨ ∃ r ∈ S, b.root = some r) := by
  unfold seen at h
  split_ifs at h with hs
  · exact ⟨h, h ▸ hs⟩
  · exact absurd h.symm hb

/-- **Each page is in one place also for code that knows some of the page tables only.** -/
theorem focus (h : Own R H m) (hS : S ⊆ R) : Own S (others R H S m) m := by
  refine ⟨h.nodup, h.owned.map (seen S) fun b q => ?_, fun r hr => h.interior r (hS hr)⟩
  cases b with
  | free =>
    constructor
    · exact fun hq => ⟨.free, if_pos (.inl rfl), hq⟩
    · rintro ⟨a, ha, hq⟩
      obtain ⟨rfl, -⟩ := of_seen ha nofun
      exact hq
  | held =>
    refine exists_congr fun a => ?_
    rw [seen_eq_held_iff, and_assoc]
  | table r d k =>
    constructor
    · rintro ⟨hr, hq⟩
      exact ⟨.table r d k, seen_table hr d k, hS hr, hq⟩
    · rintro ⟨a, ha, hq⟩
      obtain ⟨rfl, hf | ⟨r', hr', he⟩⟩ := of_seen ha nofun
      · cases hf
      · exact ⟨Option.some.inj he ▸ hr', hq.2⟩
  | page r v =>
    constructor
    · rintro ⟨hr, hq⟩
      exact ⟨.page r v, seen_page hr v, hS hr, hq⟩
    · rintro ⟨a, ha, hq⟩
      obtain ⟨rfl, hf | ⟨r', hr', he⟩⟩ := of_seen ha nofun
      · cases hf
      · exact ⟨Option.some.inj he ▸ hr', hq.2⟩

section Unfocus

variable (hkept : Kept (others R H S m) m m')

include hkept

theorem entry_unfocus (hr : r ∈ R) (hS : r ∉ S) (hd : d ≤ 2) (k : ℕ) :
    m'.entry r d k = m.entry r d k :=
  entry_congr (fun d k q hd ht => hkept.pt q ((within_others hr hS).tables d hd k q ht)) hd k

theorem table_unfocus (hr : r ∈ R) (hS : r ∉ S) (hd : d ≤ 3) (k : ℕ) :
    m'.table r d k = m.table r d k := by
  cases d with
  | zero => rfl
  | succ d => rw [table_succ, table_succ, entry_unfocus hkept hr hS (by omega)]

theorem leaf_unfocus (hr : r ∈ R) (hS : r ∉ S) (v : ℕ) : m'.leaf r v = m.leaf r v :=
  entry_unfocus hkept hr hS le_rfl v

theorem data_unfocus (hr : r ∈ R) (hS : r ∉ S) (hv : v < userPages) {e : Pte}
    (he : m.leaf r v = some e) : m'.data e.page = m.data e.page :=
  hkept.data _ ((within_others hr hS).pages v hv e he)

/-- **And back**: code that knew the page tables in `S` only has kept what the others hold, and its
page tables are those in `S'` now. -/
theorem unfocus (h : Own R H m) (h' : Own S' (others R H S m) m') :
    Own (R \ S ∪ S') H m' := by
  have hroot {r : ℕ} (hr : r ∉ S) : ∀ r' ∈ S, some r ≠ some r' :=
    fun r' hr' he => hr (Option.some.inj he ▸ hr')
  refine ⟨h'.nodup, h'.owned.split (d := .held) (m.At R H)
    (fun a => a ≠ .free ∧ ∀ r ∈ S, a.root ≠ some r) (· ≠ .held) h.owned.unique (fun hne => hne rfl)
    (fun a x _ => em _) (fun x => exists_congr fun a => and_assoc.symm)
    fun a x => ?_, fun r hr d hd k e he => ?_⟩
  · cases a with
    | free => simp [At]
    | held => simp [At, PagePlace.root]
    | table r d k =>
      constructor
      · rintro ⟨⟨hr, hS⟩ | hr, hd, ht⟩
        · rw [table_unfocus hkept hr hS (by omega)] at ht
          exact .inr ⟨⟨by simp, hroot hS⟩, hr, hd, ht⟩
        · exact .inl ⟨by simp, hr, hd, ht⟩
      · rintro (⟨-, hr, hd, ht⟩ | ⟨⟨-, hS⟩, hr, hd, ht⟩)
        · exact ⟨.inr hr, hd, ht⟩
        · have hnot : r ∉ S := fun hin => hS r hin rfl
          exact ⟨.inl ⟨hr, hnot⟩, hd, (table_unfocus hkept hr hnot (by omega) k).trans ht⟩
    | page r v =>
      constructor
      · rintro ⟨⟨hr, hS⟩ | hr, hv, ht⟩
        · rw [table_unfocus hkept hr hS le_rfl] at ht
          exact .inr ⟨⟨by simp, hroot hS⟩, hr, hv, ht⟩
        · exact .inl ⟨by simp, hr, hv, ht⟩
      · rintro (⟨-, hr, hv, ht⟩ | ⟨⟨-, hS⟩, hr, hv, ht⟩)
        · exact ⟨.inr hr, hv, ht⟩
        · have hnot : r ∉ S := fun hin => hS r hin rfl
          exact ⟨.inl ⟨hr, hnot⟩, hv, (table_unfocus hkept hr hnot le_rfl v).trans ht⟩
  · rcases hr with ⟨hr, hS⟩ | hr
    · rw [entry_unfocus hkept hr hS (by omega)] at he
      exact h.interior r hr d hd k e he
    · exact h'.interior r hr d hd k e he

end Unfocus

/-- **`uvmcopy`** between two of the page tables. -/
theorem uvmcopy_both_runs (h : Own R H m) (hr : r ∈ R) {r' : ℕ} (hr' : r' ∈ R) (hne : r ≠ r')
    {sz : ℕ} (hsz : sz ≤ TRAPFRAME) (hnone : ∀ v, v < userPages → m.leaf r' v = none) :
    Program.Runs (VmM.uvmcopy r r' sz) m fun ok m' => Own R H m' ∧ Kept (others R H {r'} m) m m' ∧
      ((ok = false ∧ SameLeaves R m m') ∨ (ok = true ∧ Only R r' 0 (pages sz) m m')) := by
  refine ((h.focus (Set.singleton_subset_iff.2 hr')).uvmcopy_runs (within_others hr hne)
    (Set.mem_singleton r') hsz hnone).conseq fun ok m' h' => ?_
  obtain ⟨hown, hkept, hout⟩ := h'
  have hback := unfocus hkept h hown
  rw [Set.sdiff_union_of_subset (Set.singleton_subset_iff.2 hr')] at hback
  refine ⟨hback, hkept, hout.imp (fun ho => ⟨ho.1, fun r1 hr1 v => ?_⟩)
    fun ho => ⟨ho.1, fun r1 hr1 v hv => ?_⟩⟩
  · by_cases he : r1 = r'
    · exact ho.2 r1 he v
    · exact leaf_unfocus hkept hr1 he v
  · by_cases he : r1 = r'
    · exact ho.2.only r1 he v hv
    · exact leaf_unfocus hkept hr1 he v

theorem mem_free_iff (h : Own ∅ H m) : q ∈ m.free ↔ m.Managed q ∧ q ∉ H := by
  constructor
  · intro hq
    have hat : m.At ∅ H .free q := hq
    exact ⟨h.owned.mem hat, h.not_held_of_free hat⟩
  · rintro ⟨hman, hheld⟩
    obtain ⟨a, ha⟩ := (h.owned.covers q).2 hman
    cases a with
    | free => exact ha
    | held => exact absurd ha hheld
    | table r d k => exact absurd ha.1 (Set.notMem_empty r)
    | page r v => exact absurd ha.1 (Set.notMem_empty r)

end Own

end Phys

end Cinux
