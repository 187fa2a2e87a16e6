import Cinux.Vm.Focus
import Cinux.Vm.Sbrk

/-!
# The memory of a process

`proc_pagetable`, `proc_freepagetable` and the changes of size.  The page table of a process has
entries for its pages, below `PGROUNDUP(p->sz)`, and at the top of the address space for the
trampoline and the trap frame, which user code cannot reach.

* `Phys.Space` : what the page table of a process looks like;
* `VmM.procPagetable`, `VmM.procFreepagetable` : its beginning and its end;
* `VmM.kinit` : the allocator's beginning, with all pages free;
* `Phys.Own.sysSbrk_runs` : every change of size keeps it.
-/

namespace Cinux

/-- The flags of the trampoline. -/
def Perm.trampoline : Perm := ⟨true, false, true, false⟩

/-- The flags of the trap frame. -/
def Perm.trapframe : Perm := ⟨true, true, false, false⟩

namespace VmM

/-- `proc_pagetable`; `trampoline` is the page of the trampoline code, which is in the kernel. -/
def procPagetable (trampoline trapframe : ℕ) : VmM (Option ℕ) := do
  match ← uvmcreate with
  | none => pure none
  | some pagetable =>
    if ← mappages pagetable TRAMPOLINE PGSIZE trampoline Perm.trampoline then
      if ← mappages pagetable TRAPFRAME PGSIZE trapframe Perm.trapframe then pure (some pagetable)
      else
        uvmunmap pagetable TRAMPOLINE 1 false
        uvmfree pagetable 0
        pure none
    else
      uvmfree pagetable 0
      pure none

/-- `proc_freepagetable`. -/
def procFreepagetable (pagetable sz : ℕ) : VmM Unit := do
  uvmunmap pagetable TRAMPOLINE 1 false
  uvmunmap pagetable TRAPFRAME 1 false
  uvmfree pagetable sz

/-- The loop of `freerange`, with `n` pages left. -/
def freerange : ℕ → ℕ → VmM Unit
  | 0, _ => pure ()
  | n + 1, p => do
    kfree p
    freerange n (p + 1)

/-- `kinit`. -/
def kinit : VmM Unit := fun m => freerange (PHYSTOP / PGSIZE - m.kend) m.kend m

end VmM

/-- A machine before `kinit`, with sixteen pages for the allocator. -/
def sixteenPages : Phys where
  free := []
  pt _ _ := none
  data _ _ := 0
  luck := []
  kend := PHYSTOP / PGSIZE - 16

namespace Phys

open Program (Runs)
open VmM

variable {T : ℕ} {R H : Set ℕ} {m m' m'' : Phys} {r r' tf q c i v va n lo hi sz sz' : ℕ}

/-- The entries above the user's part. -/
def special (T tf v : ℕ) : Option Pte :=
  if v = TRAMPOLINE / PGSIZE then some ⟨T, Perm.trampoline⟩
  else if v = TRAPFRAME / PGSIZE then some ⟨tf, Perm.trapframe⟩
  else none

/-- **The address space of a process** of size `sz`: its pages are below the size, and above there
are the trampoline, at page `T`, and the trap frame. -/
structure Space (T : ℕ) (m : Phys) (r tf sz : ℕ) : Prop where
  size : sz ≤ TRAPFRAME
  none : ∀ v, pages sz ≤ v → v < userPages → m.leaf r v = none
  special : ∀ v, userPages ≤ v → m.leaf r v = special T tf v

namespace Space

theorem congr (h : Space T m r tf sz) (hsame : ∀ v, m'.leaf r v = m.leaf r v) :
    Space T m' r tf sz :=
  ⟨h.size, fun v hv hv' => (hsame v).trans (h.none v hv hv'),
    fun v hv => (hsame v).trans (h.special v hv)⟩

theorem of_only (h : Space T m r tf sz) (hr : r ∈ R) (honly : Only R r lo (pages sz') m m')
    (hle : sz ≤ sz') (hsize : sz' ≤ TRAPFRAME) : Space T m' r tf sz' := by
  have hpages : pages sz ≤ pages sz' := Nat.div_le_div_right (by omega)
  have huser := pages_le hsize
  refine ⟨hsize, fun v hv hv' => ?_, fun v hv => ?_⟩
  · rw [honly r hr v (by omega), h.none v (by omega) hv']
  · rw [honly r hr v (by omega), h.special v hv]

theorem of_clears (h : Space T m r tf sz) (hr : r ∈ R)
    (hclears : Clears R r (pages sz') (pages sz) m m') (hle : sz' ≤ sz) : Space T m' r tf sz' := by
  have hpages : pages sz' ≤ pages sz := Nat.div_le_div_right (by omega)
  have huser := pages_le h.size
  refine ⟨hle.trans h.size, fun v hv hv' => ?_, fun v hv => ?_⟩
  · rw [hclears r hr v]
    split_ifs with hin
    · rfl
    · exact h.none v (by omega) hv'
  · rw [hclears r hr v, if_neg (by omega), h.special v hv]

theorem not_user (h : Space T m r tf sz) (hv : userPages ≤ v) {e : Pte}
    (he : m.leaf r v = some e) : e.perm.u = false := by
  rw [h.special v hv, Phys.special] at he
  split_ifs at he <;> obtain rfl := Option.some.inj he <;> rfl

end Space

theorem Only.others (h : Only R r lo hi m m') : SameLeaves (R \ {r}) m m' :=
  fun r' hr' v => h r' hr'.1 v fun hin => hr'.2 hin.1

namespace Own

/-! ### The beginning -/

theorem freerange_runs (hlo : m.kend ≤ q) (hhi : q + n ≤ PHYSTOP / PGSIZE) :
    Runs (freerange n q) m fun _ m' => m'.kend = m.kend ∧ m'.luck = m.luck ∧
      m'.free = (List.range' q n).reverse ++ m.free := by
  induction n generalizing q m with
  | zero => exact .pure ⟨rfl, rfl, rfl⟩
  | succ n ih =>
    have hkfree := kfree_of_managed (show m.Managed q from ⟨hlo, by omega⟩)
    have hlo' : ({ m.fill q 1 with free := q :: m.free } : Phys).kend ≤ q + 1 :=
      Nat.le_succ_of_le hlo
    unfold freerange
    refine .step hkfree ((ih hlo' (by omega)).conseq fun _ m1 h1 => ?_)
    obtain ⟨hkend, hluck, hfree⟩ := h1
    refine ⟨hkend, hluck, ?_⟩
    rw [hfree, List.range'_succ, List.reverse_cons, List.append_assoc]
    rfl

/-- **`kinit`**: all pages are free. -/
theorem kinit_runs (hkend : m.kend ≤ PHYSTOP / PGSIZE) (hfree : m.free = []) :
    Runs kinit m fun _ m' => Own ∅ ∅ m' ∧ m'.kend = m.kend ∧ m'.luck = m.luck ∧
      m'.free.length = PHYSTOP / PGSIZE - m.kend := by
  refine (freerange_runs le_rfl (by omega)).conseq fun _ m1 h1 => ?_
  obtain ⟨hk, hluck, hlist⟩ := h1
  rw [hfree, List.append_nil] at hlist
  have hmem : ∀ x, x ∈ m1.free ↔ m1.Managed x := by
    intro x
    rw [hlist, List.mem_reverse, List.mem_range'_1, Managed, hk]
    omega
  refine ⟨⟨?_, ⟨fun {x a b} ha hb => ?_, fun x => ?_⟩, fun r hr => absurd hr (Set.notMem_empty r)⟩,
    hk, hluck, ?_⟩
  · rw [hlist, List.nodup_reverse]
    exact List.nodup_range'
  · -- there is no place but the free list
    have hplace : ∀ a, m1.At ∅ ∅ a x → a = .free := by
      intro a ha
      cases a with
      | free => rfl
      | held => exact absurd ha (Set.notMem_empty x)
      | table r d k => exact absurd ha.1 (Set.notMem_empty r)
      | page r v => exact absurd ha.1 (Set.notMem_empty r)
    rw [hplace a ha, hplace b hb]
  · rw [← hmem x]
    constructor
    · rintro ⟨a, ha⟩
      cases a with
      | free => exact ha
      | held => exact absurd ha (Set.notMem_empty x)
      | table r d k => exact absurd ha.1 (Set.notMem_empty r)
      | page r v => exact absurd ha.1 (Set.notMem_empty r)
    · exact fun hx => ⟨.free, hx⟩
  · rw [hlist, List.length_reverse, List.length_range']

theorem leaf_of_empty (hempty : ∀ j, m.pt c j = none) (v : ℕ) : m.leaf c v = none := by
  refine leaf_of_entry_none (d := 0) (by omega) ?_
  rw [entry]
  cases ht : m.table c 0 (v / 512 ^ (2 - 0) / 512) with
  | none => rfl
  | some q =>
    obtain ⟨-, rfl⟩ := table_zero ht
    exact hempty _

/-- **`uvmcreate`**: a new page table, without entries. -/
theorem uvmcreate_runs (h : Own R H m) :
    Runs uvmcreate m fun o m' => Kept H m m' ∧ SameLeaves R m m' ∧ ((o = none ∧ Own R H m') ∨
        ∃ c, o = some c ∧ c ∉ R ∧ Own (insert c R) H m' ∧ ∀ v, m'.leaf c v = none) := by
  unfold uvmcreate
  refine h.kalloc_clear_runs (fun m1 hown hsame _ hkept _ => ?_)
    fun c m1 hin hout hown hsame _ hkept hempty _ => ?_
  · exact .pure ⟨hkept, hsame.leaves, .inl ⟨rfl, hown⟩⟩
  · have hfree : m.At R H .free c := hin
    have hroot : c ∉ R := fun hc => nomatch h.owned.unique hfree (at_root hc)
    have hcreate := hown.create (Set.mem_insert c H) hempty
    rw [insert_sdiff_self_of_notMem (h.not_held_of_free hfree)] at hcreate
    exact .pure ⟨hkept, hsame.leaves, .inr ⟨c, rfl, hroot, hcreate, leaf_of_empty hempty⟩⟩

theorem special_pages : TRAMPOLINE = TRAMPOLINE / PGSIZE * PGSIZE ∧
    TRAPFRAME = TRAPFRAME / PGSIZE * PGSIZE ∧ TRAMPOLINE % PGSIZE = 0 ∧ TRAPFRAME % PGSIZE = 0 ∧
    TRAMPOLINE < MAXVA ∧ TRAPFRAME < MAXVA ∧ userPages ≤ TRAMPOLINE / PGSIZE ∧
    userPages ≤ TRAPFRAME / PGSIZE ∧ TRAMPOLINE / PGSIZE < MAXVA / PGSIZE ∧
    TRAPFRAME / PGSIZE < MAXVA / PGSIZE ∧ TRAPFRAME / PGSIZE ≠ TRAMPOLINE / PGSIZE := by
  decide

theorem mappages_special_runs (h : Own R H m) (hr : r ∈ R) (hva : va < MAXVA)
    (halign : va % PGSIZE = 0) (huser : userPages ≤ va / PGSIZE)
    (hleaf : m.leaf r (va / PGSIZE) = none) (c : ℕ) (perm : Perm) :
    Runs (mappages r va PGSIZE c perm) m fun ok m' => Kept H m m' ∧ Own R H m' ∧
      ((ok = false ∧ SameLeaves R m m') ∨
        (ok = true ∧ SetsLeaf R r (va / PGSIZE) (some ⟨c, perm⟩) m m')) := by
  refine (h.mappages_runs hr hva halign hleaf (fun hlt => by omega) perm).conseq fun ok m' h' => ?_
  obtain ⟨-, hkept, ⟨hok, hown, hsame, -⟩ | ⟨hok, hown, hsets⟩⟩ := h'
  · exact ⟨hkept, hown, .inl ⟨hok, hsame⟩⟩
  · rw [if_neg (by omega)] at hown
    exact ⟨hkept, hown, .inr ⟨hok, hsets⟩⟩

/-- **`proc_pagetable`**: an address space without pages, or nothing. -/
theorem procPagetable_runs (h : Own R H m) (T tf : ℕ) :
    Runs (procPagetable T tf) m fun o m' => Kept H m m' ∧ SameLeaves R m m' ∧
      ((o = none ∧ Own R H m') ∨
        ∃ r, o = some r ∧ r ∉ R ∧ Own (insert r R) H m' ∧ Space T m' r tf 0) := by
  obtain ⟨htramp, -, halign, halign', hmax, hmax', huser, huser', hlast, -, hne⟩ := special_pages
  unfold procPagetable
  refine h.uvmcreate_runs.bind fun o m1 ho => ?_
  obtain ⟨hkept, hsame, ⟨rfl, hown⟩ | ⟨r, rfl, hroot, hown, hempty⟩⟩ := ho
  · exact .pure ⟨hkept, hsame, .inl ⟨rfl, hown⟩⟩
  have hr : r ∈ insert r R := Set.mem_insert r R
  have hback : insert r R \ {r} = R := insert_sdiff_self_of_notMem hroot
  -- without entries, all of it goes
  have hgone : ∀ {m' : Phys}, Kept H m m' → SameLeaves R m m' → Own (insert r R) H m' →
      (∀ v, m'.leaf r v = none) →
      Runs (do uvmfree r 0; pure none) m' fun (o : Option ℕ) m' => Kept H m m' ∧
        SameLeaves R m m' ∧ ((o = none ∧ Own R H m') ∨
          ∃ r, o = some r ∧ r ∉ R ∧ Own (insert r R) H m' ∧ Space T m' r tf 0) := by
    intro m' hk hs ho hnone
    refine (ho.uvmfree_runs hr (Nat.zero_le _) fun v _ => hnone v).bind fun _ m2 h2 => ?_
    obtain ⟨hown2, hsame2, hkept2⟩ := h2
    rw [hback] at hown2 hsame2
    exact .pure ⟨hk.trans hkept2, hs.trans hsame2, .inl ⟨rfl, hown2⟩⟩
  have hothers : ∀ {m' : Phys} {v : ℕ} {e : Option Pte} {m1 : Phys}, SameLeaves R m m1 →
      SetsLeaf (insert r R) r v e m1 m' → SameLeaves R m m' := by
    intro m' v e m1 hs hsets r' hr' v'
    have hne' : r' ≠ r := fun he => hroot (he ▸ hr')
    rw [hsets r' (Set.mem_insert_of_mem r hr') v', if_neg fun he => hne' he.1, hs r' hr' v']
  refine (hown.mappages_special_runs hr hmax halign huser (hempty _) T Perm.trampoline).bind
    fun ok m2 h2 => ?_
  obtain ⟨hkept2, hown2, ⟨rfl, hsame2⟩ | ⟨rfl, hsets2⟩⟩ := h2
  · refine hgone (hkept.trans hkept2) (fun r' hr' v => ?_) hown2 fun v => ?_
    · rw [hsame2 r' (Set.mem_insert_of_mem r hr') v, hsame r' hr' v]
    · rw [hsame2 r hr v, hempty v]
  have hleaf : m2.leaf r (TRAPFRAME / PGSIZE) = none := by
    rw [hsets2 r hr, if_neg fun he => hne he.2, hempty]
  refine (hown2.mappages_special_runs hr hmax' halign' huser' hleaf tf Perm.trapframe).bind
    fun ok m3 h3 => ?_
  obtain ⟨hkept3, hown3, ⟨rfl, hsame3⟩ | ⟨rfl, hsets3⟩⟩ := h3
  · rw [htramp]
    refine (hown3.uvmunmap_special_runs hr huser hlast).bind fun _ m4 h4 => ?_
    obtain ⟨hown4, hkept4, hclears⟩ := h4
    refine hgone (((hkept.trans hkept2).trans hkept3).trans hkept4) (fun r' hr' v => ?_) hown4
      fun v => ?_
    · have hin := Set.mem_insert_of_mem r hr'
      have hne' : r' ≠ r := fun he => hroot (he ▸ hr')
      rw [hclears r' hin v, if_neg fun he => hne' he.1, hsame3 r' hin v,
        hothers hsame hsets2 r' hr' v]
    · rw [hclears r hr v]
      split_ifs with hv
      · rfl
      · rw [hsame3 r hr v, hsets2 r hr v, if_neg (by omega), hempty v]
  · refine .pure ⟨(hkept.trans hkept2).trans hkept3, hothers (hothers hsame hsets2) hsets3,
      .inr ⟨r, rfl, hroot, hown3, Nat.zero_le _, fun v _ hv => ?_, fun v hv => ?_⟩⟩
    · rw [hsets3 r hr v, if_neg (by omega), hsets2 r hr v, if_neg (by omega), hempty v]
    · rw [hsets3 r hr v, hsets2 r hr v, hempty v, special]
      simp only [true_and]
      split_ifs with h1 h2 <;> first | rfl | exact absurd (h1.symm.trans h2) hne

/-! ### The end -/

/-- **`proc_freepagetable`**: an address space goes, with its pages and its tables. -/
theorem procFreepagetable_runs (h : Own R H m) (hr : r ∈ R) (hs : Space T m r tf sz) :
    Runs (procFreepagetable r sz) m fun _ m' =>
      Own (R \ {r}) H m' ∧ SameLeaves (R \ {r}) m m' ∧ Kept H m m' := by
  obtain ⟨htramp, hframe, -, -, -, -, huser, huser', hlast, hlast', -⟩ := special_pages
  unfold procFreepagetable
  rw [htramp, hframe]
  refine (h.uvmunmap_special_runs hr huser hlast).bind fun _ m1 h1 => ?_
  obtain ⟨hown1, hkept1, hclears1⟩ := h1
  refine (hown1.uvmunmap_special_runs hr huser' hlast').bind fun _ m2 h2 => ?_
  obtain ⟨hown2, hkept2, hclears2⟩ := h2
  refine (hown2.uvmfree_runs hr hs.size fun v hv => ?_).conseq fun _ m3 h3 => ?_
  · rw [hclears2 r hr v]
    split_ifs with hv2
    · rfl
    rw [hclears1 r hr v]
    split_ifs with hv1
    · rfl
    by_cases hlow : v < userPages
    · exact hs.none v hv hlow
    · rw [hs.special v (by omega), special, if_neg (by omega), if_neg (by omega)]
  · obtain ⟨hown3, hsame3, hkept3⟩ := h3
    refine ⟨hown3, ?_, (hkept1.trans hkept2).trans hkept3⟩
    exact (hclears1.only.others.trans hclears2.only.others).trans hsame3

/-! ### Changes of size -/

section Size

variable {p : UserMem} (h : Own R H m) (hr : p.pagetable ∈ R)
  (hs : Space T m p.pagetable tf p.sz)

include h hr hs

/-- **`growproc`** keeps the address space. -/
theorem growproc_runs (n : ℤ) :
    Runs (growproc p n) m fun out m' => Own R H m' ∧ Kept H m m' ∧
      out.2.pagetable = p.pagetable ∧ Space T m' p.pagetable tf out.2.sz ∧
      SameLeaves (R \ {p.pagetable}) m m' := by
  have hstay : SameLeaves (R \ {p.pagetable}) m m := fun _ _ _ => rfl
  unfold growproc
  split_ifs with hpos hbig hneg
  · exact .pure ⟨h, .refl H m, rfl, hs, hstay⟩
  · by_cases hle : p.sz ≤ addInt p.sz n
    · refine (h.uvmalloc_runs hr hs.size hle hs.none (.inl (by omega)) true false).bind
        fun sz m1 h1 => ?_
      obtain ⟨hown, hkept, ⟨rfl, hsame, -⟩ | ⟨rfl, hsize, hfills, -⟩⟩ := h1
      · exact .pure ⟨hown, hkept, rfl, hs.congr (hsame _ hr), fun r' hr' v => hsame r' hr'.1 v⟩
      · have hs' := hs.of_only hr hfills.only hle hsize
        split_ifs with hzero
        · -- size 0 looks like a failure
          obtain hsz : p.sz = addInt p.sz n := by omega
          exact .pure ⟨hown, hkept, rfl, hsz ▸ hs', hfills.only.others⟩
        · exact .pure ⟨hown, hkept, rfl, hs', hfills.only.others⟩
    · -- the sum has wrapped around
      have hback : uvmalloc p.pagetable p.sz (addInt p.sz n) true false m = .ok (p.sz, m) := by
        unfold uvmalloc
        rw [if_pos (by omega)]
        rfl
      refine .step hback ?_
      split_ifs
      · exact .pure ⟨h, .refl H m, rfl, hs, hstay⟩
      · exact .pure ⟨h, .refl H m, rfl, hs, hstay⟩
  · refine (h.uvmdealloc_runs hr hs.size _).bind fun sz m1 h1 => ?_
    obtain ⟨hown, hkept, rfl, hclears⟩ := h1
    refine .pure ⟨hown, hkept, rfl, ?_, hclears.only.others⟩
    rcases le_total p.sz (addInt p.sz n) with hle | hle
    · rw [min_eq_left hle]
      have hpages : pages p.sz ≤ pages (addInt p.sz n) := Nat.div_le_div_right (by omega)
      refine hs.congr fun v => ?_
      rw [hclears _ hr v, if_neg (by omega)]
    · rw [min_eq_right hle]
      exact hs.of_clears hr hclears hle
  · exact .pure ⟨h, .refl H m, rfl, hs, hstay⟩

/-- **`sys_sbrk`** keeps the address space, whether it grows at once, later or not at all. -/
theorem sysSbrk_runs (a0 a1 : ℕ) :
    Runs (sysSbrk p a0 a1) m fun out m' => Own R H m' ∧ Kept H m m' ∧
      out.2.pagetable = p.pagetable ∧ Space T m' p.pagetable tf out.2.sz ∧
      SameLeaves (R \ {p.pagetable}) m m' := by
  have hstay : SameLeaves (R \ {p.pagetable}) m m := fun _ _ _ => rfl
  unfold sysSbrk
  dsimp only
  generalize addInt p.sz (toInt32 a0) = sz
  split_ifs with heager hwrap hbig
  · refine (h.growproc_runs hr hs _).bind fun out m1 h1 => ?_
    obtain ⟨ok, p'⟩ := out
    dsimp only
    split_ifs
    · exact .pure h1
    · exact .pure h1
  · exact .pure ⟨h, .refl H m, rfl, hs, hstay⟩
  · exact .pure ⟨h, .refl H m, rfl, hs, hstay⟩
  · have honly : Only R p.pagetable 0 (pages sz) m m := fun _ _ _ _ => rfl
    have hp : ({ p with sz := sz } : UserMem).pagetable = p.pagetable := rfl
    exact .pure ⟨h, .refl H m, hp, hs.of_only hr honly (not_lt.1 hwrap) (not_lt.1 hbig), hstay⟩

end Size

end Own

end Phys

end Cinux
