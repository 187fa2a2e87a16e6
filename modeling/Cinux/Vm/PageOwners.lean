import Cinux.Vm.Lifetimes
import Cinux.Vm.Replace

/-!
# Every page has one owner

Over all sequences of operations on processes and their memory, with every outcome of every call of
`kalloc`, each page of the allocator's range is in exactly one place: on the free list, in the page
table of a process, a page of a process, its trap frame, or with another part of the kernel.

* `MemKernel.Coherent` : the pages are owned, and each address space is in order;
* `MemKernel.Lives` : besides, processes have memory and free slots do not;
* `pages_have_one_owner` : the result, with what cannot happen.
-/

namespace Cinux

open Function Set

open Program (Runs)

namespace MemKernel

variable {T : ℕ} {s s' : MemKernel} {p : Fin NPROC} {m' : Phys} {q r sz' : ℕ}

/-- The page tables of processes. -/
def roots (s : MemKernel) : Set ℕ := targets s.pagetable

/-- The pages that the kernel holds: trap frames, and those of other parts of it. -/
def held (s : MemKernel) : Set ℕ := targets s.trapframe ∪ s.others

/-- **The pages are owned**, and the page tables of processes are those of their address spaces. -/
structure Coherent (T : ℕ) (s : MemKernel) : Prop where
  own : s.phys.Own s.roots s.held
  kend : 0 < s.phys.kend
  tables : Distinct s.pagetable
  frames : Distinct s.trapframe
  apart : ∀ q ∈ targets s.trapframe, q ∉ s.others
  space : ∀ p, s.pagetable p ≠ 0 → s.phys.Space T (s.pagetable p) (s.trapframe p) (s.sz p)

/-- The same, and the processes have memory but free slots do not. -/
structure Lives (T : ℕ) (s : MemKernel) : Prop extends Coherent T s where
  unused : ∀ p, (s.table.proc p).state = .unused →
    s.trapframe p = 0 ∧ s.pagetable p = 0 ∧ s.sz p = 0
  live : ∀ p, (s.table.proc p).state ≠ .unused → s.trapframe p ≠ 0 ∧ s.pagetable p ≠ 0

variable {R H : Set ℕ}

theorem ne_zero_of_at {m : Phys} {a : PagePlace} (hown : m.Own R H)
    (hkend : 0 < m.kend) (hq : m.At R H a q) : q ≠ 0 := by
  have := (hown.owned.mem hq).1
  omega

namespace Coherent

theorem mem_roots (hp : s.pagetable p ≠ 0) : s.pagetable p ∈ s.roots := mem_targets hp

theorem mem_held (hp : s.trapframe p ≠ 0) : s.trapframe p ∈ s.held := .inl (mem_targets hp)

/-! ### Changes -/

theorem change (h : Coherent T s) (hown : m'.Own s.roots s.held) (hkend : m'.kend = s.phys.kend)
    (hothers : s.phys.SameLeaves (s.roots \ {s.pagetable p}) m')
    (hspace : s.pagetable p ≠ 0 → m'.Space T (s.pagetable p) (s.trapframe p) sz') :
    Coherent T { s with phys := m', sz := update s.sz p sz' } := by
  refine ⟨hown, hkend ▸ h.kend, h.tables, h.frames, h.apart, fun i hi => ?_⟩
  dsimp only at hi ⊢
  by_cases hip : i = p
  · subst hip
    rw [update_self]
    exact hspace hi
  · rw [update_of_ne hip]
    refine (h.space i hi).congr (hothers _ ⟨mem_roots hi, fun he => hip ?_⟩)
    exact h.tables i p hi he

theorem same (h : Coherent T s) (hown : m'.Own s.roots s.held) (hkend : m'.kend = s.phys.kend)
    (hsame : s.phys.SameLeaves s.roots m') : Coherent T { s with phys := m' } :=
  ⟨hown, hkend ▸ h.kend, h.tables, h.frames, h.apart,
    fun i hi => (h.space i hi).congr (hsame _ (mem_roots hi))⟩

/-- A trap frame and a page table for a slot without memory. -/
theorem setMemory (h : Coherent T s) (hframe : s.trapframe p = 0) (htable : s.pagetable p = 0)
    (hsz : s.sz p = 0) (hown : m'.Own (insert r s.roots) (insert q s.held)) (hq : q ∉ s.held)
    (hr : r ∉ s.roots) (hkend : m'.kend = s.phys.kend) (hsame : s.phys.SameLeaves s.roots m')
    (hspace : m'.Space T r q 0) :
    Coherent T { s with
      phys := m'
      trapframe := update s.trapframe p q
      pagetable := update s.pagetable p r } := by
  have hpos : 0 < m'.kend := hkend ▸ h.kend
  have hq0 : q ≠ 0 := ne_zero_of_at hown hpos (a := .held) (mem_insert q s.held)
  have hr0 : r ≠ 0 := ne_zero_of_at hown hpos (Phys.Own.at_root (mem_insert r s.roots))
  have hframes := targets_update hframe hq0
  refine ⟨?_, hpos, h.tables.update hr, h.frames.update fun hin => hq (.inl hin), fun x hx => ?_,
    fun i hi => ?_⟩
  · rw [roots, held]
    rw [hframes, insert_union, targets_update htable hr0]
    exact hown
  · rw [hframes] at hx
    rcases hx with rfl | hx
    · exact fun hin => hq (.inr hin)
    · exact h.apart x hx
  · dsimp only at hi ⊢
    by_cases hip : i = p
    · subst hip
      rw [update_self, update_self, hsz]
      exact hspace
    · rw [update_of_ne hip] at hi
      rw [update_of_ne hip, update_of_ne hip]
      exact (h.space i hi).congr (hsame _ (mem_roots hi))

theorem replace (h : Coherent T s) (hp : s.pagetable p ≠ 0)
    (hown : m'.Own (insert r s.roots \ {s.pagetable p}) s.held) (hr : r ∉ s.roots)
    (hkend : m'.kend = s.phys.kend)
    (hothers : s.phys.SameLeaves (s.roots \ {s.pagetable p}) m')
    (hspace : m'.Space T r (s.trapframe p) sz') :
    Coherent T { s with
      phys := m'
      pagetable := update s.pagetable p r
      sz := update s.sz p sz' } := by
  have hne : r ≠ s.pagetable p := fun he => hr (he ▸ mem_roots hp)
  have hzero : r ≠ 0 :=
    ne_zero_of_at hown (hkend ▸ h.kend) (Phys.Own.at_root ⟨mem_insert r s.roots, hne⟩)
  refine ⟨?_, hkend ▸ h.kend, h.tables.update hr, h.frames, h.apart, fun i hi => ?_⟩
  · rw [roots]
    rw [targets_replace h.tables hzero hne]
    exact hown
  · dsimp only at hi ⊢
    by_cases hip : i = p
    · subst hip
      rw [update_self, update_self]
      exact hspace
    · rw [update_of_ne hip] at hi
      rw [update_of_ne hip, update_of_ne hip]
      exact (h.space i hi).congr (hothers _ ⟨mem_roots hi, fun he => hip (h.tables i p hi he)⟩)

/-- The memory of a slot goes. -/
theorem clear (h : Coherent T s)
    (hown : m'.Own (s.roots \ {s.pagetable p}) (s.held \ {s.trapframe p}))
    (hkend : m'.kend = s.phys.kend)
    (hothers : s.phys.SameLeaves (s.roots \ {s.pagetable p}) m') :
    Coherent T { s with
      phys := m'
      trapframe := update s.trapframe p 0
      pagetable := update s.pagetable p 0
      sz := update s.sz p 0 } := by
  have hframes := targets_update_null (i := p) h.frames
  refine ⟨?_, hkend ▸ h.kend, h.tables.update_null, h.frames.update_null, fun x hx => ?_,
    fun i hi => ?_⟩
  · -- a trap frame is not a page of another part of the kernel
    have hheld : s.held \ {s.trapframe p} = targets (update s.trapframe p 0) ∪ s.others := by
      rw [hframes, held, union_sdiff_distrib]
      congr 1
      refine sdiff_singleton_eq_self fun hin => ?_
      by_cases hz : s.trapframe p = 0
      · rw [hz] at hin
        exact ne_zero_of_at h.own h.kend (a := .held) (.inr hin) rfl
      · exact h.apart _ (mem_targets hz) hin
    rw [roots, held]
    rw [targets_update_null h.tables, ← hheld]
    exact hown
  · rw [hframes] at hx
    exact h.apart x hx.1
  · dsimp only at hi ⊢
    by_cases hip : i = p
    · subst hip
      rw [update_self] at hi
      exact absurd rfl hi
    · rw [update_of_ne hip] at hi
      rw [update_of_ne hip, update_of_ne hip, update_of_ne hip]
      exact (h.space i hi).congr (hothers _ ⟨mem_roots hi, fun he => hip (h.tables i p hi he)⟩)

end Coherent

/-! ### `freeproc` and `allocproc` -/

section Alloc

open MemM

theorem onPhys_runs {α : Type} {m : VmM α} {Q : α → Phys → Prop} (h : Runs m s.phys Q) :
    Runs (onPhys m) s fun a s' => ∃ m', s' = { s with phys := m' } ∧ Q a m' :=
  h.focus

/-- **`freeproc`** of a slot that has memory, or a part of it, or none, whatever else there is. -/
theorem freeproc_runs (h : s.phys.Own R H) (hkend : 0 < s.phys.kend)
    (hframe : s.trapframe p ≠ 0 → s.trapframe p ∈ H)
    (htable : s.pagetable p ≠ 0 → s.pagetable p ∈ R ∧
      ∃ tf, s.phys.Space T (s.pagetable p) tf (s.sz p)) :
    Runs (freeproc p) s fun _ s' => ∃ m', s' = { s with
        phys := m'
        trapframe := update s.trapframe p 0
        pagetable := update s.pagetable p 0
        sz := update s.sz p 0
        table := s.table.modify p Proc.freeproc } ∧
      m'.Own (R \ {s.pagetable p}) (H \ {s.trapframe p}) ∧
      s.phys.SameLeaves (R \ {s.pagetable p}) m' ∧ s.phys.Kept (H \ {s.trapframe p}) m' := by
  have hgone : Runs (freeTrapframe (s.trapframe p)) s.phys fun _ m' =>
      m'.Own R (H \ {s.trapframe p}) ∧ s.phys.SameLeaves R m' ∧
        s.phys.Kept (H \ {s.trapframe p}) m' := by
    unfold freeTrapframe
    split_ifs with hp
    · refine (h.kfree_runs (hframe hp)).conseq fun _ m' h' => ?_
      exact ⟨h'.1, h'.2.1.leaves, h'.2.2.2⟩
    · rw [not_not] at hp
      rw [hp, sdiff_singleton_eq_self fun hz => ne_zero_of_at h hkend (a := .held) hz rfl]
      exact .pure ⟨h, fun _ _ _ => rfl, .refl H s.phys⟩
  refine .step rfl ((onPhys_runs hgone).bind fun _ s1 h1 => ?_)
  obtain ⟨m1, rfl, hown1, hsame1, hkept1⟩ := h1
  have hgone' : Runs (freePagetable (s.pagetable p) (s.sz p)) m1 fun _ m' =>
      m'.Own (R \ {s.pagetable p}) (H \ {s.trapframe p}) ∧
        m1.SameLeaves (R \ {s.pagetable p}) m' ∧ m1.Kept (H \ {s.trapframe p}) m' := by
    unfold freePagetable
    split_ifs with hp
    · obtain ⟨hin, tf, hspace⟩ := htable hp
      exact hown1.procFreepagetable_runs hin (hspace.congr (hsame1 _ hin))
    · rw [not_not] at hp
      have hzero : 0 ∉ R := fun hz => ne_zero_of_at h hkend (Phys.Own.at_root hz) rfl
      rw [hp, sdiff_singleton_eq_self hzero]
      exact .pure ⟨hown1, fun _ _ _ => rfl, .refl _ m1⟩
  refine .step rfl ?_
  refine (onPhys_runs (s := { s with
    phys := m1, trapframe := update s.trapframe p 0 }) hgone').bind fun _ s2 h2 => ?_
  obtain ⟨m2, rfl, hown2, hsame2, hkept2⟩ := h2
  exact .step rfl ⟨(), _, rfl, m2, rfl, hown2,
    Phys.SameLeaves.trans (fun r hr v => hsame1 r hr.1 v) hsame2, hkept1.trans hkept2⟩

/-- `freeproc` of a slot, when all others are in order. -/
theorem Coherent.freeproc_lives (h : Coherent T s) (p : Fin NPROC)
    (hunused : ∀ i, i ≠ p → (s.table.proc i).state = .unused →
      s.trapframe i = 0 ∧ s.pagetable i = 0 ∧ s.sz i = 0)
    (hlive : ∀ i, i ≠ p → (s.table.proc i).state ≠ .unused →
      s.trapframe i ≠ 0 ∧ s.pagetable i ≠ 0) :
    Runs (freeproc p) s fun _ s' => Lives T s' ∧ ∀ i, i ≠ p → s'.table.proc i = s.table.proc i := by
  refine (freeproc_runs h.own h.kend mem_held fun hp =>
    ⟨mem_roots hp, _, h.space p hp⟩).conseq fun _ s' hs' => ?_
  obtain ⟨m', rfl, hown, hsame, hkept⟩ := hs'
  have hcoh := h.clear hown hkept.kend hsame
  have hother : ∀ i, i ≠ p → (s.table.modify p Proc.freeproc).proc i = s.table.proc i := by
    intro i hi
    rw [ProcTable.modify_proc, if_neg hi]
  have hself : ((s.table.modify p Proc.freeproc).proc p).state = .unused := by
    rw [ProcTable.modify_proc, if_pos rfl]
    rfl
  refine ⟨⟨⟨hcoh.own, hcoh.kend, hcoh.tables, hcoh.frames, hcoh.apart, hcoh.space⟩,
    fun i hi => ?_, fun i hi => ?_⟩, hother⟩
  · by_cases hip : i = p
    · subst hip
      simp only [update_self, and_self]
    · rw [hother i hip] at hi
      simp only [update_of_ne hip]
      exact hunused i hip hi
  · have hip : i ≠ p := fun he => hi (he ▸ hself)
    rw [hother i hip] at hi
    simp only [update_of_ne hip]
    exact hlive i hip hi

/-- A slot that was allocated and freed again. -/
def undo (t : ProcTable) (np : Fin NPROC) : ProcTable := (t.allocproc np).modify np Proc.freeproc

theorem undo_proc (t : ProcTable) (np i : Fin NPROC) :
    (undo t np).proc i = if i = np then ProcTable.blank else t.proc i := by
  unfold undo
  rw [ProcTable.modify_proc]
  split_ifs with hi
  · rfl
  · rw [ProcTable.allocproc_proc, if_neg hi]

/-- What `allocproc` comes to: a slot that was free has a trap frame and an address space without
pages, or all it was given has been taken back. -/
def Allocated (T : ℕ) (R H : Set ℕ) (s : MemKernel) (o : Option (Fin NPROC)) (s' : MemKernel) :
    Prop :=
  s.phys.Kept H s'.phys ∧ s.phys.SameLeaves R s'.phys ∧
    ((o = none ∧ s'.phys.Own R H ∧ (s' = { s with phys := s'.phys } ∨
      ∃ np, (s.table.proc np).state = .unused ∧
        s' = { s with phys := s'.phys, table := undo s.table np })) ∨
    ∃ np q r, o = some np ∧ (s.table.proc np).state = .unused ∧ q ∉ H ∧ r ∉ R ∧
      s'.phys.Own (insert r R) (insert q H) ∧ s'.phys.Space T r q 0 ∧ s' = { s with
        phys := s'.phys
        table := s.table.allocproc np
        trapframe := update s.trapframe np q
        pagetable := update s.pagetable np r })

/-- **`allocproc`**, whatever else there is. -/
theorem allocproc_runs (h : s.phys.Own R H) (hkend : 0 < s.phys.kend)
    (hunused : ∀ i, (s.table.proc i).state = .unused →
      s.trapframe i = 0 ∧ s.pagetable i = 0 ∧ s.sz i = 0) :
    Runs (allocproc T) s (Allocated T R H s) := by
  refine .step rfl ?_
  cases hfind : (List.finRange NPROC).find? fun i => decide ((s.table.proc i).state = .unused) with
  | none => exact .pure ⟨.refl H s.phys, fun _ _ _ => rfl, .inl ⟨rfl, h, .inl rfl⟩⟩
  | some np =>
    have hfound := List.find?_some hfind
    have hnp : (s.table.proc np).state = .unused := of_decide_eq_true hfound
    obtain ⟨hframe, htable, hsz⟩ := hunused np hnp
    have hzero : 0 ∉ R := fun hz => ne_zero_of_at h hkend (Phys.Own.at_root hz) rfl
    -- the way out, with a trap frame or without
    have hback {m1 : Phys} {H1 : Set ℕ} {q : ℕ} (hown : m1.Own R H1) (hkept : s.phys.Kept H m1)
        (hsame : s.phys.SameLeaves R m1) (hq : q ≠ 0 → q ∈ H1) (hH : H1 \ {q} = H) :
        Runs (do freeproc np; pure none) { s with
          phys := m1
          table := s.table.allocproc np
          trapframe := update s.trapframe np q } (Allocated T R H s) := by
      refine (freeproc_runs (T := T) (s := { s with
          phys := m1
          table := s.table.allocproc np
          trapframe := update s.trapframe np q }) hown (hkept.kend ▸ hkend) (fun hz => ?_)
        fun hz => absurd htable hz).bind fun _ s2 h2 => ?_
      · dsimp only at hz ⊢
        rw [update_self] at hz ⊢
        exact hq hz
      · obtain ⟨m2, rfl, hown2, hsame2, hkept2⟩ := h2
        dsimp only at hown2 hsame2 hkept2 ⊢
        rw [htable, sdiff_singleton_eq_self hzero] at hown2 hsame2
        rw [update_self, hH] at hown2 hkept2
        refine .pure ⟨hkept.trans hkept2, hsame.trans hsame2, .inl ⟨rfl, hown2, .inr ⟨np, hnp, ?_⟩⟩⟩
        rw [update_idem, ← hframe, update_eq_self, hframe, ← htable,
          update_eq_self, htable, ← hsz, update_eq_self]
        rfl
    refine .step rfl ?_
    refine (onPhys_runs (s := { s with table := s.table.allocproc np })
      h.kalloc_runs).bind fun o s1 h1 => ?_
    obtain ⟨m1, rfl, hsame, -, hkept, ⟨rfl, hown, -, -⟩ | ⟨q, rfl, hin, -, hown⟩⟩ := h1
    · refine .step rfl (hback hown hkept hsame.leaves (absurd rfl) ?_)
      exact sdiff_singleton_eq_self fun hz => ne_zero_of_at h hkend (a := .held) hz rfl
    have hfresh : q ∉ H := h.not_held_of_free hin
    have hsub : H ⊆ insert q H := subset_insert q H
    refine .step rfl ?_
    refine (onPhys_runs (s := { s with
      table := s.table.allocproc np, phys := m1, trapframe := update s.trapframe np q })
      (hown.procPagetable_runs T q)).bind fun o s2 h2 => ?_
    obtain ⟨m2, rfl, hkept2, hsame2, ⟨rfl, hown2⟩ | ⟨r, rfl, hr, hown2, hspace⟩⟩ := h2
    · refine .step rfl ?_
      have hnull : update s.pagetable np 0 = s.pagetable := by
        rw [← htable, update_eq_self]
      dsimp only [Option.getD_none]
      rw [hnull]
      exact hback hown2 (hkept.trans (hkept2.mono hsub)) (hsame.leaves.trans hsame2)
        (fun _ => mem_insert q H) (Phys.insert_sdiff_self_of_notMem hfresh)
    · exact .step rfl (.pure ⟨hkept.trans (hkept2.mono hsub), hsame.leaves.trans hsame2,
        .inr ⟨np, q, r, rfl, hnp, hfresh, hr, hown2, hspace, rfl⟩⟩)

/-- `allocproc` among the processes. -/
theorem Lives.allocproc_runs (h : Lives T s) :
    Runs (allocproc T) s fun o s' => Lives T s' ∧
      (∀ i, (s.table.proc i).state ≠ .unused → s'.table.proc i = s.table.proc i) ∧
      ∀ np, o = some np → (s.table.proc np).state = .unused ∧
        (s'.table.proc np).state ≠ .unused ∧ s'.sz np = 0 := by
  refine (MemKernel.allocproc_runs h.own h.kend h.unused).conseq fun o s' h' => ?_
  obtain ⟨hkept, hsame, ⟨rfl, hown, he⟩ | ⟨np, q, r, rfl, hnp, hq, hr, hown, hspace, he⟩⟩ := h'
  · have h1 := h.same hown hkept.kend hsame
    rcases he with he | ⟨np, hnp, he⟩
    · rw [he]
      exact ⟨⟨h1, h.unused, h.live⟩, fun _ _ => rfl, nofun⟩
    · rw [he]
      have hstate (i : Fin NPROC) :
          ((undo s.table np).proc i).state = .unused ↔ (s.table.proc i).state = .unused := by
        rw [undo_proc]
        split_ifs with hi
        · rw [hi]
          exact iff_of_true rfl hnp
        · rfl
      refine ⟨⟨⟨h1.own, h1.kend, h1.tables, h1.frames, h1.apart, h1.space⟩, fun i hi =>
        h.unused i ((hstate i).1 hi), fun i hi => h.live i fun hi' => hi ((hstate i).2 hi')⟩,
        fun i hi => ?_, nofun⟩
      rw [undo_proc, if_neg fun hinp : i = np => hi (hinp ▸ hnp)]
  · obtain ⟨hframe, htable, hsz⟩ := h.unused np hnp
    have h1 := h.setMemory hframe htable hsz hown hq hr hkept.kend hsame hspace
    have hpos : 0 < s'.phys.kend := hkept.kend ▸ h.kend
    have hother : ∀ i, i ≠ np → (s.table.allocproc np).proc i = s.table.proc i := by
      intro i hi
      rw [ProcTable.allocproc_proc, if_neg hi]
    have hself : ((s.table.allocproc np).proc np).state ≠ .unused := by
      rw [ProcTable.allocproc_proc, if_pos rfl]
      exact nofun
    rw [he]
    refine ⟨⟨⟨h1.own, h1.kend, h1.tables, h1.frames, h1.apart, h1.space⟩, fun i hi => ?_,
      fun i hi => ?_⟩, fun i hi => hother i fun hinp => hi (hinp ▸ hnp), fun np' hnp' => ?_⟩
    · dsimp only at hi ⊢
      have hinp : i ≠ np := fun he => hself (he ▸ hi)
      rw [hother i hinp] at hi
      rw [update_of_ne hinp, update_of_ne hinp]
      exact h.unused i hi
    · dsimp only at hi ⊢
      by_cases hinp : i = np
      · subst hinp
        rw [update_self, update_self]
        exact ⟨ne_zero_of_at hown hpos (a := .held) (mem_insert q s.held),
          ne_zero_of_at hown hpos (Phys.Own.at_root (mem_insert r s.roots))⟩
      · rw [hother i hinp] at hi
        rw [update_of_ne hinp, update_of_ne hinp]
        exact h.live i hi
    · cases hnp'
      exact ⟨hnp, hself, hsz⟩

end Alloc

/-! ### The operations -/

section Ops

open MemM

theorem Lives.of_coherent (h : Lives T s) (h' : Coherent T s')
    (hstate : ∀ i, (s'.table.proc i).state = .unused ↔ (s.table.proc i).state = .unused)
    (hframe : s'.trapframe = s.trapframe)
    (htable : ∀ i, s'.pagetable i = 0 ↔ s.pagetable i = 0)
    (hsz : ∀ i, (s.table.proc i).state = .unused → s'.sz i = s.sz i) : Lives T s' := by
  refine ⟨h', fun i hi => ?_, fun i hi => ?_⟩
  · rw [hstate i] at hi
    rw [hframe, htable i, hsz i hi]
    exact h.unused i hi
  · rw [ne_eq, hstate i] at hi
    rw [hframe, ne_eq, ne_eq, htable i]
    exact h.live i hi

theorem Lives.within (h : Lives T s) {lo : ℕ} (hp : s.pagetable p ≠ 0)
    (hown : m'.Own s.roots s.held) (hkend : m'.kend = s.phys.kend)
    (honly : s.phys.Only s.roots (s.pagetable p) lo (Cinux.pages (s.sz p)) m') :
    Lives T { s with phys := m' } := by
  have hspace := h.space p hp
  have h' := h.change hown hkend honly.others fun _ =>
    hspace.of_only (Coherent.mem_roots hp) honly le_rfl hspace.size
  rw [update_eq_self] at h'
  exact h.of_coherent h' (fun _ => Iff.rfl) rfl (fun _ => Iff.rfl) fun _ _ => rfl

theorem setUser_same (s : MemKernel) (p : Fin NPROC) (z : ℕ) :
    setUser p ⟨s.pagetable p, z⟩ s = .ok ((), { s with sz := update s.sz p z }) := by
  unfold setUser
  rw [update_eq_self]

theorem copyTrapframe_runs {m : Phys} (h : m.Own R H) (dst src : ℕ) :
    Runs (copyTrapframe dst src) m fun _ m' =>
      m'.Own R H ∧ m.SameLeaves R m' ∧ m'.kend = m.kend := by
  obtain ⟨hown, hsame⟩ : Phys.Own R H ((m.storeBytes dst 0
      ((List.range trapframeSize).map (m.data src))).storeBytes dst 112 (leBytes 8 0)) ∧
    Phys.SameTrees R m ((m.storeBytes dst 0
      ((List.range trapframeSize).map (m.data src))).storeBytes dst 112 (leBytes 8 0)) :=
    h.same_pt rfl rfl rfl
  exact ⟨(), _, rfl, hown, hsame.leaves, rfl⟩

/-- **`kfork`.** -/
theorem Lives.kfork_runs (h : Lives T s) (hp : (s.table.proc p).state ≠ .unused) :
    Runs (kfork T p) s fun _ s' => Lives T s' := by
  refine h.allocproc_runs.bind fun o s1 h1 => ?_
  obtain ⟨h1, hkeep, hnew⟩ := h1
  cases o with
  | none => exact .pure h1
  | some np =>
    obtain ⟨hfree, hused, hsz⟩ := hnew np rfl
    have hp1 : s1.pagetable p ≠ 0 := (h1.live p (by rw [hkeep p hp]; exact hp)).2
    have hnp : s1.pagetable np ≠ 0 := (h1.live np hused).2
    have hspace := h1.space np hnp
    rw [hsz] at hspace
    have hnone : ∀ v, v < userPages → s1.phys.leaf (s1.pagetable np) v = none := fun v hv =>
      hspace.none v (by rw [show pages 0 = 0 by decide]; exact Nat.zero_le v) hv
    have hsize := (h1.space p hp1).size
    refine .step rfl ?_
    have hne : s1.pagetable p ≠ s1.pagetable np := fun he =>
      hp (h1.tables p np hp1 he ▸ hfree)
    refine (onPhys_runs (h1.own.uvmcopy_both_runs (mem_targets hp1) (mem_targets hnp) hne hsize
      hnone)).bind fun ok s2 h2 => ?_
    obtain ⟨m2, rfl, hown, hkept, ⟨rfl, hsame⟩ | ⟨rfl, honly⟩⟩ := h2
    · refine ((h1.same hown hkept.kend hsame).freeproc_lives np (fun i _ => h1.unused i)
        fun i _ => h1.live i).bind fun _ s3 h3 => .pure h3.1
    have h2 := h1.change hown hkept.kend honly.others fun _ =>
      hspace.of_only (mem_targets hnp) honly (Nat.zero_le _) hsize
    refine .step (setUser_same { s1 with phys := m2 } np (s1.sz p)) ?_
    refine (onPhys_runs (copyTrapframe_runs h2.own _ _)).bind fun _ s3 h3 => ?_
    obtain ⟨m3, rfl, hown3, hsame3, hkend3⟩ := h3
    have h3 := h2.same hown3 hkend3 hsame3
    refine .step rfl (.pure ?_)
    refine h1.of_coherent ⟨h3.own, h3.kend, h3.tables, h3.frames, h3.apart, h3.space⟩
      (fun i => ?_) rfl (fun _ => Iff.rfl) fun i hi => ?_
    · rw [ProcTable.modify_proc]
      split_ifs with hi
      · rw [hi]
        exact iff_of_false nofun hused
      · exact Iff.rfl
    · have hne : i ≠ np := fun he => hused (he ▸ hi)
      exact update_of_ne hne _ _

/-- **`kexec`.** -/
theorem Lives.kexec_runs (h : Lives T s) (hp : (s.table.proc p).state ≠ .unused)
    (ip : Option Image) (argv : Argv) : Runs (kexec T p ip argv) s fun _ s' => Lives T s' := by
  have hpt := (h.live p hp).2
  refine .step rfl ?_
  refine (onPhys_runs (h.own.kexec_runs (p := ⟨s.pagetable p, s.sz p⟩) (mem_targets hpt)
    (h.space p hpt) ip argv)).bind fun out s1 h1 => ?_
  obtain ⟨argc, u⟩ := out
  obtain ⟨m1, rfl, hkend, ⟨hu, hown, hsame⟩ | ⟨hr, hown, hspace, hothers⟩⟩ := h1
  · have h1 := h.same hown hkend hsame
    subst hu
    refine .step (setUser_same { s with phys := m1 } p (s.sz p)) (.pure ?_)
    rw [update_eq_self]
    exact h.of_coherent h1 (fun _ => Iff.rfl) rfl (fun _ => Iff.rfl) fun _ _ => rfl
  · have h1 := h.replace hpt hown hr hkend hothers hspace
    have hzero : u.pagetable ≠ 0 :=
      ne_zero_of_at hown (hkend ▸ h.kend) (Phys.Own.at_root ⟨mem_insert _ s.roots, fun he =>
        hr (by rw [show u.pagetable = s.pagetable p from he]; exact mem_targets hpt)⟩)
    refine .step rfl (.pure ?_)
    refine h.of_coherent h1 (fun _ => Iff.rfl) rfl (fun i => ?_) fun i hi => ?_
    · dsimp only
      by_cases hip : i = p
      · subst hip
        rw [update_self]
        exact iff_of_false hzero hpt
      · rw [update_of_ne hip]
    · have hip : i ≠ p := fun he => hp (he ▸ hi)
      exact update_of_ne hip _ _

/-- **`sys_sbrk`.** -/
theorem Lives.sysSbrk_runs (h : Lives T s) (hp : (s.table.proc p).state ≠ .unused) (a0 a1 : ℕ) :
    Runs (sysSbrk p a0 a1) s fun _ s' => Lives T s' := by
  have hpt := (h.live p hp).2
  refine .step rfl ?_
  refine (onPhys_runs (h.own.sysSbrk_runs (p := ⟨s.pagetable p, s.sz p⟩) (mem_targets hpt)
    (h.space p hpt) a0 a1)).bind fun out s1 h1 => ?_
  obtain ⟨ret, u⟩ := out
  obtain ⟨r, z⟩ := u
  obtain ⟨m1, rfl, hown, hkept, hr, hspace, hothers⟩ := h1
  subst hr
  have h1 := h.change hown hkept.kend hothers fun _ => hspace
  refine .step (setUser_same { s with phys := m1 } p z) (.pure ?_)
  refine h.of_coherent h1 (fun _ => Iff.rfl) rfl (fun _ => Iff.rfl) fun i hi => ?_
  have hip : i ≠ p := fun he => hp (he ▸ hi)
  exact update_of_ne hip _ _

/-- **`vmfault`.** -/
theorem Lives.vmfault_runs (h : Lives T s) (hp : (s.table.proc p).state ≠ .unused) (va : ℕ) :
    Runs (vmfault p va) s fun _ s' => Lives T s' := by
  have hpt := (h.live p hp).2
  refine .step rfl ?_
  refine (onPhys_runs (h.own.vmfault_runs (mem_targets hpt) (h.space p hpt).size va)).conseq
    fun _ s1 h1 => ?_
  obtain ⟨m1, rfl, hown, hkept, honly⟩ := h1
  exact h.within hpt hown hkept.kend honly

/-- **`kexit`**, which `init` does not survive. -/
theorem Lives.kexit_runs (h : Lives T s) (hp : (s.table.proc p).state ≠ .unused) (status : ℤ)
    (hinit : p ≠ initproc) : Runs (kexit p status) s fun _ s' => Lives T s' := by
  refine .step rfl ?_
  cases ht : s.table.kexit p status with
  | none => simp [ProcTable.kexit, hinit] at ht
  | some t =>
    have hexit := ProcTable.exited_of_kexit ht
    refine ⟨(), _, rfl, ?_⟩
    refine h.of_coherent ⟨h.own, h.kend, h.tables, h.frames, h.apart, h.space⟩ (fun i => ?_) rfl
      (fun _ => Iff.rfl) fun _ _ => rfl
    by_cases hip : i = p
    · subst hip
      rw [hexit.self]
      exact iff_of_false (by simp) hp
    · -- the others are woken up at most
      rcases hexit.other i hip with he | ⟨hsleep, he⟩
      · rw [he]
        rfl
      · rw [he]
        refine iff_of_false (by simp) fun hun => ?_
        rw [show (s.table.proc i).state = .sleeping from hsleep] at hun
        cases hun

theorem Coherent.copyStatus_runs (h : Coherent T s) (hpt : s.pagetable p ≠ 0) (addr : ℕ)
    (xstate : ℤ) :
    Runs (copyStatus ⟨s.pagetable p, s.sz p⟩ addr xstate) s.phys fun _ m' =>
      m'.Own s.roots s.held ∧ m'.kend = s.phys.kend ∧
        s.phys.Only s.roots (s.pagetable p) 0 (Cinux.pages (s.sz p)) m' := by
  unfold copyStatus
  split_ifs
  · exact h.own.copyout_runs (mem_targets hpt) (h.space p hpt).size
  · exact .pure ⟨h.own, rfl, fun _ _ _ _ => rfl⟩

/-- **The loop of `kwait`.** -/
theorem Lives.kwaitScan_runs (h : Lives T s) (hp : (s.table.proc p).state ≠ .unused) (addr : ℕ)
    (l : List (Fin NPROC)) (havekids : Bool) :
    Runs (kwaitScan p addr l havekids) s fun _ s' => Lives T s' := by
  have hpt := (h.live p hp).2
  induction l generalizing havekids with
  | nil => exact .step rfl (.pure h)
  | cons pp l ih =>
    refine .step rfl ?_
    by_cases hparent : (s.table.proc pp).parent = some p
    · rw [if_pos hparent]
      by_cases hzombie : (s.table.proc pp).state = .zombie
      · rw [if_pos hzombie]
        refine (onPhys_runs (h.copyStatus_runs hpt addr (s.table.proc pp).xstate)).bind
          fun ok s1 h1 => ?_
        obtain ⟨m1, rfl, hown, hkend, honly⟩ := h1
        have h1 := h.within hpt hown hkend honly
        cases ok with
        | false => exact .pure h1
        | true =>
          exact (h1.freeproc_lives pp (fun i _ => h1.unused i) fun i _ => h1.live i).bind
            fun _ s2 h2 => .pure h2.1
      · rw [if_neg hzombie]
        exact ih true
    · rw [if_neg hparent]
      exact ih havekids

/-- **`kalloc`** by another part of the kernel. -/
theorem Lives.kallocOther_runs (h : Lives T s) : Runs kallocOther s fun _ s' => Lives T s' := by
  refine (onPhys_runs h.own.kalloc_runs).bind fun o s1 h1 => ?_
  obtain ⟨m1, rfl, hsame, htakes, -, ⟨rfl, hown, -, -⟩ | ⟨q, rfl, hin, -, hown⟩⟩ := h1
  · exact .pure (h.of_coherent (h.same hown htakes.kend hsame.leaves) (fun _ => Iff.rfl) rfl
      (fun _ => Iff.rfl) fun _ _ => rfl)
  have hfresh : q ∉ s.held :=
    h.own.not_held_of_free hin
  refine ⟨(), _, rfl, h.of_coherent ⟨?_, htakes.kend ▸ h.kend, h.tables, h.frames, fun x hx => ?_,
    fun i hi => (h.space i hi).congr (hsame.leaves _ (mem_targets hi))⟩ (fun _ => Iff.rfl) rfl
    (fun _ => Iff.rfl) fun _ _ => rfl⟩
  · rw [held]
    rw [Finset.coe_insert, union_insert]
    exact hown
  · rw [Finset.mem_insert, not_or]
    exact ⟨fun he => hfresh (.inl (he ▸ hx)), h.apart x hx⟩

/-- **`kfree`** by another part of the kernel. -/
theorem Lives.kfreeOther_runs (h : Lives T s) (hq : q ∈ s.others) :
    Runs (kfreeOther q) s fun _ s' => Lives T s' := by
  have hheld : q ∈ s.held := .inr hq
  refine (onPhys_runs (h.own.kfree_runs hheld)).bind fun _ s1 h1 => ?_
  obtain ⟨m1, rfl, hown, hsame, -, hkend, -⟩ := h1
  refine ⟨(), _, rfl, h.of_coherent ⟨?_, hkend ▸ h.kend, h.tables, h.frames, fun x hx => ?_,
    fun i hi => (h.space i hi).congr (hsame.leaves _ (mem_targets hi))⟩ (fun _ => Iff.rfl) rfl
    (fun _ => Iff.rfl) fun _ _ => rfl⟩
  · have hframe : q ∉ targets s.trapframe := fun hin => h.apart q hin hq
    rw [held, union_sdiff_distrib, sdiff_singleton_eq_self hframe] at hown
    rw [held]
    rw [Finset.coe_erase]
    exact hown
  · exact fun hin => h.apart x hx (Finset.mem_of_mem_erase hin)

end Ops

/-- **The start.** -/
theorem lives_of_boots (h : s.Boots) : Lives T s := by
  obtain ⟨⟨m, hpos, hle, hfree, hinit⟩, htable, hframe, hpagetable, hsz, hothers⟩ := h
  obtain ⟨_, m', hinit', hown, hkend, -, -⟩ := Phys.Own.kinit_runs hle hfree
  obtain ⟨-, rfl⟩ := Program.ok_inj (hinit'.symm.trans hinit)
  have hroots : s.roots = ∅ := by rw [roots, hpagetable, targets_null]
  have hheld : s.held = ∅ := by
    rw [held, hframe, targets_null, hothers, Finset.coe_empty, union_empty]
  refine ⟨⟨?_, hkend ▸ hpos, ?_, ?_, ?_, ?_⟩, fun p _ => ?_, fun p hp => ?_⟩
  · rw [hroots, hheld]
    exact hown
  · rw [hpagetable]
    exact fun _ _ h0 => absurd rfl h0
  · rw [hframe]
    exact fun _ _ h0 => absurd rfl h0
  · rw [hothers]
    exact fun q _ => Finset.notMem_empty q
  · rw [hpagetable]
    exact fun _ h0 => absurd rfl h0
  · rw [hframe, hpagetable, hsz]
    exact ⟨rfl, rfl, rfl⟩
  · rw [htable] at hp
    exact absurd rfl hp

open MemM in
theorem Lives.userinit_cases (h : Lives T s) :
    (∃ s', userinit T s = .ok ((), s') ∧ Lives T s') ∨
      userinit T s = .error (.panic "kerneltrap") := by
  obtain ⟨o, s1, hrun, h1, -, hnew⟩ := h.allocproc_runs
  unfold userinit
  rw [Program.bind_ok hrun]
  cases o with
  | none => exact .inr rfl
  | some p =>
    obtain ⟨-, hused, -⟩ := hnew p rfl
    refine .inl ⟨_, rfl, h1.of_coherent ⟨h1.own, h1.kend, h1.tables, h1.frames, h1.apart, h1.space⟩
      (fun i => ?_) rfl (fun _ => Iff.rfl) fun _ _ => rfl⟩
    rw [ProcTable.modify_proc]
    split_ifs with hi
    · rw [hi]
      exact iff_of_false nofun hused
    · exact Iff.rfl

theorem Lives.runs_unit {α : Type} {m : MemM α} (h : Runs m s fun _ s' => Lives T s') :
    ∃ s', (do let _ ← m : MemM Unit) s = .ok ((), s') ∧ Lives T s' := by
  obtain ⟨a, s', hrun, h'⟩ := h
  exact ⟨s', Program.bind_ok hrun, h'⟩

/-- **An operation** returns and keeps the memory of processes in order, but for the end of
`init`, and the first process when there is no memory. -/
theorem Lives.exec_cases (h : Lives T s) {op : MemOp} (hop : op.Enabled s) :
    (∃ s', op.exec T s = .ok ((), s') ∧ Lives T s') ∨
      (op = .userinit ∧ op.exec T s = .error (.panic "kerneltrap")) ∨
      (∃ status, op = .kexit initproc status ∧ op.exec T s = .error (.panic "init exiting")) := by
  cases op with
  | userinit => exact h.userinit_cases.imp_right fun he => .inl ⟨rfl, he⟩
  | kfork p => exact .inl (runs_unit (h.kfork_runs hop.1))
  | kexec p ip argv => exact .inl (runs_unit (h.kexec_runs hop.1 ip argv))
  | sbrk p a0 a1 => exact .inl (runs_unit (h.sysSbrk_runs hop.1 a0 a1))
  | vmfault p va => exact .inl (runs_unit (h.vmfault_runs hop.1 va))
  | kexit p status =>
    by_cases hp : p = initproc
    · subst hp
      exact .inr (.inr ⟨status, rfl, rfl⟩)
    · obtain ⟨_, s', hrun, h'⟩ := h.kexit_runs hop.1 status hp
      exact .inl ⟨s', hrun, h'⟩
  | kwait p addr => exact .inl (runs_unit (h.kwaitScan_runs hop.1 addr _ _))
  | kalloc =>
    obtain ⟨_, s', hrun, h'⟩ := h.kallocOther_runs
    exact .inl ⟨s', hrun, h'⟩
  | kfree q =>
    obtain ⟨_, s', hrun, h'⟩ := h.kfreeOther_runs hop
    exact .inl ⟨s', hrun, h'⟩

theorem lives_of_reachable (h : (memMachine T).Reachable s) : Lives T s := by
  refine h.invariant (I := Lives T) (fun s hs => lives_of_boots hs) fun s op s' hs hstep => ?_
  obtain ⟨hop, hrun⟩ := hstep
  rcases hs.exec_cases hop with ⟨s1, hrun1, h1⟩ | ⟨-, herr⟩ | ⟨_, -, herr⟩
  · obtain ⟨-, rfl⟩ := Program.ok_inj (hrun1.symm.trans hrun)
    exact h1
  · rw [herr] at hrun
    cases hrun
  · rw [herr] at hrun
    cases hrun

end MemKernel

/-- Who may own a page. -/
inductive PageOwner where
  | free
  /-- Table `k` of depth `d` of the page table of process `p`. -/
  | table (p : Fin NPROC) (d k : ℕ)
  /-- Virtual page `v`, below `TRAPFRAME`, of process `p`. -/
  | user (p : Fin NPROC) (v : ℕ)
  | trapframe (p : Fin NPROC)
  /-- Another part of the kernel. -/
  | kernel

namespace MemKernel

variable {T : ℕ} {s : MemKernel}

/-- `o` owns page `q`. -/
def Owns (s : MemKernel) : PageOwner → ℕ → Prop
  | .free, q => q ∈ s.phys.free
  | .table p d k, q => (s.table.proc p).state ≠ .unused ∧ d ≤ 2 ∧
      s.phys.table (s.pagetable p) d k = some q
  | .user p v, q => (s.table.proc p).state ≠ .unused ∧ v < userPages ∧
      ∃ e, s.phys.leaf (s.pagetable p) v = some e ∧ e.page = q
  | .trapframe p, q => (s.table.proc p).state ≠ .unused ∧ s.trapframe p = q
  | .kernel, q => q ∈ s.others

theorem Lives.ne_zero_iff (h : Lives T s) (p : Fin NPROC) :
    (s.pagetable p ≠ 0 ↔ (s.table.proc p).state ≠ .unused) ∧
      (s.trapframe p ≠ 0 ↔ (s.table.proc p).state ≠ .unused) := by
  by_cases hp : (s.table.proc p).state = .unused
  · obtain ⟨hf, hpt, -⟩ := h.unused p hp
    exact ⟨iff_of_false (not_not.2 hpt) (not_not.2 hp), iff_of_false (not_not.2 hf) (not_not.2 hp)⟩
  · obtain ⟨hf, hpt⟩ := h.live p hp
    exact ⟨iff_of_true hpt hp, iff_of_true hf hp⟩

/-- The place of an owner. -/
def place (s : MemKernel) : PageOwner → PagePlace
  | .free => .free
  | .table p d k => .table (s.pagetable p) d k
  | .user p v => .page (s.pagetable p) v
  | .trapframe _ => .held
  | .kernel => .held

theorem leaf_page {m : Phys} {r v q : ℕ} :
    m.table r 3 v = some q ↔ ∃ e, m.leaf r v = some e ∧ e.page = q := by
  rw [Phys.table_succ, Option.map_eq_some_iff]
  rfl

theorem Lives.at_place (h : Lives T s) {o : PageOwner} {q : ℕ} (ho : s.Owns o q) :
    s.phys.At s.roots s.held (s.place o) q := by
  cases o with
  | free => exact ho
  | table p d k =>
    obtain ⟨hp, hd, ht⟩ := ho
    exact ⟨mem_targets ((h.ne_zero_iff p).1.2 hp), hd, ht⟩
  | user p v =>
    obtain ⟨hp, hv, he⟩ := ho
    exact ⟨mem_targets ((h.ne_zero_iff p).1.2 hp), hv, leaf_page.2 he⟩
  | trapframe p =>
    obtain ⟨hp, rfl⟩ := ho
    exact .inl (mem_targets ((h.ne_zero_iff p).2.2 hp))
  | kernel => exact .inr ho

/-- **Owners are owners**: the places of `Own` have names. -/
theorem Lives.owned (h : Lives T s) : Owned s.Owns s.phys.Managed := by
  have hroot : ∀ {r}, r ∈ s.roots → ∃ p, (s.table.proc p).state ≠ .unused ∧ s.pagetable p = r := by
    rintro r ⟨hr, p, rfl⟩
    exact ⟨p, (h.ne_zero_iff p).1.1 hr, rfl⟩
  refine ⟨fun {q o o'} ho ho' => ?_, fun q => ⟨?_, fun hq => ?_⟩⟩
  · have hplace := h.own.owned.unique (h.at_place ho) (h.at_place ho')
    have htable : ∀ {p p'}, (s.table.proc p).state ≠ .unused → s.pagetable p = s.pagetable p' →
        p = p' := fun {p p'} hp he => h.tables p p' ((h.ne_zero_iff p).1.2 hp) he
    cases o with
    | free => cases o' <;> first | rfl | cases hplace
    | table p d k =>
      cases o' with
      | table p' d' k' =>
        obtain ⟨hr, rfl, rfl⟩ := PagePlace.table.inj hplace
        rw [htable ho.1 hr]
      | _ => cases hplace
    | user p v =>
      cases o' with
      | user p' v' =>
        obtain ⟨hr, rfl⟩ := PagePlace.page.inj hplace
        rw [htable ho.1 hr]
      | _ => cases hplace
    | trapframe p =>
      have hp := (h.ne_zero_iff p).2.2 ho.1
      cases o' with
      | trapframe p' => rw [h.frames p p' hp (ho.2.trans ho'.2.symm)]
      | kernel => exact absurd ho' (ho.2 ▸ h.apart _ (mem_targets hp))
      | _ => cases hplace
    | kernel =>
      cases o' with
      | trapframe p' =>
        exact absurd ho (ho'.2 ▸ h.apart _ (mem_targets ((h.ne_zero_iff p').2.2 ho'.1)))
      | kernel => rfl
      | _ => cases hplace
  · rintro ⟨o, ho⟩
    exact h.own.owned.mem (h.at_place ho)
  · obtain ⟨a, ha⟩ := (h.own.owned.covers q).2 hq
    cases a with
    | free => exact ⟨.free, ha⟩
    | held =>
      rcases ha with ⟨hz, p, rfl⟩ | hin
      · exact ⟨.trapframe p, (h.ne_zero_iff p).2.1 hz, rfl⟩
      · exact ⟨.kernel, hin⟩
    | table r d k =>
      obtain ⟨hr, hd, ht⟩ := ha
      obtain ⟨p, hp, rfl⟩ := hroot hr
      exact ⟨.table p d k, hp, hd, ht⟩
    | page r v =>
      obtain ⟨hr, hv, ht⟩ := ha
      obtain ⟨p, hp, rfl⟩ := hroot hr
      exact ⟨.user p v, hp, hv, leaf_page.1 ht⟩

end MemKernel

/-- **Every page has exactly one owner**, whatever processes do and whatever calls of `kalloc` fail:
a page of the allocator's range is once on the free list, or one table of one process, or one user
page of one process, or the trap frame of one process, or with another part of the kernel.  User
pages are below the size of their process.  No operation stops, so none of its panics is reached,
but for the end of `init`, and a first process for which there is no memory. -/
theorem pages_have_one_owner {T : ℕ} {s : MemKernel} (h : (memMachine T).Reachable s) :
    (∀ q, s.phys.Managed q → ∃! o, s.Owns o q) ∧ (∀ o q, s.Owns o q → s.phys.Managed q) ∧
      s.phys.free.Nodup ∧
      (∀ p, (s.table.proc p).state ≠ .unused → ∀ v < userPages,
        s.phys.leaf (s.pagetable p) v ≠ none → v * PGSIZE < pgroundup (s.sz p)) ∧
      ∀ op : MemOp, op.Enabled s → (∃ s', op.exec T s = .ok ((), s')) ∨
        (op = .userinit ∧ op.exec T s = .error (.panic "kerneltrap")) ∨
        ∃ status, op = .kexit initproc status ∧ op.exec T s = .error (.panic "init exiting") := by
  have hl := MemKernel.lives_of_reachable h
  refine ⟨fun q hq => hl.owned.existsUnique hq, fun o q ho => hl.owned.mem ho, hl.own.nodup,
    fun p hp v hv hleaf => ?_, fun op hop => ?_⟩
  · have hspace := hl.space p (hl.live p hp).2
    rw [pgroundup_eq hspace.size]
    refine Nat.mul_lt_mul_of_pos_right ?_ (by decide)
    by_contra hge
    exact hleaf (hspace.none v (not_lt.1 hge) hv)
  · refine (hl.exec_cases hop).imp_left fun ⟨s', hrun, _⟩ => ⟨s', hrun⟩

/-- The kernel of `sixteenPages` after `kinit`. -/
def bootKernel : MemKernel where
  phys :=
    match VmM.kinit sixteenPages with
    | .ok (_, m) => m
    | .error _ => sixteenPages
  table := ⟨fun _ => ProcTable.blank, 1⟩
  trapframe _ := 0
  pagetable _ := 0
  sz _ := 0
  others := ∅

theorem bootKernel_boots : bootKernel.Boots := by
  obtain ⟨_, m, hinit, -⟩ := Phys.Own.kinit_runs (m := sixteenPages) (by decide) rfl
  refine ⟨⟨sixteenPages, by decide, by decide, rfl, ?_⟩, rfl, rfl, rfl, rfl, rfl⟩
  rw [hinit]
  have hphys : bootKernel.phys = m := by
    unfold bootKernel
    rw [hinit]
  rw [hphys]

theorem boots (T : ℕ) : (memMachine T).Reachable bootKernel := .start bootKernel_boots

/-- With a process of one page and its child. -/
theorem pages_have_one_owner_kfork : ∃ s : MemKernel, ∃ child, s.sz initproc = 4096 ∧
    (s.table.proc child).state = .runnable ∧ s.sz child = 4096 ∧ child ≠ initproc ∧
    ∀ q, s.phys.Managed q → ∃! o, s.Owns o q := by
  obtain ⟨s, hs, hinit, hrun, hsz⟩ := (boots 1).play (MemKernel.next 1)
    [.userinit, .sbrk initproc 4096 1, .kfork initproc]
    (P := fun s => s.sz initproc = 4096 ∧ (s.table.proc ⟨1, by decide⟩).state = .runnable ∧
      s.sz ⟨1, by decide⟩ = 4096) (by decide +kernel)
  exact ⟨s, _, hinit, hrun, hsz, by decide, (pages_have_one_owner hs).1⟩

end Cinux
