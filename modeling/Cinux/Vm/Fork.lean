import Cinux.Fs.Kernel
import Cinux.Vm.PageOwners

/-!
# Fork copies memory exactly or not at all

`uvmcopy` gives the child a copy of every page of the parent, in a page that was free, and nothing
where the parent has nothing.  If memory runs out it takes back the pages it has made, and `kfork`
gives back the rest: the trap frame, the page table, the slot.

* `MemKernel.Tidy` : a free slot has the fields that `freeproc` leaves;
* `MemKernel.Lives.kfork_none` : what a failed `kfork` has changed;
* `fork_copies_exactly_or_not_at_all` : the result;
* `kfork_agrees` : `kfork` for the memory and `kfork` for the files.
-/

namespace Cinux

open Function

open Program

/-! ### Free slots -/

/-- Free slots have the fields that `freeproc` leaves. -/
def ProcTable.Tidy (t : ProcTable) : Prop :=
  ∀ i, (t.proc i).state = .unused → t.proc i = ProcTable.blank

namespace ProcTable

variable {t t' : ProcTable} {i np p : Fin NPROC}

theorem Tidy.modify {f : Proc → Proc} (h : t.Tidy)
    (hf : (f (t.proc i)).state ≠ .unused ∨ f (t.proc i) = blank) : (t.modify i f).Tidy := by
  intro j hj
  rw [modify_proc] at hj ⊢
  split_ifs at hj ⊢ with hij
  · exact hf.resolve_left fun hne => hne hj
  · exact h j hj

theorem Tidy.allocproc (h : t.Tidy) (np : Fin NPROC) : (t.allocproc np).Tidy :=
  h.modify (f := fun x => { x with pid := t.nextpid, state := .used }) (.inl nofun)

theorem Tidy.kexit {status : ℤ} (h : t.Tidy) (hexit : t.kexit p status = some t') : t'.Tidy := by
  have hx := exited_of_kexit hexit
  intro i hi
  by_cases hip : i = p
  · subst hip
    rw [hx.self] at hi
    cases hi
  · rcases hx.other i hip with he | ⟨-, he⟩
    · -- a free slot is nobody's child
      rw [he] at hi ⊢
      have hblank := h i hi
      rw [hblank]
      rfl
    · rw [he] at hi
      cases hi

theorem Tidy.undo_proc (h : t.Tidy) (hnp : (t.proc np).state = .unused) :
    (MemKernel.undo t np).proc = t.proc := by
  funext i
  rw [MemKernel.undo_proc]
  split_ifs with hi
  · rw [hi, h np hnp]
  · rfl

end ProcTable

/-- The slot that `allocproc` finds. -/
def firstUnused (state : Fin NPROC → ProcState) : Option (Fin NPROC) :=
  (List.finRange NPROC).find? fun i => state i = .unused

namespace MemKernel

variable {T : ℕ} {s s' : MemKernel} {p : Fin NPROC}

/-- Free slots have the fields that `freeproc` leaves. -/
def Tidy (s : MemKernel) : Prop := s.table.Tidy

section Tidy

open MemM

theorem tidy_keep {α : Type} {m : MemM α} {g : MemKernel → α} {f : MemKernel → MemKernel}
    (hm : ∀ s, m s = .ok (g s, f s)) (hf : ∀ s, (f s).table = s.table) :
    Triple Tidy m fun _ => Tidy := by
  intro s h a s' hrun
  obtain ⟨-, rfl⟩ := ok_inj ((hm s).symm.trans hrun)
  unfold Tidy
  rw [hf]
  exact h

theorem tidy_get : Triple Tidy (get : MemM MemKernel) fun _ => Tidy :=
  tidy_keep (fun _ => rfl) fun _ => rfl

theorem table_onPhys {α : Type} {m : VmM α} {a : α} (hrun : onPhys m s = .ok (a, s')) :
    s'.table = s.table := by
  unfold onPhys Program.focus at hrun
  split at hrun <;> cases hrun
  rfl

theorem tidy_onPhys {α : Type} (m : VmM α) : Triple Tidy (onPhys m) fun _ => Tidy := by
  intro s h a s' hrun
  unfold Tidy
  rw [table_onPhys hrun]
  exact h

theorem tidy_setTrapframe (p : Fin NPROC) (q : Option ℕ) :
    Triple Tidy (setTrapframe p q) fun _ => Tidy :=
  tidy_keep (fun _ => rfl) fun _ => rfl

theorem tidy_user (p : Fin NPROC) : Triple Tidy (user p) fun _ => Tidy :=
  tidy_keep (fun _ => rfl) fun _ => rfl

theorem tidy_setUser (p : Fin NPROC) (u : UserMem) : Triple Tidy (setUser p u) fun _ => Tidy :=
  tidy_keep (fun _ => rfl) fun _ => rfl

theorem tidy_onTable {f : ProcTable → ProcTable} (hf : ∀ t, t.Tidy → (f t).Tidy) :
    Triple Tidy (onTable f) fun _ => Tidy := by
  intro s h a s' hrun
  cases hrun
  exact hf s.table h

theorem tidy_pure {α : Type} (a : α) : Triple Tidy (pure a : MemM α) fun _ => Tidy :=
  .pure fun _ h => h

theorem tidy_freeproc (p : Fin NPROC) : Triple Tidy (freeproc p) fun _ => Tidy :=
  .bind tidy_get fun _ => .bind (tidy_onPhys _) fun _ => .bind (tidy_setTrapframe p none) fun _ =>
    .bind (tidy_onPhys _) fun _ => .bind (tidy_setUser p _) fun _ =>
      tidy_onTable fun _ ht => ht.modify (.inr rfl)

theorem tidy_allocproc : Triple Tidy (allocproc T) fun _ => Tidy := by
  refine .bind tidy_get fun s => ?_
  split
  · exact tidy_pure none
  · rename_i np _
    refine .bind (tidy_onTable fun _ ht => ht.allocproc np) fun _ => .bind (tidy_onPhys _) fun q =>
      .bind (tidy_setTrapframe np q) fun _ => ?_
    split
    · exact .bind (tidy_freeproc np) fun _ => tidy_pure none
    · refine .bind (tidy_onPhys _) fun r => .bind (tidy_keep (fun _ => rfl) fun _ => rfl)
        fun _ => ?_
      split
      · exact .bind (tidy_freeproc np) fun _ => tidy_pure none
      · exact tidy_pure _

theorem tidy_kfork : Triple Tidy (kfork T p) fun _ => Tidy := by
  refine .bind tidy_allocproc fun o => ?_
  split
  · exact tidy_pure none
  · rename_i np
    refine .bind tidy_get fun s => .bind (tidy_onPhys _) fun ok => ?_
    split_ifs
    · exact .bind (tidy_setUser np _) fun _ => .bind (tidy_onPhys _) fun _ =>
        .bind (tidy_onTable fun _ ht => ht.modify (.inl nofun)) fun _ => tidy_pure _
    · exact .bind (tidy_freeproc np) fun _ => tidy_pure none

theorem tidy_kwaitScan (addr : ℕ) (l : List (Fin NPROC)) (havekids : Bool) :
    Triple Tidy (kwaitScan p addr l havekids) fun _ => Tidy := by
  induction l generalizing havekids with
  | nil => exact .bind tidy_get fun _ => tidy_pure _
  | cons pp l ih =>
    refine .bind tidy_get fun s => ?_
    split
    · split
      · refine .bind (tidy_onPhys _) fun ok => ?_
        split
        · exact .bind (tidy_freeproc pp) fun _ => tidy_pure _
        · exact tidy_pure _
      · exact ih true
    · exact ih havekids

/-- **Every operation keeps free slots tidy.** -/
theorem tidy_exec (op : MemOp) : Triple Tidy (op.exec T) fun _ => Tidy := by
  cases op with
  | userinit =>
    refine .bind tidy_allocproc fun o => ?_
    split
    · exact tidy_onPhys _
    · exact tidy_onTable fun _ ht => ht.modify (.inl nofun)
  | kfork p => exact .bind tidy_kfork fun _ => tidy_pure ()
  | kexec p ip argv =>
    exact .bind (.bind tidy_get fun _ => .bind (tidy_onPhys _) fun _ =>
      .bind (tidy_setUser p _) fun _ => tidy_pure _) fun _ => tidy_pure ()
  | sbrk p a0 a1 =>
    exact .bind (.bind (tidy_user p) fun _ => .bind (tidy_onPhys _) fun _ =>
      .bind (tidy_setUser p _) fun _ => tidy_pure _) fun _ => tidy_pure ()
  | vmfault p va =>
    exact .bind (.bind (tidy_user p) fun _ => tidy_onPhys _) fun _ => tidy_pure ()
  | kexit p status =>
    intro s h a s' hrun
    obtain ⟨t, s1, hget, hrun⟩ := bind_eq_ok.1 hrun
    cases hget
    cases ht : s.table.kexit p status with
    | none =>
      rw [ht] at hrun
      exact tidy_onPhys _ s h a s' hrun
    | some t =>
      rw [ht] at hrun
      cases hrun
      exact h.kexit ht
  | kwait p addr => exact .bind (tidy_kwaitScan addr _ _) fun _ => tidy_pure ()
  | kalloc =>
    refine .bind (tidy_onPhys _) fun o => ?_
    split
    · exact tidy_pure ()
    · exact tidy_keep (fun _ => rfl) fun _ => rfl
  | kfree q => exact .bind (tidy_onPhys _) fun _ => tidy_keep (fun _ => rfl) fun _ => rfl

theorem tidy_of_reachable (h : (memMachine T).Reachable s) : Tidy s := by
  refine h.invariant (fun s hs i _ => ?_) fun s op s' hs hstep => ?_
  · rw [hs.2.1]
  · exact tidy_exec op s hs () s' hstep.2

end Tidy

/-! ### A failed fork -/

open MemM in
/-- **After a failed `kfork`** everything in use is as it was, what is not in use is free, and the
process table has lost at most a number. -/
theorem Lives.kfork_none (h : Lives T s) (hp : (s.table.proc p).state ≠ .unused)
    (hrun : kfork T p s = .ok (none, s')) :
    s.phys.Kept (Phys.others s.roots s.held ∅ s.phys) s'.phys ∧
      s'.phys.Own ∅ (Phys.others s.roots s.held ∅ s.phys) ∧
      (s' = { s with phys := s'.phys } ∨ ∃ np, (s.table.proc np).state = .unused ∧
        s' = { s with phys := s'.phys, table := undo s.table np }) := by
  have hfocus := h.own.focus (Set.empty_subset s.roots)
  have hpt := (h.live p hp).2
  have hwithin := Phys.within_others (H := s.held) (m := s.phys)
    (mem_targets hpt) (Set.notMem_empty _)
  obtain ⟨o, s1, halloc, hkept, -, hout⟩ := MemKernel.allocproc_runs hfocus h.kend h.unused
  unfold kfork at hrun
  rw [bind_ok halloc] at hrun
  rcases hout with ⟨rfl, hown, he⟩ | ⟨np, q, r, rfl, hnp, hq, hr, hown, hspace, he⟩
  · cases hrun
    exact ⟨hkept, hown, he⟩
  generalize s1.phys = m1 at hkept hown hspace he
  subst he
  have hpnp : p ≠ np := fun he => hp (he ▸ hnp)
  obtain ⟨hframe, htable, hsz⟩ := h.unused np hnp
  -- the parent is among what others hold
  have hsub := Set.subset_insert q (Phys.others s.roots s.held ∅ s.phys)
  have hparent : Phys.Within _ m1 (s.pagetable p) :=
    ⟨fun d hd k x ht => hsub ((hwithin.kept hkept).tables d hd k x ht),
      fun v hv e he => hsub ((hwithin.kept hkept).pages v hv e he)⟩
  have hnone : ∀ v, v < userPages → m1.leaf r v = none := fun v hv =>
    hspace.none v (by rw [show pages 0 = 0 by decide]; exact Nat.zero_le v) hv
  obtain ⟨ok, m2, hcopy, hown2, hkept2, hok⟩ := hown.uvmcopy_runs hparent
    (Set.mem_insert r ∅) (h.space p hpt).size hnone
  generalize hs1 : ({ s with
    phys := m1
    table := s.table.allocproc np
    trapframe := update s.trapframe np q
    pagetable := update s.pagetable np r } : MemKernel) = s1 at hrun
  have hnew : s1.pagetable np = r ∧ s1.trapframe np = q ∧ s1.sz np = 0 ∧ s1.phys = m1 := by
    rw [← hs1]
    exact ⟨update_self .., update_self .., hsz, rfl⟩
  have hcopy' : onPhys (VmM.uvmcopy (s1.pagetable p) (s1.pagetable np) (s1.sz p)) s1 =
      .ok (ok, { s1 with phys := m2 }) := by
    have hold : s1.pagetable p = s.pagetable p ∧ s1.sz p = s.sz p := by
      rw [← hs1]
      exact ⟨update_of_ne hpnp _ _, rfl⟩
    rw [hold.1, hold.2, hnew.1]
    unfold onPhys Program.focus
    rw [hnew.2.2.2, hcopy]
  dsimp only at hrun
  rw [bind_ok (show (get : MemM MemKernel) s1 = .ok (s1, s1) from rfl), bind_ok hcopy'] at hrun
  rcases hok with ⟨rfl, hsame⟩ | ⟨rfl, -⟩
  · -- the new process goes: its trap frame, and its page table of size 0
    obtain ⟨⟨⟩, s3, hfree, m3, rfl, hown3, -, hkept3⟩ := freeproc_runs
      (s := { s1 with phys := m2 }) hown2 (hkept2.kend ▸ hkept.kend ▸ h.kend)
      (fun _ => by
        rw [hnew.2.1]
        exact Set.mem_insert q _)
      fun _ => by
        rw [hnew.1, hnew.2.2.1]
        exact ⟨Set.mem_insert r ∅, q, hspace.congr (hsame r (Set.mem_insert r ∅))⟩
    have hrun := (bind_ok hfree).symm.trans hrun
    cases hrun
    rw [hnew.1, hnew.2.1, Phys.insert_sdiff_self_of_notMem hq,
      Phys.insert_sdiff_self_of_notMem hr] at hown3
    rw [hnew.2.1, Phys.insert_sdiff_self_of_notMem hq] at hkept3
    refine ⟨hkept.trans ((hkept2.mono hsub).trans hkept3), hown3, .inr ⟨np, hnp, ?_⟩⟩
    rw [← hs1]
    rw [update_idem, update_idem, ← hframe, update_eq_self, hframe,
      ← htable, update_eq_self, htable, ← hsz, update_eq_self]
    rfl
  · obtain ⟨_, _, -, hrun⟩ := bind_eq_ok.1 hrun
    obtain ⟨_, _, -, hrun⟩ := bind_eq_ok.1 hrun
    obtain ⟨_, _, -, hrun⟩ := bind_eq_ok.1 hrun
    cases (pure_eq_ok.1 hrun).1

open MemM

theorem allocproc_some {np : Fin NPROC} (hrun : allocproc T s = .ok (some np, s')) :
    firstUnused (fun i => (s.table.proc i).state) = some np ∧
      s'.table = s.table.allocproc np := by
  obtain ⟨_, _, hget, hrun⟩ := bind_eq_ok.1 hrun
  cases hget
  cases hfind : (List.finRange NPROC).find? fun i => decide ((s.table.proc i).state = .unused) with
  | none =>
    rw [hfind] at hrun
    cases hrun
  | some i =>
    rw [hfind] at hrun
    obtain ⟨_, _, htable, hrun⟩ := bind_eq_ok.1 hrun
    obtain ⟨q, _, hkalloc, hrun⟩ := bind_eq_ok.1 hrun
    obtain ⟨_, _, hframe, hrun⟩ := bind_eq_ok.1 hrun
    cases htable
    cases hframe
    cases q with
    | none =>
      obtain ⟨_, _, -, hrun⟩ := bind_eq_ok.1 hrun
      cases hrun
    | some q =>
      obtain ⟨r, _, hpagetable, hrun⟩ := bind_eq_ok.1 hrun
      obtain ⟨_, _, hset, hrun⟩ := bind_eq_ok.1 hrun
      cases hset
      cases r with
      | none =>
        obtain ⟨_, _, -, hrun⟩ := bind_eq_ok.1 hrun
        cases hrun
      | some r =>
        cases hrun
        exact ⟨hfind, (table_onPhys hpagetable).trans (table_onPhys hkalloc)⟩

theorem kfork_some {np : Fin NPROC} (hrun : kfork T p s = .ok (some np, s')) :
    firstUnused (fun i => (s.table.proc i).state) = some np ∧ ∀ i, (s'.table.proc i).state =
      update (fun i => (s.table.proc i).state) np .runnable i := by
  obtain ⟨o, s1, halloc, hrun⟩ := bind_eq_ok.1 hrun
  cases o with
  | none => cases hrun
  | some np' =>
    obtain ⟨_, _, hget, hrun⟩ := bind_eq_ok.1 hrun
    cases hget
    obtain ⟨ok, s2, hcopy, hrun⟩ := bind_eq_ok.1 hrun
    cases ok with
    | false =>
      obtain ⟨_, _, -, hrun⟩ := bind_eq_ok.1 hrun
      cases hrun
    | true =>
      cases hrun
      obtain ⟨hfirst, htable⟩ := allocproc_some halloc
      refine ⟨hfirst, fun i => ?_⟩
      dsimp only
      rw [table_onPhys hcopy, htable, ProcTable.modify_proc, update_apply]
      split_ifs with hi
      · rfl
      · rw [ProcTable.allocproc_proc, if_neg hi]

end MemKernel

/-! ### The files in a fork -/

namespace Kern

variable {D : Type} {s s' : Kern D} {p np : Fin NPROC} {alloc copy : Bool}

theorem state_dupFd (st : Fin NPROC → ProcState) (fd : Fin NOFILE) :
    Triple (fun s : Kern D => s.state = st) (dupFd p np fd) fun _ s' => s'.state = st := by
  rintro s rfl _ s' hrun
  obtain ⟨_, _, hget, hrun⟩ := bind_eq_ok.1 hrun
  cases hget
  cases hfd : s.ofile (p, fd) with
  | none =>
    rw [hfd] at hrun
    cases hrun
    rfl
  | some f =>
    rw [hfd] at hrun
    obtain ⟨_, _, hdup, hset⟩ := bind_eq_ok.1 hrun
    obtain ⟨_, _, hget, hdup⟩ := bind_eq_ok.1 hdup
    cases hget
    split at hdup
    · cases hdup
    · cases hdup
      cases hset
      rfl

/-- A `kfork` of the kernel that returns -1 has touched no file and no inode; another one has made
the child in the first free slot. -/
theorem kfork_outcome {o : Option (Fin NPROC)} (hrun : kfork p alloc copy s = .ok (o, s')) :
    (o = none ∧ s' = s ∧ (alloc ∧ copy → firstUnused s.state = none)) ∨
      ∃ np, o = some np ∧ (alloc ∧ copy) ∧ firstUnused s.state = some np ∧
        s'.state = update s.state np .runnable := by
  obtain ⟨s1, s2, hget, hrun⟩ := bind_eq_ok.1 hrun
  cases hget
  cases hfind : (List.finRange NPROC).find? fun np => decide (s.state np = .unused) with
  | none =>
    rw [hfind] at hrun
    obtain ⟨rfl, rfl⟩ := pure_eq_ok.1 hrun
    exact .inl ⟨rfl, rfl, fun _ => hfind⟩
  | some np =>
    rw [hfind] at hrun
    have hfound := List.find?_some hfind
    have hnp : s.state np = .unused := of_decide_eq_true hfound
    obtain ⟨_, _, hused, hrun⟩ := bind_eq_ok.1 hrun
    cases hused
    split at hrun
    · rename_i hno
      obtain ⟨_, _, hunused, hrun⟩ := bind_eq_ok.1 hrun
      cases hunused
      cases hrun
      refine .inl ⟨rfl, ?_, fun hyes => absurd hyes hno⟩
      dsimp only
      rw [update_idem, ← hnp, update_eq_self]
    · rename_i hyes
      obtain ⟨_, s3, hdup, hrun⟩ := bind_eq_ok.1 hrun
      have hst := Triple.forM (fun fd _ => state_dupFd (update s.state np .used) fd) _ rfl _ _ hdup
      obtain ⟨t, s4, hget, hrun⟩ := bind_eq_ok.1 hrun
      cases hget
      cases hcwd : s3.cwd p with
      | none =>
        rw [hcwd] at hrun
        cases hrun
      | some ip =>
        rw [hcwd] at hrun
        cases hrun
        refine .inr ⟨np, rfl, not_not.1 hyes, hfind, ?_⟩
        dsimp only
        rw [hst, update_idem]

end Kern

/-- What `uvmcopy` of the pages of `r` below `sz` to `r'` comes to. -/
structure Phys.Copied (r r' sz : ℕ) (ok : Bool) (m m' : Phys) : Prop where
  /-- The parent is as it was, -/
  parent : ∀ v, m'.leaf r v = m.leaf r v
  contents : ∀ v < userPages, ∀ e, m.leaf r v = some e → m'.data e.page = m.data e.page
  /-- the child has copies of its pages and no others, -/
  mapped : ok = true → ∀ v, v * PGSIZE < sz → (m'.leaf r' v = none ↔ m.leaf r v = none)
  copies : ok = true → ∀ v, v * PGSIZE < sz → ∀ e, m.leaf r v = some e →
    ∃ q ∈ m.free, m'.leaf r' v = some ⟨q, e.perm⟩ ∧ m'.data q = m.data e.page
  /-- or it has none, and of the free pages only tables have been used. -/
  none : ok = false → ∀ v < userPages, m'.leaf r' v = none
  returned : ok = false → ∀ q ∈ m.free, q ∈ m'.free ∨ ∃ d ≤ 2, ∃ k, m'.table r' d k = some q

/-- **`uvmcopy`** copies exactly or not at all. -/
theorem Phys.Own.uvmcopy_copied {R H : Set ℕ} {m : Phys} {r r' sz : ℕ} (h : m.Own R H)
    (hr : r ∈ R) (hr' : r' ∈ R) (hne : r ≠ r') (hsz : sz ≤ TRAPFRAME)
    (hnone : ∀ v < userPages, m.leaf r' v = none) :
    Runs (VmM.uvmcopy r r' sz) m (Phys.Copied r r' sz · m ·) := by
  have hin := Set.mem_singleton r'
  have hfocus := h.focus (Set.singleton_subset_iff.2 hr')
  refine (hfocus.uvmcopy_runs (within_others hr hne) hin hsz hnone).conseq fun ok m' h' => ?_
  obtain ⟨hown, hkept, hout⟩ := h'
  have hleaf := leaf_unfocus hkept hr hne
  have hdata {v : ℕ} (hv : v < userPages) {e : Pte} := data_unfocus hkept hr hne hv (e := e)
  have hlt {v : ℕ} (hv : v * PGSIZE < sz) : v < pages sz := by
    rw [pages, Nat.lt_div_iff_mul_lt (by decide)]
    omega
  rcases hout with ⟨rfl, hsame⟩ | ⟨rfl, hcopies⟩
  · refine ⟨hleaf, fun v hv e => hdata hv, by simp, by simp, fun _ v hv => ?_, fun _ q hq => ?_⟩
    · rw [hsame r' hin v, hnone v hv]
    · have hman := hfocus.owned.mem (show m.At {r'} _ .free q from hq)
      have hfree := hfocus.not_held_of_free hq
      have hman' : m'.Managed q := by
        unfold Managed at hman ⊢
        rw [hkept.kend]
        exact hman
      obtain ⟨a, ha⟩ := (hown.owned.covers q).2 hman'
      cases a with
      | free => exact .inl ha
      | held => exact absurd ha hfree
      | table r1 d k =>
        obtain ⟨rfl, hd, ht⟩ := ha
        exact .inr ⟨d, hd, k, ht⟩
      | page r1 v =>
        obtain ⟨rfl, hv, ht⟩ := ha
        rw [table_succ, show m'.entry r1 2 v = m'.leaf r1 v from rfl, hsame r1 hin v,
          hnone v hv] at ht
        cases ht
  · refine ⟨hleaf, fun v hv e => hdata hv, fun _ v hv => ?_, fun _ v hv e he => ?_,
      by simp, by simp⟩
    · cases he : m.leaf r v with
      | none => exact iff_of_true (hcopies.holes v (Nat.zero_le v) (hlt hv) he) rfl
      | some e =>
        obtain ⟨q, -, hq, -⟩ := hcopies.pages v (Nat.zero_le v) (hlt hv) e he
        rw [hq]
        simp
    · exact hcopies.pages v (Nat.zero_le v) (hlt hv) e he

open MemM in
/-- **Fork copies memory exactly or not at all.**  `uvmcopy` of any address space, with any of its
pages present, to a page table without user pages returns; if it returns 0, a page below the size
is there in the child iff it is in the parent, with the same flags and the same contents in a page
that was free, and the parent is as it was; if it returns -1 the child has no pages and what was
taken for them has been returned.  A `kfork` that fails leaves the process table but for `nextpid`,
the memory of all processes, the set of free pages and the contents of all others, and the files,
the inodes and the counts of references to them. -/
theorem fork_copies_exactly_or_not_at_all :
    (∀ {R H : Set ℕ} {m : Phys} {r r' sz : ℕ}, m.Own R H → r ∈ R → r' ∈ R → r ≠ r' →
      sz ≤ TRAPFRAME → (∀ v < userPages, m.leaf r' v = none) →
      ∃ ok m', VmM.uvmcopy r r' sz m = .ok (ok, m') ∧ Phys.Copied r r' sz ok m m') ∧
    (∀ {T : ℕ} {s s' : MemKernel} {p : Fin NPROC}, (memMachine T).Reachable s →
      MemOp.Alive s p → kfork T p s = .ok (none, s') →
      s'.table.proc = s.table.proc ∧ s'.trapframe = s.trapframe ∧ s'.pagetable = s.pagetable ∧
        s'.sz = s.sz ∧ s'.others = s.others ∧ (∀ q, q ∈ s'.phys.free ↔ q ∈ s.phys.free) ∧
        ∀ q, s.phys.Managed q → q ∉ s.phys.free →
          s'.phys.pt q = s.phys.pt q ∧ s'.phys.data q = s.phys.data q) ∧
    ∀ {D : Type} {s s' : Kern D} {p : Fin NPROC} {alloc copy : Bool},
      Kern.kfork p alloc copy s = .ok (none, s') → s' = s := by
  refine ⟨fun h hr hr' hne hsz hnone => ?_, fun {T s s' p} hreach hp hrun => ?_, fun hrun => ?_⟩
  · obtain ⟨ok, m', hrun, hcopied⟩ := h.uvmcopy_copied hr hr' hne hsz hnone
    exact ⟨ok, m', hrun, hcopied⟩
  · have h := MemKernel.lives_of_reachable hreach
    obtain ⟨hkept, hown, he⟩ := h.kfork_none hp.1 hrun
    have hfree (q : ℕ) : q ∈ s'.phys.free ↔ q ∈ s.phys.free := by
      rw [hown.mem_free_iff, (h.own.focus (Set.empty_subset s.roots)).mem_free_iff, Phys.Managed,
        Phys.Managed, hkept.kend]
    have hheld {q : ℕ} (hman : s.phys.Managed q) (hq : q ∉ s.phys.free) :
        q ∈ Phys.others s.roots s.held ∅ s.phys := by
      by_contra hnot
      exact hq ((h.own.focus (Set.empty_subset s.roots)).mem_free_iff.2 ⟨hman, hnot⟩)
    refine ⟨?_, ?_, ?_, ?_, ?_, hfree, fun q hman hq =>
      ⟨hkept.pt q (hheld hman hq), hkept.data q (hheld hman hq)⟩⟩
    all_goals rcases he with he | ⟨np, hnp, he⟩ <;> rw [he]
    exact (MemKernel.tidy_of_reachable hreach).undo_proc hnp
  · obtain ⟨-, hsame, -⟩ | ⟨np, hnp, -⟩ := Kern.kfork_outcome hrun
    · exact hsame
    · cases hnp

open MemM in
/-- A parent with one page and a child with none: the page is copied to the child.  For another
child there is memory but for the last table. -/
theorem fork_copies_exactly_or_not_at_all_sixteen : ∃ (s s' : MemKernel) (child : Fin NPROC),
    (∃ m' e q, VmM.uvmcopy (s.pagetable initproc) (s.pagetable child) 4096 s.phys =
      .ok (true, m') ∧ s.phys.leaf (s.pagetable initproc) 0 = some e ∧
        m'.leaf (s.pagetable child) 0 = some ⟨q, e.perm⟩ ∧ m'.data q = s.phys.data e.page) ∧
    kfork 1 initproc s = .ok (none, s') ∧ s'.table.proc = s.table.proc ∧
      ∀ q, q ∈ s'.phys.free ↔ q ∈ s.phys.free := by
  obtain ⟨child, hchild⟩ : ∃ p : Fin NPROC, p = ⟨1, by decide⟩ := ⟨_, rfl⟩
  obtain ⟨s, hreach, hs⟩ := (boots 1).play (MemKernel.next 1)
    [.userinit, .kfork initproc, .sbrk initproc 4096 1]
    (P := fun s => (s.phys.leaf (s.pagetable initproc) 0).isSome ∧
      s.sz ⟨1, by decide⟩ = 0 ∧ MemOp.Alive s initproc ∧ MemOp.Alive s ⟨1, by decide⟩ ∧
      Program.returns (VmM.uvmcopy (s.pagetable initproc) (s.pagetable ⟨1, by decide⟩) 4096) s.phys
        (fun ok _ => ok) = true ∧
      Program.returns (kfork 1 initproc) s (fun o _ => o.isNone) = true) (by decide +kernel)
  rw [← hchild] at hs
  obtain ⟨hleaf, hsz, hinit, hlive, hcopy, hfork⟩ := hs
  obtain ⟨copies, fails, -⟩ := fork_copies_exactly_or_not_at_all
  have h := MemKernel.lives_of_reachable hreach
  obtain ⟨o, s', hfork, ho⟩ := exists_of_returns hfork
  obtain rfl := Option.isNone_iff_eq_none.1 ho
  obtain ⟨hproc, -, -, -, -, hfree, -⟩ := fails hreach hinit hfork
  have hroot := (h.live initproc hinit.1).2
  have hroot' := (h.live child hlive.1).2
  have hspace := h.space child hroot'
  rw [hsz] at hspace
  obtain ⟨ok, m', hrun', hcopied⟩ := copies h.own (mem_targets hroot) (mem_targets hroot')
    (fun he => absurd (h.tables _ _ hroot he) (by rw [hchild]; decide))
    (show 4096 ≤ TRAPFRAME by decide) fun v hv => hspace.none v (Nat.zero_le v) hv
  obtain ⟨_, _, hcopy, rfl⟩ := exists_of_returns hcopy
  obtain ⟨rfl, rfl⟩ := ok_inj (hcopy.symm.trans hrun')
  obtain ⟨e, he⟩ := Option.isSome_iff_exists.1 hleaf
  obtain ⟨q, -, hq, hdata⟩ := hcopied.copies rfl 0 (by decide) e he
  exact ⟨s, s', child, ⟨_, e, q, hcopy, he, hq, hdata⟩, hfork, hproc, hfree⟩

/-- **The two halves of `kfork` agree.**  What memory decides, given to the half for the files as
its two parameters, makes it find the same child or none, and the states of the processes stay the
same in both. -/
theorem kfork_agrees {D : Type} {k k' : Kern D} {T : ℕ} {s s' : MemKernel} {p : Fin NPROC}
    {o o' : Option (Fin NPROC)} (hreach : (memMachine T).Reachable s) (hp : MemOp.Alive s p)
    (hstate : k.state = fun i => (s.table.proc i).state) (hmem : MemM.kfork T p s = .ok (o, s'))
    (hfiles : Kern.kfork p o.isSome o.isSome k = .ok (o', k')) :
    o' = o ∧ k'.state = fun i => (s'.table.proc i).state := by
  have hout := Kern.kfork_outcome hfiles
  cases o with
  | none =>
    obtain ⟨rfl, rfl, -⟩ | ⟨np, -, hyes, -⟩ := hout
    · have h := MemKernel.lives_of_reachable hreach
      refine ⟨rfl, hstate.trans ?_⟩
      obtain ⟨-, -, he | ⟨np, hnp, he⟩⟩ := h.kfork_none hp.1 hmem <;> rw [he]
      rw [(MemKernel.tidy_of_reachable hreach).undo_proc hnp]
    · simp at hyes
  | some np =>
    obtain ⟨hfirst, hafter⟩ := MemKernel.kfork_some hmem
    rw [hstate, hfirst] at hout
    obtain ⟨-, -, hno⟩ | ⟨np', rfl, -, hnp, hk⟩ := hout
    · simp at hno
    · cases hnp
      exact ⟨rfl, hk.trans (funext hafter).symm⟩

end Cinux
