import Cinux.Vm.ExecStack

/-!
# The new image takes the place of the old one

`kexec` as a whole.  It fails, and then the address spaces and the pages that somebody holds are as
before; or it has built the new address space beside the old one, changes the trap frame, and frees
the old one.

* `Phys.Loaded` : the program is in memory, and what is left is the stack;
* `Phys.Own.kexec_cases` : `kexec` fails, or gets to its end;
* `Phys.Building.commit_runs` : its end;
* `Phys.Own.kexec_runs` : the process has an address space afterwards, and no page is lost.
-/

namespace Cinux

/-- The ELF header of a file. -/
def Image.elf (ip : Image) : Elfhdr := Elfhdr.ofBytes (bytesAt (ip.read 0 Elfhdr.size))

namespace Phys

open Program
open VmM
open Stack (pointer)

variable {T : ℕ} {R H : Set ℕ} {m₀ m m' : Phys} {r tf sz v : ℕ} {p : UserMem} {e : Pte}

/-- **The program is in memory**, in the address space `r` of size `sz`. -/
structure Loaded (T tf : ℕ) (ip : Image) (m : Phys) (r sz : ℕ) (m' : Phys) : Prop where
  header : (ip.read 0 Elfhdr.size).length = Elfhdr.size
  magic : ip.elf.magic = ELF_MAGIC
  load : ∃ m₁, procPagetable T tf m = .ok (some r, m₁) ∧
    kexecLoad ip r ip.elf.phnum (toInt32 ip.elf.phoff) 0 m₁ = .ok ((true, sz), m')

theorem Loaded.kexec_eq {ip : Image} (h : Loaded T tf ip m r sz m') (p : UserMem) (argv : Argv) :
    kexec T p tf (some ip) argv m = kexecStack p tf r ip.elf argv sz m' := by
  obtain ⟨m₁, hcreate, hload⟩ := h.load
  have hlen := h.header
  have hmagic := h.magic
  unfold Image.elf at hload hmagic
  unfold kexec
  dsimp only
  rw [if_neg (not_not.2 hlen), if_neg (not_not.2 hmagic), bind_ok hcreate]
  exact bind_ok hload

theorem Loaded.start {ip : Image} (hl : Loaded T tf ip m r sz m') (h : Own R H m) :
    ∃ m₁, Building T R H m r tf 0 m₁ ∧ Full m₁ r 0 ∧
      kexecLoad ip r ip.elf.phnum (toInt32 ip.elf.phoff) 0 m₁ = .ok ((true, sz), m') := by
  obtain ⟨m₁, hcreate, hload⟩ := hl.load
  obtain ⟨o, m1', hcreate', hkept, hsame, ho⟩ := h.procPagetable_runs T tf
  obtain ⟨rfl, rfl⟩ := ok_inj (hcreate.symm.trans hcreate')
  obtain ⟨hnone, -⟩ | ⟨r', hr', hfresh, hown, hspace⟩ := ho
  · cases hnone
  cases hr'
  refine ⟨m₁, ⟨hfresh, hown, hspace, hsame, hkept⟩, fun v hv => ?_, hload⟩
  rw [show pages 0 = 0 by decide] at hv
  exact absurd hv (Nat.not_lt_zero v)

theorem Loaded.building {ip : Image} (hl : Loaded T tf ip m r sz m') (h : Own R H m) :
    Building T R H m r tf sz m' ∧ Full m' r sz := by
  obtain ⟨m₁, hbuild, hfull, hload⟩ := hl.start h
  obtain ⟨out, m2, hload', hbuild2⟩ := hbuild.kexecLoad_runs hfull ip ip.elf.phnum
    (toInt32 ip.elf.phoff)
  obtain ⟨rfl, rfl⟩ := ok_inj (hload.symm.trans hload')
  exact hbuild2

/-! ### The exits -/

/-- A failed `kexec`: the address spaces and what is held are as they were. -/
def Fails (R H : Set ℕ) (p : UserMem) (x : VmM (Option ℕ × UserMem)) (m₀ m : Phys) : Prop :=
  ∃ m', x m = .ok ((none, p), m') ∧ Own R H m' ∧ Kept H m₀ m' ∧ SameLeaves R m₀ m'

/-- **The exit `bad` of `kexec`**: the new address space goes. -/
theorem Building.kexecBad_fails (h : Building T R H m₀ r tf sz m) (p : UserMem) :
    Fails R H p (kexecBad p r sz) m₀ m := by
  obtain ⟨⟨⟩, m₁, hfree, hown, hsame, hkept⟩ := h.own.procFreepagetable_runs h.mem_root h.space
  rw [insert_sdiff_self_of_notMem h.fresh] at hown hsame
  exact ⟨m₁, bind_ok hfree, hown, h.kept.trans hkept, h.others.trans hsame⟩

/-- The memory after the trap frame has been changed. -/
def frame (m : Phys) (trapframe : ℕ) (elf : Elfhdr) (sp : ℕ) : Phys :=
  ((m.storeBytes trapframe 120 (leBytes 8 sp)).storeBytes trapframe 24
    (leBytes 8 elf.entry)).storeBytes trapframe 48 (leBytes 8 sp)

theorem leaf_frame (m : Phys) (tf : ℕ) (elf : Elfhdr) (sp r v : ℕ) :
    (m.frame tf elf sp).leaf r v = m.leaf r v :=
  entry_congr (fun _ _ _ _ _ => by rfl) le_rfl v

theorem data_frame (elf : Elfhdr) (sp : ℕ) {x : ℕ} (hx : x ≠ tf) :
    (m.frame tf elf sp).data x = m.data x := by
  unfold frame
  simp only [storeBytes, Function.update_of_ne hx]

/-- How `commit` leaves the memory: everything but the old address space is kept, from when the trap
frame has been changed. -/
structure Committed (R H : Set ℕ) (p : UserMem) (tf r : ℕ) (elf : Elfhdr) (sp : ℕ) (m m' : Phys) :
    Prop where
  own : Own (insert r R \ {p.pagetable}) H m'
  kept : Kept (others (insert r R) H {p.pagetable} (m.frame tf elf sp)) (m.frame tf elf sp) m'
  leaves : ∀ r' ∈ insert r R, r' ≠ p.pagetable → ∀ v, m'.leaf r' v = m.leaf r' v

/-- **The end of `kexec`**: the old address space goes. -/
theorem Building.commit_runs (h : Building T R H m₀ r tf sz m) (hp : p.pagetable ∈ R)
    (hs : Space T m₀ p.pagetable tf p.sz) (elf : Elfhdr) (argc sp : ℕ) :
    Runs (commit p tf r elf argc sp sz) m fun out m' =>
      out = (some argc, ⟨r, sz⟩) ∧ Committed R H p tf r elf sp m m' := by
  have hin : p.pagetable ∈ insert r R := Set.mem_insert_of_mem r hp
  obtain ⟨hown, -⟩ : Own (insert r R) H (m.frame tf elf sp) ∧
    SameTrees (insert r R) m (m.frame tf elf sp) := h.own.same_pt rfl rfl rfl
  have hspace : Space T (m.frame tf elf sp) p.pagetable tf p.sz := by
    refine hs.congr fun v => ?_
    rw [leaf_frame, h.others _ hp]
  obtain ⟨⟨⟩, m', hfree, hown', -, hkept⟩ := (hown.focus (Set.singleton_subset_iff.2 hin)
    ).procFreepagetable_runs (Set.mem_singleton _) hspace
  have hback := Own.unfocus hkept hown hown'
  rw [sdiff_self, Set.bot_eq_empty, Set.union_empty] at hback
  have hout : Committed R H p tf r elf sp m m' := by
    refine ⟨hback, hkept, fun r' hr' hne v => ?_⟩
    rw [Own.leaf_unfocus hkept hr' hne, leaf_frame]
  exact .step (a := ()) rfl (.step (a := ()) rfl (.step (a := ()) rfl (.step hfree
    (.pure ⟨rfl, hout⟩))))

theorem Committed.sameBelow {elf : Elfhdr} {sp : ℕ} (h : Committed R H p tf r elf sp m m')
    (hb : Building T R H m₀ r tf sz m) (hp : p.pagetable ∈ R) (htf : tf ∈ H) :
    SameBelow r userPages m m' := by
  have hne : r ≠ p.pagetable := fun he => hb.fresh (he ▸ hp)
  refine fun v hv => ⟨h.leaves r hb.mem_root hne v, fun e he => ?_⟩
  have hpage : e.page ≠ tf := fun he' => hb.own.not_held_of_leaf hb.mem_root hv he (he' ▸ htf)
  rw [Own.data_unfocus h.kept hb.mem_root hne hv ((leaf_frame m tf elf sp r v).trans he),
    data_frame elf sp hpage]

theorem commit_some {r : ℕ} {elf : Elfhdr} {argc sp sz : ℕ} {out : Option ℕ × UserMem}
    (h : commit p tf r elf argc sp sz m = .ok (out, m')) : out.1 = some argc := by
  obtain ⟨_, m₁, -, h⟩ := bind_eq_ok.1 h
  obtain ⟨_, m2, -, h⟩ := bind_eq_ok.1 h
  obtain ⟨_, m3, -, h⟩ := bind_eq_ok.1 h
  obtain ⟨_, m4, -, h⟩ := bind_eq_ok.1 h
  rw [← (pure_eq_ok.1 h).1]

/-! ### The function -/

namespace Own

/-- **`kexec` fails early, or has the program in memory.** -/
theorem kexec_load (h : Own R H m) (T : ℕ) (p : UserMem) (tf : ℕ) (ip : Option Image)
    (argv : Argv) :
    Fails R H p (kexec T p tf ip argv) m m ∨
      ∃ img r sz m', ip = some img ∧ Loaded T tf img m r sz m' ∧ Building T R H m r tf sz m' ∧
        Full m' r sz := by
  have hstay {x : VmM (Option ℕ × UserMem)} (hx : x m = .ok ((none, p), m)) : Fails R H p x m m :=
    ⟨m, hx, h, .refl H m, fun _ _ _ => rfl⟩
  cases ip with
  | none => exact .inl (hstay rfl)
  | some ip =>
    unfold kexec
    dsimp only
    split_ifs with hlen hmagic
    · exact .inl (hstay rfl)
    · exact .inl (hstay rfl)
    obtain ⟨o, m₁, hcreate, hkept, hsame, ho⟩ := h.procPagetable_runs T tf
    obtain ⟨rfl, hown⟩ | ⟨r, rfl, hfresh, hown, hspace⟩ := ho
    · exact .inl ⟨m₁, bind_ok hcreate, hown, hkept, hsame⟩
    have hbuild : Building T R H m r tf 0 m₁ := ⟨hfresh, hown, hspace, hsame, hkept⟩
    have hfull : Full m₁ r 0 := fun v hv => absurd hv (by rw [show pages 0 = 0 by decide]; omega)
    obtain ⟨⟨ok, sz⟩, m2, hload, h2, hfull2⟩ := hbuild.kexecLoad_runs hfull ip ip.elf.phnum
      (toInt32 ip.elf.phoff)
    cases ok with
    | true =>
      exact .inr ⟨ip, r, sz, m2, rfl,
        ⟨not_not.1 hlen, not_not.1 hmagic, m₁, hcreate, hload⟩, h2, hfull2⟩
    | false =>
      obtain ⟨m3, hbad, hout⟩ := h2.kexecBad_fails p
      exact .inl ⟨m3, (bind_ok hcreate).trans ((bind_ok hload).trans hbad), hout⟩

/-- **`kexec` fails, or gets to its end** with the new address space beside the old ones. -/
theorem kexec_cases (h : Own R H m) (T : ℕ) (p : UserMem) (tf : ℕ) (ip : Option Image)
    (argv : Argv) :
    Fails R H p (kexec T p tf ip argv) m m ∨
      ∃ img r sz m₁ m2, ip = some img ∧ Loaded T tf img m r sz m₁ ∧
        Building T R H m r tf sz m₁ ∧ Full m₁ r sz ∧
        Building T R H m r tf ((pages sz + 2) * PGSIZE) m2 ∧ StackBuilt r (pages sz) argv m₁ m2 ∧
        kexec T p tf ip argv m = commit p tf r img.elf argv.strings.length
          (pointer 16 ((pages sz + 2) * PGSIZE) (stackBlocks argv ((pages sz + 2) * PGSIZE)))
          ((pages sz + 2) * PGSIZE) m2 := by
  rcases h.kexec_load T p tf ip argv with hfail | ⟨img, r, sz, m₁, rfl, hloaded, h1, hfull⟩
  · exact .inl hfail
  have hbad {sz' : ℕ} {m' : Phys} (h' : Building T R H m r tf sz' m')
      (hrun : kexecStack p tf r img.elf argv sz m₁ = kexecBad p r sz' m') :
      Fails R H p (kexec T p tf (some img) argv) m m := by
    obtain ⟨m2, hfree, hout⟩ := h'.kexecBad_fails p
    exact ⟨m2, (hloaded.kexec_eq p argv).trans (hrun.trans hfree), hout⟩
  rcases h1.kexecStack_cases hfull p img.elf argv with
    ⟨m', -, hrun, h'⟩ | ⟨-, -, ⟨-, m', hrun, h'⟩ | ⟨m', h', hbuilt, hrun⟩⟩
  · exact .inl (hbad h' hrun)
  · exact .inl (hbad h' hrun)
  · exact .inr ⟨img, r, sz, m₁, m', rfl, hloaded, h1, hfull, h', hbuilt,
      (hloaded.kexec_eq p argv).trans hrun⟩

end Own

/-- How `kexec` leaves the process `p`: as it was, or in a new address space, and the old one is
gone. -/
def Building.Replaced (T : ℕ) (R H : Set ℕ) (m₀ : Phys) (p : UserMem) (tf : ℕ) (p' : UserMem)
    (m : Phys) : Prop :=
  m.kend = m₀.kend ∧ ((p' = p ∧ Own R H m ∧ SameLeaves R m₀ m) ∨
    (p'.pagetable ∉ R ∧ Own (insert p'.pagetable R \ {p.pagetable}) H m ∧
      Space T m p'.pagetable tf p'.sz ∧ SameLeaves (R \ {p.pagetable}) m₀ m))

/-- **`kexec`**, of whatever file with whatever arguments. -/
theorem Own.kexec_runs (h : Own R H m) {p : UserMem} (hp : p.pagetable ∈ R)
    (hs : Space T m p.pagetable tf p.sz) (ip : Option Image) (argv : Argv) :
    Runs (kexec T p tf ip argv) m fun out m' => Building.Replaced T R H m p tf out.2 m' := by
  rcases h.kexec_cases T p tf ip argv with
    ⟨m', hrun, hown, hkept, hsame⟩ | ⟨img, r, sz, m₁, m2, -, -, -, -, h2, -, hrun⟩
  · exact ⟨_, m', hrun, hkept.kend, .inl ⟨rfl, hown, hsame⟩⟩
  · obtain ⟨out, m', hcommit, rfl, hend⟩ := h2.commit_runs hp hs img.elf argv.strings.length
      (pointer 16 ((pages sz + 2) * PGSIZE) (stackBlocks argv ((pages sz + 2) * PGSIZE)))
    have hne : r ≠ p.pagetable := fun he => h2.fresh (he ▸ hp)
    refine ⟨_, m', hrun.trans hcommit, hend.kept.kend.trans h2.kept.kend,
      .inr ⟨h2.fresh, hend.own, h2.space.congr (hend.leaves r h2.mem_root hne), ?_⟩⟩
    intro r' hr' v
    rw [hend.leaves r' (Set.mem_insert_of_mem r hr'.1) hr'.2, h2.others r' hr'.1 v]

/-- `k` for the first process, in the memory of `sixteenPages`: its page table and
its trap frame. -/
def firstProcess {α : Type} (k : ℕ → ℕ → VmM α) : VmM (Option α) := do
  kinit
  match ← kalloc with
  | none => pure none
  | some tf =>
    match ← procPagetable 1 tf with
    | none => pure none
    | some r => do
      let a ← k r tf
      pure (some a)

theorem exists_process {α : Type} {k : ℕ → ℕ → VmM α} {P : α → Phys → Bool}
    (h : Program.returns (firstProcess k) sixteenPages (fun o m => o.any (P · m)) = true) :
    ∃ m r tf a m', Own {r} {tf} m ∧ Space 1 m r tf 0 ∧ k r tf m = .ok (a, m') ∧ P a m' = true := by
  obtain ⟨o, m, hrun, ho⟩ := exists_of_returns h
  obtain ⟨⟨⟩, m₀, hinit, hrun⟩ := bind_eq_ok.1 hrun
  obtain ⟨⟨⟩, m0', hinit', hown, -⟩ := Own.kinit_runs (m := sixteenPages) (by decide) rfl
  obtain ⟨-, rfl⟩ := ok_inj (hinit.symm.trans hinit')
  obtain ⟨q, m₁, hkalloc, hrun⟩ := bind_eq_ok.1 hrun
  obtain ⟨q', m1', hkalloc', -, -, -, hq⟩ := hown.kalloc_runs
  obtain ⟨rfl, rfl⟩ := ok_inj (hkalloc.symm.trans hkalloc')
  obtain ⟨rfl, -⟩ | ⟨tf, rfl, -, -, hown1⟩ := hq
  · cases hrun
    cases ho
  obtain ⟨o', m2, hcreate, hrun⟩ := bind_eq_ok.1 hrun
  obtain ⟨o'', m2', hcreate', -, -, hout⟩ := hown1.procPagetable_runs 1 tf
  obtain ⟨rfl, rfl⟩ := ok_inj (hcreate.symm.trans hcreate')
  obtain ⟨rfl, -⟩ | ⟨r, rfl, -, hown2, hspace⟩ := hout
  · cases hrun
    cases ho
  rw [insert_empty_eq, insert_empty_eq] at hown2
  obtain ⟨a, m3, hk, hrun⟩ := bind_eq_ok.1 hrun
  obtain ⟨rfl, rfl⟩ := pure_eq_ok.1 hrun
  exact ⟨m2, r, tf, a, m3, hown2, hspace, hk, ho⟩

end Phys

end Cinux
