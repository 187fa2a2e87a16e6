import Cinux.Fs.Frames
import Cinux.Vm.Segments

/-!
# A failed `exec` leaves no trace

Whatever the file is and whichever calls of `kalloc` fail, `kexec` returns; and when it returns -1
the process, its memory, its trap frame, the free pages and the inode of the file are as they were.

To the code that builds the new address space every page in use, of whatever process, is a page that
somebody holds, so it is kept; and when the new address space is gone, the pages that are not in use
are free again.

* `VmM.kexecProc` : `kexec` with the name of the process;
* `exec_failure_leaves_no_trace` : the result.
-/

namespace Cinux

/-- The bytes that `safestrcpy(s, t, n)` stores at `s`.  After the NUL of `t` it stores another. -/
def safestrcpy : ℕ → Bytes → Bytes
  | 0, _ => []
  | 1, _ => [0]
  | _ + 2, [] => [0, 0]
  | n + 2, c :: t => if c = 0 then [0, 0] else c :: safestrcpy (n + 1) t

/-- The loop of `kexec` over the path: what follows the last slash. -/
def lastElement : Bytes → Bytes → Bytes
  | [], last => last
  | c :: s, last => lastElement s (if c = 47 then s else last)

/-- `sizeof(p->name)`. -/
def sizeofName : ℕ := 16

/-- The fields of `struct proc` that `kexec` changes: those for the memory, and `name`. -/
structure ExecProc where
  mem : UserMem
  name : Bytes

/-- `kexec` of the file at `path`: what it returns and the process.  The name is stored when nothing
can fail any more. -/
def VmM.kexecProc (trampoline : ℕ) (p : ExecProc) (trapframe : ℕ) (path : Bytes)
    (ip : Option Image) (argv : Argv) : VmM (Option ℕ × ExecProc) := do
  let (argc, mem) ← kexec trampoline p.mem trapframe ip argv
  match argc with
  | none => pure (none, ⟨mem, p.name⟩)
  | some argc =>
    let bytes := safestrcpy sizeofName (lastElement path path)
    pure (some argc, ⟨mem, bytes ++ p.name.drop bytes.length⟩)

namespace Phys

open VmM

variable {T : ℕ} {R H : Set ℕ} {m m' : Phys} {p p' : UserMem} {tf : ℕ} {ip : Option Image}
  {argv : Argv}

/-- **After a failed `kexec`** everything in use is as it was, and what is not in use is free. -/
theorem Own.kexec_none (h : Own R H m) (hrun : kexec T p tf ip argv m = .ok ((none, p'), m')) :
    p' = p ∧ Kept (others R H ∅ m) m m' ∧ ∀ q, q ∈ m'.free ↔ q ∈ m.free := by
  have hfocus := h.focus (Set.empty_subset R)
  rcases hfocus.kexec_cases T p tf ip argv with
    ⟨m'', hfail, hown, hkept, -⟩ | ⟨img, r, sz, m1, m2, -, -, -, -, -, -, hcommit⟩
  · obtain ⟨hout, rfl⟩ := Program.ok_inj (hfail.symm.trans hrun)
    refine ⟨(Prod.mk.inj hout).2.symm, hkept, fun q => ?_⟩
    rw [hown.mem_free_iff, hfocus.mem_free_iff, Managed, Managed, hkept.kend]
  · cases commit_some (hcommit.symm.trans hrun)

end Phys

open VmM in
/-- **A failed `exec` changes nothing, and a hostile file cannot stop the kernel.**  Of any file,
with any arguments and any failures of `kalloc`, `kexec` returns; if it returns -1, the process has
the page table, the size and the name it had, its trap frame, its entries and its pages are as they
were, and the free pages are the same.  The second part is about the inodes: when the call is over
all counts of references and all locks are as before, wherever it has failed. -/
theorem exec_failure_leaves_no_trace {D : Type} {T : ℕ} {R H : Set ℕ} {m : Phys} {p : ExecProc}
    {tf : ℕ} (h : m.Own R H) (hp : p.mem.pagetable ∈ R)
    (hs : m.Space T p.mem.pagetable tf p.mem.sz) (htf : tf ∈ H) (path : Bytes)
    (ip : Option Image) (argv : Argv) :
    (∃ out m', kexecProc T p tf path ip argv m = .ok (out, m') ∧
      (out.1 = none → out.2 = p ∧ m'.data tf = m.data tf ∧
        (∀ v, m'.leaf p.mem.pagetable v = m.leaf p.mem.pagetable v) ∧
        (∀ v < userPages, ∀ e, m.leaf p.mem.pagetable v = some e →
          m'.data e.page = m.data e.page) ∧
        ∀ q, q ∈ m'.free ↔ q ∈ m.free)) ∧
    ∀ (V : Volume D) (s s' : Kern D) (R : Kern.ProcFact) (x : Ledger) (q : Fin NPROC)
      (behind : Bytes) (loads runs : Bool), Kern.Bal R x s →
      Kern.kexec V q path behind loads runs s = .ok (-1, s') →
        (∀ i, (s'.icache.inode i).ref = (s.icache.inode i).ref) ∧ s'.locked = s.locked := by
  refine ⟨?_, fun V s s' R x q behind loads runs hbal hrun => Kern.kexec_restores hbal hrun⟩
  obtain ⟨⟨argc, mem⟩, m', hrun, -⟩ := h.kexec_runs hp hs ip argv
  unfold kexecProc
  rw [Program.bind_ok hrun]
  cases argc with
  | some argc => exact ⟨_, m', rfl, nofun⟩
  | none =>
    obtain ⟨rfl, hkept, hfree⟩ := h.kexec_none hrun
    refine ⟨_, m', rfl, fun _ => ⟨rfl, hkept.data tf (Phys.held_subset_others htf), fun v => ?_,
      fun v hv e he => ?_, hfree⟩⟩
    · exact Phys.Own.leaf_unfocus hkept hp (Set.notMem_empty _) v
    · exact Phys.Own.data_unfocus hkept hp (Set.notMem_empty _) hv he

/-- An argument that leaves no room on the stack for the pointers to it. -/
def argvLong : Argv where
  strings := [List.replicate 4090 97]
  short s hs := by
    rw [List.mem_singleton.1 hs, List.length_replicate]
    decide
  few := by decide

open VmM in
/-- The first process calls `exec`, which loads the program and fails at the end of the stack. -/
theorem exec_failure_leaves_no_trace_late : ∃ (m m' : Phys) (p : ExecProc) (tf : ℕ),
    kexecProc 1 p tf [97] (some (twoSegments 64).image) argvLong m = .ok ((none, p), m') ∧
      m'.data tf = m.data tf ∧ ∀ q, q ∈ m'.free ↔ q ∈ m.free := by
  obtain ⟨m, r, tf, out, m', hown, hspace, hrun, hout⟩ := Phys.exists_process
    (k := fun r tf => kexecProc 1 ⟨⟨r, 0⟩, List.replicate 16 0⟩ tf [97]
      (some (twoSegments 64).image) argvLong) (P := fun out _ => out.1.isNone) (by decide +kernel)
  obtain ⟨⟨out', m'', hrun', hnone⟩, -⟩ := exec_failure_leaves_no_trace (D := Unit)
    (p := ⟨⟨r, 0⟩, List.replicate 16 0⟩) hown (Set.mem_singleton r) hspace (Set.mem_singleton tf)
    [97] (some (twoSegments 64).image) argvLong
  obtain ⟨rfl, rfl⟩ := Program.ok_inj (hrun.symm.trans hrun')
  have hout := Option.isNone_iff_eq_none.1 hout
  obtain ⟨hp, hdata, -, -, hfree⟩ := hnone hout
  exact ⟨m, m', _, tf, by rw [hrun, ← hout, ← hp], hdata, hfree⟩

end Cinux
