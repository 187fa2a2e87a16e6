import Cinux.Proc.Table
import Cinux.System.Machine
import Cinux.System.Slots
import Cinux.Vm.Exec
import Mathlib.Data.Finset.Insert

/-!
# The memory of processes, from fork to wait

The functions of `proc.c` that give memory to processes and take it back, over the allocator, the
page tables and the process table: `allocproc`, `freeproc`, `kfork`, `kexit`, `kwait`, and the calls
of one process that change its own memory.

What other parts of the kernel do with pages (kernel stacks, pipes, the arguments of `sys_exec`) is
two operations, `kalloc` and `kfree` of a page they hold; so are the pipes that `kexit` closes.
Files, names, pids' users and scheduling play no part.

* `MemKernel` : the state;
* `MemOp`, `MemOp.exec` : the operations;
* `memMachine` : all sequences of operations, from the start of the kernel on.
-/

namespace Cinux

open Function

/-- The processes and their memory.  Page 0 is the null pointer. -/
structure MemKernel where
  /-- The memory and its free list. -/
  phys : Phys
  /-- States, pids and parents. -/
  table : ProcTable
  /-- The pages of `p->trapframe`, -/
  trapframe : Fin NPROC → ℕ
  /-- the root pages of `p->pagetable`, -/
  pagetable : Fin NPROC → ℕ
  /-- and `p->sz`. -/
  sz : Fin NPROC → ℕ
  /-- The pages that other parts of the kernel hold. -/
  others : Finset ℕ

/-- Code on them. -/
abbrev MemM := Program VmStop MemKernel

namespace MemM

variable {α : Type}

/-- Code of `vm.c` and `kalloc.c`. -/
def onPhys (m : VmM α) : MemM α :=
  Program.focus MemKernel.phys (fun s phys => { s with phys := phys }) m

/-- The memory of a process. -/
def user (p : Fin NPROC) : MemM UserMem := fun s => .ok (⟨s.pagetable p, s.sz p⟩, s)

/-- Assignment to the memory of a process. -/
def setUser (p : Fin NPROC) (u : UserMem) : MemM Unit := fun s =>
  .ok ((), { s with
    pagetable := update s.pagetable p u.pagetable
    sz := update s.sz p u.sz })

/-- `p->trapframe = q`, with null for `none`. -/
def setTrapframe (p : Fin NPROC) (q : Option ℕ) : MemM Unit := fun s =>
  .ok ((), { s with trapframe := update s.trapframe p (q.getD 0) })

/-- `p->pagetable = q`, with null for `none`. -/
def setPagetable (p : Fin NPROC) (q : Option ℕ) : MemM Unit := fun s =>
  .ok ((), { s with pagetable := update s.pagetable p (q.getD 0) })

/-- A change of the process table. -/
def onTable (f : ProcTable → ProcTable) : MemM Unit := fun s => .ok
    ((), { s with table := f s.table })

/-- `if(p->trapframe) kfree(p->trapframe)`. -/
def freeTrapframe (trapframe : ℕ) : VmM Unit :=
  if trapframe ≠ 0 then VmM.kfree trapframe else pure ()

/-- `if(p->pagetable) proc_freepagetable(p->pagetable, p->sz)`. -/
def freePagetable (pagetable sz : ℕ) : VmM Unit :=
  if pagetable ≠ 0 then VmM.procFreepagetable pagetable sz else pure ()

/-- `freeproc`. -/
def freeproc (p : Fin NPROC) : MemM Unit := do
  let s ← get
  onPhys (freeTrapframe (s.trapframe p))
  setTrapframe p none
  onPhys (freePagetable (s.pagetable p) (s.sz p))
  setUser p ⟨0, 0⟩
  onTable fun t => t.modify p Proc.freeproc

/-- `allocproc`. -/
def allocproc (trampoline : ℕ) : MemM (Option (Fin NPROC)) := do
  let s ← get
  match (List.finRange NPROC).find? fun i => decide ((s.table.proc i).state = .unused) with
  | none => pure none
  | some p =>
    onTable fun t => t.allocproc p
    let trapframe ← onPhys VmM.kalloc
    setTrapframe p trapframe
    match trapframe with
    | none =>
      freeproc p
      pure none
    | some trapframe =>
      let pagetable ← onPhys (VmM.procPagetable trampoline trapframe)
      setPagetable p pagetable
      match pagetable with
      | none =>
        freeproc p
        pure none
      | some _ => pure (some p)

/-- `userinit`.  Without a process it writes through a null pointer, which is a trap in the
kernel. -/
def userinit (trampoline : ℕ) : MemM Unit := do
  match ← allocproc trampoline with
  | none => onPhys (VmM.stop "kerneltrap")
  | some p => onTable fun t => t.modify p fun x => { x with state := .runnable }

/-- `sizeof(struct trapframe)`. -/
def trapframeSize : ℕ := 288

/-- `*(np->trapframe) = *(p->trapframe)`, and 0 for `a0`. -/
def copyTrapframe (dst src : ℕ) : VmM Unit := do
  let m ← get
  VmM.storeBytes dst 0 ((List.range trapframeSize).map (m.data src))
  VmM.storeBytes dst 112 (leBytes 8 0)

/-- `kfork` by process `p`: the new process. -/
def kfork (trampoline : ℕ) (p : Fin NPROC) : MemM (Option (Fin NPROC)) := do
  match ← allocproc trampoline with
  | none => pure none
  | some np =>
    let s ← get
    if ← onPhys (VmM.uvmcopy (s.pagetable p) (s.pagetable np) (s.sz p)) then
      setUser np ⟨s.pagetable np, s.sz p⟩
      onPhys (copyTrapframe (s.trapframe np) (s.trapframe p))
      onTable fun t => t.modify np fun x => { x with parent := some p, state := .runnable }
      pure (some np)
    else
      freeproc np
      pure none

/-- `kexec` by process `p`: what it returns. -/
def kexec (trampoline : ℕ) (p : Fin NPROC) (ip : Option Image) (argv : Argv) :
    MemM (Option ℕ) := do
  let s ← get
  let (argc, u) ← onPhys (VmM.kexec trampoline ⟨s.pagetable p, s.sz p⟩ (s.trapframe p) ip argv)
  setUser p u
  pure argc

/-- `sys_sbrk` by process `p`: what it returns. -/
def sysSbrk (p : Fin NPROC) (a0 a1 : ℕ) : MemM ℕ := do
  let u ← user p
  let (ret, u) ← onPhys (VmM.sysSbrk u a0 a1)
  setUser p u
  pure ret

/-- `vmfault` at address `va` of process `p`. -/
def vmfault (p : Fin NPROC) (va : ℕ) : MemM (Option ℕ) := do
  let u ← user p
  onPhys (VmM.vmfault u.pagetable u.sz u.pagetable va)

/-- `kexit` by process `p`, after it has closed its files. -/
def kexit (p : Fin NPROC) (status : ℤ) : MemM Unit := do
  let s ← get
  match s.table.kexit p status with
  | none => onPhys (VmM.stop "init exiting")
  | some t => onTable fun _ => t

/-- `addr != 0 && copyout(p->pagetable, addr, &pp->xstate, sizeof(pp->xstate)) < 0` does not
hold. -/
def copyStatus (u : UserMem) (addr : ℕ) (xstate : ℤ) : VmM Bool :=
  if addr ≠ 0 then
    VmM.copyout u.pagetable u.sz u.pagetable addr (leBytes 4 (xstate % 2 ^ 32).toNat)
  else pure true

/-- The loop of `kwait` by process `p` over the slots. -/
def kwaitScan (p : Fin NPROC) (addr : ℕ) : List (Fin NPROC) → Bool → MemM WaitResult
  | [], havekids => do
    let s ← get
    pure (if !havekids || (s.table.proc p).killed then .none else .sleep)
  | pp :: rest, havekids => do
    let s ← get
    if (s.table.proc pp).parent = some p then
      if (s.table.proc pp).state = .zombie then
        let xstate := (s.table.proc pp).xstate
        if ← onPhys (copyStatus ⟨s.pagetable p, s.sz p⟩ addr xstate) then
          freeproc pp
          pure (.reaped pp (s.table.proc pp).pid (if addr ≠ 0 then some xstate else none))
        else pure .fault
      else kwaitScan p addr rest true
    else kwaitScan p addr rest havekids

/-- A round of `kwait` by process `p`; when it sleeps, it starts over later. -/
def kwait (p : Fin NPROC) (addr : ℕ) : MemM WaitResult :=
  kwaitScan p addr (List.finRange NPROC) false

/-- `kalloc` by another part of the kernel. -/
def kallocOther : MemM Unit := do
  match ← onPhys VmM.kalloc with
  | none => pure ()
  | some q => fun s => .ok ((), { s with others := insert q s.others })

/-- `kfree` by another part of the kernel. -/
def kfreeOther (q : ℕ) : MemM Unit := do
  onPhys (VmM.kfree q)
  fun s => .ok ((), { s with others := s.others.erase q })

end MemM

/-- The operations. -/
inductive MemOp where
  | userinit
  | kfork (p : Fin NPROC)
  | kexec (p : Fin NPROC) (ip : Option Image) (argv : Argv)
  | sbrk (p : Fin NPROC) (a0 a1 : ℕ)
  | vmfault (p : Fin NPROC) (va : ℕ)
  | kexit (p : Fin NPROC) (status : ℤ)
  | kwait (p : Fin NPROC) (addr : ℕ)
  | kalloc
  | kfree (q : ℕ)

namespace MemOp

/-- What an operation does. -/
def exec (trampoline : ℕ) : MemOp → MemM Unit
  | userinit => MemM.userinit trampoline
  | kfork p => do let _ ← MemM.kfork trampoline p
  | kexec p ip argv => do let _ ← MemM.kexec trampoline p ip argv
  | sbrk p a0 a1 => do let _ ← MemM.sysSbrk p a0 a1
  | vmfault p va => do let _ ← MemM.vmfault p va
  | kexit p status => MemM.kexit p status
  | kwait p addr => do let _ ← MemM.kwait p addr
  | kalloc => MemM.kallocOther
  | kfree q => MemM.kfreeOther q

/-- A process that has not exited. -/
def Alive (s : MemKernel) (p : Fin NPROC) : Prop :=
  (s.table.proc p).state ≠ .unused ∧ (s.table.proc p).state ≠ .zombie

/-- When an operation may happen: `userinit` first, the calls of a process while it lives, and a
page is freed by who holds it. -/
def Enabled (s : MemKernel) : MemOp → Prop
  | userinit => ∀ i, (s.table.proc i).state = .unused
  | kfork p => Alive s p
  | kexec p _ _ => Alive s p
  | sbrk p _ _ => Alive s p
  | vmfault p _ => Alive s p
  | kexit p _ => Alive s p
  | kwait p _ => Alive s p
  | kalloc => True
  | kfree q => q ∈ s.others

end MemOp

/-- The start: `kinit` has been called, with any kernel size and any failures of `kalloc` to come,
and there are no processes. -/
def MemKernel.Boots (s : MemKernel) : Prop :=
  (∃ m : Phys, 0 < m.kend ∧ m.kend ≤ PHYSTOP / PGSIZE ∧ m.free = [] ∧
    VmM.kinit m = .ok ((), s.phys)) ∧
  s.table = ⟨fun _ => ProcTable.blank, 1⟩ ∧ s.trapframe = (fun _ => 0) ∧
  s.pagetable = (fun _ => 0) ∧ s.sz = (fun _ => 0) ∧ s.others = ∅

/-- All sequences of operations. -/
def memMachine (trampoline : ℕ) : Machine MemKernel MemOp where
  init := MemKernel.Boots
  step s op s' := op.Enabled s ∧ op.exec trampoline s = .ok ((), s')

instance (s : MemKernel) (p : Fin NPROC) : Decidable (MemOp.Alive s p) := by
  unfold MemOp.Alive
  infer_instance

instance (s : MemKernel) (op : MemOp) : Decidable (op.Enabled s) := by
  cases op <;> unfold MemOp.Enabled <;> infer_instance

/-- The state after an operation that may happen and returns. -/
def MemKernel.next (T : ℕ) (s : MemKernel) (op : MemOp) :
    Option {s' : MemKernel // ∃ op, (memMachine T).step s op s'} :=
  if hop : op.Enabled s then
    match hrun : op.exec T s with
    | .ok ((), s') => some ⟨s', op, hop, hrun⟩
    | .error _ => none
  else none

end Cinux
