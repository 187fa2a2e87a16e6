import Cinux.Kernel.Block
import Cinux.System.Machine

/-!
# Nested `push_off`

`push_off` turns interrupts off, and the `pop_off` that undoes the first of nested calls turns them
on again if they were on before.  Both are kept in `struct cpu` but belong to the kernel thread:
`sched` lets a thread leave its CPU with one call open, and gives `intena` to the CPU on which the
thread goes on.  `Kernel.interrupts_nest` says that this works out for all threads and CPUs, and
`Kernel.noff_overflows` that `noff` is an `int`.

Of `acquire` and `release` only the calls of `push_off` and `pop_off` count here.  Which locks are
held is left open, and so are the states of the processes and which one `scheduler` chooses, so that
the machine has every run of the code.
-/

namespace Cinux

open Function

/-- `noff` and `intena` of `struct cpu`, and whether the CPU takes interrupts. -/
structure Cpu where
  noff : ℤ
  intena : Bool
  sie : Bool

namespace Cpu

/-- `push_off`. -/
def pushOff (c : Cpu) : Cpu where
  noff := toInt32 (c.noff + 1)
  intena := if c.noff = 0 then c.sie else c.intena
  sie := false

/-- `pop_off`. -/
def popOff (c : Cpu) : Except String Cpu :=
  if c.sie then .error "pop_off - interruptible"
  else if c.noff < 1 then .error "pop_off"
  else .ok { c with noff := c.noff - 1, sie := decide (c.noff - 1 = 0) && c.intena }

/-- `sched` up to `swtch`: what it checks, and the `intena` that it keeps.  `holding` says whether
the thread holds `p->lock`, and `running` whether its state is `RUNNING`. -/
def sched (c : Cpu) (holding running : Bool) : Except String Bool :=
  if !holding then .error "sched p->lock"
  else if c.noff ≠ 1 then .error "sched locks"
  else if running then .error "sched RUNNING"
  else if c.sie then .error "sched interruptible"
  else .ok c.intena

end Cpu

/-- A kernel thread.  The code itself has only `saved`, the `intena` that `sched` keeps. -/
structure KThread where
  /-- The calls of `push_off` that are not undone. -/
  depth : ℕ
  /-- Whether interrupts were on at the first of them; a new thread starts with one call done. -/
  entry : Option Bool
  saved : Option Bool

namespace KThread

/-- The CPU that runs the thread counts its calls, and keeps its interrupts off. -/
structure Fits (x : KThread) (c : Cpu) : Prop where
  noff : c.noff = x.depth
  off : x.depth ≠ 0 → c.sie = false
  intena : x.depth ≠ 0 → ∀ b, x.entry = some b → c.intena = b

/-- The thread is in `sched`, or before `forkret`. -/
structure Parked (x : KThread) : Prop where
  depth : x.depth = 1
  saved : ∀ b, x.entry = some b → x.saved = some b

/-- A call of `push_off` while interrupts are on if `ie`. -/
def enter (x : KThread) (ie : Bool) : KThread :=
  { x with depth := x.depth + 1, entry := if x.depth = 0 then some ie else x.entry }

/-- A call of `pop_off`. -/
def leave (x : KThread) : KThread := { x with depth := x.depth - 1 }

variable {x : KThread} {c : Cpu} {i : Bool}

theorem Fits.enter (h : x.Fits c) (hlt : x.depth + 1 < 2 ^ 31) :
    (x.enter c.sie).Fits c.pushOff := by
  refine ⟨?_, fun _ => rfl, fun _ b hb => ?_⟩
  · simp only [Cpu.pushOff, KThread.enter, h.noff]
    exact_mod_cast toInt32_of_fits hlt
  · simp only [KThread.enter] at hb
    simp only [Cpu.pushOff, h.noff, Nat.cast_eq_zero]
    split_ifs at hb ⊢ with h0
    · exact Option.some.inj hb
    · exact h.intena h0 b hb

theorem Fits.leave (h : x.Fits c) (h0 : x.depth ≠ 0) : ∃ d, c.popOff = .ok d ∧ x.leave.Fits d ∧
    (x.depth = 1 → ∀ b, x.entry = some b → d.sie = b) := by
  have hnoff := h.noff
  unfold Cpu.popOff
  rw [if_neg (by simp [h.off h0]), if_neg (by omega)]
  refine ⟨_, rfl, ⟨?_, fun h1 => ?_, fun _ => h.intena h0⟩, fun h1 b hb => ?_⟩
  · simp only [KThread.leave]
    omega
  · simp only [KThread.leave] at h1
    have hne : c.noff - 1 ≠ 0 := by omega
    simp [hne]
  · have hz : c.noff - 1 = 0 := by omega
    simp [hz, h.intena h0 b hb]

theorem Fits.sched_iff (h : x.Fits c) (holding running : Bool) :
    c.sched holding running = .ok i ↔
      holding = true ∧ x.depth = 1 ∧ running = false ∧ i = c.intena := by
  have hone : c.noff = 1 ↔ x.depth = 1 := by
    rw [h.noff]
    omega
  by_cases hd : x.depth = 1
  · have hoff := h.off (by omega)
    cases holding <;> cases running <;> simp [Cpu.sched, hone.2 hd, hd, hoff, eq_comm]
  · cases holding <;> simp [Cpu.sched, hone, hd]

theorem Fits.sched {holding running : Bool} (h : x.Fits c) (hi : c.sched holding running = .ok i) :
    Parked { x with saved := some i } ∧ Fits ⟨1, none, none⟩ c := by
  obtain ⟨-, h1, -, rfl⟩ := (h.sched_iff holding running).1 hi
  have h0 : x.depth ≠ 0 := by omega
  refine ⟨⟨h1, fun b hb => ?_⟩, by rw [h.noff, h1], fun _ => h.off h0, by simp⟩
  rw [h.intena h0 b hb]

theorem Parked.resume (hx : x.Parked) {y : KThread} (h : y.Fits c) (h1 : y.depth = 1) :
    x.Fits { c with intena := x.saved.getD c.intena } := by
  refine ⟨?_, fun _ => h.off (by omega), fun _ b hb => ?_⟩
  · rw [hx.depth, ← h1]
    exact h.noff
  · simp [hx.saved b hb]

end KThread

/-- A CPU, and the thread that it runs: that of a process, or of `scheduler`. -/
structure Core (T : Type) where
  cpu : Cpu
  proc : Option T
  thread : KThread

/-- The CPUs, and the threads of the processes that are on none of them. -/
structure Kernel (T K : Type) where
  core : K → Core T
  parked : T → Option KThread

namespace Kernel

variable {T K : Type} [DecidableEq K]

/-- CPU `k` is now as `c`. -/
def put (s : Kernel T K) (k : K) (c : Core T) : Kernel T K := { s with core := update s.core k c }

/-- What holds between steps. -/
structure Inv (s : Kernel T K) : Prop where
  core : ∀ k, (s.core k).thread.Fits (s.core k).cpu
  parked : ∀ t, ∀ x ∈ s.parked t, x.Parked

theorem Inv.put {s : Kernel T K} {k : K} {c : Core T} (h : s.Inv) (hc : c.thread.Fits c.cpu) :
    (s.put k c).Inv :=
  ⟨forall_update_iff s.core (p := fun _ c => c.thread.Fits c.cpu) |>.2
    ⟨hc, fun k' _ => h.core k'⟩, h.parked⟩

variable [DecidableEq T]

/-- CPU `k` leaves its thread for another, and the thread of process `t` is now as `y`. -/
def switch (s : Kernel T K) (k : K) (c : Core T) (t : T) (y : Option KThread) : Kernel T K :=
  { s.put k c with parked := update s.parked t y }

/-- The steps of CPU `k`.  A thread turns interrupts on or off only while none of its calls is open.
`scheduler` leaves its thread at depth 1, and goes on there. -/
inductive Step : Kernel T K → K → Kernel T K → Prop
  | intr {s k} (b : Bool) : (s.core k).thread.depth = 0 →
      Step s k (s.put k { s.core k with cpu.sie := b })
  | pushOff {s k} : Step s k (s.put k { s.core k with
      cpu := (s.core k).cpu.pushOff
      thread := (s.core k).thread.enter (s.core k).cpu.sie })
  | popOff {s k d} : (s.core k).thread.depth ≠ 0 → (s.core k).cpu.popOff = .ok d →
      Step s k (s.put k { s.core k with cpu := d, thread := (s.core k).thread.leave })
  | sched {s k t i} (holding running : Bool) : (s.core k).proc = some t →
      (s.core k).cpu.sched holding running = .ok i →
      Step s k (s.switch k { s.core k with proc := none, thread := ⟨1, none, none⟩ } t
        (some { (s.core k).thread with saved := some i }))
  -- a new thread goes on with the `intena` of its CPU
  | swtch {s k t x} : (s.core k).proc = none → (s.core k).thread.depth = 1 → s.parked t = some x →
      Step s k (s.switch k ⟨{ (s.core k).cpu with
        intena := x.saved.getD (s.core k).cpu.intena }, some t, x⟩ t none)

/-- All CPUs start in `scheduler`, and all processes will start in `forkret`. -/
def machine : Machine (Kernel T K) K where
  init s := (∀ k, (s.core k).cpu.noff = 0 ∧ (s.core k).thread.depth = 0) ∧
    ∀ t, s.parked t = some ⟨1, none, none⟩
  step := Step

/-- No thread gets to depth `2 ^ 31`. -/
def Shallow (_ : Kernel T K) (k : K) (s' : Kernel T K) : Prop :=
  (s'.core k).thread.depth < 2 ^ 31

variable {s s' : Kernel T K} {k : K} {c : Core T}

theorem Inv.switch (h : s.Inv) (hc : c.thread.Fits c.cpu) {y : Option KThread}
    (hy : ∀ x ∈ y, x.Parked) (t : T) : (s.switch k c t y).Inv :=
  ⟨(h.put hc).core, forall_update_iff s.parked (p := fun _ y => ∀ x ∈ y, x.Parked) |>.2
    ⟨hy, fun t' _ => h.parked t'⟩⟩

theorem Inv.step (h : s.Inv) (hd : Shallow s k s') (hst : Step s k s') : s'.Inv := by
  have hk := h.core k
  cases hst with
  | intr b h0 => exact h.put ⟨hk.noff, fun hne => absurd h0 hne, fun hne => absurd h0 hne⟩
  | pushOff =>
    simp only [Shallow, Kernel.put, update_self] at hd
    exact h.put (hk.enter hd)
  | popOff h0 hp =>
    obtain ⟨d, hd, hfits, -⟩ := hk.leave h0
    cases hp.symm.trans hd
    exact h.put hfits
  | sched holding running _ hi =>
    obtain ⟨hx, hc⟩ := hk.sched hi
    exact h.switch hc (by simpa using hx) _
  | swtch _ h1 hx => exact h.switch ((h.parked _ _ hx).resume hk h1) (by simp) _

theorem inv_of_reachable (h : (machine.restrict Shallow).Reachable s) : s.Inv := by
  refine h.invariant (fun s hs => ⟨fun k => ?_, fun t x hx => ?_⟩)
    fun s k s' hI hst => hI.step hst.1 hst.2
  · obtain ⟨hn, h0⟩ := hs.1 k
    exact ⟨by rw [hn, h0]; rfl, fun hne => absurd h0 hne, fun hne => absurd h0 hne⟩
  · cases (hs.2 t).symm.trans hx
    exact ⟨rfl, by simp⟩

/-- **Nested `push_off`.**  In every run of any number of processes and CPUs in which no thread gets
to depth `2 ^ 31`: interrupts are off on a CPU whose `noff` is positive; `pop_off` does not panic in
a thread with an open call, and after the last one interrupts are as they were before the first; and
`sched` panics unless the thread holds `p->lock`, has no other call open and is not `RUNNING`. -/
theorem interrupts_nest (h : (machine.restrict Shallow).Reachable s) (k : K) :
    (0 < (s.core k).cpu.noff → (s.core k).cpu.sie = false) ∧
    ((s.core k).thread.depth ≠ 0 → ∃ d, (s.core k).cpu.popOff = .ok d ∧
      ((s.core k).thread.depth = 1 → ∀ b, (s.core k).thread.entry = some b → d.sie = b)) ∧
    ∀ holding running, (∃ i, (s.core k).cpu.sched holding running = .ok i) ↔
      holding = true ∧ (s.core k).thread.depth = 1 ∧ running = false := by
  have hk := (inv_of_reachable h).core k
  refine ⟨fun hpos => hk.off ?_, fun h0 => ?_, fun holding running => ?_⟩
  · have hnoff := hk.noff
    omega
  · obtain ⟨d, hd, -, hlast⟩ := hk.leave h0
    exact ⟨d, hd, hlast⟩
  · simp only [hk.sched_iff]
    constructor
    · rintro ⟨_, h1, h2, h3, -⟩
      exact ⟨h1, h2, h3⟩
    · rintro ⟨h1, h2, h3⟩
      exact ⟨_, h1, h2, h3, rfl⟩

/-- Two CPUs, one of which takes interrupts, and one process. -/
def boot : Kernel Unit Bool where
  core k := ⟨⟨0, false, !k⟩, none, 0, none, none⟩
  parked _ := some ⟨1, none, none⟩

/-- The process releases the lock of `scheduler` on the first CPU, which turns interrupts on, takes
a lock and leaves the CPU in `sched`.  It goes on on the second CPU, whose interrupts were off, and
will turn them on when it releases the lock. -/
theorem interrupts_nest_moved : ∃ s : Kernel Unit Bool,
    (machine.restrict Shallow).Reachable s ∧ (s.core true).proc = some () ∧
      (s.core true).cpu.sie = false ∧
      ∃ d, (s.core true).cpu.popOff = .ok d ∧ d.sie = true := by
  have h0 : (machine.restrict Shallow).Reachable boot := .start ⟨fun _ => ⟨rfl, rfl⟩, fun _ => rfl⟩
  have h1 := h0.next ⟨by unfold Shallow; decide, .pushOff (k := false)⟩
  have h2 := h1.next ⟨by unfold Shallow; decide, .swtch (k := false) (t := ()) rfl rfl rfl⟩
  have h3 := h2.next ⟨by unfold Shallow; decide, .popOff (k := false) (by decide) rfl⟩
  have h4 := h3.next ⟨by unfold Shallow; decide, .pushOff (k := false)⟩
  have h5 := h4.next ⟨by unfold Shallow; decide, .sched (k := false) true false rfl rfl⟩
  have h6 := h5.next ⟨by unfold Shallow; decide, .pushOff (k := true)⟩
  have h7 := h6.next ⟨by unfold Shallow; decide, .swtch (k := true) (t := ()) rfl rfl rfl⟩
  obtain ⟨hoff, hpop, -⟩ := interrupts_nest h7 true
  obtain ⟨d, hd, hlast⟩ := hpop (by decide)
  exact ⟨_, h7, rfl, hoff (by decide), d, hd, hlast rfl true rfl⟩

/-- **Too many calls**: the process calls `push_off` until it has `2 ^ 31` calls open; then `noff`
is negative, and `pop_off` panics. -/
theorem noff_overflows : ∃ s : Kernel Unit Bool, machine.Reachable s ∧
    (s.core false).proc = some () ∧ (s.core false).thread.depth = 2 ^ 31 ∧
      (s.core false).cpu.popOff = .error "pop_off" := by
  have hrun (n : ℕ) : ∃ s : Kernel Unit Bool, machine.Reachable s ∧
      (s.core false).proc = some () ∧ (s.core false).thread.depth = n + 1 ∧
      (s.core false).cpu.noff = toInt32 (n + 1) ∧ (s.core false).cpu.sie = false := by
    induction n with
    | zero =>
      have h0 : machine.Reachable boot := .start ⟨fun _ => ⟨rfl, rfl⟩, fun _ => rfl⟩
      have h1 := h0.next (.pushOff (k := false))
      exact ⟨_, h1.next (.swtch (k := false) (t := ()) rfl rfl rfl), rfl, rfl, rfl, rfl⟩
    | succ n ih =>
      obtain ⟨s, hs, hproc, hdepth, hnoff, -⟩ := ih
      refine ⟨_, hs.next (.pushOff (k := false)), ?_⟩
      simp only [put, update_self, KThread.enter, Cpu.pushOff, hdepth, hnoff, hproc, true_and,
        and_true]
      rw [toInt32, toInt32, Int.bmod_add_bmod, Nat.cast_succ]
      rfl
  obtain ⟨s, hs, hproc, hdepth, hnoff, hsie⟩ := hrun (2 ^ 31 - 1)
  refine ⟨s, hs, hproc, hdepth, ?_⟩
  rw [Cpu.popOff, hsie, hnoff, if_neg (by decide), if_pos (by decide)]

end Kernel

end Cinux
