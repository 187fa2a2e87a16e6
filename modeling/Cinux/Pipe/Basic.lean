import Cinux.Proc.Wakeup
import Cinux.Ring.Counters

/-!
# Pipes

`pipewrite`, `piperead` and `pipeclose` of `pipe.c`, as code that runs on the process table of
`Proc/Sleep.lean` with `pi->lock` as its lock.  Any number of processes call them on one pipe, in
any interleaving, and may be killed at any time.

The pipe is a ring with free-running 32-bit counters.  `Pipe.fifo` says that it is a queue: what
readers have copied out, followed by what stands in the ring, is what writers have stored, also
when a copy to user space fails in the middle and when the counters wrap around.
-/

namespace Cinux

/-- The size of the ring of a pipe. -/
def PIPESIZE : ℕ := 512

instance : NeZero PIPESIZE := ⟨by decide⟩

/-- `struct pipe`.  The last two fields are auxiliary: all bytes that `pipewrite` has stored and
all that `piperead` has copied out, in the order in which this happened. -/
structure Pipe where
  data : Fin PIPESIZE → UInt8
  nread : ℕ
  nwrite : ℕ
  readopen : Bool
  writeopen : Bool
  /-- The page of the pipe is given back. -/
  freed : Bool
  stored : Bytes
  copied : Bytes

/-- What the two copy functions come to: the byte that `copyin` fetches, if it succeeds, and
whether `copyout` succeeds. -/
structure Copy where
  copyin : Option UInt8
  copyout : Bool

/-- The points of `pipe.c` and, for `kkill`, of its caller.  `n` is the argument of a call and `i`
the number of bytes done; `r` is what the call returns.  `some` is auxiliary: the call has stored
bytes since it last got `pi->lock`. -/
inductive PipePc where
  | user
  | pipewrite (n : ℤ)
  | writeLoop (n : ℤ) (i : ℕ) (some : Bool)
  | writeKilled (n : ℤ) (i : ℕ) (some : Bool)
  | writeFail (some : Bool)
  | writeByte (n : ℤ) (i : ℕ) (some : Bool)
  | writeFull (n : ℤ) (i : ℕ)
  | writeSleep (n : ℤ) (i : ℕ)
  | writeDone (r : ℤ)
  | piperead (n : ℤ)
  | readLoop (n : ℤ)
  | readKilled (n : ℤ)
  | readSleep (n : ℤ)
  | readByte (n : ℤ) (i : ℕ)
  | readDone (r : ℤ)
  | pipeclose (writable : Bool)
  | closeEnd (writable : Bool)
  | closeWakeup (writable : Bool)
  | closeFree
  | leave (r : ℤ)
  | kill (pid : ℤ)
  deriving DecidableEq

namespace Pipe

/-- `pi->nwrite == pi->nread + PIPESIZE`. -/
def full (m : Pipe) : Bool := m.nwrite = (m.nread + PIPESIZE) % 2 ^ 32

/-- `pi->data[pi->nwrite++ % PIPESIZE] = ch`. -/
def store (m : Pipe) (ch : UInt8) : Pipe :=
  { m with
    data := Function.update m.data (slot PIPESIZE m.nwrite) ch
    nwrite := (m.nwrite + 1) % 2 ^ 32
    stored := m.stored ++ [ch] }

/-- `ch = pi->data[pi->nread % PIPESIZE]`, copied out, and `pi->nread++`. -/
def take (m : Pipe) : Pipe :=
  { m with
    nread := (m.nread + 1) % 2 ^ 32
    copied := m.copied ++ [m.data (slot PIPESIZE m.nread)] }

/-- One of the ends is closed. -/
def closeEnd (m : Pipe) (writable : Bool) : Pipe :=
  if writable then { m with writeopen := false } else { m with readopen := false }

/-- The channels of the pipe at address `pi`: `&pi->nread` and `&pi->nwrite`. -/
def nreadChan (pi : ℕ) : Chan := .other (pi + 536)

@[inherit_doc nreadChan]
def nwriteChan (pi : ℕ) : Chan := .other (pi + 540)

/-- The code of the pipe at address `pi`. -/
def code (pi : ℕ) : PipePc → Instr Pipe Copy PipePc
  | .user => .ret
  | .pipewrite n => .acquire (.writeLoop n 0 false)
  | .writeLoop n i b =>
    -- the loop ends, or its first test fails, or `killed` is called next
    .act fun _ m =>
      (m, if n ≤ i then .writeDone i else if m.readopen then .writeKilled n i b else .writeFail b)
  | .writeKilled n i b => .killed fun k => if k then .writeFail b else .writeByte n i b
  | .writeFail _ => .release .user
  | .writeByte n i _ =>
    .act fun x m =>
      if m.full then (m, .writeFull n i)
      else
        match x.copyin with
        | none => (m, .writeDone i)
        | some ch => (m.store ch, .writeLoop n (i + 1) true)
  | .writeFull n i => .wakeup (nreadChan pi) (.writeSleep n i)
  | .writeSleep n i => .sleep (nwriteChan pi) (.writeLoop n i false)
  | .writeDone r => .wakeup (nreadChan pi) (.leave r)
  | .piperead n => .acquire (.readLoop n)
  | .readLoop n =>
    .test (fun m => m.nread = m.nwrite ∧ m.writeopen) fun b =>
      if b then .readKilled n else .readByte n 0
  | .readKilled n => .killed fun k => if k then .leave (-1) else .readSleep n
  | .readSleep n => .sleep (nreadChan pi) (.readLoop n)
  | .readByte n i =>
    .act fun x m =>
      if n ≤ i ∨ m.nread = m.nwrite then (m, .readDone i)
      else if x.copyout = false then (m, .readDone (if i = 0 then -1 else i))
      else (m.take, .readByte n (i + 1))
  | .readDone r => .wakeup (nwriteChan pi) (.leave r)
  | .pipeclose w => .acquire (.closeEnd w)
  | .closeEnd w => .act fun _ m => (m.closeEnd w, .closeWakeup w)
  | .closeWakeup w => .wakeup (if w then nreadChan pi else nwriteChan pi) .closeFree
  | .closeFree => .act fun _ m => ({ m with freed := !m.readopen && !m.writeopen }, .leave 0)
  | .leave _ => .release .user
  | .kill pid => .kkill pid fun _ => .user

/-- The points at which `pi->lock` is held. -/
def holds : PipePc → Bool
  | .user | .pipewrite _ | .piperead _ | .pipeclose _ | .kill _ => false
  | _ => true

/-- The functions that processes call. -/
inductive Entry : PipePc → Prop
  | pipewrite (n : ℤ) : Entry (.pipewrite n)
  | piperead (n : ℤ) : Entry (.piperead n)
  | pipeclose (writable : Bool) : Entry (.pipeclose writable)
  | kill (pid : ℤ) : Entry (.kill pid)

/-- The users of the pipe at address `pi`. -/
def client (pi : ℕ) : Client Pipe Copy where
  Pc := PipePc
  code _ := code pi
  entry := Entry
  holds := holds
  entry_holds := by rintro pc (_ | _ | _ | _) <;> rfl
  disciplined _ pc := by
    cases pc <;> simp only [code, Instr.Disciplined, holds, true_and, and_self, implies_true]
    case writeLoop n i b => intro _ m; split_ifs <;> rfl
    case writeKilled n i b => intro k; cases k <;> rfl
    case writeByte n i b => intro x m; split_ifs <;> [rfl; cases x.copyin <;> rfl]
    case readLoop n => intro b; cases b <;> rfl
    case readKilled n => intro k; cases k <;> rfl
    case readByte n i => intro x m; split_ifs <;> rfl

/-- `pipealloc`: what the page held before is still in `data`. -/
def Pipealloc (m : Pipe) : Prop :=
  m.nread = 0 ∧ m.nwrite = 0 ∧ m.readopen = true ∧ m.writeopen = true ∧ m.freed = false ∧
    m.stored = [] ∧ m.copied = []

/-- All interleavings of calls on the pipe at address `pi`, on the harts `κ`. -/
def machine (pi : ℕ) (κ : Type) [DecidableEq κ] :
    Machine (Sched (client pi) κ) (SchedAct (client pi).Pc κ) :=
  Sched.machine (client pi) κ Pipealloc

/-! ### The pipe is a queue -/

/-- The pipe as a queue. -/
structure Fifo (m : Pipe) : Prop where
  nread_lt : m.nread < 2 ^ 32
  nwrite_lt : m.nwrite < 2 ^ 32
  gap_le : gap (2 ^ 32) m.nread m.nwrite ≤ PIPESIZE
  stored_eq : m.stored = m.copied ++ slots (2 ^ 32) m.data m.nread m.nwrite

variable {m : Pipe}

theorem dvd_counter : PIPESIZE ∣ 2 ^ 32 := by decide

theorem Fifo.full_iff (hm : m.Fifo) :
    m.full = true ↔ gap (2 ^ 32) m.nread m.nwrite = PIPESIZE := by
  rw [full, decide_eq_true_iff]
  exact eq_add_mod_iff_gap hm.nread_lt hm.nwrite_lt (by decide)

theorem Fifo.store (hm : m.Fifo) (hfull : m.full = false) (ch : UInt8) : (m.store ch).Fifo := by
  have hlt : gap (2 ^ 32) m.nread m.nwrite < PIPESIZE := by
    refine lt_of_le_of_ne hm.gap_le fun e => ?_
    rw [hm.full_iff.2 e] at hfull
    cases hfull
  have hsize : PIPESIZE < 2 ^ 32 := by decide
  refine ⟨hm.nread_lt, Nat.mod_lt _ (by decide), ?_, ?_⟩
  · change gap (2 ^ 32) m.nread ((m.nwrite + 1) % 2 ^ 32) ≤ PIPESIZE
    rw [gap_succ_right hm.nread_lt hm.nwrite_lt (by omega)]
    exact hlt
  · change m.stored ++ [ch] = m.copied ++ slots (2 ^ 32)
      (Function.update m.data (slot PIPESIZE m.nwrite) ch) m.nread ((m.nwrite + 1) % 2 ^ 32)
    rw [slots_push dvd_counter hm.nread_lt hm.nwrite_lt hlt hsize, hm.stored_eq, List.append_assoc]

theorem Fifo.take (hm : m.Fifo) (hne : m.nread ≠ m.nwrite) : m.take.Fifo := by
  refine ⟨Nat.mod_lt _ (by decide), hm.nwrite_lt, ?_, ?_⟩
  · have hgap := hm.gap_le
    rw [gap_succ_left hm.nread_lt hm.nwrite_lt hne] at hgap
    exact (Nat.le_succ _).trans hgap
  · have hstored := hm.stored_eq
    rw [slots_pop dvd_counter hm.nread_lt hm.nwrite_lt hne] at hstored
    change m.stored = m.copied ++ [m.data (slot PIPESIZE m.nread)] ++
      slots (2 ^ 32) m.data ((m.nread + 1) % 2 ^ 32) m.nwrite
    rw [hstored, List.append_assoc, List.singleton_append]

theorem Fifo.congr {m' : Pipe} (hm : m.Fifo) (hdata : m'.data = m.data) (hr : m'.nread = m.nread)
    (hw : m'.nwrite = m.nwrite) (hs : m'.stored = m.stored) (hc : m'.copied = m.copied) :
    m'.Fifo := by
  refine ⟨hr ▸ hm.nread_lt, hw ▸ hm.nwrite_lt, ?_, ?_⟩
  · rw [hr, hw]
    exact hm.gap_le
  · rw [hdata, hr, hw, hs, hc]
    exact hm.stored_eq

theorem Pipealloc.queue (hm : m.Pipealloc) : m.Fifo := by
  obtain ⟨hr, hw, -, -, -, hs, hc⟩ := hm
  refine ⟨by omega, by omega, ?_, ?_⟩
  · rw [hr, hw, gap_self (by decide)]
    exact Nat.zero_le _
  · rw [hr, hw, hs, hc, slots_self _ (by decide)]
    rfl

theorem Fifo.act (hm : m.Fifo) {pi : ℕ} {pc : PipePc} {f : Copy → Pipe → Pipe × PipePc}
    (hc : code pi pc = .act f) (x : Copy) : (f x m).1.Fifo := by
  cases pc <;> simp only [code] at hc <;> cases hc
  case writeLoop n i b => exact hm
  case writeByte n i b =>
    dsimp only
    split_ifs with hfull
    · exact hm
    · cases x.copyin with
      | none => exact hm
      | some ch => exact hm.store (Bool.eq_false_iff.2 hfull) ch
  case readByte n i =>
    dsimp only
    split_ifs with hdone hcopy
    · exact hm
    · exact hm
    · exact hm
    · exact hm.take fun e => hdone (.inr e)
  case closeEnd w =>
    dsimp only [Pipe.closeEnd]
    split_ifs <;> exact hm.congr rfl rfl rfl rfl rfl
  case closeFree => exact hm.congr rfl rfl rfl rfl rfl

variable {pi : ℕ} {κ : Type} [DecidableEq κ] {s s' : Sched (client pi) κ}

theorem fifo_step {l : SchedAct (client pi).Pc κ} (hm : s.mem.Fifo) (hst : Sched.Step s l s') :
    s'.mem.Fifo := by
  cases hst with
  | @act h i th f x hr hact =>
    obtain ⟨pc, rfl, hc⟩ := (client pi).micro_act hact
    exact hm.act hc x
  | _ => exact hm

/-- **A pipe is a queue.**  In every state of every interleaving of `pipewrite`, `piperead`,
`pipeclose` and `kkill` by any number of processes: the counters are at most `PIPESIZE` apart,
and the bytes stored by writers are, in order, the bytes copied out by readers followed by the
bytes that stand in the ring. -/
theorem fifo (hs : (machine pi κ).Reachable s) :
    gap (2 ^ 32) s.mem.nread s.mem.nwrite ≤ PIPESIZE ∧
      s.mem.copied <+: s.mem.stored ∧
      s.mem.stored = s.mem.copied ++ slots (2 ^ 32) s.mem.data s.mem.nread s.mem.nwrite := by
  have hm : s.mem.Fifo := by
    refine hs.invariant (I := fun s => s.mem.Fifo) ?_ fun s l s' => fifo_step
    rintro s ⟨-, hm⟩
    exact hm.queue
  exact ⟨hm.gap_le, ⟨_, hm.stored_eq.symm⟩, hm.stored_eq⟩

/-- Two harts and three processes with the identifiers 1, 2 and 3, before any of them runs. -/
def booted (pi : ℕ) : Sched (client pi) Bool where
  mem := ⟨fun _ => 0, 0, 0, true, true, false, [], []⟩
  lock _ := none
  proc i :=
    { ProcTable.blank with
      pid := if i.val < 3 then i.val + 1 else 0
      state := if i.val < 3 then .runnable else .unused }
  thread _ := .off (.yield (.exec PipePc.user))
  hart _ := .scan []
  rounds := .start

theorem boot_booted (pi : ℕ) : (machine pi Bool).init (booted pi) :=
  ⟨⟨fun _ => rfl, fun _ => rfl, fun i => by simp only [booted]; split_ifs <;> simp,
    fun i => ⟨PipePc.user, rfl, rfl⟩, rfl⟩, rfl, rfl, rfl, rfl, rfl, rfl, rfl⟩

/-- A process writes two bytes, and another one, on the other hart, reads one of them. -/
def writeRead : List (Sched.Move (client 0) Bool) :=
  .flatten [.replicate 4 (.go true), [.call true (PipePc.pipewrite 2) (.pipewrite 2), .go true,
      .input true ⟨none, true⟩, .go true, .go true, .input true ⟨some 7, true⟩,
      .input true ⟨none, true⟩, .go true, .go true, .input true ⟨some 8, true⟩,
      .input true ⟨none, true⟩],
    .replicate 130 (.go true), .replicate 6 (.go false),
    [.call false (PipePc.piperead 1) (.piperead 1), .go false, .go false,
      .input false ⟨none, true⟩]]

theorem fifo_two_bytes :
    ∃ s : Sched (client 0) Bool, (machine 0 Bool).Reachable s ∧ s.mem.stored = [7, 8] ∧
      s.mem.copied = [7] ∧ slots (2 ^ 32) s.mem.data s.mem.nread s.mem.nwrite = [8] := by
  obtain ⟨s, hs, hstored, hcopied⟩ : ∃ s : Sched (client 0) Bool, (machine 0 Bool).Reachable s ∧
      s.mem.stored = [7, 8] ∧ s.mem.copied = [7] :=
    Machine.Reachable.play (.start (boot_booted 0)) Sched.next writeRead (by decide +kernel)
  have hfifo := (fifo hs).2.2
  rw [hstored, hcopied, List.singleton_append] at hfifo
  exact ⟨s, hs, hstored, hcopied, (List.cons.inj hfifo).2.symm⟩

end Pipe

end Cinux
