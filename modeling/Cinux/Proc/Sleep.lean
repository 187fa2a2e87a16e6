import Cinux.System.Machine
import Cinux.Proc.Table

/-!
# Sleep and wakeup

`sleep`, `wakeup`, `kkill`, `killed`, `yield` and `scheduler` of `proc.c`, interleaved at the
granularity of their locks: a step runs from one `acquire` or `release` to the next.  Processes
are put on harts by `scheduler`, which holds `p->lock` across `swtch`, so that the lock changes
hands between a process and the scheduler of its hart.

The kernel code that calls them is a parameter, a `Client`: a flow chart whose instructions work
on data of their own under one further spinlock `lk`, the lock that is passed to `sleep`.

* `Client.micro` : what a thread does next, the listing of the functions above.
* `Sched.Step`, `Sched.machine` : the interleavings.
* `Sched.Inv` : which hart holds which lock, and what the state of a process says about where
  its thread stands.
-/

namespace Cinux

open Function

/-- One instruction of the code that uses `sleep` and `wakeup`.  `σ` is the data protected by
`lk`, `β` what an action learns from outside, such as the outcome of a copy from user space. -/
inductive Instr (σ β Pc : Type) where
  /-- Back in user space, from where the next call is made. -/
  | ret
  /-- `acquire(lk)`. -/
  | acquire (k : Pc)
  /-- `release(lk)`. -/
  | release (k : Pc)
  /-- `sleep(chan, lk)`. -/
  | sleep (chan : Chan) (k : Pc)
  /-- `wakeup(chan)`. -/
  | wakeup (chan : Chan) (k : Pc)
  /-- `killed(myproc())`. -/
  | killed (k : Bool → Pc)
  /-- `kkill(pid)`; it says whether it found the process. -/
  | kkill (pid : ℤ) (k : Bool → Pc)
  /-- A test of the condition that decides whether to sleep. -/
  | test (b : σ → Bool) (k : Bool → Pc)
  /-- Straight code on the protected data. -/
  | act (f : β → σ → σ × Pc)

namespace Instr

variable {σ β Pc : Type}

/-- The instruction keeps to the lock: `lk` is acquired when it is not held and released when it
is, and the data are only touched, `sleep` and `wakeup` only called, under it. -/
def Disciplined (holds : Pc → Bool) (here : Bool) : Instr σ β Pc → Prop
  | .ret => here = false
  | .acquire k => here = false ∧ holds k = true
  | .release k => here = true ∧ holds k = false
  | .sleep _ k => here = true ∧ holds k = true
  | .wakeup _ k => here = true ∧ holds k = true
  | .killed k => ∀ b, holds (k b) = here
  | .kkill _ k => here = false ∧ ∀ b, holds (k b) = false
  | .test _ k => here = true ∧ ∀ b, holds (k b) = true
  | .act f => here = true ∧ ∀ b m, holds (f b m).2 = true

end Instr

/-- Kernel code that shares data of type `σ` under a spinlock, one flow chart for all its
functions.  `holds` tells at which points the code holds the lock. -/
structure Client (σ β : Type) where
  Pc : Type
  code : Fin NPROC → Pc → Instr σ β Pc
  /-- The functions a process may call. -/
  entry : Pc → Prop
  holds : Pc → Bool
  entry_holds : ∀ pc, entry pc → holds pc = false
  disciplined : ∀ i pc, (code i pc).Disciplined holds (holds pc)

/-- The points at which a thread may hold no lock, so that a timer interrupt can stop it. -/
inductive Spot (Pc : Type) where
  /-- At an instruction of the client. -/
  | exec (pc : Pc)
  /-- In `sleep`, before `acquire(lk)`. -/
  | relock (k : Pc)
  /-- In the loop of `kkill`, with the slots `todo` still to visit. -/
  | kill (pid : ℤ) (todo : List (Fin NPROC)) (k : Bool → Pc)

/-- How a thread goes on once `sched` has returned. -/
inductive Resume (Pc : Type) where
  /-- In `sleep(chan, lk)`. -/
  | sleep (chan : Chan) (k : Pc)
  /-- In `yield`, or in `forkret` when it has never run: both only release `p->lock`. -/
  | yield (x : Spot Pc)

/-- Where a thread stands. -/
inductive Thread (Pc : Type) where
  /-- At an instruction of the client. -/
  | exec (pc : Pc)
  /-- In `sleep`, after `acquire(&p->lock)`. -/
  | sleepLocked (chan : Chan) (k : Pc)
  /-- In `sleep`, after `release(lk)`. -/
  | sleepReleased (chan : Chan) (k : Pc)
  /-- Switched out, in the `swtch` of `sched`. -/
  | off (r : Resume Pc)
  /-- Back from `sched`, with `p->lock` held. -/
  | back (r : Resume Pc)
  /-- In `sleep`, before `acquire(lk)`. -/
  | relock (k : Pc)
  /-- In `yield`, after `acquire(&p->lock)`. -/
  | yielding (x : Spot Pc)
  /-- In the loop of `wakeup`, with the slots `todo` still to visit. -/
  | wake (chan : Chan) (todo : List (Fin NPROC)) (k : Pc)
  /-- In the loop of `wakeup`, with the lock of slot `j` held. -/
  | waking (chan : Chan) (j : Fin NPROC) (todo : List (Fin NPROC)) (k : Pc)
  /-- In `killed`, with `p->lock` held. -/
  | query (k : Bool → Pc)
  /-- In the loop of `kkill`, with the slots `todo` still to visit. -/
  | kill (pid : ℤ) (todo : List (Fin NPROC)) (k : Bool → Pc)
  /-- In the loop of `kkill`, with the lock of slot `j` held. -/
  | killing (pid : ℤ) (j : Fin NPROC) (todo : List (Fin NPROC)) (k : Bool → Pc)

/-- The thread stands at the spot. -/
def Spot.thread {Pc : Type} : Spot Pc → Thread Pc
  | .exec pc => .exec pc
  | .relock k => .relock k
  | .kill pid todo k => .kill pid todo k

/-- The lock of the client is not held at the spot. -/
def Spot.Open {Pc : Type} (holds : Pc → Bool) : Spot Pc → Prop
  | .exec pc => holds pc = false
  | _ => True

/-- The spinlocks in play. -/
inductive SpinLock where
  /-- The lock of the client. -/
  | lk
  /-- `proc[j].lock`. -/
  | proc (j : Fin NPROC)
  deriving DecidableEq

namespace Thread

variable {Pc : Type}

/-- The thread is not on a hart. -/
def isOff : Thread Pc → Bool
  | .off _ => true
  | _ => false

/-- The locks a thread of process `i` holds where it stands, `p->lock` excluded while it is
switched out: the scheduler has it then, or nobody. -/
def locks (holds : Pc → Bool) (i : Fin NPROC) : Thread Pc → SpinLock → Bool
  | .exec pc, .lk => holds pc
  | .sleepLocked _ _, .lk => true
  | .wake _ _ _, .lk => true
  | .waking _ _ _ _, .lk => true
  | .query k, .lk => holds (k true)
  | .sleepLocked _ _, .proc j => j = i
  | .sleepReleased _ _, .proc j => j = i
  | .back _, .proc j => j = i
  | .yielding _, .proc j => j = i
  | .query _, .proc j => j = i
  | .waking _ j' _ _, .proc j => j = j'
  | .killing _ j' _ _, .proc j => j = j'
  | _, _ => false

end Thread

/-- What a thread does next, up to the next `acquire` or `release`. -/
inductive Micro (σ β Pc : Type) where
  /-- It is in user space. -/
  | ret
  /-- It is switched out. -/
  | off
  | goto (k : Thread Pc)
  | test (b : σ → Bool) (k : Bool → Pc)
  /-- It calls `wakeup(chan)`. -/
  | signal (chan : Chan) (k : Pc)
  | act (f : β → σ → σ × Pc)
  | acquire (k : Thread Pc)
  | release (k : Thread Pc)
  /-- `acquire(&proc[j].lock)`. -/
  | lock (j : Fin NPROC) (k : Thread Pc)
  /-- Assignments to fields of `proc[j]`, then `release(&proc[j].lock)`. -/
  | unlock (j : Fin NPROC) (f : Proc → Proc) (k : Proc → Thread Pc)
  /-- Assignments to fields of the process itself, then the `swtch` of `sched`. -/
  | swtch (f : Proc → Proc) (r : Resume Pc)

/-- The body of the loop of `kkill`, under the lock of the process. -/
def Proc.killIf (pid : ℤ) (p : Proc) : Proc := if p.pid = pid then p.kill else p

/-- The listing: `sleep`, `wakeup`, `killed`, `kkill`, `yield` and the rest of `sched`. -/
def Client.micro {σ β : Type} (cl : Client σ β) (i : Fin NPROC) :
    Thread cl.Pc → Micro σ β cl.Pc
  | .exec pc =>
    match cl.code i pc with
    | .ret => .ret
    | .acquire k => .acquire (.exec k)
    | .release k => .release (.exec k)
    | .sleep chan k => .lock i (.sleepLocked chan k)
    | .wakeup chan k => .signal chan k
    | .killed k => .lock i (.query k)
    | .kkill pid k => .goto (.kill pid (List.finRange NPROC) k)
    | .test b k => .test b k
    | .act f => .act f
  | .sleepLocked chan k => .release (.sleepReleased chan k)
  | .sleepReleased chan k =>
    .swtch (fun p => { p with chan := some chan, state := .sleeping }) (.sleep chan k)
  | .off _ => .off
  | .back (.sleep _ k) => .unlock i (fun p => { p with chan := none }) fun _ => .relock k
  | .back (.yield x) => .unlock i id fun _ => x.thread
  | .relock k => .acquire (.exec k)
  | .yielding x => .swtch (fun p => { p with state := .runnable }) (.yield x)
  | .wake _ [] k => .goto (.exec k)
  | .wake chan (j :: todo) k =>
    if j = i then .goto (.wake chan todo k) else .lock j (.waking chan j todo k)
  | .waking chan j todo k => .unlock j (Proc.rouse (some chan)) fun _ => .wake chan todo k
  | .query k => .unlock i id fun p => .exec (k p.killed)
  | .kill _ [] k => .goto (.exec (k false))
  | .kill pid (j :: todo) k => .lock j (.killing pid j todo k)
  | .killing pid j todo k =>
    .unlock j (Proc.killIf pid) fun p =>
      if p.pid = pid then .exec (k true) else .kill pid todo k

/-- What a hart is doing.  `todo` are the slots that the pass of `scheduler` has still to visit. -/
inductive Hart where
  /-- In `scheduler`, between two slots. -/
  | scan (todo : List (Fin NPROC))
  /-- In `scheduler`, with the lock of slot `j` held, before its test. -/
  | look (j : Fin NPROC) (todo : List (Fin NPROC))
  /-- Running process `j`. -/
  | run (j : Fin NPROC) (todo : List (Fin NPROC))
  /-- In `scheduler`, back from `swtch`, with the lock of slot `j` held. -/
  | drop (j : Fin NPROC) (todo : List (Fin NPROC))

/-- Auxiliary variables that number the critical sections of `lk`. -/
structure Rounds where
  /-- The number of times `lk` has been acquired: the current or the latest section. -/
  round : ℕ
  /-- The section in which a process last tested the condition. -/
  tested : Fin NPROC → ℕ
  /-- The last section in which `wakeup(chan)` was called. -/
  signalled : Chan → ℕ
  /-- The last section before the current one in which `wakeup(chan)` was called. -/
  earlier : Chan → ℕ
  signalled_le : ∀ chan, signalled chan ≤ round
  earlier_le : ∀ chan, earlier chan ≤ round

namespace Rounds

def start : Rounds :=
  ⟨0, fun _ => 0, fun _ => 0, fun _ => 0, fun _ => le_rfl, fun _ => le_rfl⟩

/-- A section begins. -/
def enter (r : Rounds) : Rounds :=
  { r with
    round := r.round + 1
    earlier := r.signalled
    signalled_le := fun chan => (r.signalled_le chan).trans (Nat.le_succ _)
    earlier_le := fun chan => (r.signalled_le chan).trans (Nat.le_succ _) }

/-- Process `i` tests the condition. -/
def test (r : Rounds) (i : Fin NPROC) : Rounds :=
  { r with tested := update r.tested i r.round }

/-- `wakeup(chan)` is called. -/
def signal (r : Rounds) (chan : Chan) : Rounds :=
  { r with
    signalled := update r.signalled chan r.round
    signalled_le := fun c => by
      rw [update_apply]
      split_ifs
      · exact le_rfl
      · exact r.signalled_le c }

end Rounds

/-- The harts, the process table and the data of a client. -/
structure Sched {σ β : Type} (cl : Client σ β) (κ : Type) where
  mem : σ
  /-- The hart that holds a lock. -/
  lock : SpinLock → Option κ
  proc : Fin NPROC → Proc
  thread : Fin NPROC → Thread cl.Pc
  hart : κ → Hart
  rounds : Rounds

/-- The labels of the steps. -/
inductive SchedAct (Pc κ : Type) where
  /-- Process `i` on hart `h` does what comes next at `th`. -/
  | thread (h : κ) (i : Fin NPROC) (th : Thread Pc)
  /-- A timer interrupt on hart `h`. -/
  | timer (h : κ)
  /-- The scheduler of hart `h`. -/
  | scheduler (h : κ)

namespace Sched

variable {σ β κ : Type} {cl : Client σ β} [DecidableEq κ]

/-- The thread of process `i` is now at `th`. -/
def goto (s : Sched cl κ) (i : Fin NPROC) (th : Thread cl.Pc) : Sched cl κ :=
  { s with thread := update s.thread i th }

/-- Hart `h` now does `x`. -/
def setHart (s : Sched cl κ) (h : κ) (x : Hart) : Sched cl κ :=
  { s with hart := update s.hart h x }

/-- The lock `l` is now held by the hart in `x`. -/
def setLock (s : Sched cl κ) (l : SpinLock) (x : Option κ) : Sched cl κ :=
  { s with lock := update s.lock l x }

/-- Assignments to fields of `proc[j]`. -/
def assign (s : Sched cl κ) (j : Fin NPROC) (f : Proc → Proc) : Sched cl κ :=
  { s with proc := update s.proc j (f (s.proc j)) }

/-- Hart `h` runs process `i`, whose thread is at `th`. -/
def Runs (s : Sched cl κ) (h : κ) (i : Fin NPROC) (th : Thread cl.Pc) : Prop :=
  (∃ todo, s.hart h = .run i todo) ∧ s.thread i = th

/-- The steps of threads, of timer interrupts and of the schedulers. -/
inductive Step : Sched cl κ → SchedAct cl.Pc κ → Sched cl κ → Prop
  | call {s h i pc pc'} : s.Runs h i (.exec pc) → cl.code i pc = .ret → cl.entry pc' →
      Step s (.thread h i (.exec pc)) (s.goto i (.exec pc'))
  | goto {s h i th k} : s.Runs h i th → cl.micro i th = .goto k →
      Step s (.thread h i th) (s.goto i k)
  | test {s h i th b k} : s.Runs h i th → cl.micro i th = .test b k →
      Step s (.thread h i th)
        { s.goto i (.exec (k (b s.mem))) with rounds := s.rounds.test i }
  | signal {s h i th chan k} : s.Runs h i th → cl.micro i th = .signal chan k →
      Step s (.thread h i th)
        { s.goto i (.wake chan (List.finRange NPROC) k) with rounds := s.rounds.signal chan }
  | act {s h i th f} (b : β) : s.Runs h i th → cl.micro i th = .act f →
      Step s (.thread h i th) { s.goto i (.exec (f b s.mem).2) with mem := (f b s.mem).1 }
  | acquire {s h i th k} : s.Runs h i th → cl.micro i th = .acquire k → s.lock .lk = none →
      Step s (.thread h i th)
        { (s.goto i k).setLock .lk (some h) with rounds := s.rounds.enter }
  | release {s h i th k} : s.Runs h i th → cl.micro i th = .release k →
      Step s (.thread h i th) ((s.goto i k).setLock .lk none)
  | lock {s h i th j k} : s.Runs h i th → cl.micro i th = .lock j k → s.lock (.proc j) = none →
      Step s (.thread h i th) ((s.goto i k).setLock (.proc j) (some h))
  | unlock {s h i th j f k} : s.Runs h i th → cl.micro i th = .unlock j f k →
      Step s (.thread h i th)
        (((s.assign j f).goto i (k (s.proc j))).setLock (.proc j) none)
  | swtch {s h i th f r todo} : s.Runs h i th → cl.micro i th = .swtch f r →
      s.hart h = .run i todo →
      Step s (.thread h i th) (((s.assign i f).goto i (.off r)).setHart h (.drop i todo))
  /-- Interrupts are off while a process holds a spinlock. -/
  | timer {s h i x} : s.Runs h i x.thread → x.Open cl.holds → s.lock (.proc i) = none →
      Step s (.timer h) ((s.goto i (.yielding x)).setLock (.proc i) (some h))
  | pass {s h} : s.hart h = .scan [] →
      Step s (.scheduler h) (s.setHart h (.scan (List.finRange NPROC)))
  | visit {s h j todo} : s.hart h = .scan (j :: todo) → s.lock (.proc j) = none →
      Step s (.scheduler h) ((s.setHart h (.look j todo)).setLock (.proc j) (some h))
  | skip {s h j todo} : s.hart h = .look j todo → (s.proc j).state ≠ .runnable →
      Step s (.scheduler h) ((s.setHart h (.scan todo)).setLock (.proc j) none)
  | dispatch {s h j todo r} : s.hart h = .look j todo → (s.proc j).state = .runnable →
      s.thread j = .off r →
      Step s (.scheduler h)
        (((s.assign j fun p => { p with state := .running }).goto j (.back r)).setHart h
          (.run j todo))
  | leave {s h j todo} : s.hart h = .drop j todo →
      Step s (.scheduler h) ((s.setHart h (.scan todo)).setLock (.proc j) none)

/-- Before any process has run: all locks are free, the harts are at the start of `scheduler`,
and every slot is unused or holds a process that waits to run in user space. -/
structure Boot (s : Sched cl κ) : Prop where
  lock : ∀ l, s.lock l = none
  hart : ∀ h, s.hart h = .scan []
  proc : ∀ i, (s.proc i).state = .unused ∨ (s.proc i).state = .runnable
  thread : ∀ i, ∃ pc, s.thread i = .off (.yield (.exec pc)) ∧ cl.code i pc = .ret
  rounds : s.rounds = .start

/-- The machine of a client whose data start out as `start` allows. -/
def machine (cl : Client σ β) (κ : Type) [DecidableEq κ] (start : σ → Prop) :
    Machine (Sched cl κ) (SchedAct cl.Pc κ) where
  init s := s.Boot ∧ start s.mem
  step := Step

/-! ### Playing runs -/

/-- A move: a hart goes on, with an input or a call where its step depends on one. -/
inductive Move (cl : Client σ β) (κ : Type) where
  | go (h : κ)
  | input (h : κ) (b : β)
  | call (h : κ) (pc : cl.Pc) (entry : cl.entry pc)

/-- Process `i`, on hart `h`, goes on. -/
def advance (s : Sched cl κ) (h : κ) (i : Fin NPROC) (todo : List (Fin NPROC))
    (hh : s.hart h = .run i todo) : Option {s' : Sched cl κ // ∃ l, Step s l s'} :=
  have hr : s.Runs h i (s.thread i) := ⟨⟨todo, hh⟩, rfl⟩
  match hm : cl.micro i (s.thread i) with
  | .goto _ => some ⟨_, _, .goto hr hm⟩
  | .test _ _ => some ⟨_, _, .test hr hm⟩
  | .signal _ _ => some ⟨_, _, .signal hr hm⟩
  | .acquire _ => if hl : s.lock .lk = none then some ⟨_, _, .acquire hr hm hl⟩ else none
  | .release _ => some ⟨_, _, .release hr hm⟩
  | .lock j _ => if hl : s.lock (.proc j) = none then some ⟨_, _, .lock hr hm hl⟩ else none
  | .unlock _ _ _ => some ⟨_, _, .unlock hr hm⟩
  | .swtch _ _ => some ⟨_, _, .swtch hr hm hh⟩
  | _ => none

/-- The state after a move, if it can be made. -/
def next (s : Sched cl κ) : Move cl κ → Option {s' : Sched cl κ // ∃ l, Step s l s'}
  | .go h =>
    match hh : s.hart h with
    | .run i todo => s.advance h i todo hh
    | .scan [] => some ⟨_, _, .pass hh⟩
    | .scan (j :: _) => if hl : s.lock (.proc j) = none then some ⟨_, _, .visit hh hl⟩ else none
    | .look j _ =>
      if hj : (s.proc j).state = .runnable then
        match ht : s.thread j with
        | .off _ => some ⟨_, _, .dispatch hh hj ht⟩
        | _ => none
      else some ⟨_, _, .skip hh hj⟩
    | .drop _ _ => some ⟨_, _, .leave hh⟩
  | .input h b =>
    match hh : s.hart h with
    | .run i todo =>
      match hm : cl.micro i (s.thread i) with
      | .act _ => some ⟨_, _, .act b ⟨⟨todo, hh⟩, rfl⟩ hm⟩
      | _ => none
    | _ => none
  | .call h _ entry =>
    match hh : s.hart h with
    | .run i todo =>
      match ht : s.thread i with
      | .exec pc' =>
        match hret : cl.code i pc' with
        | .ret => some ⟨_, _, .call ⟨⟨todo, hh⟩, ht⟩ hret entry⟩
        | _ => none
      | _ => none
    | _ => none

/-! ### Who holds what -/

section Ownership

variable {L : Type} [DecidableEq L] {lock : L → Option κ} {own : κ → L → Bool}

theorem owner_acquire (H : ∀ h l, lock l = some h ↔ own h l = true) {l : L} (hl : lock l = none)
    (h : κ) (h' : κ) (l' : L) :
    update lock l (some h) l' = some h' ↔ update own h (update (own h) l true) h' l' = true := by
  have hfree : own h' l = false := by
    rw [← Bool.not_eq_true, ← H, hl]; simp
  by_cases e : l' = l
  · subst e
    by_cases eh : h' = h
    · subst eh; simp
    · rw [update_of_ne eh, hfree]
      simp [Ne.symm eh]
  · rw [update_of_ne e, H]
    by_cases eh : h' = h
    · subst eh; simp [update_of_ne e]
    · rw [update_of_ne eh]

theorem owner_release (H : ∀ h l, lock l = some h ↔ own h l = true) {l : L} {h : κ}
    (hl : own h l = true) (h' : κ) (l' : L) :
    update lock l none l' = some h' ↔ update own h (update (own h) l false) h' l' = true := by
  by_cases e : l' = l
  · subst e
    by_cases eh : h' = h
    · subst eh; simp
    · have hne : own h' l' = false := by
        rw [← Bool.not_eq_true, ← H, (H h l').2 hl]
        simp [Ne.symm eh]
      rw [update_of_ne eh, hne]
      simp
  · rw [update_of_ne e, H]
    by_cases eh : h' = h
    · subst eh; simp [update_of_ne e]
    · rw [update_of_ne eh]

end Ownership

/-- The locks hart `h` holds, by what it is doing. -/
def owns (s : Sched cl κ) (h : κ) : SpinLock → Bool :=
  match s.hart h with
  | .scan _ => fun _ => false
  | .look j _ => fun l => l = .proc j
  | .run i _ => (s.thread i).locks cl.holds i
  | .drop j _ => fun l => l = .proc j

end Sched

/-- What the state of a process says about its thread: it is running exactly when the thread is
on a hart, and asleep only inside `sleep`. -/
def Proc.Status {Pc : Type} (p : Proc) : Thread Pc → Prop
  | .off (.sleep chan _) => p.state = .sleeping ∧ p.chan = some chan ∨ p.state = .runnable
  | .off (.yield _) => p.state = .unused ∨ p.state = .runnable
  | _ => p.state = .running

theorem Proc.status_running {Pc : Type} {p : Proc} {th : Thread Pc} (h : th.isOff = false) :
    p.Status th ↔ p.state = .running := by
  cases th <;> first | rfl | exact absurd h (by simp [Thread.isOff])

theorem Proc.Status.woken {Pc : Type} {p q : Proc} {th : Thread Pc} (h : p.Status th)
    (hst : q.state = p.state ∨ p.state = .sleeping ∧ q.state = .runnable) (hch : q.chan = p.chan) :
    q.Status th := by
  rcases hst with hst | ⟨hp, hq⟩
  · cases th with
    | off r => cases r <;> simpa only [Proc.Status, hst, hch] using h
    | _ => exact hst.trans h
  · cases th with
    | off r =>
      cases r with
      | sleep chan k => exact .inr hq
      | yield x => exact .inr hq
    | _ => exact absurd (hp.symm.trans h) (by simp)

variable {i : Fin NPROC}

/-- No lock is held at the spot, and the lock of the client is held where `sleep` returns. -/
def Spot.Free {Pc : Type} (holds : Pc → Bool) : Spot Pc → Prop
  | .exec pc => holds pc = false
  | .relock k => holds k = true
  | .kill _ _ k => ∀ b, holds (k b) = false

namespace Thread

variable {Pc : Type}

/-- The point where the thread goes on in the client fits what the functions it is in do with
`lk`. -/
def Ok (holds : Pc → Bool) : Thread Pc → Prop
  | .exec _ => True
  | .sleepLocked _ k => holds k = true
  | .sleepReleased _ k => holds k = true
  | .off (.sleep _ k) => holds k = true
  | .off (.yield x) => x.Free holds
  | .back (.sleep _ k) => holds k = true
  | .back (.yield x) => x.Free holds
  | .relock k => holds k = true
  | .yielding x => x.Free holds
  | .wake _ _ k => holds k = true
  | .waking _ _ _ k => holds k = true
  | .query k => holds (k true) = holds (k false)
  | .kill _ _ k => ∀ b, holds (k b) = false
  | .killing _ _ _ k => ∀ b, holds (k b) = false

/-- The thread has arrived at `k`, holding the locks `ls`. -/
def Lands (holds : Pc → Bool) (i : Fin NPROC) (k : Thread Pc) (ls : SpinLock → Bool) : Prop :=
  k.isOff = false ∧ k.Ok holds ∧ k.locks holds i = ls

theorem lands_of {holds : Pc → Bool} {k : Thread Pc} {ls : SpinLock → Bool}
    (hoff : k.isOff = false) (hok : k.Ok holds) (hlk : k.locks holds i .lk = ls .lk)
    (hproc : ∀ j, k.locks holds i (.proc j) = ls (.proc j)) : k.Lands holds i ls := by
  refine ⟨hoff, hok, ?_⟩
  funext l
  cases l with
  | lk => exact hlk
  | proc j => exact hproc j

end Thread

namespace Micro

variable {σ β Pc : Type}

/-- What an instruction of a thread at `th` does to the locks that the thread holds. -/
def Keeps (holds : Pc → Bool) (i : Fin NPROC) (th : Thread Pc) : Micro σ β Pc → Prop
  | .ret => True
  | .off => True
  | .goto k => k.Lands holds i (th.locks holds i)
  | .test _ k => ∀ b, (Thread.exec (k b)).Lands holds i (th.locks holds i)
  | .signal chan k =>
    (Thread.wake chan (List.finRange NPROC) k).Lands holds i (th.locks holds i)
  | .act f => ∀ b m, (Thread.exec (f b m).2).Lands holds i (th.locks holds i)
  | .acquire k => k.Lands holds i (update (th.locks holds i) .lk true)
  | .release k =>
    th.locks holds i .lk = true ∧ k.Lands holds i (update (th.locks holds i) .lk false)
  | .lock j k => k.Lands holds i (update (th.locks holds i) (.proc j) true)
  | .unlock j _ k =>
    th.locks holds i (.proc j) = true ∧
      ∀ p, (k p).Lands holds i (update (th.locks holds i) (.proc j) false)
  | .swtch _ r =>
    (Thread.off r).Ok holds ∧ th.locks holds i = fun l => decide (l = .proc i)

end Micro

namespace Client

variable {σ β : Type} (cl : Client σ β)

theorem micro_exec_keeps (i : Fin NPROC) (pc : cl.Pc) :
    (cl.micro i (.exec pc)).Keeps cl.holds i (.exec pc) := by
  have hd := cl.disciplined i pc
  simp only [micro]
  cases hc : cl.code i pc <;> rw [hc] at hd
  case ret => trivial
  case acquire k =>
    exact Thread.lands_of rfl trivial (by simpa [Thread.locks] using hd.2) fun j => by
      simp [Thread.locks]
  case release k =>
    exact ⟨hd.1, Thread.lands_of rfl trivial (by simpa [Thread.locks] using hd.2) fun j => by
      simp [Thread.locks]⟩
  case sleep chan k =>
    exact Thread.lands_of rfl hd.2 (by simpa [Thread.locks] using hd.1) fun j => by
      simp [Thread.locks, update_apply]
  case wakeup chan k => exact Thread.lands_of rfl hd.2 hd.1.symm fun j => rfl
  case killed k =>
    exact Thread.lands_of rfl ((hd true).trans (hd false).symm)
      (by simpa [Thread.locks] using hd true) fun j => by
        simp [Thread.locks, update_apply]
  case kkill pid k => exact Thread.lands_of rfl hd.2 hd.1.symm fun j => rfl
  case test b k =>
    exact fun r => Thread.lands_of rfl trivial ((hd.2 r).trans hd.1.symm) fun j => rfl
  case act f =>
    exact fun b m => Thread.lands_of rfl trivial ((hd.2 b m).trans hd.1.symm) fun j => rfl

variable {th : Thread cl.Pc}

/-- **The listing keeps to its locks**: every `acquire` and `release` in it is of a lock that the
thread does not hold yet, or does hold. -/
theorem micro_keeps (i : Fin NPROC) (hok : th.Ok cl.holds) :
    (cl.micro i th).Keeps cl.holds i th := by
  cases th with
  | exec pc => exact cl.micro_exec_keeps i pc
  | sleepLocked chan k =>
    exact ⟨rfl, Thread.lands_of rfl hok (by simp [Thread.locks]) fun j => by simp [Thread.locks]⟩
  | sleepReleased chan k =>
    refine ⟨hok, ?_⟩
    funext l
    cases l <;> simp [Thread.locks]
  | off r => trivial
  | back r =>
    cases r with
    | sleep chan k =>
      exact ⟨by simp [Thread.locks], fun p => Thread.lands_of rfl hok (by simp [Thread.locks])
        fun j => by simp [Thread.locks, update_apply]⟩
    | yield x =>
      refine ⟨by simp [Thread.locks], fun p => ?_⟩
      cases x with
      | exec pc =>
        have hfree : cl.holds pc = false := hok
        exact Thread.lands_of rfl trivial (by simpa [Thread.locks, Spot.thread] using hfree)
          fun j => by simp [Thread.locks, Spot.thread, update_apply]
      | _ =>
        exact Thread.lands_of rfl hok (by simp [Thread.locks, Spot.thread]) fun j => by
          simp [Thread.locks, Spot.thread, update_apply]
  | relock k =>
    exact Thread.lands_of rfl trivial (by simpa [Thread.locks, Thread.Ok] using hok) fun j => by
      simp [Thread.locks]
  | yielding x =>
    refine ⟨hok, ?_⟩
    funext l
    cases l <;> simp [Thread.locks]
  | wake chan todo k =>
    cases todo with
    | nil => exact Thread.lands_of rfl trivial hok fun j => rfl
    | cons j todo =>
      simp only [micro]
      split_ifs
      · exact Thread.lands_of rfl hok rfl fun j => rfl
      · exact Thread.lands_of rfl hok (by simp [Thread.locks]) fun j' => by
          simp [Thread.locks, update_apply]
  | waking chan j todo k =>
    exact ⟨by simp [Thread.locks], fun p => Thread.lands_of rfl hok (by simp [Thread.locks])
      fun j' => by simp [Thread.locks, update_apply]⟩
  | query k =>
    refine ⟨by simp [Thread.locks], fun p => Thread.lands_of rfl trivial ?_ fun j => by
      simp [Thread.locks, update_apply]⟩
    cases hk : p.killed
    · simpa [Thread.locks, hk] using hok.symm
    · simp [Thread.locks, hk]
  | kill pid todo k =>
    cases todo with
    | nil => exact Thread.lands_of rfl trivial (hok false) fun j => rfl
    | cons j todo =>
      exact Thread.lands_of rfl hok (by simp [Thread.locks]) fun j' => by
        simp [Thread.locks, update_apply]
  | killing pid j todo k =>
    refine ⟨by simp [Thread.locks], fun p => ?_⟩
    dsimp only
    split_ifs
    · exact Thread.lands_of rfl trivial (by simpa [Thread.locks] using hok true) fun j' => by
        simp [Thread.locks, update_apply]
    · exact Thread.lands_of rfl hok (by simp [Thread.locks]) fun j' => by
        simp [Thread.locks, update_apply]

theorem micro_test {b : σ → Bool} {k : Bool → cl.Pc}
    (hm : cl.micro i th = .test b k) : ∃ pc, th = .exec pc ∧ cl.code i pc = .test b k := by
  revert hm
  fun_cases micro cl i th <;> intro hm <;> cases hm
  exact ⟨_, rfl, ‹_›⟩

theorem micro_signal {chan : Chan} {k : cl.Pc}
    (hm : cl.micro i th = .signal chan k) :
    ∃ pc, th = .exec pc ∧ cl.code i pc = .wakeup chan k := by
  revert hm
  fun_cases micro cl i th <;> intro hm <;> cases hm
  exact ⟨_, rfl, ‹_›⟩

theorem micro_act {f : β → σ → σ × cl.Pc}
    (hm : cl.micro i th = .act f) : ∃ pc, th = .exec pc ∧ cl.code i pc = .act f := by
  revert hm
  fun_cases micro cl i th <;> intro hm <;> cases hm
  exact ⟨_, rfl, ‹_›⟩

theorem micro_unlock {i j : Fin NPROC} {f : Proc → Proc}
    {k : Proc → Thread cl.Pc} (hm : cl.micro i th = .unlock j f k) (p : Proc) :
    ((f p).state = p.state ∨ p.state = .sleeping ∧ (f p).state = .runnable) ∧
      ((f p).chan = p.chan ∨ j = i) := by
  revert hm
  fun_cases micro cl i th <;> intro hm <;> cases hm
  · simp
  · simp
  · rename_i chan todo k'
    rcases Proc.woken_rouse p (some chan) with e | ⟨hs, e⟩ <;> rw [e] <;> simp_all
  · simp
  · simp only [Proc.killIf, Proc.kill]
    split_ifs <;> simp_all

end Client

namespace Sched

variable {σ β κ : Type} {cl : Client σ β} {s s' : Sched cl κ} {i j : Fin NPROC} {h : κ}
  {th k : Thread cl.Pc}

/-- Who holds which lock, and where the threads of the processes stand. -/
structure Inv (s : Sched cl κ) : Prop where
  owner : ∀ h l, s.lock l = some h ↔ s.owns h l = true
  single : ∀ {h h' i t t'}, s.hart h = .run i t → s.hart h' = .run i t' → h = h'
  placed : ∀ i, (s.thread i).isOff = false ↔ ∃ h t, s.hart h = .run i t
  ok : ∀ i, (s.thread i).Ok cl.holds
  status : ∀ i, (s.proc i).Status (s.thread i)

theorem Runs.isOff (hr : s.Runs h i th) (hI : s.Inv) : th.isOff = false := by
  obtain ⟨⟨t, ht⟩, rfl⟩ := hr
  exact (hI.placed i).2 ⟨h, t, ht⟩

theorem Runs.owns (hr : s.Runs h i th) : s.owns h = th.locks cl.holds i := by
  obtain ⟨⟨t, ht⟩, rfl⟩ := hr
  simp only [Sched.owns, ht]

theorem Runs.keeps (hr : s.Runs h i th) (hI : s.Inv) {m : Micro σ β cl.Pc}
    (hm : cl.micro i th = m) : m.Keeps cl.holds i th :=
  hm ▸ cl.micro_keeps i (hr.2 ▸ hI.ok i)

theorem Boot.inv (hb : s.Boot) : s.Inv := by
  refine ⟨fun h l => ?_, fun {h h' i t t'} e => ?_, fun i => ?_, fun i => ?_, fun i => ?_⟩
  · simp [owns, hb.hart h, hb.lock l]
  · rw [hb.hart] at e; cases e
  · obtain ⟨pc, e, -⟩ := hb.thread i
    simp [e, Thread.isOff, hb.hart]
  · obtain ⟨pc, e, hret⟩ := hb.thread i
    have := cl.disciplined i pc
    rw [hret] at this
    rw [e]
    exact this
  · obtain ⟨pc, e, -⟩ := hb.thread i
    rw [e]
    exact hb.proc i

variable [DecidableEq κ]

theorem owns_move (hI : s.Inv) (hr : s.Runs h i th) (hhart : s'.hart = s.hart)
    (hthread : s'.thread = update s.thread i k) :
    s'.owns = update s.owns h (k.locks cl.holds i) := by
  obtain ⟨⟨t, ht⟩, -⟩ := hr
  funext h'
  by_cases e : h' = h
  · subst e
    simp [owns, hhart, ht, hthread]
  · rw [update_of_ne e]
    unfold owns
    rw [hhart]
    cases hh : s.hart h' with
    | run i' t' =>
      have hne : i' ≠ i := by
        rintro rfl
        exact e (hI.single hh ht)
      simp [hthread, update_of_ne hne]
    | _ => rfl

/-- The steps of a thread that stays on its hart. -/
theorem Inv.move (hI : s.Inv) (hr : s.Runs h i th) (hhart : s'.hart = s.hart)
    (hthread : s'.thread = update s.thread i k) {ls : SpinLock → Bool}
    (hk : k.Lands cl.holds i ls)
    (hlock : ∀ h' l, s'.lock l = some h' ↔ update s.owns h ls h' l = true)
    (hproc : ∀ j, (s'.proc j).Status (s.thread j)) : s'.Inv := by
  obtain ⟨hoff, hok, hls⟩ := hk
  refine ⟨fun h' l => ?_, fun h1 h2 => ?_, fun j => ?_, fun j => ?_, fun j => ?_⟩
  · rw [hlock, owns_move hI hr hhart hthread, hls]
  · rw [hhart] at h1 h2
    exact hI.single h1 h2
  · rw [hhart, hthread, ← hI.placed j]
    by_cases e : j = i
    · subst e
      rw [update_self, hoff, hr.2, hr.isOff hI]
    · rw [update_of_ne e]
  · rw [hthread]
    by_cases e : j = i
    · subst e; rwa [update_self]
    · rw [update_of_ne e]; exact hI.ok j
  · rw [hthread]
    by_cases e : j = i
    · subst e
      have := hproc j
      rw [hr.2, Proc.status_running (hr.isOff hI)] at this
      rwa [update_self, Proc.status_running hoff]
    · rw [update_of_ne e]; exact hproc j

/-- The steps of the scheduler of a hart that runs no process before or after. -/
theorem Inv.hart_move (hI : s.Inv) {x : Hart} (hx : ∀ i t, x ≠ .run i t)
    (hh : ∀ i t, s.hart h ≠ .run i t) (hhart : s'.hart = update s.hart h x)
    (hthread : s'.thread = s.thread) (hproc : s'.proc = s.proc)
    (hlock : ∀ h' l, s'.lock l = some h' ↔ update s.owns h (s'.owns h) h' l = true) :
    s'.Inv := by
  have howns : update s.owns h (s'.owns h) = s'.owns := by
    funext h'
    by_cases e : h' = h
    · rw [e, update_self]
    · rw [update_of_ne e]
      unfold owns
      rw [hhart, hthread, update_of_ne e]
  rw [howns] at hlock
  have hrun : ∀ h' i t, s'.hart h' = .run i t ↔ s.hart h' = .run i t := by
    intro h' i t
    rw [hhart]
    by_cases e : h' = h
    · subst e
      rw [update_self]
      exact ⟨fun hc => absurd hc (hx i t), fun hc => absurd hc (hh i t)⟩
    · rw [update_of_ne e]
  refine ⟨hlock, fun h1 h2 => hI.single ((hrun _ _ _).1 h1) ((hrun _ _ _).1 h2), fun j => ?_,
    fun j => ?_, fun j => ?_⟩
  · rw [hthread, hI.placed j]
    simp only [hrun]
  · rw [hthread]; exact hI.ok j
  · rw [hthread, hproc]; exact hI.status j

theorem Inv.hart_release (hI : s.Inv) {todo : List (Fin NPROC)} (hh : ∀ i t, s.hart h ≠ .run i t)
    (howns : s.owns h = fun l => decide (l = .proc j)) :
    ((s.setHart h (.scan todo)).setLock (.proc j) none).Inv := by
  refine hI.hart_move (by simp) hh rfl rfl rfl fun h' l => ?_
  have hnone : Sched.owns ((s.setHart h (.scan todo)).setLock (.proc j) none) h =
      update (s.owns h) (.proc j) false := by
    funext l
    rw [howns]
    simp [owns, setHart, setLock, update_apply]
  rw [hnone]
  exact owner_release hI.owner (by simp [howns]) h' l

theorem Inv.stay (hI : s.Inv) (hr : s.Runs h i th) (hhart : s'.hart = s.hart)
    (hthread : s'.thread = update s.thread i k)
    (hk : k.Lands cl.holds i (th.locks cl.holds i)) (hlock : s'.lock = s.lock)
    (hproc : s'.proc = s.proc) : s'.Inv := by
  refine hI.move hr hhart hthread hk (fun h' l => ?_) fun j => ?_
  · rw [hlock, ← hr.owns, update_eq_self]
    exact hI.owner h' l
  · rw [hproc]
    exact hI.status j

/-- A switch between process `i` and the scheduler of hart `h`, which holds `p->lock` before and
after. -/
theorem Inv.exchange (hI : s.Inv) {x : Hart} (hhart : s'.hart = update s.hart h x)
    (hthread : s'.thread = update s.thread i k) (hlock : s'.lock = s.lock)
    (hproc : ∀ j, j ≠ i → s'.proc j = s.proc j) (hbefore : ∀ j t, s.hart h = .run j t → j = i)
    (hafter : ∀ j t, x = .run j t → j = i) (hother : ∀ h' t, h' ≠ h → s.hart h' ≠ .run i t)
    (howns : s'.owns h = s.owns h) (hplaced : k.isOff = false ↔ ∃ t, x = .run i t)
    (hok : k.Ok cl.holds) (hst : (s'.proc i).Status k) : s'.Inv := by
  have hne : ∀ h' j t, h' ≠ h → s.hart h' = .run j t → j ≠ i := by
    rintro h' j t e hrun rfl
    exact hother h' t e hrun
  refine ⟨fun h' l => ?_, fun {h1 h2 j t t'} e1 e2 => ?_, fun j => ?_, fun j => ?_, fun j => ?_⟩
  · rw [hlock, hI.owner]
    by_cases e : h' = h
    · rw [e, howns]
    · unfold owns
      rw [hhart, hthread, update_of_ne e]
      cases hrun : s.hart h' with
      | run j t => simp [update_of_ne (hne _ _ _ e hrun)]
      | _ => rfl
  · rw [hhart] at e1 e2
    by_cases c1 : h1 = h <;> by_cases c2 : h2 = h
    · rw [c1, c2]
    · rw [c1, update_self] at e1
      rw [update_of_ne c2] at e2
      exact absurd (hafter _ _ e1) (hne _ _ _ c2 e2)
    · rw [c2, update_self] at e2
      rw [update_of_ne c1] at e1
      exact absurd (hafter _ _ e2) (hne _ _ _ c1 e1)
    · rw [update_of_ne c1] at e1
      rw [update_of_ne c2] at e2
      exact hI.single e1 e2
  · rw [hhart, hthread]
    by_cases e : j = i
    · subst e
      rw [update_self, hplaced]
      constructor
      · rintro ⟨t, rfl⟩
        exact ⟨h, t, update_self ..⟩
      · rintro ⟨h', t, hrun⟩
        by_cases eh : h' = h
        · rw [eh, update_self] at hrun
          exact ⟨t, hrun⟩
        · rw [update_of_ne eh] at hrun
          exact absurd hrun (hother h' t eh)
    · rw [update_of_ne e, hI.placed j]
      refine exists_congr fun h' => exists_congr fun t => ?_
      by_cases eh : h' = h
      · rw [eh, update_self]
        exact ⟨fun hc => absurd (hbefore _ _ hc) e, fun hc => absurd (hafter _ _ hc) e⟩
      · rw [update_of_ne eh]
  · rw [hthread]
    by_cases e : j = i
    · subst e; rwa [update_self]
    · rw [update_of_ne e]; exact hI.ok j
  · rw [hthread]
    by_cases e : j = i
    · subst e; rwa [update_self]
    · rw [update_of_ne e, hproc j e]; exact hI.status j

theorem status_of_swtch {f : Proc → Proc} {r : Resume cl.Pc} (hm : cl.micro i th = .swtch f r)
    (p : Proc) : (f p).Status (Thread.off r) := by
  revert hm
  fun_cases Client.micro cl i th <;> intro hm <;> cases hm
  · exact .inl ⟨rfl, rfl⟩
  · exact .inr rfl

/-- **Every step keeps the locks in order.** -/
theorem Inv.step {l : SchedAct cl.Pc κ} (hI : s.Inv) (hst : Step s l s') : s'.Inv := by
  cases hst with
  | @call h i pc pc' hr hret hentry =>
    have hd := cl.disciplined i pc
    rw [hret] at hd
    refine hI.stay hr rfl rfl (Thread.lands_of rfl trivial ?_ fun j => rfl) rfl rfl
    exact (cl.entry_holds pc' hentry).trans hd.symm
  | goto hr hm =>
    have hk := hr.keeps hI hm
    exact hI.stay hr rfl rfl hk rfl rfl
  | test hr hm =>
    have hk := hr.keeps hI hm
    exact hI.stay hr rfl rfl (hk _) rfl rfl
  | signal hr hm =>
    have hk := hr.keeps hI hm
    exact hI.stay hr rfl rfl hk rfl rfl
  | act b hr hm =>
    have hk := hr.keeps hI hm
    exact hI.stay hr rfl rfl (hk b _) rfl rfl
  | acquire hr hm hfree =>
    have hk := hr.keeps hI hm
    refine hI.move hr rfl rfl hk (fun h' l => ?_) hI.status
    rw [← hr.owns]
    exact owner_acquire hI.owner hfree _ h' l
  | release hr hm =>
    obtain ⟨hheld, hk⟩ := hr.keeps hI hm
    refine hI.move hr rfl rfl hk (fun h' l => ?_) hI.status
    rw [← hr.owns] at hheld ⊢
    exact owner_release hI.owner hheld h' l
  | lock hr hm hfree =>
    have hk := hr.keeps hI hm
    refine hI.move hr rfl rfl hk (fun h' l => ?_) hI.status
    rw [← hr.owns]
    exact owner_acquire hI.owner hfree _ h' l
  | @unlock h i th j f k hr hm =>
    obtain ⟨hheld, hk⟩ := hr.keeps hI hm
    refine hI.move hr rfl rfl (hk _) (fun h' l => ?_) fun j' => ?_
    · rw [← hr.owns] at hheld ⊢
      exact owner_release hI.owner hheld h' l
    · change (update s.proc j (f (s.proc j)) j').Status (s.thread j')
      by_cases e : j' = j
      · subst e
        rw [update_self]
        obtain ⟨hstate, hchan⟩ := cl.micro_unlock hm (s.proc j')
        rcases hchan with hchan | rfl
        · exact (hI.status j').woken hstate hchan
        · have hrun := hI.status j'
          rw [hr.2, Proc.status_running (hr.isOff hI)] at hrun ⊢
          rcases hstate with hstate | ⟨hstate, -⟩
          · exact hstate.trans hrun
          · exact absurd (hstate.symm.trans hrun) (by simp)
      · rw [update_of_ne e]
        exact hI.status j'
  | @swtch h i th f r todo hr hm hh =>
    have hk := hr.keeps hI hm
    refine hI.exchange rfl rfl rfl (fun j e => update_of_ne e ..) ?_ (by simp) ?_ ?_ ?_
      hk.1 ?_
    · intro j t e
      rw [hh] at e
      cases e
      rfl
    · intro h' t e hrun
      exact e (hI.single hrun hh)
    · rw [hr.owns, hk.2]
      simp [owns, setHart]
    · simp [Thread.isOff]
    · simpa [setHart, goto, assign] using status_of_swtch hm (s.proc i)
  | @timer h i x hr hno hfree =>
    have hk : (Thread.yielding x).Lands cl.holds i
        (update (x.thread.locks cl.holds i) (.proc i) true) := by
      have hok := hr.2 ▸ hI.ok i
      cases x with
      | exec pc =>
        refine Thread.lands_of rfl hno ?_ fun j => ?_
        · simpa [Thread.locks, Spot.thread] using hno.symm
        · simp [Thread.locks, Spot.thread, update_apply]
      | _ =>
        exact Thread.lands_of rfl hok (by simp [Thread.locks, Spot.thread]) fun j => by
          simp [Thread.locks, Spot.thread, update_apply]
    refine hI.move hr rfl rfl hk (fun h' l => ?_) hI.status
    rw [← hr.owns]
    exact owner_acquire hI.owner hfree _ h' l
  | @pass h hh =>
    refine hI.hart_move (by simp) (by simp [hh]) rfl rfl rfl fun h' l => ?_
    rw [show Sched.owns _ h = s.owns h by simp [owns, setHart, hh], update_eq_self]
    exact hI.owner h' l
  | @visit h j todo hh hfree =>
    refine hI.hart_move (by simp) (by simp [hh]) rfl rfl rfl fun h' l => ?_
    have howns : Sched.owns ((s.setHart h (.look j todo)).setLock (.proc j) (some h)) h =
        update (s.owns h) (.proc j) true := by
      funext l
      simp [owns, setHart, setLock, hh, update_apply]
    rw [howns]
    exact owner_acquire hI.owner hfree _ h' l
  | @skip h j todo hh hne =>
    exact hI.hart_release (by simp [hh]) (by simp [owns, hh])
  | @dispatch h j todo r hh hrunnable hoff =>
    refine hI.exchange rfl rfl rfl (fun j e => update_of_ne e ..) ?_ ?_ ?_ ?_ ?_ ?_ ?_
    · simp [hh]
    · intro i t e
      cases e
      rfl
    · intro h' t _ hrun
      have := (hI.placed j).2 ⟨h', t, hrun⟩
      rw [hoff] at this
      cases this
    · funext l
      cases l <;> simp [owns, hh, setHart, goto, assign, Thread.locks]
    · simp [Thread.isOff]
    · have := hI.ok j
      rw [hoff] at this
      cases r <;> exact this
    · simp [setHart, goto, assign, Proc.Status]
  | @leave h j todo hh =>
    exact hI.hart_release (by simp [hh]) (by simp [owns, hh])

end Sched

end Cinux
