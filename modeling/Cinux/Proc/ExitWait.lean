import Cinux.Proc.Table
import Cinux.System.Machine
import Mathlib.Data.List.Chain

/-!
# The exit and wait protocol

The machine `procs` interleaves `kfork`, `kexit`, `kwait` and `kkill` of all processes.  Its steps
are the critical sections of `wait_lock` and of the locks of single processes: `kfork` is three of
them (the child is allocated, gets its parent, becomes runnable) and `kwait` goes to sleep in two,
because `sleep` gives up `wait_lock` before the process is `SLEEPING`.  In between the process
holds its own lock, and since `wakeup` takes the lock of every process, `kexit` waits for it; this
is what makes a lost wakeup impossible.

* `Procs.Inv` : children in the making belong to one `kfork`, every process has a live parent,
  and nobody sleeps in `kwait` beside a zombie child.
* `Procs.Inv.step` : every step keeps it.
* `Procs.exit_wait` : **the protocol**, for every run: what `kwait` returns is the pid and the
  status of a `kexit` that nobody else has seen or will see.
-/

namespace Cinux

open Function ProcTable

/-- Where a process is in the protocol. -/
inductive Pc where
  /-- Elsewhere: in user space or in another part of the kernel. -/
  | user
  /-- In `kfork`, having allocated the child `np`. -/
  | forking (np : Fin NPROC)
  /-- In `kfork`, having set the parent of `np`. -/
  | forked (np : Fin NPROC)
  /-- In `kwait`, about to take `wait_lock` and to scan the table. -/
  | waiting (addr : ℕ)
  /-- In the `sleep` of `kwait`, holding its own lock, with `wait_lock` given up. -/
  | dozing (addr : ℕ)
  /-- In the `sleep` of `kwait`, with the processor given up. -/
  | asleep (addr : ℕ)
  deriving DecidableEq, Repr

/-- The child that `kfork` is making. -/
def Pc.child : Pc → Option (Fin NPROC)
  | .forking np => some np
  | .forked np => some np
  | _ => none

/-- Where `swtch` returns to: `sleep` takes `wait_lock` again and `kwait` goes round its loop. -/
def Pc.resume : Pc → Pc
  | .asleep addr => .waiting addr
  | pc => pc

/-- The table and the position of every process. -/
structure Procs where
  table : ProcTable
  pc : Fin NPROC → Pc

/-- The atomic sections. -/
inductive ProcAct where
  /-- `kfork` allocates `np` but runs out of memory. -/
  | forkFail (p np : Fin NPROC)
  | fork (p np : Fin NPROC)
  /-- `np->parent = p`. -/
  | adopt (p np : Fin NPROC)
  /-- `np->state = RUNNABLE`, the end of `kfork`. -/
  | start (p np : Fin NPROC)
  /-- Process `p`, whose pid is `pid`, exits. -/
  | kexit (p : Fin NPROC) (pid status : ℤ)
  /-- `kwait` is called. -/
  | wait (p : Fin NPROC) (addr : ℕ)
  /-- One round of `kwait`. -/
  | kwait (p : Fin NPROC) (addr : ℕ) (r : WaitResult)
  /-- The end of `sleep` in `kwait`. -/
  | sleep (p : Fin NPROC)
  /-- The scheduler runs a process, -/
  | swtch (p : Fin NPROC)
  /-- and the timer stops it. -/
  | yield (p : Fin NPROC)
  /-- `sleep` elsewhere in the kernel, -/
  | sleepOn (p : Fin NPROC) (a : ℕ)
  /-- and the `wakeup` that ends it. -/
  | wakeup (i : Fin NPROC)
  /-- `kkill` finds the pid in slot `i`. -/
  | kkill (p : Fin NPROC) (pid : ℤ) (i : Fin NPROC)
  | setkilled (p : Fin NPROC)
  deriving DecidableEq

/-- Process `c` exits in this section. -/
def ProcAct.exits (c : Fin NPROC) : ProcAct → Bool
  | .kexit p _ _ => p == c
  | _ => false

/-- Process `c` is reaped in this section. -/
def ProcAct.reaps (c : Fin NPROC) : ProcAct → Bool
  | .kwait _ _ (.reaped pp _ _) => pp == c
  | _ => false

namespace Procs

/-- Process `p` is executing at `pc`. -/
def At (s : Procs) (p : Fin NPROC) (pc : Pc) : Prop :=
  (s.table.proc p).state = .running ∧ s.pc p = pc

/-- Process `i` holds its own lock across a step. -/
def Locked (s : Procs) (i : Fin NPROC) : Prop := ∃ addr, s.pc i = .dozing addr

/-- The steps.  `allocproc` and `kkill` visit the slots one by one with the table free in between,
so they may find any slot that fits. -/
inductive Step : Procs → ProcAct → Procs → Prop
  | forkFail {s p np} : s.At p .user → (s.table.proc np).state = .unused →
      Step s (.forkFail p np)
        { s with table := (s.table.allocproc np).modify np Proc.freeproc }
  | fork {s p np} : s.At p .user → (s.table.proc np).state = .unused →
      Step s (.fork p np) ⟨s.table.allocproc np, update s.pc p (.forking np)⟩
  | adopt {s p np} : s.At p (.forking np) →
      Step s (.adopt p np)
        ⟨s.table.modify np fun x => { x with parent := some p },
          update s.pc p (.forked np)⟩
  | start {s p np} : s.At p (.forked np) →
      Step s (.start p np)
        ⟨s.table.modify np fun x => { x with state := .runnable }, update s.pc p .user⟩
  -- `wakeup` takes the lock of every other process
  | kexit {s p status t} : s.At p .user → (∀ i, i ≠ p → ¬ s.Locked i) →
      s.table.kexit p status = some t →
      Step s (.kexit p (s.table.proc p).pid status) { s with table := t }
  | wait {s p addr} : s.At p .user →
      Step s (.wait p addr) { s with pc := update s.pc p (.waiting addr) }
  | kwait {s p addr copyout r t} : s.At p (.waiting addr) →
      s.table.kwait p addr copyout = (r, t) →
      Step s (.kwait p addr r)
        ⟨t, update s.pc p (if r = .sleep then .dozing addr else .user)⟩
  | sleep {s p addr} : s.At p (.dozing addr) →
      Step s (.sleep p)
        ⟨s.table.modify p fun x => { x with chan := some (.proc p), state := .sleeping },
          update s.pc p (.asleep addr)⟩
  -- a process that was in `sleep` clears its channel before it releases its lock; one that
  -- comes back from `yield` has none
  | swtch {s p} : (s.table.proc p).state = .runnable →
      Step s (.swtch p)
        ⟨s.table.modify p fun x => { x with chan := none, state := .running },
          update s.pc p (s.pc p).resume⟩
  | yield {s p} : (s.table.proc p).state = .running → ¬ s.Locked p →
      Step s (.yield p)
        { s with table := s.table.modify p fun x => { x with state := .runnable } }
  | sleepOn {s p a} : s.At p .user →
      Step s (.sleepOn p a)
        { s with
          table := s.table.modify p fun x =>
            { x with chan := some (.other a), state := .sleeping } }
  | wakeup {s i a} : (s.table.proc i).SleepsOn (some (.other a)) →
      Step s (.wakeup i)
        { s with table := s.table.modify i fun x => { x with state := .runnable } }
  | kkill {s p pid i} : s.At p .user → (s.table.proc i).pid = pid → ¬ s.Locked i →
      Step s (.kkill p pid i) { s with table := s.table.modify i Proc.kill }
  | setkilled {s p} : s.At p .user →
      Step s (.setkilled p)
        { s with table := s.table.modify p fun x => { x with killed := true } }

/-- The state after `userinit`. -/
def boot : Procs := ⟨ProcTable.userinit, fun _ => .user⟩

/-- The processes, interleaved at their critical sections. -/
def procs : Machine Procs ProcAct where
  init s := s = boot
  step := Step

/-- A process that is or may come to be executing. -/
def Live (s : Procs) (p : Fin NPROC) : Prop :=
  (s.table.proc p).state = .sleeping ∨ (s.table.proc p).state = .runnable ∨
    (s.table.proc p).state = .running

/-- Process `p` is committed to sleeping in `kwait` and nothing has woken it. -/
def Resting (s : Procs) (p : Fin NPROC) : Prop :=
  s.Locked p ∨ (∃ addr, s.pc p = .asleep addr) ∧ (s.table.proc p).state = .sleeping

/-- What holds between any two steps. -/
structure Inv (s : Procs) : Prop where
  /-- Only live processes are inside the protocol. -/
  idle : ∀ i, ¬ s.Live i → s.pc i = .user
  /-- A child in the making is `USED`, -/
  child : ∀ p np, (s.pc p).child = some np → (s.table.proc np).state = .used
  /-- is made by one `kfork` only, -/
  maker : ∀ p q np, (s.pc p).child = some np → (s.pc q).child = some np → p = q
  /-- and has its parent from the second section of that `kfork` on. -/
  forked : ∀ p np, s.pc p = .forked np → (s.table.proc np).parent = some p
  init : s.Live initproc
  parent : ∀ c, c ≠ initproc → (s.table.proc c).state ≠ .unused → (∀ p, s.pc p ≠ .forking c) →
    ∃ q, (s.table.proc c).parent = some q ∧ s.Live q
  dozing : ∀ p, s.Locked p → (s.table.proc p).state = .running
  asleep : ∀ p addr, s.pc p = .asleep addr → (s.table.proc p).state = .sleeping →
    (s.table.proc p).chan = some (.proc p)
  quiet : ∀ p c, s.Resting p → (s.table.proc c).parent = some p →
    (s.table.proc c).state ≠ .zombie

variable {s s' : Procs} {p q i np : Fin NPROC}

theorem inv_boot : boot.Inv where
  idle _ _ := rfl
  child p np h := by simp [boot, Pc.child] at h
  maker p q np h := by simp [boot, Pc.child] at h
  forked p np h := by simp [boot] at h
  init := .inr (.inl rfl)
  parent c hc hs := by
    refine absurd ?_ hs
    simp [boot, userinit, modify_proc, allocproc_proc, hc, blank]
  dozing p h := by obtain ⟨addr, h⟩ := h; simp [boot] at h
  asleep p addr h := by simp [boot] at h
  quiet p c h := by
    rcases h with ⟨addr, h⟩ | ⟨⟨addr, h⟩, -⟩ <;> simp [boot] at h

/-- Alternation of the states of one live process: the rest of the protocol does not see it. -/
theorem Inv.of_live (h : s.Inv) {f : Proc → Proc}
    (hstate : (f (s.table.proc i)).state = (s.table.proc i).state ∨
      s.Live i ∧ ((f (s.table.proc i)).state = .sleeping ∨ (f (s.table.proc i)).state = .runnable ∨
        (f (s.table.proc i)).state = .running))
    (hparent : (f (s.table.proc i)).parent = (s.table.proc i).parent)
    (hdoze : s.Locked i → (f (s.table.proc i)).state = .running)
    (hasleep : ∀ addr, s.pc i = .asleep addr → (f (s.table.proc i)).state = .sleeping →
      (s.table.proc i).state = .sleeping ∧ (f (s.table.proc i)).chan = (s.table.proc i).chan) :
    Inv { s with table := s.table.modify i f } := by
  have hpar : ∀ c, ((s.table.modify i f).proc c).parent = (s.table.proc c).parent := by
    intro c
    rw [modify_proc]
    split_ifs with hc
    · rw [hc, hparent]
    · rfl
  have hlive : ∀ c, Live { s with table := s.table.modify i f } c ↔ s.Live c := by
    intro c
    unfold Live at *
    rw [modify_proc]
    split_ifs with hc
    · subst hc
      rcases hstate with he | ⟨hl, hl'⟩
      · rw [he]
      · exact iff_of_true hl' hl
    · rfl
  have hdead : ∀ c st, st = .unused ∨ st = .used ∨ st = .zombie →
      (((s.table.modify i f).proc c).state = st ↔ (s.table.proc c).state = st) := by
    intro c st hst
    unfold Live at hstate
    rw [modify_proc]
    split_ifs with hc
    · subst hc
      rcases hstate with he | ⟨hl, hl'⟩
      · rw [he]
      · rcases hst with rfl | rfl | rfl <;> grind
    · rfl
  refine ⟨fun c hc => h.idle c (mt (hlive c).2 hc), fun p np hp => ?_, h.maker, fun p np hp => ?_,
    (hlive _).2 h.init, fun c hc hs hf => ?_, fun p hp => ?_, fun p addr hp hs => ?_,
    fun p c hp hc => ?_⟩
  · exact (hdead np _ (by simp)).2 (h.child p np hp)
  · rw [hpar]; exact h.forked p np hp
  · obtain ⟨q, hq, hl⟩ := h.parent c hc (mt (hdead c _ (by simp)).2 hs) hf
    exact ⟨q, by rw [hpar, hq], (hlive q).2 hl⟩
  · have := h.dozing p hp
    rw [modify_proc]
    split_ifs with hpi
    · exact hdoze (hpi ▸ hp)
    · exact this
  · rw [modify_proc] at hs ⊢
    split_ifs at hs ⊢ with hpi
    · subst hpi
      obtain ⟨hs', hch⟩ := hasleep addr hp hs
      rw [hch]
      exact h.asleep p addr hp hs'
    · exact h.asleep p addr hp hs
  · rw [hpar] at hc
    rw [Ne, hdead c _ (by simp)]
    refine h.quiet p c ?_ hc
    rcases hp with hp | ⟨⟨addr, ha⟩, hs⟩
    · exact .inl hp
    · refine .inr ⟨⟨addr, ha⟩, ?_⟩
      dsimp only at hs
      rw [modify_proc] at hs
      split_ifs at hs with hpi
      · subst hpi
        exact (hasleep addr ha hs).1
      · exact hs

/-- A live process moves between positions at which it neither makes a child nor sleeps. -/
theorem Inv.of_pc (h : s.Inv) {c : Pc} (hl : s.Live i) (hi : (s.pc i).child = none)
    (hc : c.child = none) (hd : ∀ addr, c ≠ .dozing addr) (ha : ∀ addr, c ≠ .asleep addr) :
    Inv { s with pc := update s.pc i c } := by
  have hchild : ∀ p np, (update s.pc i c p).child = some np → (s.pc p).child = some np := by
    intro p np hp
    rw [update_apply] at hp
    split_ifs at hp with hpi
    · simp [hc] at hp
    · exact hp
  have hother : ∀ p pc, update s.pc i c p = pc → pc ≠ c → s.pc p = pc := by
    intro p pc hp hne
    rw [update_apply] at hp
    split_ifs at hp with hpi
    · exact absurd hp.symm hne
    · exact hp
  have hlock : ∀ p, Locked { s with pc := update s.pc i c } p → s.Locked p :=
    fun p ⟨addr, hp⟩ => ⟨addr, hother p _ hp (hd addr).symm⟩
  refine ⟨fun j hj => ?_, fun p np hp => h.child p np (hchild p np hp),
    fun p q np hp hq => h.maker p q np (hchild p np hp) (hchild q np hq),
    fun p np hp => h.forked p np (hother p _ hp ?_), h.init, fun j hj hs hf => ?_,
    fun p hp => h.dozing p (hlock p hp), fun p addr hp => h.asleep p addr
      (hother p _ hp (ha addr).symm),
    fun p j hp => h.quiet p j ?_⟩
  · have hji : j ≠ i := fun he => hj (he ▸ hl)
    simpa [update_apply, hji] using h.idle j hj
  · rintro rfl
    simp [Pc.child] at hc
  · refine h.parent j hj hs fun p hp => ?_
    have := hf p
    simp only [update_apply] at this
    split_ifs at this with hpi
    · simp [← hpi, hp, Pc.child] at hi
    · exact this hp
  · rcases hp with hp | ⟨⟨addr, hp⟩, hs⟩
    · exact .inl (hlock p hp)
    · exact .inr ⟨⟨addr, hother p _ hp (ha addr).symm⟩, hs⟩

theorem At.live {pc : Pc} (h : s.At p pc) : s.Live p := .inr (.inr h.1)

theorem Inv.ne_child (h : s.Inv) (hn : (s.table.proc np).state ≠ .used) :
    (s.pc p).child ≠ some np := fun hp => hn (h.child p np hp)

theorem Inv.fork (h : s.Inv) (hp : s.At p .user) (hn : (s.table.proc np).state = .unused) :
    Inv ⟨s.table.allocproc np, update s.pc p (.forking np)⟩ := by
  have hne : ∀ q, (s.pc q).child ≠ some np := fun q => h.ne_child (by simp [hn])
  have hpn : p ≠ np := by rintro rfl; simp [hp.1] at hn
  obtain ⟨hrun, hpc⟩ := hp
  constructor <;>
    simp only [Live, Locked, Resting, allocproc_proc, update_apply] <;>
    grind [Inv, Live, Locked, Resting, Pc.child]

theorem Inv.adopt (h : s.Inv) (hp : s.At p (.forking np)) :
    Inv ⟨s.table.modify np fun x => { x with parent := some p }, update s.pc p (.forked np)⟩ := by
  obtain ⟨hrun, hpc⟩ := hp
  have hused := h.child p np (by simp [hpc, Pc.child])
  have hmaker := fun q => h.maker p q np (by simp [hpc, Pc.child])
  constructor
  case parent =>
    intro c hc hs hf
    simp only [Live, modify_proc] at hs ⊢
    by_cases hcn : c = np
    · have hpn : p ≠ np := by rintro rfl; simp [hrun] at hused
      exact ⟨p, by simp [hcn], by simp [hpn, hrun]⟩
    · obtain ⟨q, hq, hl⟩ := h.parent c hc (by simpa [hcn] using hs) fun r hr => by
        have := hf r
        grind
      exact ⟨q, by simpa [hcn] using hq, by grind [Live]⟩
  all_goals
    simp only [Live, Locked, Resting, modify_proc, update_apply]
    grind [Inv, Live, Locked, Resting, Pc.child]

theorem Inv.start (h : s.Inv) (hp : s.At p (.forked np)) :
    Inv ⟨s.table.modify np fun x => { x with state := .runnable }, update s.pc p .user⟩ := by
  obtain ⟨hrun, hpc⟩ := hp
  have hused := h.child p np (by simp [hpc, Pc.child])
  have hmaker := fun q => h.maker p q np (by simp [hpc, Pc.child])
  have hparent := h.forked p np hpc
  constructor
  case parent =>
    intro c hc hs hf
    simp only [Live, modify_proc] at hs ⊢
    obtain ⟨q, hq, hl⟩ := h.parent c hc (by grind) fun r hr => by
      have := hf r
      grind
    exact ⟨q, by grind, by grind [Live]⟩
  all_goals
    simp only [Live, Locked, Resting, modify_proc, update_apply]
    grind [Inv, Live, Locked, Resting, Pc.child]

theorem Inv.doze (h : s.Inv) {addr : ℕ} (hp : s.At p (.waiting addr))
    (hz : ∀ c, (s.table.proc c).parent = some p → (s.table.proc c).state ≠ .zombie) :
    Inv { s with pc := update s.pc p (.dozing addr) } := by
  obtain ⟨hrun, hpc⟩ := hp
  constructor <;>
    simp only [Live, Locked, Resting, update_apply] <;>
    grind [Inv, Live, Locked, Resting, Pc.child]

theorem Inv.sleep (h : s.Inv) {addr : ℕ} (hp : s.At p (.dozing addr)) :
    Inv ⟨s.table.modify p fun x => { x with chan := some (.proc p), state := .sleeping },
      update s.pc p (.asleep addr)⟩ := by
  obtain ⟨hrun, hpc⟩ := hp
  constructor
  case parent =>
    intro c hc hs hf
    simp only [Live, modify_proc] at hs ⊢
    obtain ⟨q, hq, hl⟩ := h.parent c hc (by grind) fun r hr => by
      have := hf r
      grind
    exact ⟨q, by grind, by grind [Live]⟩
  all_goals
    simp only [Live, Locked, Resting, modify_proc, update_apply]
    grind [Inv, Live, Locked, Resting, Pc.child]

theorem Inv.free (h : s.Inv) (hn : ¬ s.Live np) (hu : (s.table.proc np).state ≠ .used) :
    Inv { s with table := s.table.modify np Proc.freeproc } := by
  have hne : ∀ q, (s.pc q).child ≠ some np := fun q => h.ne_child hu
  constructor <;>
    simp only [Live, Locked, Resting, modify_proc, Proc.freeproc] <;>
    grind [Inv, Live, Locked, Resting, Pc.child]

/-- **No lost wakeup**: an exit hands the children over to `init` and wakes both parents, neither
of which can be on its way to sleep. -/
theorem Inv.kexit (h : s.Inv) {status : ℤ} {t : ProcTable} (hp : s.At p .user)
    (hlock : ∀ i, i ≠ p → ¬ s.Locked i) (he : s.table.kexit p status = some t) :
    Inv { s with table := t } := by
  have hx := exited_of_kexit he
  obtain ⟨hrun, hpc⟩ := hp
  -- the parent of every slot afterwards
  have hpar : ∀ c, (t.proc c).parent =
      if (s.table.proc c).parent = some p then some initproc else (s.table.proc c).parent := by
    intro c
    by_cases hc : c = p
    · rw [hc, hx.self]; rfl
    · rcases hx.other c hc with he | ⟨-, he⟩ <;> rw [he] <;> rfl
  have hst : ∀ c, c ≠ p → (t.proc c).chan = (s.table.proc c).chan ∧
      ((t.proc c).state = (s.table.proc c).state ∨
        (s.table.proc c).state = .sleeping ∧ (t.proc c).state = .runnable) := by
    intro c hc
    rcases hx.other c hc with he | ⟨hs, he⟩
    · exact ⟨by rw [he]; rfl, .inl (by rw [he]; rfl)⟩
    · exact ⟨by rw [he]; rfl, .inr ⟨hs, by rw [he]⟩⟩
  have hlive : ∀ q, q ≠ p → s.Live q → Live { s with table := t } q := by
    intro q hq hl
    unfold Live at hl ⊢
    rcases (hst q hq).2 with he | ⟨-, he⟩
    · rwa [he]
    · exact .inr (.inl he)
  have hne : ∀ q, s.pc q ≠ .user → q ≠ p := fun q hq he => hq (he ▸ hpc)
  have hasleep : ∀ q addr, s.pc q = .asleep addr → (t.proc q).state = .sleeping →
      (s.table.proc q).state = .sleeping ∧ (t.proc q).chan = some (.proc q) := by
    intro q addr hq hs
    have hqp := hne q (by simp [hq])
    have hs' : (s.table.proc q).state = .sleeping := by
      rcases (hst q hqp).2 with he | ⟨hs', -⟩
      · exact he ▸ hs
      · exact hs'
    exact ⟨hs', (hst q hqp).1.trans (h.asleep q addr hq hs')⟩
  constructor
  case idle =>
    intro i hi
    by_cases hip : i = p
    · rw [hip]; exact hpc
    · exact h.idle i (mt (hlive i hip) hi)
  case child =>
    intro q np hq
    have hused := h.child q np hq
    have hnp : np ≠ p := by rintro rfl; simp [hrun] at hused
    rcases (hst np hnp).2 with he | ⟨hs, -⟩
    · exact he.trans hused
    · simp [hs] at hused
  case maker => exact h.maker
  case forked =>
    intro q np (hq : s.pc q = .forked np)
    have hqp := hne q (by simp [hq])
    simp [hpar, h.forked q np hq, hqp]
  case init => exact hlive _ hx.ne_init.symm h.init
  case parent =>
    intro c hc hs hf
    have hs' : (s.table.proc c).state ≠ .unused := by
      by_cases hcp : c = p
      · simp [hcp, hrun]
      · rcases (hst c hcp).2 with he | ⟨hs', -⟩
        · exact he ▸ hs
        · simp [hs']
    obtain ⟨q, hq, hl⟩ := h.parent c hc hs' hf
    by_cases hqp : q = p
    · exact ⟨initproc, by simp [hpar, hq, hqp], hlive _ hx.ne_init.symm h.init⟩
    · exact ⟨q, by simp [hpar, hq, hqp], hlive q hqp hl⟩
  case dozing =>
    rintro q ⟨addr, hq : s.pc q = .dozing addr⟩
    exact absurd ⟨addr, hq⟩ (hlock q (hne q (by simp [hq])))
  case asleep => exact fun q addr hq hs => (hasleep q addr hq hs).2
  case quiet =>
    intro q c hr hc hz
    rcases hr with ⟨addr, hq : s.pc q = .dozing addr⟩ | ⟨⟨addr, hq : s.pc q = .asleep addr⟩, hs⟩
    · exact hlock q (hne q (by simp [hq])) ⟨addr, hq⟩
    · obtain ⟨hs', hchan⟩ := hasleep q addr hq hs
      have hqp := hne q (by simp [hq])
      by_cases hcp : c = p
      · -- the process that exits has woken its parent
        exact hx.parent_woken q hqp (hcp ▸ hc) ⟨hs, hchan⟩
      · have hz' : (s.table.proc c).state = .zombie := by
          rcases (hst c hcp).2 with he | ⟨-, he⟩
          · exact he ▸ hz
          · exact absurd (he.symm.trans hz) (by simp)
        have hcq : (if (s.table.proc c).parent = some p then some initproc
            else (s.table.proc c).parent) = some q := hpar c ▸ hc
        split_ifs at hcq with hcpar
        · -- a zombie child handed over to `init`, which has been woken
          cases hcq
          exact hx.init_woken ⟨c, hcpar⟩ ⟨hs, hchan⟩
        · exact h.quiet q c (.inr ⟨⟨addr, hq⟩, hs'⟩) hcq hz'

theorem Inv.kwait (h : s.Inv) {addr : ℕ} {copyout : Bool} {r : WaitResult} {t : ProcTable}
    (hp : s.At p (.waiting addr)) (hw : s.table.kwait p addr copyout = (r, t)) :
    Inv ⟨t, update s.pc p (if r = .sleep then .dozing addr else .user)⟩ := by
  have huser : Inv { s with pc := update s.pc p .user } :=
    h.of_pc hp.live (by simp [hp.2, Pc.child]) rfl (by simp) (by simp)
  rcases kwait_cases hw with ⟨pp, rfl, -, hz, rfl⟩ | ⟨hr, rfl⟩ | ⟨rfl, rfl, hz⟩
  · have hdead : ¬ Live { s with pc := update s.pc p .user } pp := by simp [Live, hz]
    exact huser.free hdead (by simp [hz])
  · rw [if_neg (by rcases hr with rfl | rfl <;> simp)]
    exact huser
  · exact h.doze hp hz

theorem Inv.swtch (h : s.Inv) (hp : (s.table.proc p).state = .runnable) :
    Inv ⟨s.table.modify p fun x => { x with chan := none, state := .running },
      update s.pc p (s.pc p).resume⟩ := by
  have hl : s.Live p := .inr (.inl hp)
  have hrun : Inv { s with
      table := s.table.modify p fun x => { x with chan := none, state := .running } } :=
    h.of_live (.inr ⟨hl, by simp⟩) rfl (fun _ => rfl) (by simp)
  by_cases ha : ∃ addr, s.pc p = .asleep addr
  · obtain ⟨addr, ha⟩ := ha
    refine hrun.of_pc (by simp [Live, modify_proc]) ?_ ?_ ?_ ?_ <;>
      simp [ha, Pc.resume, Pc.child]
  · have hsame : (s.pc p).resume = s.pc p := by
      unfold Pc.resume
      split
      · exact absurd ⟨_, ‹_›⟩ ha
      · rfl
    rw [hsame, update_eq_self]
    exact hrun

/-- Every step keeps the invariant. -/
theorem Inv.step {a : ProcAct} (h : s.Inv) (hst : Step s a s') : s'.Inv := by
  cases hst with
  | @forkFail p np hp hn =>
    -- the slot is back where it was before anyone could see it
    have hback : (s.table.allocproc np).modify np Proc.freeproc =
        { s.table.modify np Proc.freeproc with nextpid := toInt32 (s.table.nextpid + 1) } := by
      simp [allocproc, ProcTable.modify, Proc.freeproc]
    rw [hback]
    have hdead : ¬ s.Live np := by simp [Live, hn]
    have := h.free hdead (by simp [hn])
    exact ⟨this.1, this.2, this.3, this.4, this.5, this.6, this.7, this.8, this.9⟩
  | fork hp hn => exact h.fork hp hn
  | adopt hp => exact h.adopt hp
  | start hp => exact h.start hp
  | kexit hp hlock he => exact h.kexit hp hlock he
  | wait hp => exact h.of_pc hp.live (by simp [hp.2, Pc.child]) rfl (by simp) (by simp)
  | kwait hp hw => exact h.kwait hp hw
  | sleep hp => exact h.sleep hp
  | swtch hp => exact h.swtch hp
  | yield hp hl =>
    exact h.of_live (.inr ⟨.inr (.inr hp), by simp⟩) rfl (fun hl' => absurd hl' hl) (by simp)
  | sleepOn hp =>
    refine h.of_live (.inr ⟨hp.live, by simp⟩) rfl ?_ ?_ <;> simp [Locked, hp.2]
  | wakeup hs =>
    refine h.of_live (.inr ⟨.inl hs.1, by simp⟩) rfl (fun hl => ?_) (by simp)
    exact absurd (h.dozing _ hl) (by simp [hs.1])
  | @kkill p pid i hp hpid hl =>
    by_cases hs : (s.table.proc i).state = .sleeping
    · exact h.of_live (.inr ⟨.inl hs, by simp [Proc.kill, hs]⟩) rfl (fun hl' => absurd hl' hl)
        (by simp [Proc.kill, hs])
    · exact h.of_live (.inl (by simp [Proc.kill, hs])) rfl (fun hl' => absurd hl' hl)
        (by simp [Proc.kill, hs])
  | setkilled hp =>
    exact h.of_live (.inl rfl) rfl (fun hl => h.dozing _ hl) fun _ _ hs => ⟨hs, rfl⟩

/-! ### Exits and their reaping -/

/-- The exits and reapings of slot `c` in a run. -/
def events (c : Fin NPROC) (tr : List ProcAct) : List ProcAct :=
  tr.filter fun a => a.exits c || a.reaps c

/-- How the run so far and the state of slot `c` belong together: exits and reapings alternate,
and a zombie is an exit that has not been reaped. -/
structure Recorded (tr : List ProcAct) (s : Procs) (c : Fin NPROC) : Prop where
  alternate : (events c tr).IsChain fun a b => a.exits c ≠ b.exits c
  zombie : (s.table.proc c).state = .zombie → (events c tr).getLast? =
    some (.kexit c (s.table.proc c).pid (s.table.proc c).xstate)
  other : (s.table.proc c).state ≠ .zombie → ∀ a ∈ (events c tr).getLast?, a.exits c = false

variable {tr : List ProcAct} {c : Fin NPROC} {a : ProcAct}

theorem Recorded.frame (h : Recorded tr s c) (ha : a.exits c = false ∧ a.reaps c = false)
    (hz : (s'.table.proc c).state = .zombie ↔ (s.table.proc c).state = .zombie)
    (hs : (s.table.proc c).state = .zombie → (s'.table.proc c).pid = (s.table.proc c).pid ∧
      (s'.table.proc c).xstate = (s.table.proc c).xstate) : Recorded (tr ++ [a]) s' c := by
  have he : events c (tr ++ [a]) = events c tr := by simp [events, ha.1, ha.2]
  refine ⟨he ▸ h.alternate, fun hc => ?_, fun hc => he ▸ h.other (mt hz.2 hc)⟩
  obtain ⟨hpid, hx⟩ := hs (hz.1 hc)
  rw [he, hpid, hx]
  exact h.zombie (hz.1 hc)

/-- Slot `c` is a zombie after a step that is not about it exactly if it was one before, and then
its pid and status are as they were. -/
theorem Step.zombie_frame (h : s.Inv) (hst : Step s a s')
    (ha : a.exits c = false ∧ a.reaps c = false) :
    ((s'.table.proc c).state = .zombie ↔ (s.table.proc c).state = .zombie) ∧
      ((s.table.proc c).state = .zombie → (s'.table.proc c).pid = (s.table.proc c).pid ∧
        (s'.table.proc c).xstate = (s.table.proc c).xstate) := by
  cases hst with
  | @kexit p status t hp hlock he =>
    have hc : c ≠ p := by
      rintro rfl
      simp [ProcAct.exits] at ha
    rcases (exited_of_kexit he).other c hc with he | ⟨hs, he⟩
    · simp [he, Proc.adopt]
    · have hs' : (s.table.proc c).state = .sleeping := hs
      simp [he, hs', Proc.adopt]
  | @kwait p addr copyout r t hp hw =>
    rcases kwait_cases hw with ⟨pp, rfl, -, -, rfl⟩ | ⟨-, rfl⟩ | ⟨-, rfl, -⟩
    · have hc : c ≠ pp := by
        rintro rfl
        simp [ProcAct.reaps] at ha
      simp [modify_proc, hc]
    · simp
    · simp
  | @start p np hp =>
    have hused := h.child p np (by simp [hp.2, Pc.child])
    simp only [modify_proc]
    grind
  | @sleep p addr hp => simp only [modify_proc]; grind [At]
  | swtch hp => simp only [modify_proc]; grind
  | yield hp => simp only [modify_proc]; grind
  | sleepOn hp => simp only [modify_proc]; grind [At]
  | wakeup hs => simp only [modify_proc]; grind [Proc.SleepsOn]
  | kkill hp => simp only [modify_proc, Proc.kill]; grind
  | setkilled hp => simp only [modify_proc]; grind
  | wait hp => simp
  | adopt hp => simp only [modify_proc]; grind
  | fork hp hn => simp only [allocproc_proc]; grind
  | forkFail hp hn =>
    simp only [modify_proc, allocproc_proc, Proc.freeproc]; grind

theorem Recorded.append (h : Recorded tr s c) (ha : (a.exits c || a.reaps c) = true)
    (hlast : ∀ b ∈ (events c tr).getLast?, b.exits c ≠ a.exits c) :
    (events c (tr ++ [a])).IsChain (fun a b => a.exits c ≠ b.exits c) ∧
      (events c (tr ++ [a])).getLast? = some a := by
  have he : events c (tr ++ [a]) = events c tr ++ [a] := by simp [events, ha]
  rw [he]
  refine ⟨List.isChain_append.2 ⟨h.alternate, by simp, fun b hb a' ha' => ?_⟩, by simp⟩
  obtain rfl : a = a' := by simpa using ha'
  exact hlast b hb

/-- Every step keeps the records. -/
theorem Recorded.step (h : Recorded tr s c) (hi : s.Inv) (hst : Step s a s') :
    Recorded (tr ++ [a]) s' c := by
  by_cases ha : a.exits c = false ∧ a.reaps c = false
  · obtain ⟨hz, hs⟩ := hst.zombie_frame hi ha
    exact h.frame ha hz hs
  · cases hst with
    | @kexit p status t hp hlock he =>
      obtain rfl : p = c := by simpa [ProcAct.exits, ProcAct.reaps] using ha
      have hself := (exited_of_kexit he).self
      obtain ⟨hchain, hlast⟩ := h.append (a := .kexit p (s.table.proc p).pid status)
        (by simp [ProcAct.exits]) fun b hb => by
          rw [h.other (by simp [hp.1]) b hb]
          simp [ProcAct.exits]
      refine ⟨hchain, fun _ => ?_, fun hz => absurd (by simp [hself]) hz⟩
      rw [hlast]
      simp [hself, Proc.adopt]
    | @kwait p addr copyout r t hp hw =>
      rcases kwait_cases hw with ⟨pp, rfl, -, hz, rfl⟩ | ⟨hr, rfl⟩ | ⟨rfl, rfl, -⟩
      · obtain rfl : pp = c := by simpa [ProcAct.exits, ProcAct.reaps] using ha
        obtain ⟨hchain, hlast⟩ := h.append (a := .kwait p addr (.reaped pp (s.table.proc pp).pid
          (if addr ≠ 0 then some (s.table.proc pp).xstate else none)))
          (by simp [ProcAct.reaps]) fun b hb => by
            rw [h.zombie hz] at hb
            cases hb
            simp [ProcAct.exits]
        refine ⟨hchain, fun hz' => ?_, fun _ b hb => ?_⟩
        · simp [modify_proc, Proc.freeproc] at hz'
        · rw [hlast] at hb
          cases hb
          rfl
      · rcases hr with rfl | rfl <;> simp [ProcAct.exits, ProcAct.reaps] at ha
      · simp [ProcAct.exits, ProcAct.reaps] at ha
    | _ => exact absurd ⟨rfl, rfl⟩ ha

theorem recorded_of_trace (h : procs.Trace tr s) : s.Inv ∧ ∀ c, Recorded tr s c := by
  refine h.invariant (I := fun tr s => s.Inv ∧ ∀ c, Recorded tr s c) ?_ ?_
  · rintro _ rfl
    refine ⟨inv_boot, fun c => ⟨.nil, fun hz => absurd hz ?_, by simp [events]⟩⟩
    simp only [boot, userinit, modify_proc, allocproc_proc]
    split_ifs <;> simp [blank]
  · rintro tr s a s' - ⟨hi, hr⟩ hst
    exact ⟨hi.step hst, fun c => (hr c).step hi hst⟩

/-- What the protocol promises after the run `tr` has reached `s`. -/
structure Protocol (tr : List ProcAct) (s : Procs) : Prop where
  /-- A `kwait` that succeeds is called by the parent of the process it reaps.  The last thing that
  happened to that process was its exit; `kwait` returns its pid, and copies out its status
  unless `addr` is null. -/
  reaped : ∀ p addr pp pid status s', Step s (.kwait p addr (.reaped pp pid status)) s' →
    (s.table.proc pp).parent = some p ∧ ∃ pre post xstate,
      tr = pre ++ .kexit pp pid xstate :: post ∧
      (∀ a ∈ post, a.exits pp = false ∧ a.reaps pp = false) ∧
      status = if addr ≠ 0 then some xstate else none
  /-- Between an exit and the next exit from the same slot there is at most one reaping. -/
  once : ∀ c pid xstate pre mid post, tr = pre ++ .kexit c pid xstate :: (mid ++ post) →
    (∀ a ∈ mid, a.exits c = false) → mid.countP (ProcAct.reaps c) ≤ 1
  /-- A `kwait` whose `copyout` fails changes nothing. -/
  fault : ∀ p addr s', Step s (.kwait p addr .fault) s' → s'.table = s.table
  /-- Every process whose fork is complete has a parent that can still wait for it. -/
  parent : ∀ c, c ≠ initproc → (s.table.proc c).state ≠ .unused →
    (∀ p, (s.pc p).child ≠ some c) → ∃ q, (s.table.proc c).parent = some q ∧
      (s.table.proc q).state ≠ .unused ∧ (s.table.proc q).state ≠ .zombie
  /-- No process sleeps in `kwait` beside a zombie child. -/
  quiet : ∀ p addr c, s.pc p = .asleep addr → (s.table.proc p).state = .sleeping →
    (s.table.proc c).parent = some p → (s.table.proc c).state ≠ .zombie

theorem Recorded.last_exit (h : Recorded tr s c) (hz : (s.table.proc c).state = .zombie) :
    ∃ pre post, tr = pre ++ .kexit c (s.table.proc c).pid (s.table.proc c).xstate :: post ∧
      ∀ a ∈ post, a.exits c = false ∧ a.reaps c = false := by
  obtain ⟨ys, hys⟩ := List.getLast?_eq_some_iff.1 (h.zombie hz)
  obtain ⟨l1, l2, rfl, -, h2⟩ := List.filter_eq_append_iff.1 hys
  obtain ⟨m1, m2, rfl, -, -, hm⟩ := List.filter_eq_cons_iff.1 h2
  refine ⟨l1 ++ m1, m2, by simp, fun a ha => ?_⟩
  simpa using List.filter_eq_nil_iff.1 hm a ha

theorem Recorded.once (h : Recorded tr s c) {pre mid post : List ProcAct}
    (htr : tr = pre ++ (mid ++ post)) (hmid : ∀ a ∈ mid, a.exits c = false) :
    mid.countP (ProcAct.reaps c) ≤ 1 := by
  have hinfix : events c mid <:+: events c tr := by
    rw [htr]
    exact ⟨events c pre, events c post, by simp [events]⟩
  have hchain := h.alternate.infix hinfix
  have hreaps : events c mid = mid.filter (ProcAct.reaps c) :=
    List.filter_congr fun a ha => by simp [hmid a ha]
  have hnone : ∀ a ∈ events c mid, a.exits c = false := fun a ha =>
    hmid a (List.mem_of_mem_filter ha)
  rw [List.countP_eq_length_filter, ← hreaps]
  match hev : events c mid with
  | [] => simp
  | [_] => simp
  | a :: b :: l =>
    -- two reapings in a row do not alternate with exits
    rw [hev] at hchain hnone
    refine absurd ?_ (List.isChain_cons_cons.1 hchain).1
    rw [hnone a (by simp), hnone b (by simp)]

/-- **The exit and wait protocol**: in every interleaving, every exit is reaped at most once, by
the parent, with its own pid and status; nobody is left without a parent to wait for it, and
nobody sleeps through the exit of a child. -/
theorem exit_wait (h : procs.Trace tr s) : Protocol tr s := by
  obtain ⟨hi, hr⟩ := recorded_of_trace h
  refine ⟨fun p addr pp pid status s' hst => ?_, fun c pid xstate pre mid post htr => ?_,
    fun p addr s' hst => ?_, fun c hc hs hf => ?_, fun p addr c hp hs => ?_⟩
  · cases hst with
    | kwait hp hw =>
      rcases kwait_cases hw with ⟨c, he, hpar, hz, -⟩ | ⟨he, -⟩ | ⟨he, -⟩
      · cases he
        obtain ⟨pre, post, htr, hpost⟩ := (hr pp).last_exit hz
        exact ⟨hpar, pre, post, _, htr, hpost, rfl⟩
      · rcases he with he | he <;> cases he
      · cases he
  · have hsplit : tr = (pre ++ [.kexit c pid xstate]) ++ (mid ++ post) := by simp [htr]
    exact (hr c).once hsplit
  · cases hst with
    | kwait hp hw =>
      rcases kwait_cases hw with ⟨c, he, -⟩ | ⟨-, rfl⟩ | ⟨-, rfl, -⟩
      · cases he
      · rfl
      · rfl
  · obtain ⟨q, hq, hl⟩ := hi.parent c hc hs fun p hp => hf p (by simp [hp, Pc.child])
    refine ⟨q, hq, fun he => ?_, fun he => ?_⟩ <;> simp [Live, he] at hl
  · exact hi.quiet p c (.inr ⟨⟨addr, hp⟩, hs⟩)

theorem trace_step (h : procs.Trace tr s) (hst : Step s a s') : procs.Trace (tr ++ [a]) s' :=
  h.next hst

theorem exists_exit_run : ∃ tr s, procs.Trace tr s ∧ s.At initproc (.waiting 0) ∧
    (s.table.kwait initproc 0 true).1 = .reaped ⟨1, by decide⟩ 2 none ∧
    (s.table.proc ⟨1, by decide⟩).xstate = 7 := by
  let c : Fin NPROC := ⟨1, by decide⟩
  have h1 := trace_step (.start rfl) (Step.swtch (p := initproc) rfl)
  have h2 := trace_step h1 (@Step.fork _ initproc c ⟨rfl, rfl⟩ rfl)
  have h3 := trace_step h2 (@Step.adopt _ initproc c ⟨rfl, rfl⟩)
  have h4 := trace_step h3 (@Step.start _ initproc c ⟨rfl, rfl⟩)
  have h5 := trace_step h4 (Step.swtch (p := c) rfl)
  have h6 := trace_step h5 (@Step.kexit _ c 7 _ ⟨rfl, rfl⟩ (by
    rintro i hi ⟨addr, ha⟩
    simp only [boot, update_apply, Pc.resume] at ha
    split_ifs at ha) (if_neg (by decide)))
  have h7 := trace_step h6 (@Step.wait _ initproc 0 ⟨by decide +kernel, rfl⟩)
  exact ⟨_, _, h7, ⟨by decide +kernel, rfl⟩, by decide +kernel, by decide +kernel⟩

theorem exit_wait_exit_run : ∃ tr s, procs.Trace tr s ∧
    (s.table.proc ⟨1, by decide⟩).xstate = 7 ∧ Protocol tr s := by
  obtain ⟨tr, s, h, -, -, hx⟩ := exists_exit_run
  exact ⟨tr, s, h, hx, exit_wait h⟩

/-- A parent that passes a null address is not told the status. -/
theorem kwait_null_silent : ¬ ∀ tr s s' p addr pp pid status, procs.Trace tr s →
    Step s (.kwait p addr (.reaped pp pid status)) s' →
    status = some (s.table.proc pp).xstate := by
  intro hall
  obtain ⟨tr, s, h, hat, hw, -⟩ := exists_exit_run
  have hst := @Step.kwait _ _ _ true _ _ hat (Prod.ext hw rfl)
  exact absurd (hall _ _ _ _ _ _ _ _ h hst) (by simp)

end Procs

end Cinux
