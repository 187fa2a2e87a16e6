import Cinux.Proc.ExitWait

/-!
# Process slots are recycled clean

`allocproc` sets only a few fields of the slot it takes, so whatever else a process starts with is
what the slot was left with: by `freeproc`, and, for the files and the current directory, by
`kexit`.  The machine `slots` adds to `procs` the fields of `struct proc` that are private to the
process, and the part of `kexit` that closes its files.

* `Slots.recycled` : in every run in which `kkill` marks no unused slot, every unused slot is
  blank, a new process is not killed, and a process is marked killed only by a `kkill` of its pid
  or by its own fault.
* `Slots.kill_zero_marks_unused` : `kkill(0)` finds an unused slot, because the pid of an unused
  slot is 0.
-/

namespace Cinux

open Function ProcTable

/-- The fields of `struct proc` that are private to the process; a null pointer is 0. -/
structure Private where
  sz : ℕ
  pagetable : ℕ
  trapframe : ℕ
  ofile : Fin NOFILE → ℕ
  cwd : ℕ

namespace Private

/-- What `freeproc` does to them. -/
def freeproc (r : Private) : Private := { r with trapframe := 0, pagetable := 0, sz := 0 }

/-- What `kfork` does to those of the child `np`, whose trap frame and page table `allocproc`
got from `kalloc`. -/
def fork (p np : Private) (trapframe pagetable : ℕ) : Private where
  sz := p.sz
  pagetable := pagetable
  trapframe := trapframe
  ofile fd := if p.ofile fd ≠ 0 then p.ofile fd else np.ofile fd
  cwd := p.cwd

/-- No memory is held. -/
def Freed (r : Private) : Prop := r.sz = 0 ∧ r.pagetable = 0 ∧ r.trapframe = 0

/-- No file is open and there is no current directory. -/
def Closed (r : Private) : Prop := r.cwd = 0 ∧ ∀ fd, r.ofile fd = 0

end Private

/-- How far `kexit` has come before it takes `wait_lock`. -/
inductive ExitStage where
  /-- Not in `kexit`. -/
  | none
  /-- In the loop that closes the files. -/
  | closing (fd : ℕ)
  /-- The current directory is given back. -/
  | closed
  deriving DecidableEq

/-- The process table with all its fields. -/
structure Slots where
  procs : Procs
  priv : Fin NPROC → Private
  stage : Fin NPROC → ExitStage

/-- The process that calls a function from user space in a section; the others are steps of the
scheduler, of `sleep` and `wakeup`, or come later in a call. -/
def ProcAct.caller : ProcAct → Option (Fin NPROC)
  | .forkFail p _ => some p
  | .fork p _ => some p
  | .wait p _ => some p
  | .kkill p _ _ => some p
  | .setkilled p => some p
  | _ => none

/-- The steps of the table with all its fields. -/
inductive SlotAct where
  /-- A section of the protocol. -/
  | proto (l : ProcAct)
  /-- Another system call of `p` changes its files, its directory or its memory. -/
  | own (p : Fin NPROC)
  /-- `kexit` is called, -/
  | exit (p : Fin NPROC)
  /-- closes one file descriptor after the other, -/
  | close (p : Fin NPROC)
  /-- and gives back the current directory. -/
  | leave (p : Fin NPROC)

namespace Slots

/-- What a section of the protocol does to the private fields. -/
def effect (priv : Fin NPROC → Private) (trapframe pagetable : ℕ) :
    ProcAct → Fin NPROC → Private
  | .forkFail _ np => update priv np (priv np).freeproc
  | .fork p np => update priv np ((priv p).fork (priv np) trapframe pagetable)
  | .kwait _ _ (.reaped pp _ _) => update priv pp (priv pp).freeproc
  | _ => priv

/-- The steps. -/
inductive Step : Slots → SlotAct → Slots → Prop
  | proto {s l t trapframe pagetable} : Procs.Step s.procs l t →
      (∀ p, l.caller = some p → s.stage p = .none) → (∀ p pid st, l ≠ .kexit p pid st) →
      Step s (.proto l) { s with procs := t, priv := effect s.priv trapframe pagetable l }
  | kexit {s p pid status t} : Procs.Step s.procs (.kexit p pid status) t →
      s.stage p = .closed →
      Step s (.proto (.kexit p pid status))
        { s with procs := t, stage := update s.stage p .none }
  | own {s p r} : s.procs.At p .user → s.stage p = .none →
      Step s (.own p) { s with priv := update s.priv p r }
  | exit {s p} : s.procs.At p .user → s.stage p = .none → p ≠ initproc →
      Step s (.exit p) { s with stage := update s.stage p (.closing 0) }
  | close {s p} (fd : Fin NOFILE) : s.procs.At p .user → s.stage p = .closing fd →
      Step s (.close p)
        { s with
          priv := update s.priv p
            { s.priv p with ofile := update (s.priv p).ofile fd 0 }
          stage := update s.stage p (.closing (fd + 1)) }
  | leave {s p} : s.procs.At p .user → s.stage p = .closing NOFILE →
      Step s (.leave p)
        { s with
          priv := update s.priv p { s.priv p with cwd := 0 }
          stage := update s.stage p .closed }

/-- The state after `userinit`, with a first process that owns what `r` says. -/
def boot (r : Private) : Slots where
  procs := .boot
  priv i := if i = initproc then r else ⟨0, 0, 0, fun _ => 0, 0⟩
  stage _ := .none

/-- All interleavings. -/
def slots : Machine Slots SlotAct where
  init s := ∃ r, s = boot r
  step := Step

end Slots

/-- The fields that `freeproc` clears under the lock of the process. -/
def Proc.Clean (x : Proc) : Prop :=
  x.killed = false ∧ x.pid = 0 ∧ x.parent = none ∧ x.chan = none ∧ x.xstate = 0

namespace Procs

variable {s s' : Procs} {l : ProcAct} {i : Fin NPROC}

/-- `kkill` marks no unused slot. -/
def KillsUsed (s : Procs) (l : ProcAct) : Prop :=
  ∀ p pid i, l = .kkill p pid i → (s.table.proc i).state ≠ .unused

/-- Where an unused slot comes from: it was unused and untouched, or it was just freed. -/
theorem Step.unused_cases (h : s.Inv) (hst : Step s l s') (hk : s.KillsUsed l)
    (hparent : ∀ i, (s.table.proc i).state = .unused → (s.table.proc i).parent = none)
    (hi : (s'.table.proc i).state = .unused) :
    ((s.table.proc i).state = .unused ∧ s'.table.proc i = s.table.proc i ∧ ∀ p, l ≠ .fork p i) ∨
      ((∃ p, l = .forkFail p i ∧ (s.table.proc i).state = .unused) ∨
        ∃ p addr pid st, l = .kwait p addr (.reaped i pid st) ∧
          (s.table.proc i).state = .zombie) ∧ (s'.table.proc i).Clean := by
  -- an assignment to a slot that is not unused afterwards leaves the unused ones alone
  have hmodify : ∀ {j : Fin NPROC} {f : Proc → Proc},
      ((s.table.modify j f).proc i).state = .unused → (f (s.table.proc j)).state ≠ .unused →
      (s.table.proc i).state = .unused ∧ (s.table.modify j f).proc i = s.table.proc i := by
    intro j f hu hf
    rw [modify_proc] at hu ⊢
    split_ifs at hu ⊢ with e
    · exact absurd hu hf
    · exact ⟨hu, rfl⟩
  cases hst with
  | @forkFail p np hp hn =>
    simp only [modify_proc, allocproc_proc] at hi ⊢
    by_cases e : i = np
    · subst e
      rw [if_pos rfl]
      exact .inr ⟨.inl ⟨p, rfl, hn⟩, rfl, rfl, rfl, rfl, rfl⟩
    · rw [if_neg e, if_neg e] at hi ⊢
      exact .inl ⟨hi, rfl, by simp⟩
  | @fork p np hp hn =>
    simp only [allocproc_proc] at hi ⊢
    split_ifs at hi ⊢ with e
    exact .inl ⟨hi, rfl, fun q hq => e (by cases hq; rfl)⟩
  | @adopt p np hp =>
    have hused := h.child p np (by simp [hp.2, Pc.child])
    dsimp only at hi ⊢
    obtain ⟨h1, h2⟩ := hmodify hi (by simp [hused])
    exact .inl ⟨h1, h2, by simp⟩
  | start hp =>
    dsimp only at hi ⊢
    obtain ⟨h1, h2⟩ := hmodify hi (by simp)
    exact .inl ⟨h1, h2, by simp⟩
  | @kexit p status t hp hlock he =>
    have hx := exited_of_kexit he
    have hne : i ≠ p := by
      rintro rfl
      rw [hx.self] at hi
      cases hi
    rcases hx.other i hne with e | ⟨-, e⟩
    · rw [e] at hi ⊢
      have hu : (s.table.proc i).state = .unused := hi
      exact .inl ⟨hu, Proc.adopt_of_ne p (by rw [hparent i hu]; simp), by simp⟩
    · rw [e] at hi
      cases hi
  | wait hp => exact .inl ⟨hi, rfl, by simp⟩
  | @kwait p addr copyout r t hp hw =>
    rcases kwait_cases hw with ⟨pp, rfl, -, hz, rfl⟩ | ⟨hr, rfl⟩ | ⟨rfl, rfl, -⟩
    · rw [modify_proc] at hi ⊢
      by_cases e : i = pp
      · subst e
        rw [if_pos rfl]
        exact .inr ⟨.inr ⟨p, addr, _, _, rfl, hz⟩, rfl, rfl, rfl, rfl, rfl⟩
      · rw [if_neg e] at hi ⊢
        exact .inl ⟨hi, rfl, by simp⟩
    · exact .inl ⟨hi, rfl, by simp⟩
    · exact .inl ⟨hi, rfl, by simp⟩
  | sleep hp =>
    dsimp only at hi ⊢
    obtain ⟨h1, h2⟩ := hmodify hi (by simp)
    exact .inl ⟨h1, h2, by simp⟩
  | swtch hp =>
    dsimp only at hi ⊢
    obtain ⟨h1, h2⟩ := hmodify hi (by simp)
    exact .inl ⟨h1, h2, by simp⟩
  | yield hp =>
    dsimp only at hi ⊢
    obtain ⟨h1, h2⟩ := hmodify hi (by simp)
    exact .inl ⟨h1, h2, by simp⟩
  | sleepOn hp =>
    dsimp only at hi ⊢
    obtain ⟨h1, h2⟩ := hmodify hi (by simp)
    exact .inl ⟨h1, h2, by simp⟩
  | wakeup hs =>
    dsimp only at hi ⊢
    obtain ⟨h1, h2⟩ := hmodify hi (by simp)
    exact .inl ⟨h1, h2, by simp⟩
  | @kkill p pid j hp hpid hlock =>
    have hne := hk p pid j rfl
    obtain ⟨h1, h2⟩ := hmodify hi (by simp only [Proc.kill]; split_ifs <;> simp_all)
    exact .inl ⟨h1, h2, by simp⟩
  | @setkilled p hp =>
    dsimp only at hi ⊢
    obtain ⟨h1, h2⟩ := hmodify hi (by simp [hp.1])
    exact .inl ⟨h1, h2, by simp⟩

theorem Step.zombie_cases (h : s.Inv) (hst : Step s l s')
    (hi : (s'.table.proc i).state = .zombie) :
    (s.table.proc i).state = .zombie ∧ (∀ p addr pid st, l ≠ .kwait p addr (.reaped i pid st)) ∨
      ∃ pid st, l = .kexit i pid st := by
  by_cases he : l.exits i = true
  · cases l <;> simp only [ProcAct.exits, Bool.false_eq_true, beq_iff_eq] at he
    subst he
    exact .inr ⟨_, _, rfl⟩
  · by_cases hr : l.reaps i = true
    · -- the slot that `kwait` has just freed is not a zombie
      cases hst with
      | @kwait p addr copyout r t hp hw =>
        rcases kwait_cases hw with ⟨pp, rfl, -, hz, rfl⟩ | ⟨hr', rfl⟩ | ⟨rfl, rfl, -⟩
        · obtain rfl : pp = i := by simpa [ProcAct.reaps] using hr
          simp [modify_proc, Proc.freeproc] at hi
        · rcases hr' with rfl | rfl <;> simp [ProcAct.reaps] at hr
        · simp [ProcAct.reaps] at hr
      | _ => simp [ProcAct.reaps] at hr
    · have hframe := hst.zombie_frame h ⟨by simpa using he, by simpa using hr⟩
      refine .inl ⟨hframe.1.1 hi, ?_⟩
      rintro p addr pid st rfl
      simp [ProcAct.reaps] at hr

/-- A live process stays live until its own `kexit`. -/
theorem Step.live (h : s.Inv) (hst : Step s l s') (hl : s.Live i)
    (hne : ∀ pid st, l ≠ .kexit i pid st) : s'.Live i := by
  have hmodify : ∀ {j : Fin NPROC} {f : Proc → Proc} {pc : Fin NPROC → Pc},
      (i = j → Live ⟨s.table.modify j f, pc⟩ i) → Live ⟨s.table.modify j f, pc⟩ i := by
    intro j f pc hf
    by_cases e : i = j
    · exact hf e
    · simpa only [Live, modify_proc, if_neg e] using hl
  have hnot : (s.table.proc i).state ≠ .unused ∧ (s.table.proc i).state ≠ .used := by
    rcases hl with e | e | e <;> rw [e] <;> simp
  cases hst with
  | @forkFail p np hp hn =>
    have e : i ≠ np := fun e => hnot.1 (e ▸ hn)
    simpa only [Live, modify_proc, allocproc_proc, if_neg e] using hl
  | @fork p np hp hn =>
    have e : i ≠ np := fun e => hnot.1 (e ▸ hn)
    simpa only [Live, allocproc_proc, if_neg e] using hl
  | @adopt p np hp =>
    have hused := h.child p np (by simp [hp.2, Pc.child])
    exact hmodify fun e => absurd (e ▸ hused) hnot.2
  | @start p np hp =>
    have hused := h.child p np (by simp [hp.2, Pc.child])
    exact hmodify fun e => absurd (e ▸ hused) hnot.2
  | @kexit p status t hp hlock he =>
    have e : i ≠ p := by
      rintro rfl
      exact hne _ _ rfl
    rcases (exited_of_kexit he).other i e with e | ⟨-, e⟩
    · simpa only [Live, e, Proc.adopt] using hl
    · simp [Live, e]
  | wait hp => exact hl
  | @kwait p addr copyout r t hp hw =>
    rcases kwait_cases hw with ⟨pp, rfl, -, hz, rfl⟩ | ⟨hr, rfl⟩ | ⟨rfl, rfl, -⟩
    · refine hmodify fun e => absurd (e ▸ hz) ?_
      rcases hl with e | e | e <;> rw [e] <;> simp
    · exact hl
    · exact hl
  | sleep hp => exact hmodify fun e => by simp [Live, modify_proc, e]
  | swtch hp => exact hmodify fun e => by simp [Live, modify_proc, e]
  | yield hp => exact hmodify fun e => by simp [Live, modify_proc, e]
  | sleepOn hp => exact hmodify fun e => by simp [Live, modify_proc, e]
  | wakeup hs => exact hmodify fun e => by simp [Live, modify_proc, e]
  | @kkill p pid j hp hpid hlock =>
    refine hmodify fun e => ?_
    subst e
    simp only [Live, modify_proc, if_pos, Proc.kill]
    rcases hl with e | e | e <;> simp [e]
  | @setkilled p hp =>
    refine hmodify fun e => ?_
    subst e
    simp [Live, modify_proc, hp.1]

/-- Who marks a process killed: `kkill` by its pid, or the process itself. -/
theorem Step.killed_cases (hst : Step s l s') (hno : (s.table.proc i).killed = false)
    (hyes : (s'.table.proc i).killed = true) :
    (∃ p, l = .kkill p (s.table.proc i).pid i) ∨ l = .setkilled i := by
  have hmodify : ∀ {j : Fin NPROC} {f : Proc → Proc}, ((s.table.modify j f).proc i).killed = true →
      ¬ ∀ x, (f x).killed = true → x.killed = true := by
    intro j f hkill hf
    rw [modify_proc] at hkill
    split_ifs at hkill with e
    · subst e
      rw [hf _ hkill] at hno
      cases hno
    · rw [hno] at hkill
      cases hkill
  cases hst with
  | @forkFail p np hp hn =>
    simp only [modify_proc, allocproc_proc] at hyes
    split_ifs at hyes
    · cases hyes
    · rw [hno] at hyes
      cases hyes
  | @fork p np hp hn =>
    simp only [allocproc_proc] at hyes
    split_ifs at hyes with e
    · subst e
      simp [hno] at hyes
    · rw [hno] at hyes
      cases hyes
  | adopt hp =>
    dsimp only at hyes
    exact (hmodify hyes fun _ hx => hx).elim
  | start hp =>
    dsimp only at hyes
    exact (hmodify hyes fun _ hx => hx).elim
  | @kexit p status t hp hlock he =>
    have hx := exited_of_kexit he
    by_cases e : i = p
    · subst e
      simp [hx.self, Proc.adopt, hno] at hyes
    · rcases hx.other i e with e | ⟨-, e⟩ <;> simp [e, Proc.adopt, hno] at hyes
  | wait hp =>
    rw [hno] at hyes
    cases hyes
  | @kwait p addr copyout r t hp hw =>
    rcases kwait_cases hw with ⟨pp, rfl, -, hz, rfl⟩ | ⟨hr, rfl⟩ | ⟨rfl, rfl, -⟩
    · exact (hmodify hyes fun _ hx => by cases hx).elim
    · rw [hno] at hyes
      cases hyes
    · rw [hno] at hyes
      cases hyes
  | sleep hp =>
    dsimp only at hyes
    exact (hmodify hyes fun _ hx => hx).elim
  | swtch hp =>
    dsimp only at hyes
    exact (hmodify hyes fun _ hx => hx).elim
  | yield hp =>
    dsimp only at hyes
    exact (hmodify hyes fun _ hx => hx).elim
  | sleepOn hp =>
    dsimp only at hyes
    exact (hmodify hyes fun _ hx => hx).elim
  | wakeup hs =>
    dsimp only at hyes
    exact (hmodify hyes fun _ hx => hx).elim
  | @kkill p pid j hp hpid hlock =>
    simp only [modify_proc] at hyes
    split_ifs at hyes with e
    · subst e
      rw [← hpid]
      exact .inl ⟨p, rfl⟩
    · rw [hno] at hyes
      cases hyes
  | @setkilled p hp =>
    simp only [modify_proc] at hyes
    split_ifs at hyes with e
    · exact .inr (by rw [e])
    · rw [hno] at hyes
      cases hyes

end Procs

namespace Slots

variable {s s' : Slots} {i : Fin NPROC}

/-- A slot with nothing left in it. -/
structure Blank (s : Slots) (i : Fin NPROC) : Prop where
  clean : (s.procs.table.proc i).Clean
  freed : (s.priv i).Freed
  closed : (s.priv i).Closed

/-- What holds between any two steps. -/
structure Inv (s : Slots) : Prop where
  procs : s.procs.Inv
  unused : ∀ i, (s.procs.table.proc i).state = .unused → s.Blank i
  zombie : ∀ i, (s.procs.table.proc i).state = .zombie → (s.priv i).Closed
  /-- Only a live process is in `kexit`, -/
  live : ∀ i, s.stage i ≠ .none → s.procs.Live i
  /-- the descriptors before the current one are closed, -/
  closing : ∀ i fd, s.stage i = .closing fd → ∀ k : Fin NOFILE, k.val < fd →
    (s.priv i).ofile k = 0
  closed : ∀ i, s.stage i = .closed → (s.priv i).Closed

theorem inv_boot (r : Private) : (boot r).Inv where
  procs := Procs.inv_boot
  unused i hi := by
    have hne : i ≠ initproc := by
      rintro rfl
      cases hi
    refine ⟨?_, ?_, ?_⟩
    · simp [boot, Procs.boot, userinit, modify_proc, allocproc_proc, hne, blank, Proc.Clean]
    · simp [boot, hne, Private.Freed]
    · simp [boot, hne, Private.Closed]
  zombie i hi := by
    simp only [boot, Procs.boot, userinit, modify_proc, allocproc_proc] at hi
    split_ifs at hi
    cases hi
  live i hi := absurd rfl hi
  closing i fd hi := by cases hi
  closed i hi := by cases hi

theorem effect_of_ne {priv : Fin NPROC → Private} {tf pt : ℕ} {l : ProcAct}
    (hfail : ∀ p, l ≠ .forkFail p i) (hfork : ∀ p, l ≠ .fork p i)
    (hreap : ∀ p addr pid st, l ≠ .kwait p addr (.reaped i pid st)) :
    effect priv tf pt l i = priv i := by
  cases l with
  | forkFail p np => exact update_of_ne (fun e => hfail p (by rw [e])) ..
  | fork p np => exact update_of_ne (fun e => hfork p (by rw [e])) ..
  | kwait p addr r =>
    cases r with
    | reaped pp pid st => exact update_of_ne (fun e => hreap p addr pid st (by rw [e])) ..
    | _ => rfl
  | _ => rfl

theorem effect_of_live {tf pt : ℕ} {l : ProcAct} {t : Procs} (hst : Procs.Step s.procs l t)
    (hl : s.procs.Live i) : effect s.priv tf pt l i = s.priv i := by
  have hnot : (s.procs.table.proc i).state ≠ .unused ∧ (s.procs.table.proc i).state ≠ .zombie := by
    rcases hl with e | e | e <;> rw [e] <;> simp
  refine effect_of_ne ?_ ?_ ?_
  · rintro p rfl
    cases hst with
    | forkFail hp hn => exact hnot.1 hn
  · rintro p rfl
    cases hst with
    | fork hp hn => exact hnot.1 hn
  · rintro p addr pid st rfl
    cases hst with
    | kwait hp hw =>
      rcases kwait_cases hw with ⟨pp, hr, -, hz, -⟩ | ⟨hr, -⟩ | ⟨hr, -, -⟩
      · cases hr
        exact hnot.2 hz
      · rcases hr with hr | hr <;> cases hr
      · cases hr

/-- A section of the protocol other than `kexit` keeps the slots in order. -/
theorem Inv.proto (h : s.Inv) {l : ProcAct} {t : Procs} (tf pt : ℕ)
    (hst : Procs.Step s.procs l t) (hk : s.procs.KillsUsed l)
    (hne : ∀ p pid st, l ≠ .kexit p pid st) :
    Inv { s with procs := t, priv := effect s.priv tf pt l } where
  procs := h.procs.step hst
  unused i hi := by
    have hparent : ∀ i, (s.procs.table.proc i).state = .unused →
        (s.procs.table.proc i).parent = none := fun i hi => (h.unused i hi).clean.2.2.1
    rcases hst.unused_cases h.procs hk hparent hi with
      ⟨hu, e, hfork⟩ | ⟨⟨p, rfl, hu⟩ | ⟨p, addr, pid, st, rfl, hz⟩, hclean⟩
    · -- the slot was unused before, and nothing has happened to it
      by_cases hfail : ∃ p, l = .forkFail p i
      · obtain ⟨p, rfl⟩ := hfail
        have hb := h.unused i hu
        refine ⟨e ▸ hb.clean, ?_, ?_⟩
        · simp [effect, Private.freeproc, Private.Freed]
        · simpa [effect, Private.freeproc, Private.Closed] using hb.closed
      · have heff : effect s.priv tf pt l i = s.priv i := by
          refine effect_of_ne (fun p hp => hfail ⟨p, hp⟩) hfork ?_
          rintro p addr pid st rfl
          cases hst with
          | kwait hp hw =>
            rcases kwait_cases hw with ⟨pp, hr, -, hz, -⟩ | ⟨hr, -⟩ | ⟨hr, -, -⟩
            · cases hr
              rw [hu] at hz
              cases hz
            · rcases hr with hr | hr <;> cases hr
            · cases hr
        have hb := h.unused i hu
        refine ⟨e ▸ hb.clean, ?_, ?_⟩
        · simpa only [heff] using hb.freed
        · simpa only [heff] using hb.closed
    · have hb := h.unused i hu
      refine ⟨hclean, ?_, ?_⟩
      · simp [effect, Private.freeproc, Private.Freed]
      · simpa [effect, Private.freeproc, Private.Closed] using hb.closed
    · refine ⟨hclean, ?_, ?_⟩
      · simp [effect, Private.freeproc, Private.Freed]
      · simpa [effect, Private.freeproc, Private.Closed] using h.zombie i hz
  zombie i hi := by
    rcases hst.zombie_cases h.procs hi with ⟨hz, hreap⟩ | ⟨pid, st, rfl⟩
    · have heff : effect s.priv tf pt l i = s.priv i := by
        refine effect_of_ne ?_ ?_ hreap
        · rintro p rfl
          cases hst with
          | forkFail hp hn => rw [hz] at hn; cases hn
        · rintro p rfl
          cases hst with
          | fork hp hn => rw [hz] at hn; cases hn
      simpa only [heff] using h.zombie i hz
    · exact absurd rfl (hne i pid st)
  live i hi := hst.live h.procs (h.live i hi) (hne i)
  closing i fd hi k hlt := by
    have hl := h.live i (by rw [show s.stage i = _ from hi]; simp)
    have heff : effect s.priv tf pt l i = s.priv i := effect_of_live hst hl
    rw [show Slots.priv _ i = s.priv i from heff]
    exact h.closing i fd hi k hlt
  closed i hi := by
    have hl := h.live i (by rw [show s.stage i = _ from hi]; simp)
    have heff : effect s.priv tf pt l i = s.priv i := effect_of_live hst hl
    rw [show Slots.priv _ i = s.priv i from heff]
    exact h.closed i hi

/-- The critical section of `kexit`, once the files are closed. -/
theorem Inv.kexit (h : s.Inv) {p : Fin NPROC} {pid status : ℤ} {t : Procs}
    (hst : Procs.Step s.procs (.kexit p pid status) t) (hclosed : s.stage p = .closed) :
    Inv { s with procs := t, stage := update s.stage p .none } where
  procs := h.procs.step hst
  unused i hi := by
    have hparent : ∀ i, (s.procs.table.proc i).state = .unused →
        (s.procs.table.proc i).parent = none := fun i hi => (h.unused i hi).clean.2.2.1
    rcases hst.unused_cases h.procs (by rintro p pid i ⟨⟩) hparent hi with
      ⟨hu, e, -⟩ | ⟨⟨p, hl, -⟩ | ⟨p, addr, pid, st, hl, -⟩, -⟩
    · have hb := h.unused i hu
      exact ⟨e ▸ hb.clean, hb.freed, hb.closed⟩
    · cases hl
    · cases hl
  zombie i hi := by
    rcases hst.zombie_cases h.procs hi with ⟨hz, -⟩ | ⟨pid, st, hl⟩
    · exact h.zombie i hz
    · cases hl
      exact h.closed _ hclosed
  live i hi := by
    by_cases e : i = p
    · subst e
      simp at hi
    · rw [show Slots.stage _ i = s.stage i from update_of_ne e ..] at hi
      exact hst.live h.procs (h.live i hi) fun pid st hl => e (by cases hl; rfl)
  closing i fd hi := by
    by_cases e : i = p
    · subst e
      simp at hi
    · exact h.closing i fd (by simpa [update_of_ne e] using hi)
  closed i hi := by
    by_cases e : i = p
    · subst e
      simp at hi
    · exact h.closed i (by simpa [update_of_ne e] using hi)

/-- A step of a running process on its own private fields. -/
theorem Inv.private (h : s.Inv) {p : Fin NPROC} (hp : s.procs.At p .user) {r : Private}
    {x : ExitStage} (hclosing : ∀ fd, x = .closing fd → ∀ k : Fin NOFILE, k.val < fd →
      r.ofile k = 0)
    (hclosed : x = .closed → r.Closed) :
    Inv { s with
      priv := update s.priv p r, stage := update s.stage p x } where
  procs := h.procs
  unused i hi := by
    have e : i ≠ p := by
      rintro rfl
      rw [show (s.procs.table.proc i).state = _ from hp.1] at hi
      cases hi
    have hb := h.unused i hi
    refine ⟨hb.clean, ?_, ?_⟩
    · simpa [update_of_ne e] using hb.freed
    · simpa [update_of_ne e] using hb.closed
  zombie i hi := by
    have e : i ≠ p := by
      rintro rfl
      rw [show (s.procs.table.proc i).state = _ from hp.1] at hi
      cases hi
    simpa [update_of_ne e] using h.zombie i hi
  live i hi := by
    by_cases e : i = p
    · subst e
      exact hp.live
    · exact h.live i (by simpa [update_of_ne e] using hi)
  closing i fd hi := by
    by_cases e : i = p
    · subst e
      simp only [update_self] at hi ⊢
      exact hclosing fd hi
    · simp only [update_of_ne e] at hi ⊢
      exact h.closing i fd hi
  closed i hi := by
    by_cases e : i = p
    · subst e
      simp only [update_self] at hi ⊢
      exact hclosed hi
    · simp only [update_of_ne e] at hi ⊢
      exact h.closed i hi

/-- The condition: `kkill` marks no unused slot. -/
def KillsUsed (s : Slots) (l : SlotAct) (_ : Slots) : Prop :=
  ∀ l', l = .proto l' → s.procs.KillsUsed l'

/-- **One step keeps the slots in order.** -/
theorem Inv.step (h : s.Inv) {l : SlotAct} (hk : KillsUsed s l s') (hst : Step s l s') :
    s'.Inv := by
  cases hst with
  | proto hst _ hne => exact h.proto _ _ hst (hk _ rfl) hne
  | kexit hst hclosed => exact h.kexit hst hclosed
  | @own p r hp hstage =>
    have := h.private hp (r := r) (x := .none) (by simp) (by simp)
    rwa [← hstage, update_eq_self] at this
  | @exit p hp hstage _ =>
    have := h.private hp (r := s.priv p) (x := .closing 0) (by simp) (by simp)
    rwa [update_eq_self] at this
  | @close p fd hp hstage =>
    refine h.private hp (fun n hn k hk => ?_) (by simp)
    cases hn
    by_cases e : k = fd
    · subst e
      exact update_self ..
    · dsimp only
      rw [update_of_ne e]
      have hne : k.val ≠ fd.val := fun he => e (Fin.ext he)
      exact h.closing p fd hstage k (by omega)
  | @leave p hp hstage =>
    exact h.private hp (by simp) fun _ => ⟨rfl, fun fd => h.closing p NOFILE hstage fd fd.isLt⟩

theorem inv_of_reachable (hs : (slots.restrict KillsUsed).Reachable s) : s.Inv := by
  refine hs.invariant ?_ ?_
  · rintro s ⟨r, rfl⟩
    exact inv_boot r
  · rintro s l s' h ⟨hk, hst⟩
    exact h.step hk hst

/-- **Slots are recycled clean**, in every run in which `kkill` marks no unused slot.  Every field
of an unused slot is blank; so a process that `kfork` allocates is not killed, and a process is
marked killed only by a `kkill` of its own pid or by its own fault. -/
theorem recycled (hs : (slots.restrict KillsUsed).Reachable s) :
    (∀ i, (s.procs.table.proc i).state = .unused → s.Blank i) ∧
      ∀ l s', KillsUsed s l s' → Step s l s' →
        (∀ p np, l = .proto (.fork p np) → (s'.procs.table.proc np).killed = false) ∧
        ∀ i, (s.procs.table.proc i).killed = false → (s'.procs.table.proc i).killed = true →
          (s.procs.table.proc i).state ≠ .unused ∧
            ((∃ p, l = .proto (.kkill p (s.procs.table.proc i).pid i)) ∨
              l = .proto (.setkilled i)) := by
  have h := inv_of_reachable hs
  refine ⟨h.unused, fun l s' hk hst => ⟨?_, ?_⟩⟩
  · rintro p np rfl
    cases hst with
    | proto hst _ _ =>
      cases hst with
      | fork hp hn => simpa [allocproc_proc] using (h.unused np hn).clean.1
  · intro i hno hyes
    -- only the sections of the protocol touch `killed`
    obtain ⟨l', rfl, t, hst', ht⟩ : ∃ l', l = .proto l' ∧ ∃ t, Procs.Step s.procs l' t ∧
        s'.procs = t := by
      cases hst with
      | proto hst _ _ => exact ⟨_, rfl, _, hst, rfl⟩
      | kexit hst _ => exact ⟨_, rfl, _, hst, rfl⟩
      | _ => rw [show (s.procs.table.proc i).killed = _ from hyes] at hno; cases hno
    rw [ht] at hyes
    rcases hst'.killed_cases hno hyes with ⟨p, rfl⟩ | rfl
    · exact ⟨hk _ rfl p _ i rfl, .inl ⟨p, rfl⟩⟩
    · cases hst' with
      | setkilled hp => exact ⟨by rw [hp.1]; simp, .inr rfl⟩

/-- The second slot. -/
def slotOne : Fin NPROC := ⟨1, one_lt_nproc⟩

/-- `init` forks: the child is not killed, and the third slot is still blank. -/
theorem recycled_fork : ∃ s : Slots, (s.procs.table.proc slotOne).state = .used ∧
    (s.procs.table.proc slotOne).killed = false ∧ s.Blank ⟨2, by decide⟩ := by
  have h0 : (slots.restrict KillsUsed).Reachable (boot ⟨4096, 1, 2, fun _ => 0, 3⟩) :=
    .start ⟨_, rfl⟩
  obtain ⟨s, hs, hrun, hone, htwo, hstage⟩ : ∃ s, (slots.restrict KillsUsed).Reachable s ∧
      s.procs.At initproc .user ∧ (s.procs.table.proc slotOne).state = .unused ∧
      (s.procs.table.proc ⟨2, by decide⟩).state = .unused ∧ s.stage initproc = .none :=
    ⟨_, h0.next ⟨by rintro _ ⟨⟩ _ _ _ ⟨⟩, show Step _ (.proto (.swtch initproc)) _ from
        @Step.proto _ _ _ 0 0 (.swtch rfl) (by simp [ProcAct.caller]) (by simp)⟩,
      ⟨rfl, rfl⟩, rfl, rfl, rfl⟩
  have hk : ∀ s', KillsUsed s (.proto (.fork initproc slotOne)) s' := by
    rintro _ _ ⟨⟩ _ _ _ ⟨⟩
  have hst := @Step.proto s _ _ 5 6 (.fork hrun hone) (by rintro _ ⟨⟩; exact hstage) (by simp)
  refine ⟨_, ?_, ((recycled hs).2 _ _ (hk _) hst).1 _ _ rfl,
    (recycled (hs.next ⟨hk _, hst⟩)).1 _ ?_⟩
  · simp [allocproc_proc]
  · simpa [allocproc_proc, slotOne] using htwo

/-- `kkill(0)` marks an unused slot. -/
theorem kill_zero_marks_unused : ∃ s : Slots, slots.Reachable s ∧
    (s.procs.table.proc slotOne).state = .unused ∧
      (s.procs.table.proc slotOne).killed = true := by
  have h0 : slots.Reachable (boot ⟨4096, 1, 2, fun _ => 0, 3⟩) := .start ⟨_, rfl⟩
  have h1 := h0.next (show Step _ (.proto (.swtch initproc)) _ from
    @Step.proto _ _ _ 0 0 (.swtch rfl) (by simp [ProcAct.caller]) (by simp))
  have h2 := h1.next (show Step _ (.proto (.kkill initproc 0 slotOne)) _ from
    @Step.proto _ _ _ 0 0 (.kkill ⟨rfl, rfl⟩ rfl (by
      rintro ⟨addr, ha⟩
      simp [boot, Procs.boot, update_apply, Pc.resume] at ha))
      (by rintro _ ⟨⟩; rfl) (by simp))
  exact ⟨_, h2, rfl, rfl⟩

end Slots

end Cinux
