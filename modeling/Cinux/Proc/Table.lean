import Cinux.Kernel.Block
import Mathlib.Data.List.FinRange
import Mathlib.Logic.Function.Basic

/-!
# The process table

The part of `proc.c` that the exit and wait protocol runs through: `allocproc`, `freeproc`,
`wakeup`, `reparent`, `kexit` and the scan of `kwait`.  Each of the functions below is what the
code does while it holds the lock named beside it; which of them may run when is the matter of
`Proc/ExitWait.lean`.

A process holds more than the fields of `Proc`: its memory, its files and its name play no part
in the protocol.
-/

namespace Cinux

/-- `enum procstate`. -/
inductive ProcState where
  | unused
  | used
  | sleeping
  | runnable
  | running
  | zombie
  deriving DecidableEq, Repr

/-- The addresses processes sleep on: `kwait` sleeps on the process itself, everything else in the
kernel on addresses outside the process table. -/
inductive Chan where
  | proc (p : Fin NPROC)
  | other (a : ℕ)
  deriving DecidableEq, Repr

/-- `struct proc`, as far as the protocol uses it; a null pointer is `none`. -/
structure Proc where
  state : ProcState
  chan : Option Chan
  killed : Bool
  xstate : ℤ
  pid : ℤ
  parent : Option (Fin NPROC)
  deriving DecidableEq, Repr

/-- `freeproc`, under the lock of the process. -/
def Proc.freeproc (p : Proc) : Proc :=
  { p with
    pid := 0, parent := none, chan := none, killed := false, xstate := 0, state := .unused }

/-- The body of the loop of `wakeup`, under the lock of the process. -/
def Proc.rouse (chan : Option Chan) (p : Proc) : Proc :=
  if p.state = .sleeping ∧ p.chan = chan then { p with state := .runnable } else p

/-- What `kkill` does to the process it finds, under its lock. -/
def Proc.kill (p : Proc) : Proc :=
  { p with killed := true, state := if p.state = .sleeping then .runnable else p.state }

/-- The first process, which `userinit` puts in the first slot. -/
def initproc : Fin NPROC := ⟨0, by decide⟩

theorem one_lt_nproc : 1 < NPROC := by decide

/-- The process table. -/
structure ProcTable where
  proc : Fin NPROC → Proc
  nextpid : ℤ

/-- What one scan of `kwait` comes to. -/
inductive WaitResult where
  /-- It frees the slot `pp`, returns `pid` and has copied out `status` if that was asked for. -/
  | reaped (pp : Fin NPROC) (pid : ℤ) (status : Option ℤ)
  /-- It returns -1 because `copyout` failed. -/
  | fault
  /-- It returns -1 because there is nothing to wait for. -/
  | none
  /-- It goes to sleep. -/
  | sleep
  deriving DecidableEq, Repr

namespace ProcTable

/-- An assignment to fields of slot `i`. -/
def modify (t : ProcTable) (i : Fin NPROC) (f : Proc → Proc) : ProcTable :=
  { t with proc := Function.update t.proc i (f (t.proc i)) }

/-- `allocproc` once it has found the unused slot `np`, under the lock of `np`. -/
def allocproc (t : ProcTable) (np : Fin NPROC) : ProcTable :=
  { (t.modify np fun x => { x with pid := t.nextpid, state := .used }) with
    nextpid := toInt32 (t.nextpid + 1) }

/-- `wakeup`, called by process `me`. -/
def wakeup (t : ProcTable) (me : Fin NPROC) (chan : Option Chan) : ProcTable :=
  { t with proc := fun i => if i ≠ me then (t.proc i).rouse chan else t.proc i }

/-- The body of the loop of `reparent`. -/
def reparentOne (p : Fin NPROC) (t : ProcTable) (pp : Fin NPROC) : ProcTable :=
  if (t.proc pp).parent = some p then
    (t.modify pp fun x => { x with parent := some initproc }).wakeup p (some (.proc initproc))
  else t

/-- `reparent`, under `wait_lock`. -/
def reparent (t : ProcTable) (p : Fin NPROC) : ProcTable :=
  (List.finRange NPROC).foldl (reparentOne p) t

/-- The critical section of `kexit` under `wait_lock`; `none` is the panic of an exiting
`init`. -/
def kexit (t : ProcTable) (p : Fin NPROC) (status : ℤ) : Option ProcTable :=
  if p = initproc then none
  else
    let t := t.reparent p
    let t := t.wakeup p ((t.proc p).parent.map .proc)
    some (t.modify p fun x => { x with xstate := status, state := .zombie })

/-- The loop of `kwait` over the slots, under `wait_lock`.  `copyout` says whether copying the
status to `addr` succeeds. -/
def scan (t : ProcTable) (p : Fin NPROC) (addr : ℕ) (copyout : Bool) :
    List (Fin NPROC) → Bool → WaitResult × ProcTable
  | [], havekids => (if !havekids || (t.proc p).killed then .none else .sleep, t)
  | pp :: rest, havekids =>
    if (t.proc pp).parent = some p then
      if (t.proc pp).state = .zombie then
        if addr ≠ 0 ∧ copyout = false then (.fault, t)
        else
          (.reaped pp (t.proc pp).pid (if addr ≠ 0 then some (t.proc pp).xstate else none),
            t.modify pp Proc.freeproc)
      else t.scan p addr copyout rest true
    else t.scan p addr copyout rest havekids

/-- One round of `kwait` by process `p`. -/
def kwait (t : ProcTable) (p : Fin NPROC) (addr : ℕ) (copyout : Bool) : WaitResult × ProcTable :=
  t.scan p addr copyout (List.finRange NPROC) false

/-- A slot that was never used. -/
def blank : Proc := ⟨.unused, none, false, 0, 0, none⟩

/-- `userinit`: the first process waits to run. -/
def userinit : ProcTable :=
  ((ProcTable.mk (fun _ => blank) 1).allocproc initproc).modify initproc fun x =>
    { x with state := .runnable }

variable {t t' : ProcTable} {p : Fin NPROC}

theorem modify_proc (t : ProcTable) (i : Fin NPROC) (f : Proc → Proc) (j : Fin NPROC) :
    (t.modify i f).proc j = if j = i then f (t.proc i) else t.proc j := by
  simp [modify, Function.update_apply]

theorem allocproc_proc (t : ProcTable) (np j : Fin NPROC) :
    (t.allocproc np).proc j =
      if j = np then { t.proc np with pid := t.nextpid, state := .used } else t.proc j := by
  simp [allocproc, modify, Function.update_apply]

end ProcTable

namespace Proc

/-- The process sleeps on `chan`. -/
def SleepsOn (x : Proc) (chan : Option Chan) : Prop := x.state = .sleeping ∧ x.chan = chan

instance decidableSleepsOn (x : Proc) (chan : Option Chan) : Decidable (x.SleepsOn chan) :=
  inferInstanceAs (Decidable (_ ∧ _))

/-- `y` is `x`, or `x` woken up. -/
def Woken (x y : Proc) : Prop :=
  y = x ∨ x.state = .sleeping ∧ y = { x with state := .runnable }

variable {x y z : Proc} {chan : Option Chan}

theorem Woken.trans (h : Woken x y) (h' : Woken y z) : Woken x z := by
  rcases h with rfl | ⟨hx, rfl⟩
  · exact h'
  · rcases h' with rfl | ⟨hy, -⟩
    · exact .inr ⟨hx, rfl⟩
    · exact absurd hy (by simp)

theorem Woken.not_sleepsOn (h : Woken x y) (hx : ¬ x.SleepsOn chan) : ¬ y.SleepsOn chan := by
  rcases h with rfl | ⟨-, rfl⟩
  · exact hx
  · simp [SleepsOn]

theorem woken_rouse (x : Proc) (chan : Option Chan) : Woken x (x.rouse chan) := by
  unfold rouse
  split_ifs with h
  · exact .inr ⟨h.1, rfl⟩
  · exact .inl rfl

theorem not_sleepsOn_rouse (x : Proc) (chan : Option Chan) : ¬ (x.rouse chan).SleepsOn chan := by
  unfold rouse
  split_ifs with h
  · simp [SleepsOn]
  · exact h

/-- A process that was a child of `p` becomes a child of `init`. -/
def adopt (p : Fin NPROC) (x : Proc) : Proc :=
  { x with parent := if x.parent = some p then some initproc else x.parent }

theorem Woken.adopt (h : Woken x y) (p : Fin NPROC) : Woken (x.adopt p) (y.adopt p) := by
  rcases h with rfl | ⟨hx, rfl⟩
  · exact .inl rfl
  · exact .inr ⟨hx, rfl⟩

theorem adopt_of_ne (p : Fin NPROC) (h : x.parent ≠ some p) : x.adopt p = x := by
  simp [Proc.adopt, h]

theorem adopt_adopt (p : Fin NPROC) (x : Proc) : (x.adopt p).adopt p = x.adopt p := by
  simp only [Proc.adopt]
  split_ifs <;> rfl

end Proc

namespace ProcTable

open Proc

variable {t t' : ProcTable} {p q : Fin NPROC}

theorem wakeup_woken (t : ProcTable) (p : Fin NPROC) (chan : Option Chan) (i : Fin NPROC) :
    Woken (t.proc i) ((t.wakeup p chan).proc i) := by
  simp only [wakeup]
  split_ifs
  · exact woken_rouse _ _
  · exact .inl rfl

theorem wakeup_not_sleepsOn (t : ProcTable) (chan : Option Chan) {i : Fin NPROC} (hi : i ≠ p) :
    ¬ ((t.wakeup p chan).proc i).SleepsOn chan := by
  simp only [wakeup, if_pos hi]
  exact not_sleepsOn_rouse _ _

theorem wakeup_self (t : ProcTable) (p : Fin NPROC) (chan : Option Chan) :
    (t.wakeup p chan).proc p = t.proc p := by
  simp [wakeup]

theorem reparentOne_proc (p pp : Fin NPROC) (t : ProcTable) (i : Fin NPROC) :
    Woken (if i = pp then (t.proc i).adopt p else t.proc i) ((reparentOne p t pp).proc i) := by
  unfold reparentOne
  split_ifs with hi hpp hpp
  · subst hi
    refine Woken.trans (.inl ?_) (wakeup_woken _ _ _ _)
    simp [modify_proc, Proc.adopt, hpp]
  · subst hi
    exact .inl (adopt_of_ne p hpp).symm
  · refine Woken.trans (.inl ?_) (wakeup_woken _ _ _ _)
    simp [modify_proc, hi]
  · exact .inl rfl

theorem reparentOne_self (p pp : Fin NPROC) (t : ProcTable) :
    (reparentOne p t pp).proc p = if p = pp then (t.proc p).adopt p else t.proc p := by
  unfold reparentOne
  split_ifs with hpp hp hp
  · subst hp
    simp [wakeup_self, modify_proc, Proc.adopt, hpp]
  · simp [wakeup_self, modify_proc, hp]
  · subst hp
    exact (adopt_of_ne p hpp).symm
  · rfl

theorem reparentOne_woken {pp : Fin NPROC} (h : (t.proc pp).parent = some p) {i : Fin NPROC}
    (hi : i ≠ p) : ¬ ((reparentOne p t pp).proc i).SleepsOn (some (.proc initproc)) := by
  simp only [reparentOne, if_pos h]
  exact wakeup_not_sleepsOn _ _ hi

theorem foldl_reparentOne (l : List (Fin NPROC)) (t : ProcTable) (i : Fin NPROC) :
    Woken (if i ∈ l then (t.proc i).adopt p else t.proc i)
      ((l.foldl (reparentOne p) t).proc i) := by
  induction l generalizing t with
  | nil => exact .inl (by simp)
  | cons pp l ih =>
    have hone := reparentOne_proc p pp t i
    refine Woken.trans ?_ (ih (reparentOne p t pp))
    -- the slot is handed over in the first round, in a later one, in both, or not at all
    by_cases hpp : i = pp <;> by_cases hl : i ∈ l
    · simp only [hpp, if_true] at hone
      have := hone.adopt p
      rw [adopt_adopt] at this
      simpa [hpp, hpp ▸ hl] using this
    · simpa [hpp, hpp ▸ hl] using hone
    · simpa [hpp, hl] using (by simpa [hpp] using hone : Woken _ _).adopt p
    · simpa [hpp, hl] using hone

theorem foldl_reparentOne_self (l : List (Fin NPROC)) (t : ProcTable) :
    (l.foldl (reparentOne p) t).proc p = if p ∈ l then (t.proc p).adopt p else t.proc p := by
  induction l generalizing t with
  | nil => simp
  | cons pp l ih =>
    rw [List.foldl_cons, ih, reparentOne_self]
    by_cases hpp : p = pp <;> by_cases hl : p ∈ l
    · simp [hpp, hpp ▸ hl, adopt_adopt]
    · simp [hpp, hpp ▸ hl]
    · simp [hpp, hl]
    · simp [hpp, hl]

theorem reparent_proc (t : ProcTable) (p i : Fin NPROC) :
    Woken ((t.proc i).adopt p) ((t.reparent p).proc i) := by
  unfold reparent
  have := foldl_reparentOne (p := p) (List.finRange NPROC) t i
  rwa [if_pos (List.mem_finRange i)] at this

theorem reparent_self (t : ProcTable) (p : Fin NPROC) :
    (t.reparent p).proc p = (t.proc p).adopt p := by
  unfold reparent
  rw [foldl_reparentOne_self, if_pos (List.mem_finRange p)]

theorem foldl_reparentOne_woken (l : List (Fin NPROC)) {i : Fin NPROC}
    (h : ∃ c ∈ l, (t.proc c).parent = some p) (hi : i ≠ p) :
    ¬ ((l.foldl (reparentOne p) t).proc i).SleepsOn (some (.proc initproc)) := by
  induction l generalizing t with
  | nil => simp at h
  | cons pp l ih =>
    rw [List.foldl_cons]
    by_cases hpp : (t.proc pp).parent = some p
    · -- woken in this round, and never put to sleep again
      have hw := foldl_reparentOne (p := p) l (reparentOne p t pp) i
      refine hw.not_sleepsOn ?_
      have := reparentOne_woken hpp hi
      split_ifs
      · exact this
      · exact this
    · have hsame : reparentOne p t pp = t := by simp [reparentOne, hpp]
      rw [hsame]
      obtain ⟨c, hc, hcp⟩ := h
      rcases List.mem_cons.1 hc with rfl | hc
      · exact absurd hcp hpp
      · exact ih ⟨c, hc, hcp⟩

/-- What the critical section of `kexit` does. -/
structure Exited (t : ProcTable) (p : Fin NPROC) (status : ℤ) (t' : ProcTable) : Prop where
  ne_init : p ≠ initproc
  self : t'.proc p = { (t.proc p).adopt p with xstate := status, state := .zombie }
  other : ∀ i, i ≠ p → Woken ((t.proc i).adopt p) (t'.proc i)
  /-- If there are children to hand over, `init` does not sleep through it, -/
  init_woken : (∃ c, (t.proc c).parent = some p) →
    ¬ (t'.proc initproc).SleepsOn (some (.proc initproc))
  /-- and neither does the parent of the process that exits. -/
  parent_woken : ∀ q, q ≠ p → (t'.proc p).parent = some q →
    ¬ (t'.proc q).SleepsOn (some (.proc q))

theorem exited_of_kexit {status : ℤ} (h : t.kexit p status = some t') : Exited t p status t' := by
  simp only [kexit] at h
  split_ifs at h with hinit
  cases h
  have hother : ∀ i, i ≠ p → ∀ f : Proc → Proc, ∀ u : ProcTable,
      (u.modify p f).proc i = u.proc i := fun i hi f u => by simp [modify_proc, hi]
  have hpar : (((t.reparent p).wakeup p
      (((t.reparent p).proc p).parent.map .proc)).modify p fun x =>
        { x with xstate := status, state := .zombie }).proc p =
      { (t.proc p).adopt p with xstate := status, state := .zombie } := by
    simp [modify_proc, wakeup_self, reparent_self]
  refine ⟨hinit, hpar, fun i hi => ?_, fun ⟨c, hc⟩ => ?_, fun q hq hqp => ?_⟩
  · rw [hother i hi]
    exact (reparent_proc t p i).trans (wakeup_woken _ _ _ _)
  · rw [hother _ (Ne.symm hinit)]
    refine (wakeup_woken _ _ _ _).not_sleepsOn ?_
    unfold reparent
    exact foldl_reparentOne_woken _ ⟨c, List.mem_finRange c, hc⟩ (Ne.symm hinit)
  · rw [hpar] at hqp
    rw [hother q hq, reparent_self]
    have hq' : ((t.proc p).adopt p).parent = some q := hqp
    rw [hq']
    exact wakeup_not_sleepsOn _ _ hq

/-- The outcomes of the loop of `kwait`. -/
theorem scan_cases {addr : ℕ} {copyout : Bool} {l : List (Fin NPROC)} {b : Bool} {r : WaitResult}
    (h : t.scan p addr copyout l b = (r, t')) :
    (∃ pp, r = .reaped pp (t.proc pp).pid (if addr ≠ 0 then some (t.proc pp).xstate else none) ∧
      (t.proc pp).parent = some p ∧ (t.proc pp).state = .zombie ∧
      t' = t.modify pp Proc.freeproc) ∨
    (r = .fault ∨ r = .none) ∧ t' = t ∨
    r = .sleep ∧ t' = t ∧ ∀ pp ∈ l, (t.proc pp).parent = some p → (t.proc pp).state ≠ .zombie := by
  induction l generalizing b with
  | nil =>
    simp only [scan, Prod.mk.injEq] at h
    obtain ⟨rfl, rfl⟩ := h
    split_ifs <;> simp
  | cons pp l ih =>
    simp only [scan] at h
    by_cases hpar : (t.proc pp).parent = some p
    · rw [if_pos hpar] at h
      by_cases hz : (t.proc pp).state = .zombie
      · rw [if_pos hz] at h
        by_cases hc : addr ≠ 0 ∧ copyout = false
        · obtain ⟨rfl, rfl⟩ := Prod.mk.inj (if_pos hc ▸ h)
          exact .inr (.inl ⟨.inl rfl, rfl⟩)
        · obtain ⟨rfl, rfl⟩ := Prod.mk.inj (if_neg hc ▸ h)
          exact .inl ⟨pp, rfl, hpar, hz, rfl⟩
      · rw [if_neg hz] at h
        exact (ih h).imp_right (.imp_right fun ⟨hr, ht, hl⟩ =>
          ⟨hr, ht, List.forall_mem_cons.2 ⟨fun _ => hz, hl⟩⟩)
    · rw [if_neg hpar] at h
      exact (ih h).imp_right (.imp_right fun ⟨hr, ht, hl⟩ =>
        ⟨hr, ht, List.forall_mem_cons.2 ⟨fun he => absurd he hpar, hl⟩⟩)

theorem kwait_cases {addr : ℕ} {copyout : Bool} {r : WaitResult}
    (h : t.kwait p addr copyout = (r, t')) :
    (∃ pp, r = .reaped pp (t.proc pp).pid (if addr ≠ 0 then some (t.proc pp).xstate else none) ∧
      (t.proc pp).parent = some p ∧ (t.proc pp).state = .zombie ∧
      t' = t.modify pp Proc.freeproc) ∨
    (r = .fault ∨ r = .none) ∧ t' = t ∨
    r = .sleep ∧ t' = t ∧ ∀ pp, (t.proc pp).parent = some p → (t.proc pp).state ≠ .zombie := by
  unfold kwait at h
  exact (scan_cases h).imp_right (.imp_right fun ⟨hr, ht, hl⟩ =>
    ⟨hr, ht, fun pp => hl pp (List.mem_finRange pp)⟩)

end ProcTable

end Cinux
