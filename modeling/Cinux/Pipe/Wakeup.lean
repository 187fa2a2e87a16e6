import Cinux.Pipe.Basic

/-!
# Who sleeps on a pipe

A reader sleeps on `&pi->nread` until there is something to read or no writer is left, a writer
on `&pi->nwrite` until there is room or no reader is left.  `Pipe.asleep_only_when_needed` says
that nobody sleeps longer than that, in every run that keeps to one condition; the condition is
about the exit that `pipewrite` takes when its caller was killed: it does not call `wakeup`, not
even when the call has stored bytes.  `Pipe.killed_writer_wakes_nobody` is a run that breaks the
condition and leaves a reader asleep on a pipe that is not empty.
-/

namespace Cinux

namespace Pipe

variable {pi : ℕ} {κ : Type}

theorem nreadChan_ne_nwriteChan : nreadChan pi ≠ nwriteChan pi := by
  simp [nreadChan, nwriteChan]

/-- There is something to read, or nobody to write. -/
def Readable (m : Pipe) : Prop := m.nread ≠ m.nwrite ∨ m.writeopen = false

/-- There is room, or nobody to read. -/
def Writable (m : Pipe) : Prop := m.full = false ∨ m.readopen = false

/-- The channels on which a wakeup is still to come. -/
def owes (pi : ℕ) : PipePc → Chan → Prop
  | .writeLoop _ _ b, c => b = true ∧ c = nreadChan pi
  | .writeKilled _ _ b, c => b = true ∧ c = nreadChan pi
  | .writeFail b, c => b = true ∧ c = nreadChan pi
  | .writeByte _ _ b, c => b = true ∧ c = nreadChan pi
  | .writeFull _ _, c => c = nreadChan pi
  | .writeDone _, c => c = nreadChan pi
  | .readByte _ _, c => c = nwriteChan pi
  | .readDone _, c => c = nwriteChan pi
  | .closeWakeup w, c => c = if w then nreadChan pi else nwriteChan pi
  | _, _ => False

/-- What the tests of the code have found. -/
def tested : PipePc → Pipe → Prop
  | .writeKilled _ _ _, m => m.readopen = true
  | .writeByte _ _ _, m => m.readopen = true
  | .writeFull _ _, m => ¬ m.Writable
  | .writeSleep _ _, m => ¬ m.Writable
  | .readKilled _, m => ¬ m.Readable
  | .readSleep _, m => ¬ m.Readable
  | _, _ => True

/-- Readers are due when the pipe is readable, writers when it is writable. -/
def duty (pi : ℕ) : Duty (client pi) where
  due _ m _ c := c = nreadChan pi ∧ m.Readable ∨ c = nwriteChan pi ∧ m.Writable
  settled _ _ _ := True
  owes _ := owes pi
  assert _ pc _ m := tested pc m

/-- The byte that makes the pipe readable is owed to the readers; it was writable before. -/
theorem writeByte_pays {n : ℤ} {i : ℕ} {b : Bool} (x : Copy) (m : Pipe)
    (hopen : m.readopen = true) :
    let r : Pipe × PipePc := if m.full then (m, .writeFull n i)
      else match x.copyin with
        | none => (m, .writeDone i)
        | some ch => (m.store ch, .writeLoop n (i + 1) true)
    tested r.2 r.1 ∧ ∀ c, c = nreadChan pi ∧ r.1.Readable ∨ c = nwriteChan pi ∧ r.1.Writable →
      (c = nreadChan pi ∧ m.Readable ∨ c = nwriteChan pi ∧ m.Writable →
        b = true ∧ c = nreadChan pi) → owes pi r.2 c := by
  intro r
  by_cases hfull : m.full = true
  · have hr : r = (m, .writeFull n i) := if_pos hfull
    rw [hr]
    refine ⟨by simp [tested, Writable, hfull, hopen], fun c hdue hpaid => (hpaid hdue).2⟩
  · have hw : m.Writable := .inl (Bool.eq_false_iff.2 hfull)
    cases hx : x.copyin with
    | none =>
      have hr : r = (m, .writeDone i) := by simp [r, hfull, hx]
      rw [hr]
      exact ⟨trivial, fun c hdue hpaid => (hpaid hdue).2⟩
    | some ch =>
      have hr : r = (m.store ch, .writeLoop n (i + 1) true) := by simp [r, hfull, hx]
      rw [hr]
      refine ⟨trivial, fun c hdue hpaid => ⟨rfl, ?_⟩⟩
      rcases hdue with ⟨rfl, -⟩ | ⟨rfl, -⟩
      · rfl
      · exact (hpaid (.inr ⟨rfl, hw⟩)).2

theorem readByte_pays {n : ℤ} {i : ℕ} (x : Copy) (m : Pipe) :
    let r : Pipe × PipePc := if n ≤ i ∨ m.nread = m.nwrite then (m, .readDone i)
      else if x.copyout = false then (m, .readDone (if i = 0 then -1 else i))
      else (m.take, .readByte n (i + 1))
    tested r.2 r.1 ∧ ∀ c, c = nreadChan pi ∧ r.1.Readable ∨ c = nwriteChan pi ∧ r.1.Writable →
      (c = nreadChan pi ∧ m.Readable ∨ c = nwriteChan pi ∧ m.Writable → c = nwriteChan pi) →
        owes pi r.2 c := by
  intro r
  by_cases hdone : n ≤ i ∨ m.nread = m.nwrite
  · have hr : r = (m, .readDone i) := if_pos hdone
    rw [hr]
    exact ⟨trivial, fun c hdue hpaid => hpaid hdue⟩
  · by_cases hx : x.copyout = false
    · have hr : r = (m, .readDone (if i = 0 then -1 else i)) := by simp [r, hdone, hx]
      rw [hr]
      exact ⟨trivial, fun c hdue hpaid => hpaid hdue⟩
    · have hr : r = (m.take, .readByte n (i + 1)) := by simp [r, hdone, hx]
      rw [hr]
      refine ⟨trivial, fun c hdue hpaid => ?_⟩
      rcases hdue with ⟨rfl, -⟩ | ⟨rfl, -⟩
      · -- a pipe with a byte to take was readable before
        exact hpaid (.inl ⟨rfl, .inl fun e => hdone (.inr e)⟩)
      · rfl

/-- The code of the pipe keeps its duty, up to the exits of `pipewrite`. -/
theorem duty_fits : (duty pi).Fits where
  code i pc := by
    change (duty pi).CodeOk i pc (code pi pc)
    cases pc <;> simp only [code, Duty.CodeOk, duty]
    case pipewrite n => exact fun _ _ => trivial
    case piperead n => exact fun _ _ => trivial
    case pipeclose w => exact fun _ _ => trivial
    case writeLoop n i b =>
      intro _ _ m _
      split_ifs with hn hopen
      · exact ⟨trivial, fun p c hdue hpaid => (hpaid hdue).2⟩
      · exact ⟨hopen, fun p c hdue hpaid => hpaid hdue⟩
      · exact ⟨trivial, fun p c hdue hpaid => hpaid hdue⟩
    case writeKilled n i b =>
      intro k
      cases k
      · exact ⟨fun _ => id, fun _ _ => id⟩
      · exact ⟨fun _ => id, fun _ _ _ => trivial⟩
    case writeByte n i b =>
      intro x _ m hopen
      exact (writeByte_pays x m hopen).imp_right fun h _ => h
    case writeFull n i => exact ⟨fun c hc => .inl hc, fun _ _ => id⟩
    case writeSleep n i =>
      refine ⟨fun _ => id, fun _ m ht => ⟨?_, trivial⟩, fun _ _ => trivial⟩
      rintro (⟨e, -⟩ | ⟨-, hw⟩)
      · exact nreadChan_ne_nwriteChan e.symm
      · exact ht hw
    case writeDone r => exact ⟨fun c hc => .inl hc, fun _ _ _ => trivial⟩
    case readLoop n =>
      intro _ m _
      by_cases h : m.nread = m.nwrite ∧ m.writeopen = true
      · simp only [h, and_self, decide_true, if_true]
        exact ⟨by simp [tested, Readable, h], fun _ => False.elim⟩
      · simp only [h, decide_false, Bool.false_eq_true, if_false]
        exact ⟨trivial, fun _ => False.elim⟩
    case readKilled n =>
      intro k
      cases k
      · exact ⟨fun _ => id, fun _ _ => id⟩
      · exact ⟨fun _ => id, fun _ _ _ => trivial⟩
    case readSleep n =>
      refine ⟨fun _ => id, fun _ m ht => ⟨?_, trivial⟩, fun _ _ => trivial⟩
      rintro (⟨-, hr⟩ | ⟨e, -⟩)
      · exact ht hr
      · exact nreadChan_ne_nwriteChan e
    case readByte n i =>
      intro x _ m _
      exact (readByte_pays x m).imp_right fun h _ => h
    case readDone r => exact ⟨fun c hc => .inl hc, fun _ _ _ => trivial⟩
    case closeEnd w =>
      refine fun _ _ m _ => ⟨trivial, fun p c hdue hpaid => ?_⟩
      cases w
      · rcases hdue with ⟨rfl, hr⟩ | ⟨rfl, -⟩
        · exact (hpaid (.inl ⟨rfl, hr⟩)).elim
        · rfl
      · rcases hdue with ⟨rfl, -⟩ | ⟨rfl, hw⟩
        · rfl
        · exact (hpaid (.inr ⟨rfl, hw⟩)).elim
    case closeWakeup w => exact ⟨fun c hc => .inl hc, fun _ _ _ => trivial⟩
    case closeFree => exact fun _ _ m _ => ⟨trivial, fun p c hdue hpaid => (hpaid hdue).elim⟩
  due_enter _ _ _ _ := id
  due_test _ _ _ _ _ := id
  due_signal _ _ _ _ _ := .inl
  settled_enter _ _ _ _ _ := trivial
  settled_test _ _ _ _ _ _ := trivial
  settled_signal _ _ _ _ _ := trivial

/-- The condition: when `pipewrite` returns early although it has stored bytes since it last got
`pi->lock`, nobody waits for something to read. -/
def Orderly (s : Sched (client pi) κ) (l : SchedAct (client pi).Pc κ) (_ : Sched (client pi) κ) :
    Prop :=
  ∀ h i, l = .thread h i (.exec (PipePc.writeFail true)) → ∀ p, ¬ s.Waits p (nreadChan pi)

theorem Orderly.pays {s s' : Sched (client pi) κ} {l : SchedAct (client pi).Pc κ}
    (h : Orderly s l s') : (duty pi).Pays s l s' := by
  rintro h' i pc k rfl hcode p c howes hw
  change code pi pc = .release k at hcode
  change owes pi pc c at howes
  cases pc <;> simp only [code] at hcode <;> cases hcode
  case writeFail b =>
    obtain ⟨rfl, rfl⟩ := howes
    exact absurd hw (h h' i rfl p)
  case leave r => exact howes.elim

variable [DecidableEq κ] {s : Sched (client pi) κ}

/-- `pipewrite` returns early after it has stored bytes. -/
def quits : PipePc → Bool
  | .writeFail b => b
  | _ => false

/-- Hart `h` is not at such a point. -/
def calm (s : Sched (client pi) Bool) (h : Bool) : Bool :=
  match s.hart h with
  | .run i _ =>
    match s.thread i with
    | .exec pc => !quits pc
    | _ => true
  | _ => true

theorem orderly_of_calm {s s' : Sched (client pi) Bool} {l : SchedAct (client pi).Pc Bool}
    (hcalm : ∀ h, calm s h) (hst : Sched.Step s l s') : Orderly s l s' := by
  rintro h i rfl
  have hr : s.Runs h i (.exec (PipePc.writeFail true)) := by cases hst <;> assumption
  obtain ⟨⟨todo, hh⟩, hth⟩ := hr
  have hno := hcalm h
  simp [calm, quits, hh, hth] at hno

/-- The state after a move in an orderly run. -/
def next (s : Sched (client pi) Bool) (a : Sched.Move (client pi) Bool) :
    Option {s' : Sched (client pi) Bool // ∃ l, Orderly s l s' ∧ Sched.Step s l s'} :=
  if hcalm : ∀ h, calm s h then
    (s.next a).map fun s' => ⟨s'.1, s'.2.imp fun _ hst => ⟨orderly_of_calm hcalm hst, hst⟩⟩
  else none

/-- A reader of the empty pipe goes to sleep, -/
def readEmpty : List (Sched.Move (client 0) Bool) :=
  .flatten [.replicate 4 (.go true), [.call true (PipePc.piperead 2) (.piperead 2)],
    .replicate 7 (.go true)]

/-- and a writer stores one byte, is killed by a third process before it comes to the second one,
and returns. -/
def killWriter : List (Sched.Move (client 0) Bool) :=
  .flatten [readEmpty, .replicate 4 (.go true), [.call true (PipePc.pipewrite 3) (.pipewrite 3),
      .go true, .input true ⟨none, true⟩, .go true, .go true, .input true ⟨some 7, true⟩],
    .replicate 8 (.go false), [.call false (PipePc.kill 2) (.kill 2)], .replicate 5 (.go false),
    [.input true ⟨none, true⟩, .go true, .go true, .go true]]

theorem sleeping_reader : ∃ s : Sched (client 0) Bool,
    ((machine 0 Bool).restrict Orderly).Reachable s ∧ s.lock .lk = none ∧
      (s.proc initproc).SleepsOn (some (nreadChan 0)) := by
  have h : ((machine 0 Bool).restrict Orderly).Reachable (booted 0) := .start (boot_booted 0)
  exact h.play next readEmpty (by decide +kernel)

theorem killed_writer : ∃ s : Sched (client 0) Bool, (machine 0 Bool).Reachable s ∧
    s.lock .lk = none ∧ (s.proc initproc).SleepsOn (some (nreadChan 0)) ∧ s.mem.nread = 0 ∧
      s.mem.nwrite = 1 :=
  Machine.Reachable.play (.start (boot_booted 0)) Sched.next killWriter (by decide +kernel)

/-- **Nobody sleeps on a pipe longer than needed**, in every run that keeps to the condition:
while `pi->lock` is free, a process sleeps on `&pi->nread` only if the pipe is empty and a writer
is left, and on `&pi->nwrite` only if it is full and a reader is left. -/
theorem asleep_only_when_needed (hs : ((machine pi κ).restrict Orderly).Reachable s)
    (hfree : s.lock .lk = none) (p : Fin NPROC) :
    ((s.proc p).SleepsOn (some (nreadChan pi)) →
        s.mem.nread = s.mem.nwrite ∧ s.mem.writeopen = true) ∧
      ((s.proc p).SleepsOn (some (nwriteChan pi)) →
        s.mem.nwrite = (s.mem.nread + PIPESIZE) % 2 ^ 32 ∧ s.mem.readopen = true) := by
  have hpaid : ((machine pi κ).restrict (duty pi).Pays).Reachable s := hs.mono fun _ _ _ h => h.pays
  obtain ⟨hI, hD⟩ := Duty.inv_of_reachable duty_fits hpaid
  refine ⟨fun hsl => ?_, fun hsl => ?_⟩
  · have hnot := hD.not_due hI hfree (hI.waits hsl)
    simpa [duty, Readable, nreadChan_ne_nwriteChan] using hnot
  · have hnot := hD.not_due hI hfree (hI.waits hsl)
    simpa [duty, Writable, full, nreadChan_ne_nwriteChan.symm] using hnot

/-- The reader that sleeps on the empty pipe. -/
theorem asleep_only_when_needed_reader : ∃ s : Sched (client 0) Bool,
    (s.proc initproc).SleepsOn (some (nreadChan 0)) ∧ s.mem.nread = s.mem.nwrite ∧
      s.mem.writeopen = true := by
  obtain ⟨s, hs, hfree, hsleep⟩ := sleeping_reader
  exact ⟨s, hsleep, (asleep_only_when_needed hs hfree initproc).1 hsleep⟩

/-- A killed writer leaves its byte in the pipe and the reader asleep. -/
theorem killed_writer_wakes_nobody : ∃ s : Sched (client 0) Bool,
    (machine 0 Bool).Reachable s ∧ s.lock .lk = none ∧
      (s.proc initproc).SleepsOn (some (nreadChan 0)) ∧ s.mem.nread ≠ s.mem.nwrite := by
  obtain ⟨s, hs, hfree, hsleep, hr, hw⟩ := killed_writer
  exact ⟨s, hs, hfree, hsleep, by rw [hr, hw]; decide⟩

end Pipe

end Cinux
