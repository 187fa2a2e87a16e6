import Cinux.System.Machine
import Mathlib.Data.List.Nodup
import Mathlib.Logic.Function.Basic

/-!
# Processes that take sleep-locks

Processes run *lock programs* over a shared state: they acquire and release locks, and in between
they act on the state.  Their steps are interleaved arbitrarily.  A process that finds a lock taken
goes to sleep until it gets it.

* `LockState.machine code` : processes that call the programs `code`, one after the other.
* `LockState.Deadlock s A B X Y` : `A` holds `X` and waits for `Y`, `B` holds `Y` and waits for `X`.
* `LockOrder` : which lock may be waited for while another one is held.  The order may depend on
  the part of the state that the held lock protects.
* `LockOrder.Safe` : a program keeps to the order, whatever the other processes do meanwhile.
* `LockOrder.no_deadlock` : safe programs that go to sleep in an orderly way never deadlock.
* `LockProg.Smooth prog t H` : alone, the program never waits for a lock that it holds itself;
  `LockState.returns_iff` says so in terms of the steps of one process.
-/

namespace Cinux

open Function List

/-- Programs over states `σ` with locks `L`; the tags `T` tell apart the places where locks are
acquired.  A program that is halted does nothing any more. -/
inductive LockProg (σ L T : Type) where
  | done
  | halt
  | acquire (tag : T) (i : L) (k : LockProg σ L T)
  | release (i : L) (k : LockProg σ L T)
  /-- Change the state; the number is what the environment contributes. -/
  | act (f : ℕ → σ → σ) (k : ℕ → σ → LockProg σ L T)

/-- The shared state, who holds which lock, and the programs of the processes `P`. -/
structure LockState (σ L T P : Type) where
  mem : σ
  lock : L → Option P
  prog : P → LockProg σ L T
  asleep : P → Bool

/-- Steps: process `p` calls a program, gets the lock it wants or goes to sleep for it, releases a
lock, or acts. -/
inductive LockAct (C P : Type) where
  | call (p : P) (c : C)
  | acquire (p : P)
  | sleep (p : P)
  | release (p : P)
  | act (p : P) (n : ℕ)

variable {σ L T P C : Type}

/-- The process that makes the step. -/
def LockAct.proc : LockAct C P → P
  | .call p _ => p
  | .acquire p => p
  | .sleep p => p
  | .release p => p
  | .act p _ => p

namespace LockState

/-- `p` sleeps until it gets lock `i`. -/
def Waits (s : LockState σ L T P) (p : P) (i : L) : Prop :=
  s.asleep p = true ∧ ∃ tag k, s.prog p = .acquire tag i k

/-- `A` and `B` wait for each other. -/
structure Deadlock (s : LockState σ L T P) (A B : P) (X Y : L) : Prop where
  ne : X ≠ Y
  holds : s.lock X = some A
  waits : s.Waits A Y
  holds' : s.lock Y = some B
  waits' : s.Waits B X

variable [DecidableEq L] [DecidableEq P]

/-- The steps of the processes. -/
inductive Step (code : P → C → LockProg σ L T) (s : LockState σ L T P) :
    LockAct C P → LockState σ L T P → Prop
  | call {p : P} {c : C} : s.prog p = .done →
      Step code s (.call p c) { s with prog := update s.prog p (code p c) }
  | acquire {p : P} {tag : T} {i : L} {k : LockProg σ L T} :
      s.prog p = .acquire tag i k → s.lock i = none →
      Step code s (.acquire p) { s with
        lock := update s.lock i (some p)
        prog := update s.prog p k
        asleep := update s.asleep p false }
  | sleep {p : P} {tag : T} {i : L} {k : LockProg σ L T} :
      s.prog p = .acquire tag i k → s.lock i ≠ none →
      Step code s (.sleep p) { s with asleep := update s.asleep p true }
  | release {p : P} {i : L} {k : LockProg σ L T} :
      s.prog p = .release i k → s.lock i = some p →
      Step code s (.release p) { s with
        lock := update s.lock i none
        prog := update s.prog p k }
  | act {p : P} {n : ℕ} {f : ℕ → σ → σ} {k : ℕ → σ → LockProg σ L T} : s.prog p = .act f k →
      Step code s (.act p n) { s with
        mem := f n s.mem
        prog := update s.prog p (k n s.mem) }

/-- Processes that call the programs `code`; at first none is running. -/
def machine (code : P → C → LockProg σ L T) : Machine (LockState σ L T P) (LockAct C P) where
  init s := (∀ i, s.lock i = none) ∧ (∀ p, s.prog p = .done) ∧ ∀ p, s.asleep p = false
  step := Step code

/-- A step of one process leaves the programs and the locks of the others alone. -/
theorem Step.frame {code : P → C → LockProg σ L T} {s s' : LockState σ L T P} {a : LockAct C P}
    (h : Step code s a s') {q : P} (hq : q ≠ a.proc) :
    s'.prog q = s.prog q ∧ s'.asleep q = s.asleep q ∧
      ∀ x, s'.lock x = some q ↔ s.lock x = some q := by
  cases h with
  | call _ => exact ⟨update_of_ne hq _ _, rfl, fun _ => Iff.rfl⟩
  | @acquire p tag i k _ hfree =>
    refine ⟨update_of_ne hq _ _, update_of_ne hq _ _, fun x => ?_⟩
    by_cases hx : x = i
    · subst hx
      have : p ≠ q := Ne.symm hq
      simp [hfree, this]
    · simp [hx]
  | sleep _ _ => exact ⟨rfl, update_of_ne hq _ _, fun _ => Iff.rfl⟩
  | @release p i k _ hheld =>
    refine ⟨update_of_ne hq _ _, rfl, fun x => ?_⟩
    by_cases hx : x = i
    · subst hx
      have : p ≠ q := Ne.symm hq
      simp [hheld, this]
    · simp [hx]
  | act _ => exact ⟨update_of_ne hq _ _, rfl, fun _ => Iff.rfl⟩

end LockState

/-- Which lock may be waited for while another one is held. -/
structure LockOrder (σ L T : Type) where
  /-- What the lock protects has not changed. -/
  Same : L → σ → σ → Prop
  /-- How the state may change while locks are held. -/
  Stable : σ → σ → Prop
  /-- In this state the second lock may be waited for by who holds only the first. -/
  Edge : σ → L → L → Prop
  /-- Where programs keep to the order by themselves. -/
  Strict : T → Prop
  same_trans : ∀ {i : L} {t t' t'' : σ}, Same i t t' → Same i t' t'' → Same i t t''
  stable_refl : ∀ t : σ, Stable t t
  stable_trans : ∀ {t t' t'' : σ}, Stable t t' → Stable t' t'' → Stable t t''
  same_refl : ∀ (i : L) (t : σ), Same i t t
  edge_mono : ∀ {i j : L} {t t' : σ}, Same i t t' → Stable t t' → Edge t i j → Edge t' i j

namespace LockOrder

variable (O : LockOrder σ L T)

/-- What the other processes may do while the locks `H` are held. -/
def Rely (H : List L) (t t' : σ) : Prop := (∀ i ∈ H, O.Same i t t') ∧ O.Stable t t'

/-- What a process may do while it holds the locks `H`. -/
def Guar (H : List L) (t t' : σ) : Prop := (∀ i, i ∉ H → O.Same i t t') ∧ O.Stable t t'

/-- Who holds the locks `H` may wait for `j`. -/
def Follows (t : σ) (H : List L) (j : L) : Prop := H = [] ∨ ∃ i, H = [i] ∧ O.Edge t i j

/-- The program, started in state `t` with the locks `H`, keeps to the order, changes only what it
has locked, and gives all locks back. -/
def Safe [DecidableEq L] : LockProg σ L T → σ → List L → Prop
  | .done, _, H => H = []
  | .halt, _, _ => True
  | .acquire tag i k, t, H =>
    (O.Strict tag → O.Follows t H i) ∧ ∀ t', O.Rely H t t' → Safe k t' (i :: H)
  | .release i k, t, H => i ∈ H ∧ ∀ t', O.Rely H t t' → Safe k t' (H.erase i)
  | .act f k, t, H =>
    ∀ n t', O.Rely H t t' → O.Guar H t' (f n t') ∧ Safe (k n t') (f n t') H

variable {O} {H : List L} {t t' t'' : σ} {i j : L}

theorem Rely.refl (H : List L) (t : σ) : O.Rely H t t :=
  ⟨fun i _ => O.same_refl i t, O.stable_refl t⟩

theorem Rely.trans (h : O.Rely H t t') (h' : O.Rely H t' t'') : O.Rely H t t'' :=
  ⟨fun i hi => O.same_trans (h.1 i hi) (h'.1 i hi), O.stable_trans h.2 h'.2⟩

theorem Follows.rely (h : O.Rely H t t') (hf : O.Follows t H j) : O.Follows t' H j := by
  rcases hf with rfl | ⟨i, rfl, he⟩
  · exact .inl rfl
  · exact .inr ⟨i, rfl, O.edge_mono (h.1 i (by simp)) h.2 he⟩

variable [DecidableEq L]

theorem Safe.rely {prog : LockProg σ L T} (h : O.Rely H t t') (hs : O.Safe prog t H) :
    O.Safe prog t' H := by
  cases prog with
  | done => exact hs
  | halt => trivial
  | acquire tag i k =>
    exact ⟨fun htag => (hs.1 htag).rely h, fun t'' h' => hs.2 t'' (h.trans h')⟩
  | release i k => exact ⟨hs.1, fun t'' h' => hs.2 t'' (h.trans h')⟩
  | act f k => exact fun n t'' h' => hs n t'' (h.trans h')

/-- Process `p` holds exactly the locks `H`, is safe with them, and if it sleeps, then in
order. -/
structure Holds (O : LockOrder σ L T) (s : LockState σ L T P) (p : P) (H : List L) : Prop where
  nodup : H.Nodup
  mem_iff : ∀ x, x ∈ H ↔ s.lock x = some p
  safe : O.Safe (s.prog p) s.mem H
  asleep : s.asleep p = true → ∃ tag j k, s.prog p = .acquire tag j k
  follows : ∀ j, s.Waits p j → O.Follows s.mem H j

/-- The steps that are orderly.  Where programs do not keep to the order by themselves, a process
goes to sleep only if it holds no lock, or only one before the one it wants; and no two locks
come before each other. -/
def Orderly (O : LockOrder σ L T) (s : LockState σ L T P) : LockAct C P → Prop
  | .sleep p =>
    (∀ tag j k, s.prog p = .acquire tag j k → ¬O.Strict tag →
      (∀ x, s.lock x ≠ some p) ∨ ∃ i, (∀ x, s.lock x = some p ↔ x = i) ∧ O.Edge s.mem i j) ∧
    ∀ x y, x ≠ y → ¬(O.Edge s.mem x y ∧ O.Edge s.mem y x)
  | _ => True

section NoDeadlock

variable {s s' : LockState σ L T P} {p q : P}

/-- A process that holds a lock and waits for another one follows an edge. -/
theorem Holds.edge (h : O.Holds s p H) (hi : s.lock i = some p) (hj : s.Waits p j) :
    O.Edge s.mem i j := by
  have hmem := (h.mem_iff i).2 hi
  rcases h.follows j hj with rfl | ⟨i', rfl, he⟩
  · simp at hmem
  · rwa [mem_singleton.1 hmem]

theorem Holds.other (h : O.Holds s q H)
    (hf : s'.prog q = s.prog q ∧ s'.asleep q = s.asleep q ∧
      ∀ x, s'.lock x = some q ↔ s.lock x = some q)
    (hr : O.Rely H s.mem s'.mem) : O.Holds s' q H := by
  obtain ⟨hp, ha, hl⟩ := hf
  refine ⟨h.nodup, fun x => by rw [h.mem_iff, hl], by rw [hp]; exact h.safe.rely hr, ?_, ?_⟩
  · rw [ha, hp]
    exact h.asleep
  · intro j hj
    refine (h.follows j ?_).rely hr
    unfold LockState.Waits at hj ⊢
    rwa [ha, hp] at hj

theorem Holds.awake (h : O.Holds s p H) (hp : ∀ tag j k, s.prog p ≠ .acquire tag j k) :
    s.asleep p = false := by
  by_contra ha
  obtain ⟨tag, j, k, hk⟩ := h.asleep (by simpa using ha)
  exact hp tag j k hk

theorem eq_of_holds_none (h : O.Holds s p H) (hl : ∀ x, s.lock x ≠ some p) : H = [] :=
  eq_nil_iff_forall_not_mem.2 fun x hx => hl x ((h.mem_iff x).1 hx)

theorem eq_of_holds_one (h : O.Holds s p H) (hl : ∀ x, s.lock x = some p ↔ x = i) : H = [i] := by
  refine perm_singleton.1 ((perm_ext_iff_of_nodup h.nodup (nodup_singleton i)).2 ?_)
  intro x
  rw [h.mem_iff, hl, mem_singleton]

theorem holds_of_awake (ha : s.asleep p = false) (hnd : H.Nodup)
    (hmem : ∀ x, x ∈ H ↔ s.lock x = some p) (hsafe : O.Safe (s.prog p) s.mem H) :
    O.Holds s p H := by
  refine ⟨hnd, hmem, hsafe, fun h => ?_, fun j h => ?_⟩
  · rw [ha] at h
    cases h
  · rw [LockState.Waits, ha] at h
    cases h.1

variable [DecidableEq P] {code : P → C → LockProg σ L T} {a : LockAct C P}

/-- What an orderly step of a process does to its own locks. -/
theorem Holds.step (hcode : ∀ p c t, O.Safe (code p c) t []) (h : O.Holds s a.proc H)
    (hok : O.Orderly s a) (hst : LockState.Step code s a s') :
    O.Guar H s.mem s'.mem ∧ ∃ H', O.Holds s' a.proc H' := by
  have hquiet : O.Guar H s.mem s.mem := ⟨fun i _ => O.same_refl i _, O.stable_refl _⟩
  cases hst with
  | @call p c hp =>
    dsimp only [LockAct.proc] at h ⊢
    have hsafe := h.safe
    rw [hp] at hsafe
    obtain rfl : H = [] := hsafe
    refine ⟨hquiet, [], holds_of_awake (h.awake (by simp [hp])) h.nodup h.mem_iff ?_⟩
    dsimp only
    rw [update_self]
    exact hcode p c _
  | @acquire p tag i k hp hfree =>
    dsimp only [LockAct.proc] at h ⊢
    have hsafe := h.safe
    rw [hp] at hsafe
    have hout : i ∉ H := by simp [h.mem_iff, hfree]
    refine ⟨hquiet, i :: H, holds_of_awake (update_self _ _ _)
      (nodup_cons.2 ⟨hout, h.nodup⟩) (fun x => ?_) ?_⟩
    · by_cases hx : x = i
      · simp [hx]
      · simpa [hx] using h.mem_iff x
    · dsimp only
      rw [update_self]
      exact hsafe.2 _ (Rely.refl H _)
  | @sleep p tag i k hp hheld =>
    dsimp only [LockAct.proc] at h ⊢
    have hsafe := h.safe
    rw [hp] at hsafe
    refine ⟨hquiet, H, h.nodup, h.mem_iff, h.safe, fun _ => ⟨tag, i, k, hp⟩, ?_⟩
    rintro j ⟨-, tag', k', hp'⟩
    obtain ⟨rfl, rfl, rfl⟩ : tag = tag' ∧ i = j ∧ k = k' := by simpa [hp] using hp'
    by_cases htag : O.Strict tag
    · exact hsafe.1 htag
    · rcases hok.1 tag i k hp htag with hnone | ⟨d, hd, he⟩
      · exact .inl (eq_of_holds_none h hnone)
      · exact .inr ⟨d, eq_of_holds_one h hd, he⟩
  | @release p i k hp hheld =>
    dsimp only [LockAct.proc] at h ⊢
    have hsafe := h.safe
    rw [hp] at hsafe
    refine ⟨hquiet, H.erase i, holds_of_awake (h.awake (by simp [hp])) (h.nodup.erase i)
      (fun x => ?_) ?_⟩
    · rw [h.nodup.mem_erase_iff]
      by_cases hx : x = i
      · simp [hx]
      · simpa [hx] using h.mem_iff x
    · dsimp only
      rw [update_self]
      exact hsafe.2 _ (Rely.refl H _)
  | @act p n f k hp =>
    dsimp only [LockAct.proc] at h ⊢
    have hsafe := h.safe
    rw [hp] at hsafe
    obtain ⟨hguar, hnext⟩ := hsafe n s.mem (Rely.refl H _)
    refine ⟨hguar, H, holds_of_awake (h.awake (by simp [hp])) h.nodup h.mem_iff ?_⟩
    dsimp only
    rw [update_self]
    exact hnext

theorem holds_step (hcode : ∀ p c t, O.Safe (code p c) t []) (h : ∀ q, ∃ H, O.Holds s q H)
    (hok : O.Orderly s a) (hst : LockState.Step code s a s') (q : P) : ∃ H, O.Holds s' q H := by
  obtain ⟨Hp, hp⟩ := h a.proc
  obtain ⟨hguar, hnext⟩ := hp.step hcode hok hst
  by_cases hq : q = a.proc
  · exact hq ▸ hnext
  · obtain ⟨H, hH⟩ := h q
    refine ⟨H, hH.other (hst.frame hq) ⟨fun i hi => hguar.1 i fun hi' => hq ?_, hguar.2⟩⟩
    exact Option.some.inj (((hH.mem_iff i).1 hi).symm.trans ((hp.mem_iff i).1 hi'))

/-- Only going to sleep makes a deadlock. -/
theorem deadlock_step (h : ∀ q, ∃ H, O.Holds s q H) (hst : LockState.Step code s a s')
    (hsleep : ∀ p, a ≠ .sleep p) {A B : P} {X Y : L} (hd : s'.Deadlock A B X Y) :
    s.Deadlock A B X Y := by
  -- the process that makes the step is awake afterwards
  have hawake : s'.asleep a.proc = false := by
    obtain ⟨H, hp⟩ := h a.proc
    cases hst with
    | call hk => exact hp.awake (by simp [LockAct.proc, hk])
    | acquire _ _ => exact update_self _ _ _
    | sleep _ _ => exact absurd rfl (hsleep _)
    | release hk _ => exact hp.awake (by simp [LockAct.proc, hk])
    | act hk => exact hp.awake (by simp [LockAct.proc, hk])
  have hother : ∀ {q : P} {j : L}, s'.Waits q j → q ≠ a.proc := by
    rintro q j hw rfl
    rw [LockState.Waits, hawake] at hw
    cases hw.1
  obtain ⟨hpA, haA, hlA⟩ := hst.frame (hother hd.waits)
  obtain ⟨hpB, haB, hlB⟩ := hst.frame (hother hd.waits')
  have hwA := hd.waits
  have hwB := hd.waits'
  unfold LockState.Waits at hwA hwB
  rw [haA, hpA] at hwA
  rw [haB, hpB] at hwB
  exact ⟨hd.ne, (hlA X).1 hd.holds, hwA, (hlB Y).1 hd.holds', hwB⟩

/-- **Safe programs that go to sleep in an orderly way never deadlock.** -/
theorem no_deadlock (hcode : ∀ p c t, O.Safe (code p c) t [])
    (h : ((LockState.machine code).restrict fun s a _ => O.Orderly s a).Reachable s)
    (A B : P) (X Y : L) : ¬s.Deadlock A B X Y := by
  refine (h.invariant (I := fun s => (∀ q, ∃ H, O.Holds s q H) ∧ ∀ A B X Y, ¬s.Deadlock A B X Y)
    ?_ ?_).2 A B X Y
  · rintro s ⟨hl, hp, ha⟩
    refine ⟨fun q => ⟨[], holds_of_awake (ha q) nodup_nil (by simp [hl]) ?_⟩, fun A B X Y hd => ?_⟩
    · rw [hp q]
      rfl
    · have := hd.holds
      rw [hl X] at this
      cases this
  · rintro s a s' ⟨hholds, hfree⟩ ⟨hok, hst⟩
    have hholds' := fun q => holds_step hcode hholds hok hst q
    refine ⟨hholds', fun A B X Y hd => ?_⟩
    by_cases hsleep : ∃ p, a = .sleep p
    · obtain ⟨p, rfl⟩ := hsleep
      obtain ⟨HA, hA⟩ := hholds' A
      obtain ⟨HB, hB⟩ := hholds' B
      have hedges := And.intro (hA.edge hd.holds hd.waits) (hB.edge hd.holds' hd.waits')
      cases hst with
      | sleep _ _ => exact hok.2 X Y hd.ne hedges
    · push Not at hsleep
      exact hfree A B X Y (deadlock_step hholds hst hsleep hd)

end NoDeadlock

end LockOrder

/-! ### One process alone -/

/-- Started in state `t` with the locks `H`, and left alone, the program acquires only locks that it
does not hold and releases only locks that it holds. -/
def LockProg.Smooth [DecidableEq L] : LockProg σ L T → σ → List L → Prop
  | .done, _, _ => True
  | .halt, _, _ => True
  | .acquire _ i k, t, H => i ∉ H ∧ Smooth k t (i :: H)
  | .release i k, t, H => i ∈ H ∧ Smooth k t (H.erase i)
  | .act f k, t, H => ∀ n, Smooth (k n t) (f n t) H

namespace LockState

/-- The process acquires a lock that it holds. -/
def SelfDeadlock (s : LockState σ L T P) (p : P) : Prop :=
  ∃ tag i k, s.prog p = .acquire tag i k ∧ s.lock i = some p

variable [DecidableEq L] {t : σ} {prog : LockProg σ L T} {s s' : LockState σ L T Unit} {H : List L}

/-- The runs of a program by the only process, from state `t` on. -/
def single (t : σ) (prog : LockProg σ L T) :
    Machine (LockState σ L T Unit) (LockAct Empty Unit) where
  init s := s = ⟨t, fun _ => none, fun _ => prog, fun _ => false⟩
  step := Step fun _ => nofun

/-- In no state of the run the process acquires a lock that it holds, and from every state the run
can go on to its end. -/
def Returns (t : σ) (prog : LockProg σ L T) : Prop :=
  ∀ s, (single t prog).Reachable s → ¬s.SelfDeadlock () ∧
    ∃ ls s', (single t prog).Path s ls s' ∧ (s'.prog () = .done ∨ s'.prog () = .halt)

/-- The locks that the process holds. -/
def HeldBy (s : LockState σ L T Unit) (H : List L) : Prop :=
  H.Nodup ∧ ∀ x, x ∈ H ↔ s.lock x = some ()

omit [DecidableEq L] in
theorem HeldBy.lock_none {i : L} (h : s.HeldBy H) (hi : i ∉ H) : s.lock i = none := by
  rw [h.2] at hi
  cases hl : s.lock i with
  | none => rfl
  | some u => exact absurd hl hi

theorem HeldBy.cons {i : L} {k : LockProg σ L T} (h : s.HeldBy H) (hi : i ∉ H) :
    HeldBy { s with
      lock := update s.lock i (some ())
      prog := update s.prog () k
      asleep := update s.asleep () false } (i :: H) := by
  refine ⟨nodup_cons.2 ⟨hi, h.1⟩, fun x => ?_⟩
  by_cases hx : x = i
  · simp [hx]
  · simpa [hx] using h.2 x

theorem HeldBy.erase {i : L} {k : LockProg σ L T} (h : s.HeldBy H) :
    HeldBy { s with
      lock := update s.lock i none
      prog := update s.prog () k } (H.erase i) := by
  refine ⟨h.1.erase i, fun x => ?_⟩
  rw [h.1.mem_erase_iff]
  by_cases hx : x = i
  · simp [hx]
  · simpa [hx] using h.2 x

/-- A step of a smooth program leaves a smooth program. -/
theorem smooth_step {a : LockAct Empty Unit} (hst : (single t prog).step s a s')
    (hh : s.HeldBy H) (hs : (s.prog ()).Smooth s.mem H) :
    ∃ H', s'.HeldBy H' ∧ (s'.prog ()).Smooth s'.mem H' := by
  cases hst with
  | @call p c _ => exact nomatch c
  | @acquire p tag i k hp hfree =>
    rw [hp] at hs
    refine ⟨i :: H, hh.cons hs.1, ?_⟩
    dsimp only
    exact hs.2
  | @sleep p tag i k hp hheld =>
    rw [hp] at hs
    exact absurd (hh.lock_none hs.1) hheld
  | @release p i k hp hheld =>
    rw [hp] at hs
    refine ⟨H.erase i, hh.erase, ?_⟩
    dsimp only
    exact hs.2
  | @act p n f k hp =>
    rw [hp] at hs
    refine ⟨H, hh, ?_⟩
    dsimp only
    exact hs n

/-- A smooth program can run to its end. -/
theorem exists_path_of_smooth {q : LockProg σ L T} (hq : s.prog () = q) (hh : s.HeldBy H)
    (hs : q.Smooth s.mem H) :
    ∃ ls s', (single t prog).Path s ls s' ∧ (s'.prog () = .done ∨ s'.prog () = .halt) := by
  induction q generalizing s H with
  | done => exact ⟨[], s, .nil, .inl hq⟩
  | halt => exact ⟨[], s, .nil, .inr hq⟩
  | acquire tag i k ih =>
    obtain ⟨ls, s', hpath, hend⟩ := ih (update_self () k s.prog) (hh.cons hs.1) hs.2
    exact ⟨_, s', .cons (.acquire hq (hh.lock_none hs.1)) hpath, hend⟩
  | release i k ih =>
    obtain ⟨ls, s', hpath, hend⟩ := ih (update_self () k s.prog) hh.erase hs.2
    exact ⟨_, s', .cons (.release hq ((hh.2 i).1 hs.1)) hpath, hend⟩
  | act f k ih =>
    have hstep : (single t prog).step s (.act () 0)
        { s with mem := f 0 s.mem, prog := update s.prog () (k 0 s.mem) } := .act hq
    obtain ⟨ls, s', hpath, hend⟩ := ih 0 s.mem
      (s := { s with mem := f 0 s.mem, prog := update s.prog () (k 0 s.mem) })
      (update_self () _ s.prog) hh (hs 0)
    exact ⟨_, s', .cons hstep hpath, hend⟩

variable {O : LockOrder σ L T}

/-- A safe program that never acquires a lock it holds is smooth. -/
theorem smooth_of_safe {q : LockProg σ L T}
    (h : ∀ s, (single t prog).Reachable s → ¬s.SelfDeadlock ())
    (hr : (single t prog).Reachable s) (hq : s.prog () = q) (hh : s.HeldBy H)
    (hsafe : O.Safe q s.mem H) : q.Smooth s.mem H := by
  induction q generalizing s H with
  | done => trivial
  | halt => trivial
  | acquire tag i k ih =>
    have hi : i ∉ H := fun hi => h s hr ⟨tag, i, k, hq, (hh.2 i).1 hi⟩
    have hstep : (single t prog).step s (.acquire ()) { s with
        lock := update s.lock i (some ())
        prog := update s.prog () k
        asleep := update s.asleep () false } := .acquire hq (hh.lock_none hi)
    have hk := ih (hr.next hstep) (update_self () k s.prog) (hh.cons hi)
      (hsafe.2 s.mem (.refl H s.mem))
    exact ⟨hi, hk⟩
  | release i k ih =>
    have hstep : (single t prog).step s (.release ()) { s with
        lock := update s.lock i none
        prog := update s.prog () k } := .release hq ((hh.2 i).1 hsafe.1)
    have hk := ih (hr.next hstep) (update_self () k s.prog) hh.erase
      (hsafe.2 s.mem (.refl H s.mem))
    exact ⟨hsafe.1, hk⟩
  | act f k ih =>
    intro n
    have hstep : (single t prog).step s (.act () n)
        { s with mem := f n s.mem, prog := update s.prog () (k n s.mem) } := .act hq
    exact ih n s.mem (hr.next hstep) (update_self () _ s.prog) hh
      (hsafe n s.mem (.refl H s.mem)).2

omit [DecidableEq L] in
theorem heldBy_start :
    HeldBy (⟨t, fun _ => none, fun _ => prog, fun _ => false⟩ : LockState σ L T Unit) [] :=
  ⟨nodup_nil, by simp⟩

/-- A safe program that is not smooth comes to acquire a lock that it holds. -/
theorem exists_selfDeadlock (hsafe : O.Safe prog t [])
    (hs : ¬prog.Smooth t []) : ∃ s, (single t prog).Reachable s ∧ s.SelfDeadlock () := by
  by_contra hno
  exact hs (smooth_of_safe (fun s hr hd => hno ⟨s, hr, hd⟩) (.start rfl) rfl heldBy_start hsafe)

/-- **A safe program alone** never waits for itself and can always run to its end exactly if it is
smooth. -/
theorem returns_iff (hsafe : O.Safe prog t []) :
    Returns t prog ↔ prog.Smooth t [] := by
  constructor
  · intro h
    by_contra hs
    obtain ⟨s, hr, hd⟩ := exists_selfDeadlock hsafe hs
    exact (h s hr).1 hd
  · intro hs s hr
    obtain ⟨H, hh, hsm⟩ := hr.invariant
      (I := fun s => ∃ H, s.HeldBy H ∧ (s.prog ()).Smooth s.mem H)
      (fun s h0 => h0 ▸ ⟨[], heldBy_start, hs⟩)
      (fun s a s' hI hst => by
        obtain ⟨H, hh, hsm⟩ := hI
        exact smooth_step hst hh hsm)
    refine ⟨?_, exists_path_of_smooth rfl hh hsm⟩
    rintro ⟨tag, i, k, hp, hl⟩
    rw [hp] at hsm
    exact hsm.1 ((hh.2 i).2 hl)

end LockState

end Cinux
