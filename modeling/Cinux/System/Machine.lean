import Mathlib.Logic.Relation
import Mathlib.Data.List.Basic

/-!
# Machines and their runs

A kernel subsystem is modelled as a *machine*: a set of initial states and a labelled step
relation, one label per atomic section of the code.  The notions every subsystem needs are
defined once here and used by name afterwards.

* `Machine.Trace tr s` : the machine can perform the labels `tr`, in order, and be in `s`.
* `Machine.Reachable s` : some trace leads to `s`.
* `Machine.Path s ls s'` : the labels `ls` lead from `s` to `s'`.
* `Machine.restrict C` : the runs all of whose steps meet the condition `C`, which looks at the
  state before the step, at the label and at the state after it.
* `Reachable.play` : a run is given by its moves and checked by evaluating them.
* `Trace.simulation` : the runs of one machine are runs of another.
* `Reachable.invariant`, `Trace.invariant` : what holds initially and is preserved by every
  step holds in every state of every run.
-/

namespace Cinux

/-- A machine with states `S` and labels `L`. -/
structure Machine (S : Type*) (L : Type*) where
  /-- The states a run may start in. -/
  init : S → Prop
  /-- `step s l s'` : from `s` the atomic section `l` may lead to `s'`. -/
  step : S → L → S → Prop

namespace Machine

variable {S L : Type*} (M : Machine S L)

/-- The labels `tr`, oldest first, lead from an initial state to `s`. -/
inductive Trace : List L → S → Prop
  | start {s : S} : M.init s → Trace [] s
  | next {tr : List L} {s s' : S} {l : L} : Trace tr s → M.step s l s' → Trace (tr ++ [l]) s'

/-- Some run leads to `s`. -/
def Reachable (s : S) : Prop := ∃ tr, M.Trace tr s

/-- The labels `ls`, in order, lead from one state to another. -/
inductive Path : S → List L → S → Prop
  | nil {s : S} : Path s [] s
  | cons {s s₁ s' : S} {l : L} {ls : List L} : M.step s l s₁ → Path s₁ ls s' → Path s (l :: ls) s'

/-- The runs of `M` whose steps all meet the condition `C`. -/
def restrict (C : S → L → S → Prop) : Machine S L where
  init := M.init
  step s l s' := C s l s' ∧ M.step s l s'

variable {M}

/-- **Invariants of traces**: a property of the run so far and the state it has reached holds
of every run, if it holds of the empty run and every step carries it over. -/
theorem Trace.invariant {I : List L → S → Prop} (h0 : ∀ s, M.init s → I [] s)
    (hstep : ∀ tr s l s', M.Trace tr s → I tr s → M.step s l s' → I (tr ++ [l]) s')
    {tr : List L} {s : S} (h : M.Trace tr s) : I tr s := by
  induction h with
  | start hs => exact h0 _ hs
  | next htr hst ih => exact hstep _ _ _ _ htr ih hst

/-- **Invariants**: what holds initially and is preserved by every step holds in every
reachable state. -/
theorem Reachable.invariant {I : S → Prop} (h0 : ∀ s, M.init s → I s)
    (hstep : ∀ s l s', I s → M.step s l s' → I s') {s : S} (h : M.Reachable s) : I s := by
  obtain ⟨tr, htr⟩ := h
  exact htr.invariant (I := fun _ s => I s) h0 fun _ _ _ _ _ hI hst => hstep _ _ _ hI hst

theorem Reachable.start {s : S} (h : M.init s) : M.Reachable s := ⟨[], .start h⟩

theorem Reachable.next {s s' : S} {l : L} (h : M.Reachable s) (hst : M.step s l s') :
    M.Reachable s' := by
  obtain ⟨tr, htr⟩ := h
  exact ⟨tr ++ [l], htr.next hst⟩

theorem Path.append {s s₁ s' : S} {ls ls' : List L} (h : M.Path s ls s₁) (h' : M.Path s₁ ls' s') :
    M.Path s (ls ++ ls') s' := by
  induction h with
  | nil => exact h'
  | cons hst _ ih => exact .cons hst (ih h')

theorem Path.single {s s' : S} {l : L} (h : M.step s l s') : M.Path s [l] s' := .cons h .nil

/-- **Invariants of paths**: what the labels of a path preserve holds at its end. -/
theorem Path.invariant {I : S → Prop} {s s' : S} {ls : List L} (h : M.Path s ls s')
    (hstep : ∀ s l s', l ∈ ls → I s → M.step s l s' → I s') (hs : I s) : I s' := by
  induction h with
  | nil => exact hs
  | cons hst _ ih =>
    exact ih (fun s l s' hl => hstep s l s' (by simp [hl])) (hstep _ _ _ (by simp) hs hst)

theorem Trace.reachable {tr : List L} {s : S} (h : M.Trace tr s) : M.Reachable s := ⟨tr, h⟩

theorem Trace.of_restrict {C : S → L → S → Prop} {tr : List L} {s : S}
    (h : (M.restrict C).Trace tr s) : M.Trace tr s := by
  induction h with
  | start hs => exact .start hs
  | next _ hst ih => exact ih.next hst.2

theorem Reachable.of_restrict {C : S → L → S → Prop} {s : S} (h : (M.restrict C).Reachable s) :
    M.Reachable s := by
  obtain ⟨tr, htr⟩ := h
  exact ⟨tr, htr.of_restrict⟩

theorem Reachable.mono {C C' : S → L → S → Prop} (hC : ∀ s l s', C s l s' → C' s l s') {s : S}
    (h : (M.restrict C).Reachable s) : (M.restrict C').Reachable s := by
  obtain ⟨tr, htr⟩ := h
  induction htr with
  | start hs => exact .start hs
  | next _ hst ih => exact ih.next ⟨hC _ _ _ hst.1, hst.2⟩

/-- The state after some moves, if they can be made.  A move comes with the step that it is. -/
def play {A : Type*} (next : (s : S) → A → Option {s' : S // ∃ l, M.step s l s'}) :
    List A → S → Option S
  | [], s => some s
  | a :: moves, s => (next s a).bind fun s' => play next moves s'.1

/-- **Playing a run**: moves lead to a state that can be reached. -/
theorem Reachable.play {A : Type*} {s : S} (h : M.Reachable s)
    (next : (s : S) → A → Option {s' : S // ∃ l, M.step s l s'}) (moves : List A) {P : S → Prop}
    [DecidablePred P] (hP : (M.play next moves s).any (P ·) = true) :
    ∃ s', M.Reachable s' ∧ P s' := by
  induction moves generalizing s with
  | nil => exact ⟨s, h, by simpa [Machine.play] using hP⟩
  | cons a moves ih =>
    rw [Machine.play] at hP
    cases hs : next s a with
    | none => simp [hs] at hP
    | some s' =>
      obtain ⟨s', l, hl⟩ := s'
      rw [hs] at hP
      exact ih (h.next hl) hP

/-- **Simulation**: when every step is matched by a step of `N` with the same label, every run is a
run of `N`. -/
theorem Trace.simulation {T : Type*} {N : Machine T L} {R : S → T → Prop}
    (h0 : ∀ s, M.init s → ∃ t, N.init t ∧ R s t)
    (hstep : ∀ s t l s', R s t → M.step s l s' → ∃ t', N.step t l t' ∧ R s' t')
    {tr : List L} {s : S} (h : M.Trace tr s) : ∃ t, N.Trace tr t ∧ R s t := by
  induction h with
  | start hs =>
    obtain ⟨t, ht, hR⟩ := h0 _ hs
    exact ⟨t, .start ht, hR⟩
  | next _ hst ih =>
    obtain ⟨t, ht, hR⟩ := ih
    obtain ⟨t', hst', hR'⟩ := hstep _ _ _ _ hR hst
    exact ⟨t', ht.next hst', hR'⟩

/-- Performing one label `n` times, when every occurrence leads from `f k` to `f (k + 1)`. -/
theorem Trace.replicate {f : ℕ → S} {l : L} {tr : List L} (h : M.Trace tr (f 0))
    (hstep : ∀ k, M.step (f k) l (f (k + 1))) (n : ℕ) :
    M.Trace (tr ++ List.replicate n l) (f n) := by
  induction n with
  | zero => simpa using h
  | succ n ih =>
    rw [List.replicate_succ', ← List.append_assoc]
    exact ih.next (hstep n)

end Machine

end Cinux
