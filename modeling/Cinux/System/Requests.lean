import Cinux.System.Machine
import Mathlib.Logic.Function.Basic

/-!
# Requests under reusable tags

Callers submit requests to a server under tags.  The server takes a request and completes it, some
handler notices this and tells the caller, and the caller leaves; then the tag is free for another
request.  The machine `requests` has exactly these life cycles, one tag independent of the other.

`Trace.cycles` says what that means for a run: the events under a tag are those of whole requests,
one after the other, and then the beginning of the one in flight.
-/

namespace Cinux

open Function

/-- How far a request is. -/
inductive Stage where
  | queued
  | taken
  | completed
  | handled
  deriving DecidableEq

/-- A request in flight. -/
structure InFlight (A B : Type) where
  caller : A
  payload : B
  stage : Stage

/-- What happens to requests. -/
inductive Traffic (A B H : Type) where
  /-- Nothing that concerns them. -/
  | quiet
  | submit (a : A) (b : B) (h : H)
  | take (h : H)
  | complete (h : H)
  /-- The handler finds the request under `h` completed, with the payload `b`. -/
  | handle (h : H) (b : B)
  | leave (a : A) (b : B) (h : H)

namespace Requests

variable {A B H : Type} [DecidableEq H]

/-- The tag that an event is about. -/
def tag : Traffic A B H → Option H
  | .quiet => none
  | .submit _ _ h | .take h | .complete h | .handle h _ | .leave _ _ h => some h

/-- The life of a request. -/
inductive Step : (H → Option (InFlight A B)) → Traffic A B H → (H → Option (InFlight A B)) → Prop
  | quiet {φ} : Step φ .quiet φ
  | submit {φ a b h} : φ h = none →
      Step φ (.submit a b h) (update φ h (some ⟨a, b, .queued⟩))
  | take {φ a b h} : φ h = some ⟨a, b, .queued⟩ →
      Step φ (.take h) (update φ h (some ⟨a, b, .taken⟩))
  | complete {φ a b h} : φ h = some ⟨a, b, .taken⟩ →
      Step φ (.complete h) (update φ h (some ⟨a, b, .completed⟩))
  | handle {φ a b h} : φ h = some ⟨a, b, .completed⟩ →
      Step φ (.handle h b) (update φ h (some ⟨a, b, .handled⟩))
  | leave {φ a b h} : φ h = some ⟨a, b, .handled⟩ →
      Step φ (.leave a b h) (update φ h none)

end Requests

/-- The machine of requests with callers `A`, payloads `B` and tags `H`. -/
def requests (A B H : Type) [DecidableEq H] :
    Machine (H → Option (InFlight A B)) (Traffic A B H) where
  init φ := ∀ h, φ h = none
  step := Requests.Step

namespace Requests

variable {A B H : Type}

/-- The request under `h` is at the stage `st`. -/
def At (φ : H → Option (InFlight A B)) (st : Stage) (h : H) : Prop :=
  ∃ a b, φ h = some ⟨a, b, st⟩

/-- The request under `h` is the one of `a` with the payload `b`. -/
def Carries (φ : H → Option (InFlight A B)) (h : H) (a : A) (b : B) : Prop :=
  ∃ st, φ h = some ⟨a, b, st⟩

/-- Events of whole requests under the tag `h`, one after the other. -/
inductive Cycles (h : H) : List (Traffic A B H) → Prop
  | nil : Cycles h []
  | next {l a b} : Cycles h l →
      Cycles h (l ++ [.submit a b h, .take h, .complete h, .handle h b, .leave a b h])

/-- What has happened so far to the request in flight under `h`. -/
def past (h : H) : Option (InFlight A B) → List (Traffic A B H)
  | none => []
  | some ⟨a, b, .queued⟩ => [.submit a b h]
  | some ⟨a, b, .taken⟩ => [.submit a b h, .take h]
  | some ⟨a, b, .completed⟩ => [.submit a b h, .take h, .complete h]
  | some ⟨a, b, .handled⟩ => [.submit a b h, .take h, .complete h, .handle h b]

variable {φ φ' : H → Option (InFlight A B)} {e : Traffic A B H} {h : H}

theorem At.unique {st st' : Stage} (hs : At φ st h) (hs' : At φ st' h) : st = st' := by
  obtain ⟨a, b, e⟩ := hs
  obtain ⟨a', b', e'⟩ := hs'
  exact (InFlight.mk.inj (Option.some.inj (e.symm.trans e'))).2.2

variable {st : Stage}

theorem At.ne_none (hs : At φ st h) : φ h ≠ none := by
  obtain ⟨a, b, e⟩ := hs
  rw [e]
  exact Option.some_ne_none _

theorem not_at {x : InFlight A B} (hφ : φ h = some x) (hne : x.stage ≠ st) :
    ¬At φ st h := by
  rintro ⟨a, b, e⟩
  obtain rfl := Option.some.inj (hφ.symm.trans e)
  exact hne rfl

variable [DecidableEq H]

theorem at_update_self (φ : H → Option (InFlight A B)) (h : H) (a : A) (b : B) (st : Stage)
    (h' : H) :
    At (update φ h (some ⟨a, b, st⟩)) st h' ↔ h' = h ∨ At φ st h' := by
  unfold At
  by_cases hh : h' = h
  · subst hh
    simp
  · simp [hh]

theorem at_update_left {x : Option (InFlight A B)} (hx : ∀ a b, x ≠ some ⟨a, b, st⟩) (h' : H) :
    At (update φ h x) st h' ↔ h' ≠ h ∧ At φ st h' := by
  unfold At
  by_cases hh : h' = h
  · subst hh
    simp [hx]
  · simp [hh]

theorem at_update_other {x : Option (InFlight A B)} (hx : ∀ a b, x ≠ some ⟨a, b, st⟩)
    (hnot : ¬At φ st h) (h' : H) :
    At (update φ h x) st h' ↔ At φ st h' := by
  rw [at_update_left hx]
  refine and_iff_right_of_imp ?_
  rintro hs rfl
  exact hnot hs

theorem carries_submit {a : A} {b : B} (hφ : φ h = none) (h' : H) (a' : A)
    (b' : B) : Carries (update φ h (some ⟨a, b, st⟩)) h' a' b' ↔
      (h' = h ∧ a' = a ∧ b' = b) ∨ Carries φ h' a' b' := by
  unfold Carries
  by_cases hh : h' = h
  · subst hh
    simp [hφ, eq_comm]
  · simp [hh]

theorem carries_leave (h' : H) (a' : A) (b' : B) :
    Carries (update φ h none) h' a' b' ↔ h' ≠ h ∧ Carries φ h' a' b' := by
  unfold Carries
  by_cases hh : h' = h
  · subst hh
    simp
  · simp [hh]

theorem carries_move {a : A} {b : B} {st st' : Stage} (hφ : φ h = some ⟨a, b, st⟩) (h' : H)
    (a' : A) (b' : B) :
    Carries (update φ h (some ⟨a, b, st'⟩)) h' a' b' ↔ Carries φ h' a' b' := by
  unfold Carries
  by_cases hh : h' = h
  · subst hh
    simp [hφ]
  · simp [hh]

/-- The events under the tag `h`. -/
def eventsAt (h : H) (tr : List (Traffic A B H)) : List (Traffic A B H) :=
  tr.filter fun e => tag e = some h

theorem eventsAt_snoc_of_ne (tr : List (Traffic A B H)) (he : tag e ≠ some h) :
    eventsAt h (tr ++ [e]) = eventsAt h tr := by
  simp [eventsAt, he]

theorem eventsAt_snoc (tr : List (Traffic A B H)) (he : tag e = some h) :
    eventsAt h (tr ++ [e]) = eventsAt h tr ++ [e] := by
  simp [eventsAt, he]

theorem Step.eq_of_ne (hst : Step φ e φ') (he : tag e ≠ some h) : φ' h = φ h := by
  cases hst with
  | quiet => rfl
  | submit | take | complete | handle | leave =>
    exact update_of_ne (fun hh => he (by rw [hh]; rfl)) _ _

/-- A step adds to what has happened to the request, or ends it. -/
theorem Step.past_eq (hst : Step φ e φ') (he : tag e = some h) :
    past h (φ' h) = past h (φ h) ++ [e] ∨ φ' h = none ∧ ∃ a b, past h (φ h) ++ [e] =
        [.submit a b h, .take h, .complete h, .handle h b, .leave a b h] := by
  cases hst with
  | quiet => cases he
  | submit hφ | take hφ | complete hφ | handle hφ =>
    cases he
    left
    rw [update_self, hφ]
    rfl
  | @leave a b _ hφ =>
    cases he
    right
    refine ⟨update_self .., a, b, ?_⟩
    rw [hφ]
    rfl

/-- **The events of a run** under any tag are those of whole requests, one after the other, followed
by the past of the one in flight. -/
theorem cycles {tr : List (Traffic A B H)} (htr : (requests A B H).Trace tr φ) (h : H) :
    ∃ l, Cycles h l ∧ eventsAt h tr = l ++ past h (φ h) := by
  induction htr with
  | start hφ => exact ⟨[], .nil, by rw [hφ h]; rfl⟩
  | @next tr φ φ' e _ hst ih =>
    obtain ⟨l, hl, hev⟩ := ih
    by_cases he : tag e = some h
    · rw [eventsAt_snoc tr he, hev, List.append_assoc]
      obtain hp | ⟨hnone, a, b, hp⟩ := Step.past_eq hst he
      · exact ⟨l, hl, by rw [hp]⟩
      · refine ⟨_, hl.next (a := a) (b := b), ?_⟩
        rw [hp, hnone, past, List.append_nil]
    · exact ⟨l, hl, by rw [eventsAt_snoc_of_ne tr he, hev, Step.eq_of_ne hst he]⟩

end Requests

end Cinux
