import Mathlib.Data.List.Basic
import Mathlib.Logic.Function.Basic

/-!
# Replaying writes

A redo log is a list of writes, oldest first; replaying it over a store is what a recovery does.
The lemmas say which writes a replay depends on, and that it may be repeated or resumed: a write
to a key of the log that lands early does not change what the replay comes to.
-/

namespace Redo

variable {κ β : Type*} [DecidableEq κ]

/-- The store `m` after the writes `ws`, oldest first. -/
def replay (ws : List (κ × β)) (m : κ → β) : κ → β :=
  ws.foldl (fun m w => Function.update m w.1 w.2) m

variable {ws : List (κ × β)} {m m' : κ → β} {k : κ}

@[simp] theorem replay_nil (m : κ → β) : replay [] m = m := rfl

@[simp] theorem replay_cons (w : κ × β) (ws : List (κ × β)) (m : κ → β) :
    replay (w :: ws) m = replay ws (Function.update m w.1 w.2) := rfl

theorem replay_append (ws ws' : List (κ × β)) (m : κ → β) :
    replay (ws ++ ws') m = replay ws' (replay ws m) := by
  simp [replay, List.foldl_append]

/-- Only the value of a key itself matters for what the replay leaves there. -/
theorem replay_congr (h : m k = m' k) : replay ws m k = replay ws m' k := by
  induction ws generalizing m m' with
  | nil => exact h
  | cons w ws ih =>
    refine ih ?_
    simp only [Function.update_apply]
    split_ifs
    · rfl
    · exact h

theorem replay_of_not_mem (h : k ∉ ws.map Prod.fst) : replay ws m k = m k := by
  induction ws generalizing m with
  | nil => rfl
  | cons w ws ih =>
    rw [List.map_cons, List.mem_cons, not_or] at h
    rw [replay_cons, ih h.2, Function.update_of_ne h.1]

theorem replay_congr_of_mem (h : k ∈ ws.map Prod.fst) : replay ws m k = replay ws m' k := by
  induction ws generalizing m m' with
  | nil => simp at h
  | cons w ws ih =>
    by_cases hk : k ∈ ws.map Prod.fst
    · exact ih hk
    · have hw : k = w.1 := by simpa [hk] using h
      rw [replay_cons, replay_cons]
      exact replay_congr (by simp [hw])

/-- **Resumption**: a write to a key of the log that has already landed changes nothing. -/
theorem replay_update_of_mem (h : k ∈ ws.map Prod.fst) (v : β) :
    replay ws (Function.update m k v) = replay ws m := by
  funext x
  by_cases hx : x = k
  · subst hx
    exact replay_congr_of_mem h
  · exact replay_congr (Function.update_of_ne hx _ _)

theorem replay_of_forall_eq {f : κ → β} (hf : ∀ w ∈ ws, w.2 = f w.1) (h : k ∈ ws.map Prod.fst) :
    replay ws m k = f k := by
  induction ws generalizing m with
  | nil => simp at h
  | cons w ws ih =>
    by_cases hk : k ∈ ws.map Prod.fst
    · exact ih (fun w' hw' => hf w' (List.mem_cons_of_mem _ hw')) hk
    · have hw : k = w.1 := by simpa [hk] using h
      rw [replay_cons, replay_of_not_mem hk, hw, Function.update_self]
      exact hf w List.mem_cons_self

end Redo
