import Mathlib.Data.Set.Finite.Basic
import Mathlib.Logic.Relation

/-!
# Loops that may go on for ever

A loop without input is a partial function: `next a = some b` if a round takes it from `a` to `b`,
and `next a = none` if it ends at `a`.  A loop that only has finitely many places to go to ends
unless it comes back to a place where it has been (`Iteration.halts_iff`).
-/

namespace Cinux

namespace Iteration

variable {α : Type*} {next : α → Option α} {a b : α}

/-- A round leads from `a` to `b`. -/
def Leads (next : α → Option α) (a b : α) : Prop := next a = some b

/-- The loop ends when it is started at `a`. -/
inductive Halts (next : α → Option α) : α → Prop
  | stop {a : α} : next a = none → Halts next a
  | round {a b : α} : next a = some b → Halts next b → Halts next a

/-- The loop gets from `a` to `b`. -/
abbrev Reaches (next : α → Option α) : α → α → Prop := Relation.ReflTransGen (Leads next)

theorem Halts.of_reaches (h : Halts next a) (hr : Reaches next a b) : Halts next b := by
  induction hr with
  | refl => exact h
  | tail _ hstep ih =>
    cases ih with
    | stop hn => exact nomatch hn.symm.trans hstep
    | round hn hb => exact Option.some.inj (hn.symm.trans hstep) ▸ hb

/-- A loop that ends does not come back to where it started. -/
theorem Halts.not_cycle (h : Halts next a) : ¬Relation.TransGen (Leads next) a a := by
  induction h with
  | stop hn =>
    intro hc
    obtain ⟨b, hb, -⟩ := Relation.TransGen.head'_iff.1 hc
    exact nomatch hn.symm.trans hb
  | round hn _ ih =>
    -- the cycle can be entered one round later
    intro hc
    obtain ⟨b', hb, hback⟩ := Relation.TransGen.head'_iff.1 hc
    obtain rfl := Option.some.inj (hn.symm.trans hb)
    exact ih (Relation.TransGen.tail' hback hn)

/-- A loop that does not end can be followed for any number of rounds. -/
theorem exists_orbit (h : ¬Halts next a) :
    ∃ f : ℕ → α, f 0 = a ∧ ∀ n, Leads next (f n) (f (n + 1)) := by
  have hstep : ∀ x : {x // ¬Halts next x}, ∃ y : {x // ¬Halts next x}, Leads next x y := by
    rintro ⟨x, hx⟩
    cases hn : next x with
    | none => exact absurd (.stop hn) hx
    | some y => exact ⟨⟨y, fun hy => hx (.round hn hy)⟩, hn⟩
  choose g hg using hstep
  refine ⟨fun n => (g^[n] ⟨a, h⟩ : {x // ¬Halts next x}).1, rfl, fun n => ?_⟩
  dsimp only
  rw [Function.iterate_succ_apply']
  exact hg _

theorem transGen_orbit {f : ℕ → α} (hf : ∀ n, Leads next (f n) (f (n + 1))) {m n : ℕ}
    (hmn : m < n) : Relation.TransGen (Leads next) (f m) (f n) := by
  induction n, hmn using Nat.le_induction with
  | base => exact .single (hf m)
  | succ n _ ih => exact .tail ih (hf n)

/-- **A loop with finitely many places ends exactly if it never comes back to one of them.** -/
theorem halts_iff (hfin : {b | Reaches next a b}.Finite) :
    Halts next a ↔ ¬∃ b, Reaches next a b ∧ Relation.TransGen (Leads next) b b := by
  refine ⟨fun h ⟨b, hr, hc⟩ => (h.of_reaches hr).not_cycle hc, fun h => ?_⟩
  by_contra hn
  obtain ⟨f, rfl, hf⟩ := exists_orbit hn
  have hreach : ∀ n, Reaches next (f 0) (f n) := by
    intro n
    rcases Nat.eq_zero_or_pos n with rfl | hpos
    · exact .refl
    · exact (transGen_orbit hf hpos).to_reflTransGen
  -- two rounds are at the same place
  obtain ⟨m, -, n, -, hne, he⟩ :=
    Set.infinite_univ.exists_ne_map_eq_of_mapsTo (fun n _ => hreach n) hfin
  rcases Nat.lt_or_gt_of_ne hne with hlt | hlt
  · exact h ⟨f m, hreach m, by simpa [← he] using transGen_orbit hf hlt⟩
  · exact h ⟨f n, hreach n, by simpa [he] using transGen_orbit hf hlt⟩

end Iteration

end Cinux
