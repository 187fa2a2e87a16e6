import Mathlib.Logic.ExistsUnique
import Mathlib.Order.Defs.PartialOrder

/-!
# Ownership

Things that are handed around have, at any time, one *place* each: `At a x` says that `x` is at
place `a`.  `Owned At all` says that the things of `all`, and no others, are each at exactly one
place, so nothing is lost and nothing is at two places at once.

* `Owned.move` : moving one thing to another place keeps this.
* `Owned.moved` : so does moving some things to one place.
* `Owned.congr` : so does a change that leaves every place as it is.
* `Owned.map` : places may be taken together.
* `Owned.split` : a place may be divided into others.
-/

namespace Cinux

variable {P α : Type*} {At At' : P → α → Prop} {all L : α → Prop} {a d b : P} {x : α}

/-- Every thing of `all` is at exactly one place, and nothing else is anywhere. -/
structure Owned (At : P → α → Prop) (all : α → Prop) : Prop where
  unique : ∀ {x a b}, At a x → At b x → a = b
  covers : ∀ x, (∃ a, At a x) ↔ all x

namespace Owned

theorem mem (h : Owned At all) (hx : At a x) : all x := (h.covers x).1 ⟨a, hx⟩

theorem existsUnique (h : Owned At all) (hx : all x) : ∃! a, At a x := by
  obtain ⟨a, ha⟩ := (h.covers x).2 hx
  exact ⟨a, ha, fun b hb => h.unique hb ha⟩

theorem congr (h : Owned At all) (hat : ∀ a x, At' a x ↔ At a x) : Owned At' all where
  unique ha hb := h.unique ((hat _ _).1 ha) ((hat _ _).1 hb)
  covers x := by
    rw [← h.covers x]
    exact exists_congr fun a => hat a x

/-- **Taking places together.** -/
theorem map {P' : Type*} {At' : P' → α → Prop} (h : Owned At all) (f : P → P')
    (hat : ∀ b x, At' b x ↔ ∃ a, f a = b ∧ At a x) : Owned At' all where
  unique {x b b'} hb hb' := by
    obtain ⟨a, rfl, ha⟩ := (hat b x).1 hb
    obtain ⟨a', rfl, ha'⟩ := (hat b' x).1 hb'
    rw [h.unique ha ha']
  covers x := by
    rw [← h.covers x]
    constructor
    · rintro ⟨b, hb⟩
      obtain ⟨a, -, ha⟩ := (hat b x).1 hb
      exact ⟨a, ha⟩
    · rintro ⟨a, ha⟩
      exact ⟨f a, (hat (f a) x).2 ⟨a, rfl, ha⟩⟩

/-- **Dividing a place**: what is at `d` is at one of the places of `old`, and the rest is at the
places of `new`. -/
theorem split (h : Owned At all) (At2 : P → α → Prop) (old new : P → Prop)
    (h2 : ∀ {x a b}, At2 a x → At2 b x → a = b) (hd : ¬new d)
    (hnew : ∀ a x, At a x → a = d ∨ new a) (hold : ∀ x, At d x ↔ ∃ a, old a ∧ At2 a x)
    (hat : ∀ a x, At' a x ↔ (new a ∧ At a x) ∨ (old a ∧ At2 a x)) : Owned At' all where
  unique {x a b} ha hb := by
    rcases (hat a x).1 ha with ⟨hna, ha⟩ | ⟨hoa, ha⟩
    · rcases (hat b x).1 hb with ⟨-, hb⟩ | ⟨hob, hb⟩
      · exact h.unique ha hb
      · exact absurd (h.unique ha ((hold x).2 ⟨b, hob, hb⟩) ▸ hna) hd
    · rcases (hat b x).1 hb with ⟨hnb, hb⟩ | ⟨-, hb⟩
      · exact absurd (h.unique hb ((hold x).2 ⟨a, hoa, ha⟩) ▸ hnb) hd
      · exact h2 ha hb
  covers x := by
    rw [← h.covers x]
    constructor
    · rintro ⟨a, ha⟩
      rcases (hat a x).1 ha with ⟨-, ha⟩ | ⟨hoa, ha⟩
      · exact ⟨a, ha⟩
      · exact ⟨d, (hold x).2 ⟨a, hoa, ha⟩⟩
    · rintro ⟨a, ha⟩
      rcases hnew a x ha with rfl | hna
      · obtain ⟨b, hob, hb⟩ := (hold x).1 ha
        exact ⟨b, (hat b x).2 (.inr ⟨hob, hb⟩)⟩
      · exact ⟨a, (hat a x).2 (.inl ⟨hna, ha⟩)⟩

/-- **Moving**: the things of `L` go to place `d` and all others stay. -/
theorem moved (h : Owned At all) (hL : ∀ x, L x → all x)
    (hat : ∀ a x, At' a x ↔ (At a x ∧ ¬L x) ∨ (a = d ∧ L x)) : Owned At' all where
  unique {x a b} ha hb := by
    rcases (hat a x).1 ha with ⟨ha, hx⟩ | ⟨rfl, hx⟩
    · rcases (hat b x).1 hb with ⟨hb, -⟩ | ⟨-, hx'⟩
      · exact h.unique ha hb
      · exact absurd hx' hx
    · rcases (hat b x).1 hb with ⟨-, hx'⟩ | ⟨rfl, -⟩
      · exact absurd hx hx'
      · rfl
  covers x := by
    constructor
    · rintro ⟨a, ha⟩
      rcases (hat a x).1 ha with ⟨ha, -⟩ | ⟨-, hx⟩
      · exact h.mem ha
      · exact hL x hx
    · intro hx
      by_cases hl : L x
      · exact ⟨d, (hat d x).2 (.inr ⟨rfl, hl⟩)⟩
      · obtain ⟨a, ha⟩ := (h.covers x).2 hx
        exact ⟨a, (hat a x).2 (.inl ⟨ha, hl⟩)⟩

/-- **Moving one thing**: `x` goes from place `a` to place `b`. -/
theorem move (h : Owned At all) (hx : At a x) (hne : a ≠ b)
    (hfrom : ∀ y, At' a y ↔ At a y ∧ y ≠ x) (hto : ∀ y, At' b y ↔ At b y ∨ y = x)
    (hother : ∀ c, c ≠ a → c ≠ b → ∀ y, At' c y ↔ At c y) : Owned At' all := by
  refine h.moved (L := (· = x)) (d := b) (fun y hy => hy ▸ h.mem hx) fun c y => ?_
  by_cases hc : c = a
  · rw [hc, hfrom]
    exact ⟨.inl, fun hy => hy.resolve_right fun hy => hne hy.1⟩
  · -- elsewhere `x` is not to be found before
    have hnot : At c y → y ≠ x := fun hy he => hc (h.unique (he ▸ hy) hx)
    by_cases hcb : c = b
    · rw [hcb] at hnot ⊢
      rw [hto]
      exact ⟨fun hy => hy.imp (fun hy => ⟨hy, hnot hy⟩) fun hy => ⟨rfl, hy⟩,
        fun hy => hy.imp And.left And.right⟩
    · rw [hother c hc hcb]
      exact ⟨fun hy => .inl ⟨hy, hnot hy⟩, fun hy => (hy.resolve_right fun hy => hcb hy.1).1⟩

end Owned

end Cinux
