import Mathlib.Logic.Basic
import Mathlib.Data.List.Basic

/-!
# Programs that may stop

A stretch of sequential code is a *program*: from a state it returns a value and a state, or it
stops for good (it panics, or waits for something that never comes).

* `Program.bind_ok`, `Program.bind_error`, `Program.bind_eq_ok` : how a sequence of two programs
  runs.
* `Program.Triple P m Q` : started where `P` holds, `m` can only return where `Q` holds.
* `Program.Triple.bind`, `Program.Triple.forM`, `Program.Triple.foldlM` : triples of sequences and
  of loops.
* `Program.Guarded E P m Q` : the same, and `m` stops only with a reason in `E`.
* `Program.Runs m s Q` : started in `s`, `m` returns where `Q` holds.
* `Program.focus get set m` : `m`, on a part of a larger state.
* `Program.Meets m s o Q` : `m` carries out a partial function: it returns exactly where that has a
  value.
* `Program.lift`, `Program.emit`, `Program.Erases` : programs that record what they do.
* `Program.Follows g e c m` : `c` is `m` with checks, and stops with `e` if one of them fails.
-/

namespace Cinux

open List

/-- Programs over states `σ` that return values of type `α` or stop with `ε`. -/
abbrev Program (ε σ α : Type) := StateT σ (Except ε) α

namespace Program

variable {ε σ α β : Type} {m : Program ε σ α} {f : α → Program ε σ β} {s s' : σ} {a : α}

theorem bind_ok (h : m s = .ok (a, s')) : (m >>= f) s = f a s' := by
  change (m s >>= fun r => f r.1 r.2) = f a s'
  rw [h]
  rfl

theorem bind_error {e : ε} (h : m s = .error e) : (m >>= f) s = .error e := by
  change (m s >>= fun r => f r.1 r.2) = .error e
  rw [h]
  rfl

/-- A sequence returns exactly when both parts do. -/
theorem bind_eq_ok {r : β × σ} :
    (m >>= f) s = .ok r ↔ ∃ a s', m s = .ok (a, s') ∧ f a s' = .ok r := by
  cases h : m s with
  | error e =>
    rw [bind_error h]
    constructor
    · intro hr
      cases hr
    · rintro ⟨_, _, hr, _⟩
      cases hr
  | ok x =>
    rw [bind_ok h]
    constructor
    · exact fun hr => ⟨_, _, rfl, hr⟩
    · rintro ⟨_, _, hx, hr⟩
      cases hx
      exact hr

theorem pure_eq_ok {a b : α} : (pure a : Program ε σ α) s = .ok (b, s') ↔ a = b ∧ s = s' := by
  change (Except.ok (a, s) : Except ε (α × σ)) = .ok (b, s') ↔ _
  simp

theorem ok_inj {a b : α} (h : (.ok (a, s) : Except ε (α × σ)) = .ok (b, s')) :
    a = b ∧ s = s' :=
  Prod.mk.inj (Except.ok.inj h)

/-- `m` returns from `s`, and the outcome passes the test `p`. -/
def returns (m : Program ε σ α) (s : σ) (p : α → σ → Bool) : Bool :=
  match m s with
  | .ok (a, s') => p a s'
  | .error _ => false

theorem exists_of_returns {p : α → σ → Bool} (h : returns m s p = true) :
    ∃ a s', m s = .ok (a, s') ∧ p a s' = true := by
  unfold returns at h
  cases hm : m s with
  | error e =>
    rw [hm] at h
    cases h
  | ok x =>
    rw [hm] at h
    exact ⟨x.1, x.2, rfl, h⟩

/-- Partial correctness: if `m` is started where `P` holds and returns, then `Q` holds. -/
def Triple (P : σ → Prop) (m : Program ε σ α) (Q : α → σ → Prop) : Prop :=
  ∀ s, P s → ∀ a s', m s = .ok (a, s') → Q a s'

variable {g : α → Program ε σ PUnit} {l : List α} {Q' : α → σ → Prop}

namespace Triple

variable {P : σ → Prop} {Q : α → σ → Prop} {R : β → σ → Prop}

theorem pure (h : ∀ s, P s → Q a s) : Triple P (Pure.pure a : Program ε σ α) Q := by
  intro s hs b s' hr
  cases hr
  exact h s hs

theorem bind (hm : Triple P m Q) (hf : ∀ a, Triple (Q a) (f a) R) : Triple P (m >>= f) R := by
  intro s hs b s' hr
  obtain ⟨a, s1, h1, h2⟩ := bind_eq_ok.1 hr
  exact hf a s1 (hm s hs a s1 h1) b s' h2

theorem conseq {P' : σ → Prop} (hm : Triple P' m Q')
    (hP : ∀ s, P s → P' s) (hQ : ∀ a s, Q' a s → Q a s) : Triple P m Q :=
  fun s hs a s' hr => hQ a s' (hm s (hP s hs) a s' hr)

theorem pull {p : Prop} (h : p → Triple P m Q) : Triple (fun s => p ∧ P s) m Q :=
  fun s hs => h hs.1 s hs.2

/-- A loop with an accumulator keeps what every round keeps. -/
theorem foldlM {I : β → σ → Prop} {g : β → α → Program ε σ β} {b : β}
    (h : ∀ a ∈ l, ∀ b, Triple (I b) (g b a) I) : Triple (I b) (l.foldlM g b) I := by
  induction l generalizing b with
  | nil => exact .pure fun _ hs => hs
  | cons a l ih =>
    rw [foldlM_cons]
    exact .bind (h a (by simp) b) fun _ => ih fun a ha => h a (by simp [ha])

/-- A loop over a list keeps what every round keeps. -/
theorem forM {I : σ → Prop} (h : ∀ a ∈ l, Triple I (g a) fun _ => I) :
    Triple I (l.forM g) fun _ => I := by
  induction l with
  | nil => exact .pure fun _ hs => hs
  | cons a l ih =>
    rw [forM_eq_forM, forM_cons]
    refine .bind (h a (by simp)) fun _ => ?_
    exact ih fun b hb => h b (by simp [hb])

end Triple

/-- If `m` is started where `P` holds, it returns where `Q` holds or stops with a reason in `E`. -/
def Guarded (E : ε → Prop) (P : σ → Prop) (m : Program ε σ α) (Q : α → σ → Prop) : Prop :=
  ∀ s, P s → (∀ a s', m s = .ok (a, s') → Q a s') ∧ ∀ e, m s = .error e → E e

namespace Guarded

variable {E : ε → Prop} {P : σ → Prop} {Q : α → σ → Prop} {R : β → σ → Prop}

theorem pure (h : ∀ s, P s → Q a s) :
    Guarded E P (Pure.pure a : Program ε σ α) Q := by
  refine fun s hs => ⟨fun b s' hr => ?_, fun e he => ?_⟩
  · cases hr
    exact h s hs
  · cases he

theorem throw {e : ε} (h : E e) : Guarded E P (MonadExcept.throw e : Program ε σ α) Q := by
  refine fun s _ => ⟨fun b s' hr => ?_, fun e' he => ?_⟩
  · cases hr
  · cases he
    exact h

theorem bind (hm : Guarded E P m Q) (hf : ∀ a, Guarded E (Q a) (f a) R) :
    Guarded E P (m >>= f) R := by
  intro s hs
  obtain ⟨hok, herr⟩ := hm s hs
  cases h : m s with
  | error e =>
    rw [bind_error h]
    refine ⟨fun b s' hr => ?_, fun e' he => ?_⟩
    · cases hr
    · cases he
      exact herr e h
  | ok x =>
    rw [bind_ok h]
    exact hf x.1 x.2 (hok x.1 x.2 h)

theorem conseq {P' : σ → Prop} (hm : Guarded E P' m Q')
    (hP : ∀ s, P s → P' s) (hQ : ∀ a s, Q' a s → Q a s) : Guarded E P m Q :=
  fun s hs => ⟨fun a s' hr => hQ a s' ((hm s (hP s hs)).1 a s' hr), (hm s (hP s hs)).2⟩

theorem pre {P' : σ → Prop} (hm : Guarded E P' m Q) (hP : ∀ s, P s → P' s) : Guarded E P m Q :=
  hm.conseq hP fun _ _ h => h

theorem of_ok (h : ∀ s, P s → ∃ a s', m s = .ok (a, s') ∧ Q a s') : Guarded E P m Q := by
  intro s hs
  obtain ⟨a, s', hm, hq⟩ := h s hs
  refine ⟨fun b t hr => ?_, fun e he => ?_⟩
  · obtain ⟨rfl, rfl⟩ := Prod.mk.inj (Except.ok.inj (hm.symm.trans hr))
    exact hq
  · cases hm.symm.trans he

theorem pull {p : Prop} (h : p → Guarded E P m Q) : Guarded E (fun s => p ∧ P s) m Q :=
  fun s hs => h hs.1 s hs.2

theorem look {g : σ → α} (hm : ∀ s, m s = .ok (g s, s))
    (hf : ∀ a, Guarded E (fun s => g s = a ∧ P s) (f a) R) : Guarded E P (m >>= f) R := by
  intro s hs
  rw [bind_ok (hm s)]
  exact hf (g s) s ⟨rfl, hs⟩

/-- A loop over a list whose rounds take `I` of what is left to `I` of what is left then. -/
theorem forM {I : List α → σ → Prop} (h : ∀ a l, Guarded E (I (a :: l)) (g a) fun _ => I l) :
    Guarded E (I l) (l.forM g) fun _ => I [] := by
  induction l with
  | nil => exact .pure fun _ hs => hs
  | cons a l ih =>
    rw [forM_eq_forM, forM_cons]
    exact .bind (h a l) fun _ => ih

end Guarded

/-- Total correctness: started in `s`, `m` returns, and then `Q` holds. -/
def Runs (m : Program ε σ α) (s : σ) (Q : α → σ → Prop) : Prop := ∃ a s', m s = .ok (a, s') ∧ Q a s'

namespace Runs

variable {Q : α → σ → Prop} {R : β → σ → Prop}

theorem pure (h : Q a s) : Runs (Pure.pure a : Program ε σ α) s Q := ⟨a, s, rfl, h⟩

theorem bind (hm : Runs m s Q) (hf : ∀ a s', Q a s' → Runs (f a) s' R) : Runs (m >>= f) s R := by
  obtain ⟨a, s1, hrun, hq⟩ := hm
  obtain ⟨b, s2, hrun', hr⟩ := hf a s1 hq
  exact ⟨b, s2, (bind_ok hrun).trans hrun', hr⟩

theorem conseq (hm : Runs m s Q') (hQ : ∀ a s', Q' a s' → Q a s') :
    Runs m s Q := by
  obtain ⟨a, s1, hrun, hq⟩ := hm
  exact ⟨a, s1, hrun, hQ a s1 hq⟩

theorem step (hm : m s = .ok (a, s')) (hf : Runs (f a) s' R) : Runs (m >>= f) s R := by
  obtain ⟨b, s2, hrun, hr⟩ := hf
  exact ⟨b, s2, (bind_ok hm).trans hrun, hr⟩

/-- A loop over a list: what holds with `l` still to do takes every round to what holds with the
rest. -/
theorem forM {I : List α → σ → Prop} (hs : I l s)
    (h : ∀ a l s, I (a :: l) s → Runs (g a) s fun _ s' => I l s') :
    Runs (l.forM g) s fun _ s' => I [] s' := by
  induction l generalizing s with
  | nil => exact .pure hs
  | cons a l ih =>
    rw [forM_eq_forM, forM_cons]
    exact (h a l s hs).bind fun _ _ hs' => ih hs'

end Runs

/-! ### Programs on a part of the state -/

section Focus

variable {τ : Type} {get : τ → σ} {set : τ → σ → τ} {t : τ}

/-- `m`, on a part of the state. -/
def focus (get : τ → σ) (set : τ → σ → τ) (m : Program ε σ α) : Program ε τ α := fun t =>
  match m (get t) with
  | .ok (a, s) => .ok (a, set t s)
  | .error e => .error e

theorem Runs.focus {Q : α → σ → Prop} (h : Runs m (get t) Q) :
    Runs (focus get set m) t fun a t' => ∃ s, t' = set t s ∧ Q a s := by
  obtain ⟨a, s, hrun, hq⟩ := h
  refine ⟨a, set t s, ?_, s, rfl, hq⟩
  unfold Program.focus
  rw [hrun]

end Focus

theorem foldlM_flatMap {M : Type → Type} [Monad M] [LawfulMonad M] {ι γ τ : Type} {g : ι → List γ}
    {next : τ → γ → M τ} (l : List ι) (t : τ) :
    (l.flatMap g).foldlM next t = l.foldlM (fun t i => (g i).foldlM next t) t := by
  induction l generalizing t with
  | nil => rfl
  | cons i l ih =>
    rw [flatMap_cons, foldlM_append, foldlM_cons]
    exact bind_congr fun t' => ih t'

/-! ### Programs that carry out a partial function -/

section Meets

variable {τ : Type}

/-- Started in `s`, `m` returns with `Q t` if the partial function has the value `t`, and stops if
it has none. -/
def Meets (m : Program ε σ α) (s : σ) (o : Option τ) (Q : τ → α → σ → Prop) : Prop :=
  (∀ t, o = some t → Runs m s (Q t)) ∧ (o = none → ∃ e, m s = .error e)

namespace Meets

variable {o : Option τ} {t : τ} {Q : τ → α → σ → Prop} {R : τ → β → σ → Prop}

theorem runs (h : Runs m s (Q t)) : Meets m s (some t) Q :=
  ⟨fun _ he => Option.some.inj he ▸ h, nofun⟩

theorem stop {e : ε} (h : m s = .error e) : Meets m s none Q := ⟨nofun, fun _ => ⟨e, h⟩⟩

theorem pure (h : Q t a s) : Meets (Pure.pure a : Program ε σ α) s (some t) Q := runs (.pure h)

theorem step (hm : m s = .ok (a, s')) (hf : Meets (f a) s' o R) :
    Meets (m >>= f) s o R := by
  refine ⟨fun t ht => .step hm (hf.1 t ht), fun ho => ?_⟩
  rw [bind_ok hm]
  exact hf.2 ho

theorem bind {g : τ → Option τ} (hm : Meets m s o Q)
    (hf : ∀ t a s', Q t a s' → Meets (f a) s' (g t) R) : Meets (m >>= f) s (o.bind g) R := by
  cases o with
  | none =>
    obtain ⟨e, he⟩ := hm.2 rfl
    exact stop (bind_error he)
  | some t =>
    obtain ⟨a, s1, hrun, hq⟩ := hm.1 t rfl
    exact step hrun (hf t a s1 hq)

theorem bind_runs (hm : Meets m s o Q) (hf : ∀ t a s', Q t a s' → Runs (f a) s' (R t)) :
    Meets (m >>= f) s o R := by
  refine ⟨fun t ht => (hm.1 t ht).bind fun a s' hq => hf t a s' hq, fun ho => ?_⟩
  obtain ⟨e, he⟩ := hm.2 ho
  exact ⟨e, bind_error he⟩

theorem conseq {Q' : τ → α → σ → Prop} (hm : Meets m s o Q')
    (hQ : ∀ t a s', Q' t a s' → Q t a s') : Meets m s o Q :=
  ⟨fun t ht => (hm.1 t ht).conseq (hQ t), hm.2⟩

/-- A loop over a list, in which every round carries out a step of the partial function. -/
theorem foldlM {I : List α → τ → β → σ → Prop} {g : β → α → Program ε σ β}
    {next : τ → α → Option τ} {b : β} (hs : I l t b s)
    (h : ∀ a l t b s, I (a :: l) t b s → Meets (g b a) s (next t a) fun t' b' s' => I l t' b' s') :
    Meets (l.foldlM g b) s (l.foldlM next t) fun t' b' s' => I [] t' b' s' := by
  induction l generalizing t b s with
  | nil => exact pure hs
  | cons a l ih =>
    rw [foldlM_cons, foldlM_cons]
    exact (h a l t b s hs).bind fun _ _ _ hs' => ih hs'

theorem forM {I : List α → τ → σ → Prop} {next : τ → α → Option τ} (hs : I l t s)
    (h : ∀ a l t s, I (a :: l) t s → Meets (g a) s (next t a) fun t' _ s' => I l t' s') :
    Meets (l.forM g) s (l.foldlM next t) fun t' _ s' => I [] t' s' := by
  induction l generalizing t s with
  | nil => exact pure hs
  | cons a l ih =>
    rw [forM_eq_forM, forM_cons, foldlM_cons]
    exact (h a l t s hs).bind fun _ _ _ hs' => ih hs'

end Meets

end Meets

/-! ### Programs with a trace -/

section Trace

variable {τ : Type} {c : Program ε (σ × List τ) α} {k : α → Program ε (σ × List τ) β}

/-- `m`, which adds nothing to the trace. -/
def lift (m : Program ε σ α) : Program ε (σ × List τ) α := focus Prod.fst (fun p s => (s, p.2)) m

/-- Add an event to the trace. -/
def emit (e : τ) : Program ε (σ × List τ) Unit := fun p => .ok ((), p.1, p.2 ++ [e])

theorem lift_ok {tr : List τ} (h : m s = .ok (a, s')) :
    lift m (s, tr) = .ok (a, s', tr) := by
  unfold lift focus
  rw [h]

theorem Meets.lift {ρ : Type} {o : Option ρ} {Q : ρ → α → σ → Prop} {tr : List τ}
    (h : Meets m s o Q) :
    Meets (lift m) (s, tr) o fun t a p => Q t a p.1 ∧ p.2 = tr := by
  refine ⟨fun t ht => ?_, fun ho => ?_⟩
  · obtain ⟨a, s1, hrun, hq⟩ := h.1 t ht
    exact ⟨a, (s1, tr), lift_ok hrun, hq, rfl⟩
  · obtain ⟨e, he⟩ := h.2 ho
    refine ⟨e, ?_⟩
    unfold Program.lift focus
    rw [he]

/-- Without its trace, `c` is `m`. -/
def Erases (c : Program ε (σ × List τ) α) (m : Program ε σ α) : Prop :=
  ∀ p, (c p).map (fun r => (r.1, r.2.1)) = m p.1

namespace Erases

theorem lift : Erases (Program.lift m : Program ε (σ × List τ) α) m := by
  intro p
  unfold Program.lift focus
  cases m p.1 <;> rfl

theorem pure :
    Erases (Pure.pure a : Program ε (σ × List τ) α) (Pure.pure a : Program ε σ α) := fun _ => rfl

theorem bind (hc : Erases c m) (hk : ∀ a, Erases (k a) (f a)) : Erases (c >>= k) (m >>= f) := by
  intro p
  have hp := hc p
  cases h : c p with
  | error e =>
    rw [h] at hp
    rw [bind_error h, bind_error hp.symm]
    rfl
  | ok r =>
    rw [h] at hp
    rw [bind_ok h, bind_ok hp.symm]
    exact hk r.1 r.2

theorem emit {e : τ} {c : Program ε (σ × List τ) α} (hc : Erases c m) :
    Erases (Program.emit e >>= fun _ => c) m := fun p => hc (p.1, p.2 ++ [e])

theorem forM {ι : Type} {l : List ι} {k : ι → Program ε (σ × List τ) PUnit}
    {f : ι → Program ε σ PUnit} (h : ∀ i, Erases (k i) (f i)) : Erases (l.forM k) (l.forM f) := by
  induction l with
  | nil => exact pure
  | cons i l ih =>
    simp only [forM_eq_forM, forM_cons] at ih ⊢
    exact (h i).bind fun _ => ih

theorem foldlM {ι : Type} {l : List ι} {k : β → ι → Program ε (σ × List τ) β}
    {f : β → ι → Program ε σ β} (h : ∀ b i, Erases (k b i) (f b i)) (b : β) :
    Erases (l.foldlM k b) (l.foldlM f b) := by
  induction l generalizing b with
  | nil => exact pure
  | cons i l ih =>
    rw [foldlM_cons, foldlM_cons]
    exact (h b i).bind ih

end Erases

end Trace

/-! ### Programs with checks -/

variable {ε' : Type} {g : ε → ε'} {e : ε'} {c : Program ε' σ α} {k : α → Program ε' σ β}

/-- `m`, with its reasons to stop under other names. -/
def mapStop (g : ε → ε') (m : Program ε σ α) : Program ε' σ α := fun s => (m s).mapError g

theorem mapStop_ok {r : α × σ} (h : m s = .ok r) : mapStop g m s = .ok r := by
  rw [mapStop, h]
  rfl

theorem mapStop_error {e : ε} (h : m s = .error e) : mapStop g m s = .error (g e) := by
  rw [mapStop, h]
  rfl

/-- `c` does what `m` does, unless it stops with `e`. -/
def Follows (g : ε → ε') (e : ε') (c : Program ε' σ α) (m : Program ε σ α) : Prop :=
  ∀ s, c s = .error e ∨ c s = mapStop g m s

namespace Follows

theorem lift : Follows g e (mapStop g m) m := fun _ => .inr rfl

theorem pure :
    Follows g e (Pure.pure a : Program ε' σ α) (Pure.pure a : Program ε σ α) :=
  fun _ => .inr rfl

theorem bind (hc : Follows g e c m) (hk : ∀ a, Follows g e (k a) (f a)) :
    Follows g e (c >>= k) (m >>= f) := by
  intro s
  rcases hc s with hstop | hrun
  · exact .inl (bind_error hstop)
  · cases hm : m s with
    | error e =>
      rw [mapStop_error hm] at hrun
      exact .inr ((bind_error hrun).trans (mapStop_error (bind_error hm)).symm)
    | ok x =>
      rw [mapStop_ok hm] at hrun
      rw [bind_ok hrun, mapStop, bind_ok hm]
      exact hk x.1 x.2

theorem value {γ : Type} {t : Program ε' σ γ} {a : γ} {k : γ → Program ε' σ α}
    (ht : ∀ s, t s = .error e ∨ t s = .ok (a, s)) (hc : Follows g e (k a) m) :
    Follows g e (t >>= k) m := by
  intro s
  rcases ht s with hstop | hpass
  · exact .inl (bind_error hstop)
  · rw [bind_ok hpass]
    exact hc s

theorem check {t : Program ε' σ Unit} (ht : ∀ s, t s = .error e ∨ t s = .ok ((), s))
    (hc : Follows g e c m) : Follows g e (t >>= fun _ => c) m := value ht hc

end Follows

end Program

end Cinux
