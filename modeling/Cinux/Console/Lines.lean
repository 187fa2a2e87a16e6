import Cinux.Console.Basic

/-!
# The console as a queue of edited lines

`Edited` says what the console is for: a line that is being edited and a queue of characters that
have been committed.  Erase and kill work on the line only; newline, control-D and a full buffer
move it to the queue; and `consoleread` takes from the queue up to a newline, up to `n` bytes, or
up to a control-D, which it leaves there if it has bytes to return.

* `Splits` : how calls that are made one after the other split the committed characters.
* `Cons.abs_consoleintr`, `Cons.abs_readLoop` : the ring does what the queue does, also when its
  indices wrap around.
* `Console.console_lines` : the result, for any interleaving of typing and reading.
* `Console.killed_reader_loses` : a reader that is killed may take committed characters with it.
-/

namespace Cinux

open Function

open List

/-- The line that is being edited and the committed characters that have not been read. -/
structure Edited where
  line : List UInt8
  queue : List UInt8
  deriving DecidableEq

namespace Edited

/-- A character is typed. -/
def key (q : Edited) (c : UInt8) : Edited :=
  if c = 16 then q
  else if c = 21 then { q with line := [] }
  else if c = 8 ∨ c = 127 then { q with line := q.line.dropLast }
  else if c ≠ 0 ∧ q.queue.length + q.line.length < INPUT_BUF_SIZE then
    let c := if c = 13 then 10 else c
    let line := q.line ++ [c]
    if c = 10 ∨ c = 4 ∨ q.queue.length + line.length = INPUT_BUF_SIZE then
      ⟨[], q.queue ++ line⟩
    else { q with line := line }
  else q

/-- The characters that are committed when `c` is typed. -/
def commits (q : Edited) (c : UInt8) : List UInt8 := (q.key c).queue.drop q.queue.length

/-- A read with `n` bytes left of `target`. -/
def take (x : ReadEnv) (target : ℕ) : ℕ → List UInt8 → ReadOut × List UInt8
  | 0, q => (⟨[], false, some target⟩, q)
  | _ + 1, [] => (⟨[], false, if x.killed then some (-1) else none⟩, [])
  | n + 1, c :: q =>
    if c = 4 then
      if n + 1 < target then (⟨[], false, some (target - (n + 1))⟩, c :: q)
      else (⟨[], true, some (target - (n + 1))⟩, q)
    else if x.copyout (n + 1) = false then (⟨[], false, some (target - (n + 1))⟩, q)
    else if c = 10 then (⟨[c], false, some (target - n)⟩, q)
    else ({ (take x target n q).1 with bytes := c :: (take x target n q).1.bytes },
      (take x target n q).2)

theorem key_queue (q : Edited) (c : UInt8) : (q.key c).queue = q.queue ++ q.commits c := by
  have h : q.queue <+: (q.key c).queue := by
    unfold key
    dsimp only
    split_ifs <;> simp
  obtain ⟨t, ht⟩ := h
  rw [commits, ← ht, drop_left]

end Edited

/-- What a section has taken from the queue. -/
def ReadOut.consumed (o : ReadOut) : List UInt8 := o.bytes ++ if o.eof then [4] else []

variable {x : ReadEnv}

theorem Edited.take_consumed (hx : ∀ k, x.copyout k = true) (target n : ℕ)
    (q : List UInt8) : q = (take x target n q).1.consumed ++ (take x target n q).2 := by
  induction n generalizing q with
  | zero => rfl
  | succ n ih =>
    cases q with
    | nil => rfl
    | cons c q =>
      unfold take
      simp only [hx, Bool.true_eq_false, if_false]
      split_ifs with h4 hlt h10
      · rfl
      · rw [h4]; rfl
      · rfl
      · simpa only [ReadOut.consumed, cons_append, List.cons.injEq, true_and] using ih q

/-! ### Splitting the committed characters -/

/-- What a call with `n` bytes left gives and leaves, `none` if there are too few characters;
`fresh` says that it has given nothing yet. -/
def splitOne (fresh : Bool) : ℕ → List UInt8 → Option (List UInt8 × List UInt8)
  | 0, s => some ([], s)
  | _ + 1, [] => none
  | n + 1, c :: s =>
    if c = 4 then some ([], if fresh then s else c :: s)
    else if c = 10 then some ([c], s)
    else (splitOne false n s).map fun (b, s) => (c :: b, s)

/-- The calls `cs`, given by their arguments and the bytes they return, split `s` in order and
leave `r`. -/
inductive Splits : List UInt8 → List (ℕ × List UInt8) → List UInt8 → Prop
  | nil {s} : Splits s [] s
  | call {s n b s' cs r} : splitOne true n s = some (b, s') → Splits s' cs r →
      Splits s ((n, b) :: cs) r

theorem splitOne_append {fresh : Bool} {n : ℕ} {s b s' : List UInt8}
    (h : splitOne fresh n s = some (b, s')) (y : List UInt8) :
    splitOne fresh n (s ++ y) = some (b, s' ++ y) := by
  induction n generalizing fresh s b s' with
  | zero =>
    cases h
    rfl
  | succ n ih =>
    cases s with
    | nil => cases h
    | cons c s =>
      simp only [splitOne, cons_append] at h ⊢
      split_ifs at h ⊢ with h4 hf h10
      · cases h; rfl
      · cases h; rfl
      · cases h; rfl
      · obtain ⟨⟨b1, s1⟩, h1, he⟩ := Option.map_eq_some_iff.1 h
        cases he
        rw [ih h1]
        rfl

theorem Splits.append {s r : List UInt8} {cs : List (ℕ × List UInt8)} (h : Splits s cs r)
    (y : List UInt8) : Splits (s ++ y) cs (r ++ y) := by
  induction h with
  | nil => exact .nil
  | call h1 _ ih => exact .call (splitOne_append h1 y) ih

theorem Splits.concat {s r b r' : List UInt8} {cs : List (ℕ × List UInt8)} {n : ℕ}
    (h : Splits s cs r) (hn : splitOne true n r = some (b, r')) :
    Splits s (cs ++ [(n, b)]) r' := by
  induction h with
  | nil => exact .call hn .nil
  | call h1 _ ih => exact .call h1 (ih hn)

/-- A section of a call that is neither killed nor unlucky: it returns what `splitOne` says, or it
has emptied the queue and the rest of the call splits what comes later. -/
theorem Edited.take_split (hx : ∀ k, x.copyout k = true) (hk : x.killed = false)
    {target n : ℕ} (hn : n ≤ target) (q : List UInt8) :
    ((take x target n q).1.ret ≠ none ∧
      splitOne (n = target) n q = some ((take x target n q).1.bytes, (take x target n q).2)) ∨
    ((take x target n q).1.ret = none ∧ (take x target n q).2 = [] ∧
      (take x target n q).1.bytes = q ∧ q.length < n ∧
      ∀ y, splitOne (n = target) n (q ++ y) =
        (splitOne (n - q.length = target) (n - q.length) y).map fun (b, s) => (q ++ b, s)) := by
  induction n generalizing q with
  | zero => exact .inl ⟨by simp [take], rfl⟩
  | succ n ih =>
    cases q with
    | nil =>
      refine .inr ⟨by simp [take, hk], rfl, rfl, Nat.succ_pos n, fun y => ?_⟩
      simp
    | cons c q =>
      simp only [take, splitOne, hx, Bool.true_eq_false, if_false, cons_append]
      by_cases h4 : c = 4
      · refine .inl ?_
        rw [if_pos h4, if_pos h4]
        by_cases hlt : n + 1 < target
        · have hne : n + 1 ≠ target := by omega
          simp [hlt, hne]
        · have he : n + 1 = target := by omega
          simp [he]
      · by_cases h10 : c = 10
        · exact .inl (by simp [h10])
        · simp only [h4, h10, if_false]
          have hne : ¬n = target := by omega
          rcases ih (by omega) q with ⟨hret, hsplit⟩ | ⟨hret, hrest, hbytes, hlen, hsplit⟩
          · rw [decide_eq_false hne] at hsplit
            refine .inl ⟨hret, ?_⟩
            rw [hsplit]
            rfl
          · refine .inr ⟨hret, hrest, by rw [hbytes], by simpa using hlen, fun y => ?_⟩
            have hsplit := hsplit y
            rw [decide_eq_false hne] at hsplit
            rw [hsplit, Option.map_map, length_cons, Nat.add_sub_add_right]
            rfl

/-! ### The queue with its readers -/

/-- The queue and the calls in progress.  The last two fields are auxiliary: all that has been
committed, and the calls that have returned, with their arguments and the bytes they have given. -/
structure Lines (P : Type) where
  edited : Edited
  call : P → Option ReadCall
  committed : List UInt8
  returned : List (ℕ × List UInt8)

namespace Lines

variable {P : Type} [DecidableEq P]

/-- After a section of the call `k` of `p`, which has left `q` of the queue. -/
def after (s : Lines P) (p : P) (k : ReadCall) (o : ReadOut) (q : List UInt8) : Lines P where
  edited := { s.edited with queue := q }
  call := update s.call p (o.next k)
  committed := s.committed
  returned := if o.ret = none then s.returned else s.returned ++ [(k.target, k.got ++ o.bytes)]

/-- The steps. -/
inductive Step : Lines P → ConsAct P → Lines P → Prop
  | intr {s c} : Step s (.intr c)
      { s with edited := s.edited.key c, committed := s.committed ++ s.edited.commits c }
  | read {s p n x o q} : s.call p = none →
      Edited.take x (ReadCall.start n).target (ReadCall.start n).left s.edited.queue = (o, q) →
      Step s (.read p n x o) (s.after p (.start n) o q)
  | resume {s p k x o q} : s.call p = some k →
      Edited.take x k.target k.left s.edited.queue = (o, q) →
      Step s (.resume p x o) (s.after p k o q)

/-- Nothing typed yet. -/
def lines (P : Type) [DecidableEq P] : Machine (Lines P) (ConsAct P) where
  init s := s = ⟨⟨[], []⟩, fun _ => none, [], []⟩
  step := Step

end Lines

namespace ConsAct

variable {P : Type}

/-- What a step takes from the queue. -/
def consumed : ConsAct P → List UInt8
  | intr _ => []
  | read _ _ _ o => o.consumed
  | resume _ _ o => o.consumed

/-- What a step returns to the caller. -/
def ret : ConsAct P → Option ℤ
  | intr _ => none
  | read _ _ _ o => o.ret
  | resume _ _ o => o.ret

/-- All copies to the caller succeed. -/
def Copies : ConsAct P → Prop
  | intr _ => True
  | read _ _ x _ => ∀ k, x.copyout k = true
  | resume _ x _ => ∀ k, x.copyout k = true

/-- The caller is not killed. -/
def Spared : ConsAct P → Prop
  | intr _ => True
  | read _ _ x _ => x.killed = false
  | resume _ x _ => x.killed = false

end ConsAct

namespace Lines

variable {P : Type} [DecidableEq P] {s s' : Lines P} {a : ConsAct P} {tr : List (ConsAct P)}

/-- **Nothing is lost and nothing is repeated**: what has been committed is what has been taken,
in order, and then the queue. -/
theorem committed_eq (h : (lines P).Trace tr s) (hcopy : ∀ a ∈ tr, a.Copies) :
    s.committed = tr.flatMap ConsAct.consumed ++ s.edited.queue := by
  induction h with
  | start hs =>
    cases hs
    rfl
  | @next tr s s' a _ hst ih =>
    have ih := ih fun b hb => hcopy b (mem_append_left _ hb)
    have ha := hcopy a (mem_append_right _ (mem_singleton_self a))
    rw [flatMap_append, flatMap_singleton]
    have htake : ∀ {x : ReadEnv} {target n : ℕ} {o : ReadOut} {q : List UInt8},
        (∀ k, x.copyout k = true) → Edited.take x target n s.edited.queue = (o, q) →
        s.committed = tr.flatMap ConsAct.consumed ++ o.consumed ++ q := by
      intro x target n o q hx ho
      have hq := Edited.take_consumed hx target n s.edited.queue
      rw [ho] at hq
      rw [ih, hq, append_assoc]
    cases hst with
    | intr =>
      dsimp only [ConsAct.consumed]
      rw [ih, Edited.key_queue, append_nil, append_assoc]
    | read _ ho => exact htake ha ho
    | resume _ ho => exact htake ha ho

/-- A call is made when none is in progress, its copies succeed and it is not killed. -/
def Successive (call : P → Option ReadCall) (a : ConsAct P) : Prop :=
  a.Copies ∧ a.Spared ∧ ∀ p n x o, a = .read p n x o → ∀ q, call q = none

/-- What the calls that have returned, and the one in progress, make of the committed
characters. -/
def Ordered (s : Lines P) : Prop :=
  ((∀ q, s.call q = none) ∧ Splits s.committed s.returned s.edited.queue) ∨
  ∃ p k, s.call p = some k ∧ (∀ q, q ≠ p → s.call q = none) ∧
    Splits s.committed s.returned (k.got ++ s.edited.queue) ∧ k.left ≤ k.target ∧
    ∀ y, splitOne true k.target (k.got ++ y) =
      (splitOne (k.left = k.target) k.left y).map fun (b, s) => (k.got ++ b, s)

theorem after_call (s : Lines P) (p : P) (k : ReadCall) (o : ReadOut) (q : List UInt8) :
    (s.after p k o q).call = update s.call p (o.next k) := rfl

/-- A section of the call `k`, of which `Ordered` says how it splits what comes. -/
theorem ordered_after {p : P} {k : ReadCall} {o : ReadOut} {q : List UInt8}
    (hx : ∀ k, x.copyout k = true) (hk : x.killed = false) (hother : ∀ q, q ≠ p → s.call q = none)
    (hsplits : Splits s.committed s.returned (k.got ++ s.edited.queue)) (hleft : k.left ≤ k.target)
    (hrest : ∀ y, splitOne true k.target (k.got ++ y) =
      (splitOne (k.left = k.target) k.left y).map fun (b, s) => (k.got ++ b, s))
    (ho : Edited.take x k.target k.left s.edited.queue = (o, q)) : (s.after p k o q).Ordered := by
  have hcall : ∀ j, j ≠ p → (s.after p k o q).call j = none := by
    intro j hj
    rw [after_call, update_of_ne hj]
    exact hother j hj
  have htake := Edited.take_split hx hk hleft s.edited.queue
  rw [ho] at htake
  rcases htake with ⟨hret, hsplit⟩ | ⟨hret, hq, hbytes, hlen, hsplit⟩
  · -- the call returns
    refine .inl ⟨fun j => ?_, ?_⟩
    · by_cases hj : j = p
      · rw [hj, after_call, update_self, ReadOut.next]
        obtain ⟨r, hr⟩ := Option.ne_none_iff_exists'.1 hret
        rw [hr]
      · exact hcall j hj
    · have hdone := hrest s.edited.queue
      rw [hsplit] at hdone
      simp only [after, if_neg hret]
      exact hsplits.concat hdone
  · -- the call sleeps, and the queue is empty
    dsimp only at hret hq hbytes hsplit
    subst hq
    refine .inr ⟨p, ⟨k.target, k.left - o.bytes.length, k.got ++ o.bytes⟩, ?_, hcall, ?_, ?_, ?_⟩
    · rw [after_call, update_self, ReadOut.next, hret]
    · simp only [after, if_pos hret, hbytes, append_nil]
      exact hsplits
    · dsimp only
      omega
    · intro y
      rw [append_assoc, hrest, hbytes, hsplit, Option.map_map]
      simp [Function.comp_def]

theorem Ordered.step (h : s.Ordered) (ha : Successive s.call a) (hst : Step s a s') :
    s'.Ordered := by
  obtain ⟨hcopy, hspared, hread⟩ := ha
  cases hst with
  | @intr c =>
    rcases h with ⟨hnone, hsplits⟩ | ⟨p, k, hp, hother, hsplits, hleft, hrest⟩
    · refine .inl ⟨hnone, ?_⟩
      rw [Edited.key_queue]
      exact hsplits.append _
    · refine .inr ⟨p, k, hp, hother, ?_, hleft, hrest⟩
      rw [Edited.key_queue, ← append_assoc]
      exact hsplits.append _
  | @read p n x o q hp ho =>
    have hnone := hread p n x o rfl
    rcases h with ⟨-, hsplits⟩ | ⟨p', k, hp', -⟩
    · refine ordered_after hcopy hspared (fun j _ => hnone j) hsplits le_rfl ?_ ho
      intro y
      simp [ReadCall.start]
    · rw [hnone p'] at hp'
      cases hp'
  | @resume p k x o q hp ho =>
    rcases h with ⟨hnone, -⟩ | ⟨p', k', hp', hother, hsplits, hleft, hrest⟩
    · rw [hnone p] at hp
      cases hp
    · have hpp : p = p' := by
        by_contra hne
        rw [hother p hne] at hp
        cases hp
      subst hpp
      rw [hp'] at hp
      cases hp
      exact ordered_after hcopy hspared hother hsplits hleft hrest ho

end Lines

/-! ### The ring -/

namespace Cons

/-- `r <= w <= e <= r + INPUT_BUF_SIZE`, as distances of 32-bit counters. -/
structure Sound (s : Cons) : Prop where
  r_lt : s.r < 2 ^ 32
  w_lt : s.w < 2 ^ 32
  e_lt : s.e < 2 ^ 32
  order : gap (2 ^ 32) s.r s.w + gap (2 ^ 32) s.w s.e = gap (2 ^ 32) s.r s.e
  fits : gap (2 ^ 32) s.r s.e ≤ INPUT_BUF_SIZE

/-- The edited line and the committed characters. -/
def abs (s : Cons) : Edited := ⟨slots (2 ^ 32) s.buf s.w s.e, slots (2 ^ 32) s.buf s.r s.w⟩

/-- The line that is being edited has no newline in it. -/
structure Inv (s : Cons) : Prop extends s.Sound where
  plain : (10 : UInt8) ∉ s.abs.line

variable {s : Cons} {c : UInt8}

theorem inv_boot : boot.Inv where
  r_lt := by decide
  w_lt := by decide
  e_lt := by decide
  order := rfl
  fits := by decide
  plain := by
    have h : boot.abs.line = [] := slots_self _ (by decide)
    exact not_mem_nil

theorem pred32_eq {k : ℕ} (hk : k < 2 ^ 32) : pred32 k = (k + 2 ^ 32 - 1) % 2 ^ 32 := by
  unfold pred32
  split_ifs <;> omega

theorem succ_pred32 {k : ℕ} (hk : k < 2 ^ 32) : (pred32 k + 1) % 2 ^ 32 = k := by
  rw [pred32_eq hk]
  exact succ_pred_mod hk

theorem pred32_succ {k : ℕ} (hk : k < 2 ^ 32) : pred32 ((k + 1) % 2 ^ 32) = k := by
  rw [pred32_eq (Nat.mod_lt _ (by decide))]
  exact pred_succ_mod hk

theorem gap_pred32 {j k : ℕ} (hj : j < 2 ^ 32) (hk : k < 2 ^ 32) (h : j ≠ k) :
    gap (2 ^ 32) j k = gap (2 ^ 32) j (pred32 k) + 1 := by
  rw [pred32_eq hk]
  exact gap_pred_right hj hk h

theorem dvd_size : INPUT_BUF_SIZE ∣ 2 ^ 32 := ⟨2 ^ 25, by decide⟩

theorem Inv.eraseLast (h : s.Inv) (hne : s.e ≠ s.w) : s.eraseLast.Inv ∧
    gap (2 ^ 32) s.w s.e = gap (2 ^ 32) s.eraseLast.w s.eraseLast.e + 1 ∧
    s.abs.line = s.eraseLast.abs.line ++ [s.buf (slot INPUT_BUF_SIZE (pred32 s.e))] ∧
    s.eraseLast.abs.queue = s.abs.queue := by
  have hsize : INPUT_BUF_SIZE = 128 := rfl
  have hfits := h.fits
  have horder := h.order
  have hw := gap_pred32 h.w_lt h.e_lt (Ne.symm hne)
  have hre : s.r ≠ s.e := by
    intro he
    rw [he, gap_self h.e_lt] at horder
    omega
  have hr := gap_pred32 h.r_lt h.e_lt hre
  have hlt : pred32 s.e < 2 ^ 32 := pred32_eq h.e_lt ▸ Nat.mod_lt _ (by decide)
  have hline : s.abs.line = s.eraseLast.abs.line ++ [s.buf (slot INPUT_BUF_SIZE (pred32 s.e))] := by
    have hadv := slots_advance dvd_size h.w_lt hlt (by omega) s.buf
    rw [succ_pred32 h.e_lt] at hadv
    exact hadv
  refine ⟨⟨⟨h.r_lt, h.w_lt, hlt, ?_, ?_⟩, fun hmem => ?_⟩, hw, hline, rfl⟩
  · dsimp only [Cons.eraseLast]
    omega
  · dsimp only [Cons.eraseLast]
    omega
  · exact h.plain (hline ▸ mem_append_left _ hmem)

theorem Inv.killLoop {k : ℕ} (h : s.Inv) (hk : gap (2 ^ 32) s.w s.e = k) :
    (s.killLoop k).Inv ∧ (s.killLoop k).abs = ⟨[], s.abs.queue⟩ := by
  induction k generalizing s with
  | zero =>
    have he := (gap_eq_zero h.w_lt h.e_lt).1 hk
    refine ⟨h, ?_⟩
    simp only [Cons.killLoop, abs, he, slots_self _ h.e_lt]
  | succ k ih =>
    have hne : s.e ≠ s.w := by
      intro he
      rw [he, gap_self h.w_lt] at hk
      omega
    obtain ⟨hinv, hgap, hline, hqueue⟩ := h.eraseLast hne
    have hlast : s.buf (slot INPUT_BUF_SIZE (pred32 s.e)) ≠ 10 := by
      intro he
      exact h.plain (hline ▸ he ▸ mem_append_right _ (mem_singleton_self _))
    rw [Cons.killLoop, if_pos ⟨hne, hlast⟩, ← hqueue]
    exact ih hinv (by omega)

theorem Inv.store (h : s.Inv) (hroom : gap (2 ^ 32) s.r s.e < INPUT_BUF_SIZE) :
    (s.store c).Sound ∧ (s.store c).abs = ⟨s.abs.line ++ [c], s.abs.queue⟩ := by
  have hsize : INPUT_BUF_SIZE = 128 := rfl
  have horder := h.order
  have hw := gap_succ_right h.w_lt h.e_lt (by omega)
  have hr := gap_succ_right h.r_lt h.e_lt (by omega)
  refine ⟨⟨h.r_lt, h.w_lt, Nat.mod_lt _ (by decide), ?_, ?_⟩, ?_⟩
  · simp only [Cons.store]
    omega
  · simp only [Cons.store]
    omega
  · simp only [Cons.store, abs]
    rw [slots_push dvd_size h.w_lt h.e_lt (by omega) (by decide),
      slots_store_ahead dvd_size h.r_lt h.e_lt (by omega) hroom]

theorem Sound.commit (h : s.Sound) : ({ s with w := s.e } : Cons).Inv ∧
    ({ s with w := s.e } : Cons).abs = ⟨[], s.abs.queue ++ s.abs.line⟩ := by
  have hline : ({ s with w := s.e } : Cons).abs = ⟨[], s.abs.queue ++ s.abs.line⟩ := by
    simp only [abs]
    rw [slots_self _ h.e_lt, slots_append dvd_size h.r_lt h.w_lt h.order]
  refine ⟨⟨⟨h.r_lt, h.e_lt, h.e_lt, ?_, h.fits⟩, ?_⟩, hline⟩
  · rw [gap_self h.e_lt, Nat.add_zero]
  · rw [hline]
    exact not_mem_nil

theorem Sound.length (h : s.Sound) :
    s.abs.queue.length + s.abs.line.length = gap (2 ^ 32) s.r s.e := by
  simp only [abs, length_slots]
  exact h.order

/-- **Typing**: the interrupt handler does to the ring what `key` does to the queue. -/
theorem abs_consoleintr (h : s.Inv) (c : UInt8) :
    (s.consoleintr c).Inv ∧ (s.consoleintr c).abs = s.abs.key c := by
  unfold consoleintr Edited.key
  by_cases hp : c = 16
  · rw [if_pos hp, if_pos hp]
    exact ⟨h, rfl⟩
  rw [if_neg hp, if_neg hp]
  by_cases hu : c = 21
  · rw [if_pos hu, if_pos hu]
    exact h.killLoop rfl
  rw [if_neg hu, if_neg hu]
  by_cases hb : c = 8 ∨ c = 127
  · rw [if_pos hb, if_pos hb]
    by_cases he : s.e ≠ s.w
    · obtain ⟨hinv, -, hline, hqueue⟩ := h.eraseLast he
      rw [if_pos he]
      refine ⟨hinv, ?_⟩
      rw [hline, dropLast_concat, ← hqueue]
    · have hempty : s.abs.line = [] := by
        simp only [abs, not_not.1 he, slots_self _ h.w_lt]
      rw [if_neg he]
      exact ⟨h, by rw [hempty]; exact congrArg (Edited.mk · s.abs.queue) hempty⟩
  rw [if_neg hb, if_neg hb, h.length]
  by_cases hroom : c ≠ 0 ∧ gap (2 ^ 32) s.r s.e < INPUT_BUF_SIZE
  · generalize (if c = 13 then (10 : UInt8) else c) = d
    obtain ⟨hsound, habs⟩ := h.store hroom.2
    have hlen := hsound.length
    rw [habs] at hlen
    dsimp only at hlen ⊢
    rw [hlen]
    split_ifs with hcommit
    · obtain ⟨hinv, hc⟩ := hsound.commit
      exact ⟨hinv, by rw [hc, habs]⟩
    · refine ⟨⟨hsound, ?_⟩, habs⟩
      rw [habs]
      intro hmem
      rcases mem_append.1 hmem with hmem | hmem
      · exact h.plain hmem
      · exact hcommit (.inl (mem_singleton.1 hmem).symm)
  · rw [if_neg hroom, if_neg hroom]
    exact ⟨h, rfl⟩

theorem Inv.advance (h : s.Inv) (hne : s.r ≠ s.w) :
    ({ s with r := (s.r + 1) % 2 ^ 32 } : Cons).Inv ∧
    ({ s with r := (s.r + 1) % 2 ^ 32 } : Cons).abs.line = s.abs.line ∧
    s.abs.queue = s.buf (slot INPUT_BUF_SIZE s.r) ::
      ({ s with r := (s.r + 1) % 2 ^ 32 } : Cons).abs.queue := by
  have horder := h.order
  have hfits := h.fits
  have hw := gap_succ_left h.r_lt h.w_lt hne
  have hre : s.r ≠ s.e := by
    intro he
    rw [← he, gap_self h.r_lt] at horder
    omega
  have he := gap_succ_left h.r_lt h.e_lt hre
  have hsound : ({ s with r := (s.r + 1) % 2 ^ 32 } : Cons).Sound := by
    constructor <;> dsimp only
    · exact Nat.mod_lt _ (by decide)
    · exact h.w_lt
    · exact h.e_lt
    · omega
    · omega
  exact ⟨⟨hsound, h.plain⟩, rfl, slots_pop dvd_size h.r_lt h.w_lt hne s.buf⟩

/-- **Reading**: `consoleread` takes from the ring what `take` takes from the queue. -/
theorem abs_readLoop (h : s.Inv) (x : ReadEnv) (target n : ℕ) :
    (s.readLoop x target n).2.Inv ∧ (s.readLoop x target n).2.abs.line = s.abs.line ∧
      Edited.take x target n s.abs.queue =
        ((s.readLoop x target n).1, (s.readLoop x target n).2.abs.queue) := by
  induction n generalizing s with
  | zero => exact ⟨h, rfl, rfl⟩
  | succ n ih =>
    unfold Cons.readLoop
    by_cases hrw : s.r = s.w
    · have hempty : s.abs.queue = [] := by simp only [abs, hrw, slots_self _ h.w_lt]
      rw [if_pos hrw]
      refine ⟨h, rfl, ?_⟩
      rw [hempty]
      rfl
    · obtain ⟨hinv, hline, hqueue⟩ := h.advance hrw
      rw [if_neg hrw, hqueue]
      generalize s.buf (slot INPUT_BUF_SIZE s.r) = c at hqueue ⊢
      unfold Edited.take
      by_cases h4 : c = 4
      · rw [if_pos h4, if_pos h4]
        by_cases hlt : n + 1 < target
        · -- control-D stays where it is
          rw [if_pos hlt, if_pos hlt, pred32_succ h.r_lt]
          exact ⟨h, rfl, by rw [← hqueue]⟩
        · rw [if_neg hlt, if_neg hlt]
          exact ⟨hinv, hline, rfl⟩
      · rw [if_neg h4, if_neg h4]
        by_cases hcopy : x.copyout (n + 1) = false
        · rw [if_pos hcopy, if_pos hcopy]
          exact ⟨hinv, hline, rfl⟩
        · rw [if_neg hcopy, if_neg hcopy]
          by_cases h10 : c = 10
          · rw [if_pos h10, if_pos h10]
            exact ⟨hinv, hline, rfl⟩
          · rw [if_neg h10, if_neg h10]
            obtain ⟨hinv', hline', htake⟩ := ih hinv
            rw [htake]
            exact ⟨hinv', hline'.trans hline, rfl⟩

end Cons

namespace Console

variable {P : Type} [DecidableEq P] {s s' : Console P} {a : ConsAct P} {tr : List (ConsAct P)}

/-- The ring and the queue agree. -/
def Agree (s : Console P) (t : Lines P) : Prop :=
  s.cons.Inv ∧ t.edited = s.cons.abs ∧ t.call = s.call

theorem Agree.section {t : Lines P} {p : P} {k : ReadCall} {o : ReadOut} {c : Cons}
    (h : s.Agree t) (ho : s.cons.readLoop x k.target k.left = (o, c)) :
    Edited.take x k.target k.left t.edited.queue = (o, c.abs.queue) ∧
      Agree ⟨c, update s.call p (o.next k)⟩ (t.after p k o c.abs.queue) := by
  obtain ⟨hinv, habs, hcall⟩ := h
  obtain ⟨hinv', hline, htake⟩ := Cons.abs_readLoop hinv x k.target k.left
  rw [ho] at hinv' hline htake
  rw [← habs] at hline htake
  refine ⟨htake, hinv', ?_, ?_⟩
  · exact congrArg (Edited.mk · c.abs.queue) hline.symm
  · rw [Lines.after_call, hcall]

omit [DecidableEq P] in
theorem Agree.intr {t : Lines P} (h : s.Agree t) (c : UInt8) :
    Agree { s with cons := s.cons.consoleintr c }
      { t with edited := t.edited.key c, committed := t.committed ++ t.edited.commits c } := by
  obtain ⟨hinv, habs, hcall⟩ := h
  obtain ⟨hinv', habs'⟩ := Cons.abs_consoleintr hinv c
  exact ⟨hinv', by dsimp only; rw [habs, habs'], hcall⟩

theorem Agree.step {t : Lines P} (h : s.Agree t) (hst : Step s a s') :
    ∃ t', Lines.Step t a t' ∧ s'.Agree t' := by
  cases hst with
  | @intr c => exact ⟨_, .intr, h.intr c⟩
  | read hp ho =>
    obtain ⟨htake, hagree⟩ := h.section ho
    exact ⟨_, .read (by rw [h.2.2]; exact hp) htake, hagree⟩
  | resume hp ho =>
    obtain ⟨htake, hagree⟩ := h.section ho
    exact ⟨_, .resume (by rw [h.2.2]; exact hp) htake, hagree⟩

omit [DecidableEq P] in
theorem agree_boot : Agree (⟨Cons.boot, fun _ => none⟩ : Console P)
    ⟨⟨[], []⟩, fun _ => none, [], []⟩ := by
  refine ⟨Cons.inv_boot, ?_, rfl⟩
  have h : slots (2 ^ 32) Cons.boot.buf 0 0 = [] := slots_self _ (by decide)
  exact congrArg₂ Edited.mk h.symm h.symm

theorem simulates (h : (console P).Trace tr s) : ∃ t, (Lines.lines P).Trace tr t ∧ s.Agree t := by
  refine h.simulation ?_ fun s t a s' hagree hst => hagree.step hst
  rintro _ rfl
  exact ⟨_, rfl, agree_boot⟩

/-- Calls are made one after the other; their copies succeed and no caller is killed. -/
def Successive (s : Console P) (a : ConsAct P) (_ : Console P) : Prop := Lines.Successive s.call a

theorem simulates_ordered (h : ((console P).restrict Successive).Trace tr s) :
    ∃ t, (Lines.lines P).Trace tr t ∧ s.Agree t ∧ t.Ordered := by
  let spec := (Lines.lines P).restrict fun t a _ => Lines.Successive t.call a
  obtain ⟨t, ht, hagree⟩ : ∃ t, spec.Trace tr t ∧ s.Agree t := by
    refine h.simulation ?_ ?_
    · rintro _ rfl
      exact ⟨_, rfl, agree_boot⟩
    · rintro s t a s' hagree ⟨hsucc, hst⟩
      obtain ⟨t', hst', hagree'⟩ := hagree.step hst
      exact ⟨t', ⟨(hagree.2.2 ▸ hsucc : Lines.Successive t.call a), hst'⟩, hagree'⟩
  refine ⟨t, ht.of_restrict, hagree, ?_⟩
  refine ht.reachable.invariant ?_ fun t a t' hord hst => ?_
  · rintro _ rfl
    exact .inl ⟨fun _ => rfl, .nil⟩
  · exact hord.step hst.1 hst.2

/-- **The console is a queue of edited lines.**  In every run of typing and reading, of any length:
`r <= w <= e <= r + INPUT_BUF_SIZE` as distances of 32-bit counters; what has been committed is not
touched by what is typed later; the run is one of the queue, with the same results; if all copies
succeed, the committed characters are those that have been taken, in order, and then those in the
ring; and if the calls come one after the other, they split the committed characters at newlines,
at their lengths and at control-D. -/
theorem console_lines (h : (console P).Trace tr s) :
    s.cons.Sound ∧
    (∀ c, s.cons.abs.queue <+: (s.cons.consoleintr c).abs.queue) ∧
    (∃ t, (Lines.lines P).Trace tr t ∧ t.edited = s.cons.abs ∧ t.call = s.call ∧
      ((∀ a ∈ tr, a.Copies) →
        t.committed = tr.flatMap ConsAct.consumed ++ s.cons.abs.queue)) ∧
    (((console P).restrict Successive).Trace tr s →
      ∃ t, (Lines.lines P).Trace tr t ∧ t.edited = s.cons.abs ∧ t.call = s.call ∧
        ((∀ p, s.call p = none) → Splits t.committed t.returned s.cons.abs.queue) ∧
        ∀ p k, s.call p = some k → Splits t.committed t.returned (k.got ++ s.cons.abs.queue)) := by
  obtain ⟨t, ht, hinv, habs, hcall⟩ := simulates h
  refine ⟨hinv.toSound, fun c => ?_, ⟨t, ht, habs, hcall, fun hcopy => ?_⟩, fun hsucc => ?_⟩
  · rw [(Cons.abs_consoleintr hinv c).2, Edited.key_queue]
    exact prefix_append _ _
  · rw [← habs]
    exact Lines.committed_eq ht hcopy
  · obtain ⟨t, ht, ⟨-, habs, hcall⟩, hord⟩ := simulates_ordered hsucc
    refine ⟨t, ht, habs, hcall, fun hnone => ?_, fun p k hp => ?_⟩ <;> rw [← habs] <;>
      rw [← hcall] at *
    · rcases hord with ⟨-, hsplits⟩ | ⟨p, k, hp, -⟩
      · exact hsplits
      · rw [hnone p] at hp
        cases hp
    · rcases hord with ⟨hnone, -⟩ | ⟨p', k', hp', hother, hsplits, -⟩
      · rw [hnone p] at hp
        cases hp
      · have hpp : p = p' := by
          by_contra hne
          rw [hother p hne] at hp
          cases hp
        rw [hpp, hp'] at hp
        cases hp
        exact hsplits

/-- A line is typed with one character corrected, and read; then a character and control-D are typed
and read by two calls, the second of which returns 0. -/
theorem console_lines_typed : ∃ s : Console Unit, ∃ t : Lines Unit,
    (console Unit).Trace [.intr 98, .intr 8, .intr 97, .intr 13,
      .read () 5 ⟨false, fun _ => true⟩ ⟨[97, 10], false, some 2⟩, .intr 99, .intr 4,
      .read () 5 ⟨false, fun _ => true⟩ ⟨[99], false, some 1⟩,
      .read () 5 ⟨false, fun _ => true⟩ ⟨[], true, some 0⟩] s ∧
    s.cons.Sound ∧ t.edited = s.cons.abs ∧ Splits t.committed t.returned [] := by
  have hintr : ∀ {s s' : Console Unit} {c : UInt8}, Successive s (.intr c) s' :=
    ⟨trivial, trivial, fun _ _ _ _ h => by cases h⟩
  have hread : ∀ {s s' : Console Unit} {o : ReadOut}, s.call () = none →
      Successive s (.read () 5 ⟨false, fun _ => true⟩ o) s' :=
    fun h => ⟨fun _ => rfl, rfl, fun _ _ _ _ _ _ => h⟩
  have h0 : ((console Unit).restrict Successive).Trace [] ⟨Cons.boot, fun _ => none⟩ := .start rfl
  have h1 := (((h0.next ⟨hintr, .intr (c := 98)⟩).next ⟨hintr, .intr (c := 8)⟩).next
    ⟨hintr, .intr (c := 97)⟩).next ⟨hintr, .intr (c := 13)⟩
  have h2 := h1.next ⟨hread rfl, .read (p := ()) (n := 5) (x := ⟨false, fun _ => true⟩) rfl rfl⟩
  have h3 := (h2.next ⟨hintr, .intr (c := 99)⟩).next ⟨hintr, .intr (c := 4)⟩
  have h4 := h3.next ⟨hread rfl, .read (p := ()) (n := 5) (x := ⟨false, fun _ => true⟩) rfl rfl⟩
  have h5 := h4.next ⟨hread rfl, .read (p := ()) (n := 5) (x := ⟨false, fun _ => true⟩) rfl rfl⟩
  obtain ⟨hsound, -, -, hsplits⟩ := console_lines h5.of_restrict
  obtain ⟨t, -, habs, -, hdone, -⟩ := hsplits h5
  exact ⟨_, t, h5.of_restrict, hsound, habs, hdone fun _ => rfl⟩

/-! ### A reader that is killed -/

/-- Calls are made one after the other and their copies succeed; the callers may be killed. -/
def OneByOne (s : Console P) (a : ConsAct P) (_ : Console P) : Prop :=
  a.Copies ∧ ∀ p n x o, a = .read p n x o → ∀ q, s.call q = none

/-- The console and the queue make the same steps, and calls return nothing but -1. -/
def losing : Machine (Console Unit × Lines Unit) (ConsAct Unit) where
  init s := s = (⟨Cons.boot, fun _ => none⟩, ⟨⟨[], []⟩, fun _ => none, [], []⟩)
  step s a s' := (OneByOne s.1 a s'.1 ∧ Step s.1 a s'.1) ∧ Lines.Step s.2 a s'.2 ∧
    (a.ret = none ∨ a.ret = some (-1))

/-- A move: a key, a call of `consoleread`, or a reader that goes on because it has been killed. -/
inductive Move where
  | key (c : UInt8)
  | read (n : ℤ) (o : ReadOut)
  | killed (o : ReadOut)

/-- The state after a move, if it can be made. -/
def next (s : Console Unit × Lines Unit) :
    Move → Option {s' : Console Unit × Lines Unit // ∃ a, losing.step s a s'}
  | .key c => some ⟨(_, _), .intr c, ⟨⟨trivial, by simp⟩, .intr⟩, .intr, .inl rfl⟩
  | .read n o =>
    match hs : s.1.call (), ht : s.2.call () with
    | none, none =>
      let x : ReadEnv := ⟨false, fun _ => true⟩
      let k := ReadCall.start n
      if ho : (s.1.cons.readLoop x k.target k.left).1 = o ∧
          (Edited.take x k.target k.left s.2.edited.queue).1 = o ∧ o.ret = none then
        some ⟨(_, _), .read () n x o,
          ⟨⟨fun _ => rfl, fun _ _ _ _ _ _ => hs⟩, .read hs (Prod.ext ho.1 rfl)⟩,
          .read ht (Prod.ext ho.2.1 rfl), .inl ho.2.2⟩
      else none
    | _, _ => none
  | .killed o =>
    match hs : s.1.call (), ht : s.2.call () with
    | some k, some k' =>
      let x : ReadEnv := ⟨true, fun _ => true⟩
      if ho : (s.1.cons.readLoop x k.target k.left).1 = o ∧
          (Edited.take x k'.target k'.left s.2.edited.queue).1 = o ∧ o.ret = some (-1) then
        some ⟨(_, _), .resume () x o, ⟨⟨fun _ => rfl, by simp⟩, .resume hs (Prod.ext ho.1 rfl)⟩,
          .resume ht (Prod.ext ho.2.1 rfl), .inr ho.2.2⟩
      else none
    | _, _ => none

/-- The ring is filled without a newline; a call takes all of it, sleeps, is killed and returns. -/
def fillRead : List Move :=
  .flatten [.replicate INPUT_BUF_SIZE (.key 97),
    [.read 200 ⟨replicate INPUT_BUF_SIZE 97, false, none⟩, .killed ⟨[], false, some (-1)⟩]]

/-- **A reader that is killed takes characters with it.**  All copies have succeeded and no other
call has been made, but the committed characters have been returned by no call. -/
theorem killed_reader_loses : ∃ (tr : List (ConsAct Unit)) (s : Console Unit) (t : Lines Unit),
    ((console Unit).restrict OneByOne).Trace tr s ∧ (Lines.lines Unit).Trace tr t ∧
      t.edited = s.cons.abs ∧ t.call = s.call ∧ (∀ p, s.call p = none) ∧
      t.committed = replicate INPUT_BUF_SIZE 97 ∧ s.cons.abs.queue = [] ∧
      (∀ a ∈ tr, a.ret = none ∨ a.ret = some (-1)) ∧
      ¬Splits t.committed t.returned s.cons.abs.queue := by
  have hboot : losing.Reachable (⟨Cons.boot, fun _ => none⟩, ⟨⟨[], []⟩, fun _ => none, [], []⟩) :=
    .start rfl
  obtain ⟨⟨s, t⟩, ⟨tr, htr⟩, hs, ht, habs, hedited, hcom, hret⟩ := hboot.play next fillRead
    (P := fun s => (s.1.call ()).isNone ∧ (s.2.call ()).isNone ∧ s.1.cons.abs = ⟨[], []⟩ ∧
      s.2.edited = ⟨[], []⟩ ∧ s.2.committed = replicate INPUT_BUF_SIZE 97 ∧
      s.2.returned = [(200, replicate INPUT_BUF_SIZE 97)]) (by decide +kernel)
  obtain ⟨hs', ht', hrets⟩ : ((console Unit).restrict OneByOne).Trace tr s ∧
      (Lines.lines Unit).Trace tr t ∧ ∀ a ∈ tr, a.ret = none ∨ a.ret = some (-1) := by
    refine htr.invariant (I := fun tr s => ((console Unit).restrict OneByOne).Trace tr s.1 ∧
      (Lines.lines Unit).Trace tr s.2 ∧ ∀ a ∈ tr, a.ret = none ∨ a.ret = some (-1)) ?_ ?_
    · rintro _ rfl
      exact ⟨.start rfl, .start rfl, by simp⟩
    · rintro tr s a s' - ⟨h1, h2, h3⟩ ⟨hst, hst', hret⟩
      refine ⟨h1.next hst, h2.next hst', fun b hb => ?_⟩
      rcases mem_append.1 hb with hb | hb
      · exact h3 b hb
      · rwa [mem_singleton.1 hb]
  have hnone : ∀ p, s.call p = none := fun _ => Option.isNone_iff_eq_none.1 hs
  refine ⟨tr, s, t, hs', ht', hedited.trans habs.symm, funext fun p => ?_, hnone, hcom,
    by rw [habs], hrets, fun hsplits => ?_⟩
  · rw [hnone]
    exact Option.isNone_iff_eq_none.1 ht
  · have hone : splitOne true 200 (replicate INPUT_BUF_SIZE 97) = none := by decide +kernel
    rw [hcom, hret] at hsplits
    cases hsplits with
    | call h _ => cases hone.symm.trans h

end Console

end Cinux
