import Mathlib.Data.List.Basic
import Mathlib.Data.List.Nodup
import Mathlib.Logic.Function.Iterate

/-!
# Doubly linked rings

A doubly linked list closed into a ring through a head node, as pointer code keeps it: two
arrays of links that are updated in place (`Links.unlink`, `Links.pushFront`), and loops that
follow one of the two until they are back at the head (`scan`).

`IsRing k h l` says that following `next` from the head `h` visits exactly `l`, in order, and
returns to `h`, and that `prev` goes the same way back.  The pointer updates act on `l` as
expected (`IsRing.unlink`, `IsRing.pushFront`) and the loops are searches in `l`
(`IsRing.scan_next`, `IsRing.scan_prev`).
-/

namespace Cinux

open Function

open List

/-- The two link fields of every node. -/
structure Links (α : Type*) where
  next : α → α
  prev : α → α

namespace Links

variable {α : Type*}

/-- The same ring run backwards. -/
def flip (k : Links α) : Links α := ⟨k.prev, k.next⟩

section Update

variable [DecidableEq α]

/-- `a->next = v`. -/
def setNext (k : Links α) (a v : α) : Links α := { k with next := update k.next a v }

/-- `a->prev = v`. -/
def setPrev (k : Links α) (a v : α) : Links α := { k with prev := update k.prev a v }

/-- Take `b` out of the ring: `b->next->prev = b->prev; b->prev->next = b->next`. -/
def unlink (k : Links α) (b : α) : Links α :=
  let k := k.setPrev (k.next b) (k.prev b)
  k.setNext (k.prev b) (k.next b)

/-- Put `b` right after the head `h`: `b->next = h->next; b->prev = h; h->next->prev = b;
h->next = b`. -/
def pushFront (k : Links α) (h b : α) : Links α :=
  let k := k.setNext b (k.next h)
  let k := k.setPrev b h
  let k := k.setPrev (k.next h) b
  k.setNext h b

/-- The loop that starts at `b`, follows `nx` and stops at the first node satisfying `p`, or
at the head `h`.  The fuel is the number of nodes it may look at. -/
def scan (nx : α → α) (h : α) (p : α → Bool) : ℕ → α → Option α
  | 0, _ => none
  | n + 1, b => if b = h then none else if p b then some b else scan nx h p n (nx b)

end Update

/-- From `a`, `next` leads through `l` to `b`, and `prev` leads back. -/
def Seg (k : Links α) : α → List α → α → Prop
  | a, [], b => k.next a = b ∧ k.prev b = a
  | a, x :: l, b => (k.next a = x ∧ k.prev x = a) ∧ Seg k x l b

/-- From the head `h`, `next` leads through `l` back to `h`, and `prev` goes the other way. -/
def IsRing (k : Links α) (h : α) (l : List α) : Prop := (h :: l).Nodup ∧ k.Seg h l h

variable {k k' : Links α} {a b c h : α} {l l1 l2 : List α}

/-! ### Segments -/

theorem seg_append {x : α} : k.Seg a (l1 ++ x :: l2) b ↔ k.Seg a l1 x ∧ k.Seg x l2 b := by
  induction l1 generalizing a with
  | nil => rfl
  | cons y l1 ih =>
    change _ ∧ k.Seg y (l1 ++ x :: l2) b ↔ (_ ∧ k.Seg y l1 x) ∧ _
    rw [ih, ← and_assoc]

/-- A segment depends only on the `next` links it starts from and the `prev` links it ends in. -/
theorem Seg.congr (hs : k.Seg a l b) (hn : ∀ x ∈ a :: l, k'.next x = k.next x)
    (hp : ∀ x ∈ l ++ [b], k'.prev x = k.prev x) : k'.Seg a l b := by
  induction l generalizing a with
  | nil =>
    exact ⟨(hn a mem_cons_self).trans hs.1, (hp b (by simp)).trans hs.2⟩
  | cons x l ih =>
    obtain ⟨⟨h1, h2⟩, h3⟩ := hs
    refine ⟨⟨(hn a mem_cons_self).trans h1, (hp x (by simp)).trans h2⟩, ?_⟩
    exact ih h3 (fun y hy => hn y (mem_cons_of_mem _ hy))
      fun y hy => hp y (mem_cons_of_mem _ hy)

theorem Seg.next_mem (hs : k.Seg a l b) : k.next a ∈ l ++ [b] := by
  cases l with
  | nil => simp [hs.1]
  | cons x l => simp [hs.1.1]

theorem seg_concat {x : α} :
    k.Seg a (l ++ [x]) b ↔ k.Seg a l x ∧ k.next x = b ∧ k.prev b = x :=
  seg_append

theorem seg_flip : k.flip.Seg b l.reverse a ↔ k.Seg a l b := by
  induction l generalizing a with
  | nil => exact And.comm
  | cons x l ih =>
    rw [reverse_cons, seg_concat, ih, And.comm]
    exact and_congr_left fun _ => And.comm

theorem Seg.prev_mem (hs : k.Seg a l b) : k.prev b ∈ a :: l := by
  have := (seg_flip.2 hs).next_mem
  simpa [flip, or_comm] using this

theorem Seg.iterate_next (hs : k.Seg a l b) :
    (∀ i (hi : i < l.length), k.next^[i + 1] a = l[i]) ∧ k.next^[l.length + 1] a = b := by
  induction l generalizing a with
  | nil => exact ⟨fun i hi => absurd hi (Nat.not_lt_zero i), hs.1⟩
  | cons x l ih =>
    obtain ⟨⟨h1, -⟩, h3⟩ := hs
    obtain ⟨hi, hl⟩ := ih h3
    refine ⟨fun i hil => ?_, ?_⟩
    · cases i with
      | zero => simpa using h1
      | succ i =>
        rw [Function.iterate_succ_apply, h1, hi i (by simpa using hil)]
        rfl
    · rw [length_cons, Function.iterate_succ_apply, h1, hl]

theorem Seg.prev_next (hs : k.Seg a l b) : ∀ x ∈ a :: l, k.prev (k.next x) = x := by
  induction l generalizing a with
  | nil => intro x hx; rw [mem_singleton.1 hx, hs.1, hs.2]
  | cons y l ih =>
    intro x hx
    rcases mem_cons.1 hx with rfl | hx
    · rw [hs.1.1, hs.1.2]
    · exact ih hs.2 x hx

theorem Seg.next_prev (hs : k.Seg a l b) : ∀ x ∈ b :: l, k.next (k.prev x) = x := by
  intro x hx
  exact (seg_flip.2 hs).prev_next x (by simpa using hx)

/-! ### Rings -/

theorem IsRing.flip (hr : k.IsRing h l) : k.flip.IsRing h l.reverse := by
  refine ⟨?_, seg_flip.2 hr.2⟩
  rw [nodup_cons, nodup_reverse, mem_reverse]
  exact nodup_cons.1 hr.1

/-- In a ring that covers every node, the two links are inverse to each other. -/
theorem IsRing.inverse (hr : k.IsRing h l) (hall : ∀ x, x ∈ h :: l) (x : α) :
    k.prev (k.next x) = x ∧ k.next (k.prev x) = x :=
  ⟨hr.2.prev_next x (hall x), hr.2.next_prev x (hall x)⟩

theorem IsRing.iterate (hr : k.IsRing h l) :
    (ofFn fun i : Fin l.length => k.next^[i.val + 1] h) = l ∧ k.next^[l.length + 1] h = h := by
  obtain ⟨hi, hl⟩ := hr.2.iterate_next
  refine ⟨?_, hl⟩
  apply ext_getElem (by simp)
  intro i h1 h2
  rw [List.getElem_ofFn, hi i h2]

section Decidable

variable [DecidableEq α]

theorem setNext_next (k : Links α) (a v x : α) :
    (k.setNext a v).next x = if x = a then v else k.next x := by
  simp [setNext, update_apply]

theorem setPrev_prev (k : Links α) (a v x : α) :
    (k.setPrev a v).prev x = if x = a then v else k.prev x := by
  simp [setPrev, update_apply]

@[simp] theorem setNext_prev (k : Links α) (a v : α) : (k.setNext a v).prev = k.prev := rfl

@[simp] theorem setPrev_next (k : Links α) (a v : α) : (k.setPrev a v).next = k.next := rfl

theorem pushFront_next (k : Links α) (h b x : α) :
    (k.pushFront h b).next x = if x = h then b else if x = b then k.next h else k.next x := by
  simp [pushFront, setNext_next]

theorem pushFront_prev (k : Links α) (h b x : α) (hb : b ≠ h) :
    (k.pushFront h b).prev x = if x = k.next h then b else if x = b then h else k.prev x := by
  simp [pushFront, setPrev_prev, setNext_next, hb.symm]

/-- Outside a ring, `unlink` reads both links of `b` before it writes them. -/
theorem unlink_eq (k : Links α) (hb : k.next b ≠ b) :
    k.unlink b = (k.setPrev (k.next b) (k.prev b)).setNext (k.prev b) (k.next b) := by
  simp [unlink, setPrev_prev, hb.symm]

/-- **Putting a new node behind the head.** -/
theorem IsRing.pushFront (hr : k.IsRing h l) (hb : b ∉ h :: l) :
    (k.pushFront h b).IsRing h (b :: l) := by
  obtain ⟨hnd, hs⟩ := hr
  obtain ⟨hbh, hbl⟩ := not_or.1 (mem_cons.not.1 hb)
  obtain ⟨hhl, hl⟩ := nodup_cons.1 hnd
  have hbn : b ≠ k.next h := by
    rintro rfl
    have := hs.next_mem
    simp only [mem_append, mem_singleton] at this
    exact this.elim hbl hbh
  refine ⟨?_, ?_⟩
  · simp only [nodup_cons, mem_cons, not_or]
    exact ⟨⟨Ne.symm hbh, hhl⟩, hbl, hl⟩
  refine ⟨⟨?_, ?_⟩, ?_⟩
  · rw [pushFront_next, if_pos rfl]
  · rw [pushFront_prev _ _ _ _ hbh, if_neg hbn, if_pos rfl]
  · -- behind `b` the old ring goes on, with `b` in the place of the head
    cases l with
    | nil =>
      refine ⟨?_, ?_⟩
      · rw [pushFront_next, if_neg hbh, if_pos rfl]; exact hs.1
      · rw [pushFront_prev _ _ _ _ hbh, if_pos hs.1.symm]
    | cons x l =>
      obtain ⟨⟨h1, h2⟩, h3⟩ := hs
      refine ⟨⟨?_, ?_⟩, h3.congr (fun y hy => ?_) (fun y hy => ?_)⟩
      · rw [pushFront_next, if_neg hbh, if_pos rfl]; exact h1
      · rw [pushFront_prev _ _ _ _ hbh, if_pos h1.symm]
      · have hyh : y ≠ h := fun e => hhl (e ▸ hy)
        have hyb : y ≠ b := fun e => hbl (e ▸ hy)
        rw [pushFront_next, if_neg hyh, if_neg hyb]
      · have hyx : y ≠ k.next h := by
          rw [h1]
          rintro rfl
          simp only [mem_append, mem_singleton] at hy
          rcases hy with hy | rfl
          · exact (nodup_cons.1 hl).1 hy
          · exact hhl mem_cons_self
        have hyb : y ≠ b := by
          rintro rfl
          simp only [mem_append, mem_singleton] at hy
          rcases hy with hy | hy
          · exact hbl (mem_cons_of_mem _ hy)
          · exact hbh hy
        rw [pushFront_prev _ _ _ _ hbh, if_neg hyx, if_neg hyb]

/-- Taking `b` out of a segment joins its two halves. -/
theorem Seg.unlink (h1 : k.Seg a l1 b) (h2 : k.Seg b l2 c) (hsrc : (a :: l1 ++ b :: l2).Nodup)
    (htgt : (l1 ++ b :: l2 ++ [c]).Nodup) : (k.unlink b).Seg a (l1 ++ l2) c := by
  have hbne : k.next b ≠ b := by
    intro e
    have hm := h2.next_mem
    rw [e] at hm
    rw [append_assoc, nodup_append] at htgt
    exact (nodup_cons.1 htgt.2.1).1 hm
  rw [unlink_eq _ hbne]
  induction l1 generalizing a with
  | nil =>
    obtain ⟨h3, h4⟩ := h1
    simp only [nil_append] at htgt ⊢
    cases l2 with
    | nil => exact ⟨by simp [setNext_next, h4, h2.1], by simp [setPrev_prev, h4, h2.1]⟩
    | cons x l2 =>
      obtain ⟨⟨h5, -⟩, h6⟩ := h2
      refine ⟨⟨by simp [setNext_next, h4, h5], by simp [setPrev_prev, h4, h5]⟩,
        h6.congr (fun y hy => ?_) (fun y hy => ?_)⟩
      · have hya : y ≠ a := by
          rintro rfl
          exact (nodup_cons.1 hsrc).1 (mem_cons_of_mem _ hy)
        simp [setNext_next, h4, hya]
      · have hyx : y ≠ x := by
          rintro rfl
          exact (nodup_cons.1 (nodup_cons.1 htgt).2).1 hy
        simp [setPrev_prev, h5, hyx]
  | cons x l1 ih =>
    obtain ⟨⟨h3, h4⟩, h5⟩ := h1
    have hsrc' := nodup_cons.1 hsrc
    have htgt' := nodup_cons.1 htgt
    refine ⟨⟨?_, ?_⟩, ih h5 hsrc'.2 htgt'.2⟩
    · have hne : a ≠ k.prev b := by
        rintro rfl
        exact hsrc'.1 (mem_append_left _ h5.prev_mem)
      simp [setNext_next, hne, h3]
    · have hne : x ≠ k.next b := by
        rintro rfl
        refine htgt'.1 ?_
        have hm := h2.next_mem
        simp only [append_eq, mem_append, mem_cons] at hm ⊢
        tauto
      simp [setPrev_prev, hne, h4]

/-- **Taking a node out of the ring.** -/
theorem IsRing.unlink (hr : k.IsRing h (l1 ++ b :: l2)) : (k.unlink b).IsRing h (l1 ++ l2) := by
  obtain ⟨hnd, hs⟩ := hr
  obtain ⟨h1, h2⟩ := seg_append.1 hs
  refine ⟨?_, h1.unlink h2 hnd ?_⟩
  · rw [nodup_cons] at hnd ⊢
    refine ⟨fun hm => hnd.1 ?_, (nodup_middle.1 hnd.2).of_cons⟩
    simp only [mem_append, mem_cons] at hm ⊢
    tauto
  · rw [nodup_append]
    rw [nodup_cons] at hnd
    refine ⟨hnd.2, by simp, ?_⟩
    rintro x hx y hy rfl
    rw [mem_singleton] at hy
    exact hnd.1 (hy ▸ hx)

/-! ### Loops over the ring -/

theorem Seg.scan (hs : k.Seg a l h) (hh : h ∉ l) (p : α → Bool) {n : ℕ} (hn : l.length < n) :
    Links.scan k.next h p n (k.next a) = l.find? p := by
  induction l generalizing a n with
  | nil =>
    obtain ⟨m, rfl⟩ := Nat.exists_eq_succ_of_ne_zero (Nat.ne_of_gt hn)
    simp [Links.scan, hs.1]
  | cons x l ih =>
    obtain ⟨m, rfl⟩ := Nat.exists_eq_succ_of_ne_zero (Nat.ne_of_gt (Nat.zero_lt_of_lt hn))
    obtain ⟨hxh, hhl⟩ := not_or.1 (mem_cons.not.1 hh)
    simp only [Links.scan, hs.1.1, if_neg (Ne.symm hxh), List.find?_cons]
    cases p x
    · simpa using ih hs.2 hhl (by simpa using hn)
    · simp

/-- **The forward loop** finds the first node of the ring that satisfies the test. -/
theorem IsRing.scan_next (hr : k.IsRing h l) (p : α → Bool) {n : ℕ} (hn : l.length < n) :
    Links.scan k.next h p n (k.next h) = l.find? p :=
  hr.2.scan (nodup_cons.1 hr.1).1 p hn

/-- **The backward loop** finds the last one. -/
theorem IsRing.scan_prev (hr : k.IsRing h l) (p : α → Bool) {n : ℕ} (hn : l.length < n) :
    Links.scan k.prev h p n (k.prev h) = l.reverse.find? p :=
  hr.flip.scan_next p (by simpa using hn)

end Decidable

end Links

end Cinux
