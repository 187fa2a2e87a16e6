import Mathlib.Data.List.GetD
import Mathlib.Algebra.BigOperators.Group.List.Basic
import Mathlib.Algebra.Order.Ring.Nat
import Mathlib.Tactic.Ring

/-!
# Blocks on a stack

A stack grows down: to push a block the stack pointer goes down by its length and then to a multiple
of the alignment `a`, and the block is stored there.

* `Stack.places` : where the blocks go, and `Stack.pointer`, the stack pointer after them;
* `Stack.fill` : the memory after them;
* `Stack.disjoint_places`, `Stack.mem_places` : the blocks are apart and between the two pointers;
* `Stack.fill_places` : so each of them is in memory in the end;
* `Stack.le_pointer_iff` : they fit if the sum of their rounded lengths does.
-/

namespace Cinux

namespace Stack

variable {β : Type*} {a sp base n x y : ℕ} {b : List β} {bs cs : List (List β)} {f g : ℕ → β}

/-- The place of a block of `n` elements. -/
def push (a sp n : ℕ) : ℕ := sp - n - (sp - n) % a

/-- The stack pointer after the blocks. -/
def pointer (a : ℕ) : ℕ → List (List β) → ℕ
  | sp, [] => sp
  | sp, b :: bs => pointer a (push a sp b.length) bs

/-- The places of the blocks. -/
def places (a : ℕ) : ℕ → List (List β) → List ℕ
  | _, [] => []
  | sp, b :: bs => push a sp b.length :: places a (push a sp b.length) bs

/-- The memory after a block is stored at `x`. -/
def store (f : ℕ → β) (x : ℕ) (b : List β) (i : ℕ) : β :=
  if x ≤ i then b.getD (i - x) (f i) else f i

/-- The memory after the blocks are stored. -/
def fill (a : ℕ) : (ℕ → β) → ℕ → List (List β) → ℕ → β
  | f, _, [] => f
  | f, sp, b :: bs => fill a (store f (push a sp b.length) b) (push a sp b.length) bs

theorem push_le (a sp n : ℕ) : push a sp n ≤ sp := by
  unfold push
  omega

theorem push_add_le (h : 0 < push a sp n) : push a sp n + n ≤ sp := by
  unfold push at *
  omega

theorem push_mod (a sp n : ℕ) : push a sp n % a = 0 := by
  unfold push
  exact Nat.sub_mod_eq_zero_of_mod_eq (Nat.mod_mod _ _).symm

theorem pointer_le (a sp : ℕ) (bs : List (List β)) : pointer a sp bs ≤ sp := by
  induction bs generalizing sp with
  | nil => exact le_rfl
  | cons b bs ih => exact (ih _).trans (push_le a sp b.length)

theorem pointer_append (a sp : ℕ) (bs cs : List (List β)) :
    pointer a sp (bs ++ cs) = pointer a (pointer a sp bs) cs := by
  induction bs generalizing sp with
  | nil => rfl
  | cons b bs ih => exact ih _

theorem places_append (a sp : ℕ) (bs cs : List (List β)) :
    places a sp (bs ++ cs) = places a sp bs ++ places a (pointer a sp bs) cs := by
  induction bs generalizing sp with
  | nil => rfl
  | cons b bs ih => exact congrArg (_ :: ·) (ih _)

theorem fill_append (a : ℕ) (f : ℕ → β) (sp : ℕ) (bs cs : List (List β)) :
    fill a f sp (bs ++ cs) = fill a (fill a f sp bs) (pointer a sp bs) cs := by
  induction bs generalizing sp f with
  | nil => rfl
  | cons b bs ih => exact ih _ _

@[simp] theorem length_places (a sp : ℕ) (bs : List (List β)) :
    (places a sp bs).length = bs.length := by
  induction bs generalizing sp with
  | nil => rfl
  | cons b bs ih => exact congrArg (· + 1) (ih _)

theorem le_of_mem_places (h : x ∈ places a sp bs) : x ≤ sp := by
  induction bs generalizing sp with
  | nil => cases h
  | cons b bs ih =>
    rcases List.mem_cons.1 h with rfl | h
    · exact push_le a sp b.length
    · exact (ih h).trans (push_le a sp b.length)

theorem store_congr (h : f n = g n) (x : ℕ) (b : List β) : store f x b n = store g x b n := by
  unfold store
  rw [h]

theorem fill_congr (h : f n = g n) (a sp : ℕ) (bs : List (List β)) :
    fill a f sp bs n = fill a g sp bs n := by
  induction bs generalizing sp f g with
  | nil => exact h
  | cons b bs ih => exact ih (store_congr h _ b) _

theorem store_of_le (h : x + b.length ≤ n) (f : ℕ → β) : store f x b n = f n := by
  unfold store
  split_ifs
  · exact List.getD_eq_default _ _ (by omega)
  · rfl

theorem store_add (h : n < b.length) (f : ℕ → β) (x : ℕ) (d : β) :
    store f x b (x + n) = b.getD n d := by
  rw [store, if_pos (Nat.le_add_right x n), Nat.add_sub_cancel_left, List.getD_eq_getElem _ _ h,
    List.getD_eq_getElem _ _ h]

section Room

variable (hroom : 0 < pointer a sp bs)

include hroom

/-- **The blocks are between the two pointers.** -/
theorem mem_places (h : (x, b) ∈ (places a sp bs).zip bs) :
    pointer a sp bs ≤ x ∧ x + b.length ≤ sp ∧ x % a = 0 := by
  induction bs generalizing sp with
  | nil => cases h
  | cons c bs ih =>
    have hlow : pointer a (push a sp c.length) bs ≤ push a sp c.length := pointer_le _ _ _
    have hpush : push a sp c.length + c.length ≤ sp := push_add_le (lt_of_lt_of_le hroom hlow)
    rcases List.mem_cons.1 h with he | h
    · cases he
      exact ⟨hlow, hpush, push_mod _ _ _⟩
    · obtain ⟨h1, h2, h3⟩ := ih hroom h
      exact ⟨h1, by omega, h3⟩

/-- **They are apart**: each is below those before it. -/
theorem disjoint_places :
    ((places a sp bs).zip bs).Pairwise fun p q => q.1 + q.2.length ≤ p.1 := by
  induction bs generalizing sp with
  | nil => exact List.Pairwise.nil
  | cons b bs ih =>
    have hrest : 0 < pointer a (push a sp b.length) bs := hroom
    refine List.pairwise_cons.2 ⟨fun p hp => ?_, ih hrest⟩
    exact (mem_places hrest hp).2.1

theorem fill_above (h : sp ≤ n) : fill a f sp bs n = f n := by
  induction bs generalizing sp f with
  | nil => rfl
  | cons b bs ih =>
    have hlow : pointer a (push a sp b.length) bs ≤ push a sp b.length := pointer_le _ _ _
    have hpush := push_add_le (lt_of_lt_of_le hroom hlow)
    exact (ih hroom (by omega)).trans (store_of_le (by omega) f)

/-- **Each block is in memory in the end.** -/
theorem fill_places (h : (x, b) ∈ (places a sp bs).zip bs) (hn : n < b.length) (d : β) :
    fill a f sp bs (x + n) = b.getD n d := by
  induction bs generalizing sp f with
  | nil => cases h
  | cons c bs ih =>
    have hrest : 0 < pointer a (push a sp c.length) bs := hroom
    rcases List.mem_cons.1 h with he | h
    · cases he
      exact (fill_above hrest (Nat.le_add_right _ n)).trans (store_add hn f _ d)
    · exact ih hrest h

end Room

/-- A length rounded up to the alignment. -/
def rounded (a n : ℕ) : ℕ := (n + (a - 1)) / a * a

theorem push_eq (ha : 0 < a) (hsp : sp % a = 0) (n : ℕ) : push a sp n = sp - rounded a n := by
  obtain ⟨k, rfl⟩ := Nat.dvd_of_mod_eq_zero hsp
  have hup : n ≤ (n + (a - 1)) / a * a ∧ (n + (a - 1)) / a * a < n + a := by
    have h1 := Nat.div_add_mod' (n + (a - 1)) a
    have h2 := Nat.mod_lt (n + (a - 1)) ha
    omega
  unfold push rounded
  generalize (n + (a - 1)) / a = j at *
  rcases le_or_gt k j with hkj | hkj
  · -- the block does not fit
    have hle : a * k ≤ j * a := by
      rw [Nat.mul_comm]
      exact Nat.mul_le_mul_right a hkj
    have hlt : a * k - n < a := by omega
    rw [Nat.mod_eq_of_lt hlt]
    omega
  · obtain ⟨d, rfl⟩ := Nat.exists_eq_add_of_lt hkj
    have hsplit : a * (j + d + 1) = j * a + a * (d + 1) := by ring
    have hdiff : a * (j + d + 1) - n = j * a - n + a * (d + 1) := by omega
    have hmod : (a * (j + d + 1) - n) % a = j * a - n := by
      rw [hdiff, Nat.add_mul_mod_self_left, Nat.mod_eq_of_lt (by omega)]
    omega

/-- **They fit above `base` if their rounded lengths do.** -/
theorem le_pointer_iff (ha : 0 < a) (hsp : sp % a = 0) (hbase : 0 < base) :
    base ≤ pointer a sp bs ↔ base + (bs.map fun b => rounded a b.length).sum ≤ sp := by
  induction bs generalizing sp with
  | nil => rfl
  | cons b bs ih =>
    rw [pointer, ih (push_mod _ _ _), push_eq ha hsp, List.map_cons, List.sum_cons]
    omega

end Stack

end Cinux
