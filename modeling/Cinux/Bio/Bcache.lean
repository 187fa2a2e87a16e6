import Cinux.Kernel.Block
import Cinux.Ring.Basic
import Mathlib.Data.Fintype.Basic
import Mathlib.Data.List.FinRange
import Mathlib.Data.List.Pairwise

/-!
# The buffer cache

The data structure of `bio.c`: `NBUF` buffers and a head on a doubly linked ring, most recently
used first.  Each function that runs under `bcache.lock` is one function here:

* `Bcache.binit` : the boot state, all buffers on the ring with the tag `(0, 0)`;
* `Bcache.bget` : the critical section of `bget` (the sleep-lock is taken afterwards);
* `Bcache.brelse` : the critical section of `brelse`;
* `Bcache.bpin`, `Bcache.bunpin`.

`Bcache.Order c l` says that the ring of `c` is `l`; each function keeps it, with `l` rearranged
as the comments of the source promise.  `Bcache.Wf c l` adds what makes a lookup by tag
unambiguous although several buffers may carry the same tag, as all of them do at boot: only the
first buffer of the ring with a given tag is ever in use or valid.
-/

namespace Cinux

open List

/-- `struct buf`.  The holder of the sleep-lock stands for the lock; the field `disk` belongs to
the device driver. -/
structure Buf where
  valid : Bool
  dev : ℕ
  blockno : ℕ
  lock : Option ℕ
  refcnt : ℕ
  data : Block

/-- What a buffer is looked up by. -/
def Buf.tag (b : Buf) : ℕ × ℕ := (b.dev, b.blockno)

@[simp] theorem Buf.tag_refcnt (b : Buf) (n : ℕ) : { b with refcnt := n }.tag = b.tag := rfl

/-- A node of the ring: a buffer, or `bcache.head`. -/
abbrev BufNode := Option (Fin NBUF)

/-- `struct bcache`. -/
structure Bcache where
  buf : Fin NBUF → Buf
  links : Links BufNode

namespace Bcache

/-- Change one buffer. -/
def modify (c : Bcache) (b : Fin NBUF) (f : Buf → Buf) : Bcache :=
  { c with buf := Function.update c.buf b (f (c.buf b)) }

/-- `refcnt++` on a `uint`. -/
def incr (n : ℕ) : ℕ := (n + 1) % 2 ^ 32

/-- `refcnt--` on a `uint`. -/
def decr (n : ℕ) : ℕ := (n + (2 ^ 32 - 1)) % 2 ^ 32

/-- A static buffer before `binit`. -/
def bootBuf : Buf := ⟨false, 0, 0, none, 0, Block.zero⟩

/-- The loop of `binit`: every buffer in turn is put behind the head. -/
def linkAll (bs : List (Fin NBUF)) (k : Links BufNode) : Links BufNode :=
  bs.foldl (fun k b => k.pushFront none (some b)) k

/-- `binit`. -/
def binit : Bcache where
  buf := fun _ => bootBuf
  links := linkAll (List.finRange NBUF) ⟨fun _ => none, fun _ => none⟩

/-- The test of a loop over the ring, on a node. -/
def test (p : Buf → Bool) (c : Bcache) : BufNode → Bool
  | none => false
  | some b => p (c.buf b)

/-- The first loop of `bget`: is the block already cached? -/
def findCached (c : Bcache) (dev blockno : ℕ) : Option BufNode :=
  Links.scan c.links.next none (c.test fun x => x.dev == dev && x.blockno == blockno) (NBUF + 1)
    (c.links.next none)

/-- The second loop of `bget`: the least recently used unused buffer. -/
def findUnused (c : Bcache) : Option BufNode :=
  Links.scan c.links.prev none (c.test fun x => x.refcnt == 0) (NBUF + 1) (c.links.prev none)

/-- The critical section of `bget`; `none` is `panic("bget: no buffers")`. -/
def bget (c : Bcache) (dev blockno : ℕ) : Option (Fin NBUF × Bcache) :=
  match c.findCached dev blockno with
  | some (some b) => some (b, c.modify b fun x => { x with refcnt := incr x.refcnt })
  | _ =>
    match c.findUnused with
    | some (some b) =>
      some (b, c.modify b fun x =>
        { x with dev := dev, blockno := blockno, valid := false, refcnt := 1 })
    | _ => none

/-- The critical section of `brelse`: drop the reference and, when nobody is waiting, move the
buffer behind the head. -/
def brelse (c : Bcache) (b : Fin NBUF) : Bcache :=
  let c := c.modify b fun x => { x with refcnt := decr x.refcnt }
  if (c.buf b).refcnt = 0 then
    { c with links := (c.links.unlink (some b)).pushFront none (some b) }
  else c

/-- `bpin`. -/
def bpin (c : Bcache) (b : Fin NBUF) : Bcache :=
  c.modify b fun x => { x with refcnt := incr x.refcnt }

/-- `bunpin`. -/
def bunpin (c : Bcache) (b : Fin NBUF) : Bcache :=
  c.modify b fun x => { x with refcnt := decr x.refcnt }

/-! ### The ring -/

/-- The buffers of the ring, most recently used first, are `l`; all of them are on it. -/
structure Order (c : Bcache) (l : List (Fin NBUF)) : Prop where
  ring : c.links.IsRing none (l.map some)
  all : ∀ b, b ∈ l

variable {c : Bcache} {l : List (Fin NBUF)} {b : Fin NBUF}

theorem Order.nodup (h : c.Order l) : l.Nodup :=
  (nodup_map_iff (Option.some_injective _)).1 (nodup_cons.1 h.ring.1).2

theorem Order.perm (h : c.Order l) : l.Perm (finRange NBUF) := by
  rw [perm_ext_iff_of_nodup h.nodup (nodup_finRange _)]
  exact fun b => ⟨fun _ => mem_finRange b, fun _ => h.all b⟩

theorem Order.length (h : c.Order l) : l.length = NBUF := by
  rw [h.perm.length_eq, length_finRange]

variable {c' : Bcache}

theorem Order.of_links (h : c.Order l) (e : c'.links = c.links) : c'.Order l := ⟨e ▸ h.ring, h.all⟩

@[simp] theorem modify_links (f : Buf → Buf) : (c.modify b f).links = c.links := rfl

@[simp] theorem modify_self (f : Buf → Buf) : (c.modify b f).buf b = f (c.buf b) := by
  simp [modify]

theorem modify_ne (f : Buf → Buf) {x : Fin NBUF} (h : x ≠ b) :
    (c.modify b f).buf x = c.buf x := by
  simp [modify, h]

theorem isRing_linkAll (bs : List (Fin NBUF)) {k : Links BufNode}
    (hk : k.IsRing none (l.map some)) (hnd : (bs.reverse ++ l).Nodup) :
    (linkAll bs k).IsRing none ((bs.reverse ++ l).map some) := by
  induction bs generalizing k l with
  | nil => exact hk
  | cons b bs ih =>
    have hnd' : (bs.reverse ++ b :: l).Nodup := by simpa using hnd
    have hb : b ∉ l := (nodup_cons.1 (nodup_append.1 hnd').2.1).1
    have := ih (k := k.pushFront none (some b)) (l := b :: l)
      (hk.pushFront (by simpa using hb)) hnd'
    simpa [linkAll] using this

theorem order_binit : binit.Order (finRange NBUF).reverse := by
  refine ⟨?_, fun b => mem_reverse.2 (mem_finRange b)⟩
  have hk : (⟨fun _ => none, fun _ => none⟩ : Links BufNode).IsRing none ([].map some) :=
    ⟨by simp, rfl, rfl⟩
  have := isRing_linkAll (finRange NBUF) hk (by simpa using nodup_finRange NBUF)
  simpa [binit] using this

theorem find?_map_test (p : Buf → Bool) (l : List (Fin NBUF)) :
    (l.map some).find? (c.test p) = (l.find? fun b => p (c.buf b)).map some := by
  induction l with
  | nil => rfl
  | cons b l ih =>
    simp only [map_cons, List.find?_cons, test, ih]
    cases p (c.buf b) <;> rfl

theorem Order.findCached (h : c.Order l) (dev blockno : ℕ) :
    c.findCached dev blockno =
      (l.find? fun b => (c.buf b).dev == dev && (c.buf b).blockno == blockno).map some := by
  rw [Bcache.findCached, h.ring.scan_next _ (by simp [h.length]), find?_map_test]

theorem Order.findUnused (h : c.Order l) :
    c.findUnused = (l.reverse.find? fun b => (c.buf b).refcnt == 0).map some := by
  rw [Bcache.findUnused, h.ring.scan_prev _ (by simp [h.length]), ← map_reverse, find?_map_test]

variable {dev blockno : ℕ}

/-- What a successful `bget` does: it takes a reference on the first buffer of the ring that
carries the tag, or, when no buffer carries it, hands an unused buffer over to the tag. -/
theorem Order.bget_cases (h : c.Order l) (hg : c.bget dev blockno = some (b, c')) :
    (∃ l1 l2, l = l1 ++ b :: l2 ∧ (c.buf b).tag = (dev, blockno) ∧
        (∀ x ∈ l1, (c.buf x).tag ≠ (dev, blockno)) ∧
        c' = c.modify b fun x => { x with refcnt := incr x.refcnt }) ∨
      ((∀ x, (c.buf x).tag ≠ (dev, blockno)) ∧ (c.buf b).refcnt = 0 ∧ c' = c.modify b fun x =>
          { x with dev := dev, blockno := blockno, valid := false, refcnt := 1 }) := by
  have htag : ∀ x : Fin NBUF, ((c.buf x).dev == dev && (c.buf x).blockno == blockno) = true ↔
      (c.buf x).tag = (dev, blockno) := by
    intro x; simp [Buf.tag]
  unfold bget at hg
  rw [h.findCached, h.findUnused] at hg
  cases hf : l.find? fun b => (c.buf b).dev == dev && (c.buf b).blockno == blockno with
  | some x =>
    left
    simp only [hf, Option.map_some, Option.some.injEq, Prod.mk.injEq] at hg
    obtain ⟨rfl, rfl⟩ := hg
    obtain ⟨hx, l1, l2, hl, hno⟩ := List.find?_eq_some_iff_append.1 hf
    exact ⟨l1, l2, hl, (htag x).1 hx, fun y hy he => by simpa [(htag y).2 he] using hno y hy, rfl⟩
  | none =>
    right
    have hno : ∀ x, (c.buf x).tag ≠ (dev, blockno) := fun x he =>
      List.find?_eq_none.1 hf x (h.all x) ((htag x).2 he)
    simp only [hf, Option.map_none] at hg
    cases hu : l.reverse.find? fun b => (c.buf b).refcnt == 0 with
    | none => simp [hu] at hg
    | some x =>
      simp only [hu, Option.map_some, Option.some.injEq, Prod.mk.injEq] at hg
      obtain ⟨rfl, rfl⟩ := hg
      exact ⟨hno, by simpa using List.find?_some hu, rfl⟩

theorem Order.bget_buf (h : c.Order l) (hg : c.bget dev blockno = some (b, c')) :
    (c'.buf b).tag = (dev, blockno) ∧ (c'.buf b).lock = (c.buf b).lock ∧
      (c'.buf b).refcnt = incr (c.buf b).refcnt ∧
      ((c'.buf b).valid = true → c'.buf b = { c.buf b with refcnt := incr (c.buf b).refcnt }) ∧
      ∀ x, x ≠ b → c'.buf x = c.buf x := by
  obtain ⟨_, _, -, ht, -, rfl⟩ | ⟨-, hfree, rfl⟩ := h.bget_cases hg
  · refine ⟨?_, ?_, ?_, fun _ => ?_, fun x hx => modify_ne _ hx⟩ <;> simp [ht]
  · refine ⟨?_, ?_, ?_, fun hv => ?_, fun x hx => modify_ne _ hx⟩
    · simp [Buf.tag]
    · simp
    · simp [hfree, incr]
    · simp at hv

theorem Order.bget_eq_none (h : c.Order l) (hg : c.bget dev blockno = none)
    (x : Fin NBUF) : (c.buf x).refcnt ≠ 0 := by
  unfold Bcache.bget at hg
  rw [h.findCached, h.findUnused] at hg
  cases hf : l.find? fun b => (c.buf b).dev == dev && (c.buf b).blockno == blockno with
  | some y => simp [hf] at hg
  | none =>
    cases hu : l.reverse.find? fun b => (c.buf b).refcnt == 0 with
    | some y => simp [hf, hu] at hg
    | none =>
      have := List.find?_eq_none.1 hu x (mem_reverse.2 (h.all x))
      simpa using this

variable {l1 l2 : List (Fin NBUF)}

theorem Order.brelse (h : c.Order (l1 ++ b :: l2)) :
    (c.brelse b).Order
      (if decr (c.buf b).refcnt = 0 then b :: (l1 ++ l2) else l1 ++ b :: l2) := by
  unfold Bcache.brelse
  simp only [modify_self]
  split_ifs with h0
  · have hr := h.ring
    rw [map_append, map_cons] at hr
    have hu := hr.unlink
    rw [← map_append] at hu
    refine ⟨?_, fun x => ?_⟩
    · refine hu.pushFront ?_
      have := (nodup_cons.1 (nodup_middle.1 h.nodup)).1
      simpa using this
    · exact perm_middle.mem_iff.1 (h.all x)
  · exact h.of_links rfl

@[simp] theorem brelse_buf_self :
    (c.brelse b).buf b = { c.buf b with refcnt := decr (c.buf b).refcnt } := by
  simp only [brelse]
  split_ifs <;> simp

theorem brelse_buf_ne {x : Fin NBUF} (h : x ≠ b) : (c.brelse b).buf x = c.buf x := by
  simp only [brelse]
  split_ifs <;> simp [modify, h]

/-! ### Lookups by tag -/

/-- If `x` and `y` carry the same tag, `y` is neither in use nor valid. -/
def Shadows (c : Bcache) (x y : Fin NBUF) : Prop :=
  (c.buf x).tag = (c.buf y).tag → (c.buf y).refcnt = 0 ∧ (c.buf y).valid = false

/-- A well-formed cache: of the buffers that carry the same tag, only the first on the ring may
be in use or valid. -/
structure Wf (c : Bcache) (l : List (Fin NBUF)) : Prop where
  order : c.Order l
  first : l.Pairwise c.Shadows

theorem wf_binit : binit.Wf (finRange NBUF).reverse := by
  refine ⟨order_binit, ?_⟩
  exact pairwise_of_forall fun _ _ _ => ⟨rfl, rfl⟩

variable {x y : Fin NBUF}

theorem Wf.shadowed (h : c.Wf l) (hne : x ≠ y)
    (ht : (c.buf x).tag = (c.buf y).tag) :
    ((c.buf x).refcnt = 0 ∧ (c.buf x).valid = false) ∨
      ((c.buf y).refcnt = 0 ∧ (c.buf y).valid = false) := by
  have hsym : l.Pairwise fun x y => c.Shadows x y ∨ c.Shadows y x := h.first.imp Or.inl
  have : Std.Symm fun x y => c.Shadows x y ∨ c.Shadows y x := ⟨fun _ _ => Or.symm⟩
  rcases hsym.forall (h.order.all x) (h.order.all y) hne with hs | hs
  · exact Or.inr (hs ht)
  · exact Or.inl (hs ht.symm)

theorem Wf.tag_unique (h : c.Wf l) (hx : (c.buf x).refcnt ≠ 0)
    (hy : (c.buf y).refcnt ≠ 0) (ht : (c.buf x).tag = (c.buf y).tag) : x = y := by
  by_contra hne
  rcases h.shadowed hne ht with h0 | h0
  · exact hx h0.1
  · exact hy h0.1

theorem Wf.valid_unique (h : c.Wf l) (hx : (c.buf x).valid = true)
    (hy : (c.buf y).valid = true) (ht : (c.buf x).tag = (c.buf y).tag) : x = y := by
  by_contra hne
  rcases h.shadowed hne ht with h0 | h0
  · simp [h0.2] at hx
  · simp [h0.2] at hy

/-- Any change of the first buffer with its tag that keeps the tag keeps the cache well
formed. -/
theorem Wf.modify_first (h : c.Wf (l1 ++ b :: l2))
    (hb : ∀ x ∈ l1, (c.buf x).tag ≠ (c.buf b).tag) {f : Buf → Buf}
    (hf : (f (c.buf b)).tag = (c.buf b).tag) : (c.modify b f).Wf (l1 ++ b :: l2) := by
  refine ⟨h.order.of_links rfl, ?_⟩
  have hsame : ∀ z, ((c.modify b f).buf z).tag = (c.buf z).tag := by
    intro z
    by_cases hz : z = b
    · subst hz; simpa using hf
    · rw [modify_ne f hz]
  have hkeep : ∀ x y, y ≠ b → c.Shadows x y → (c.modify b f).Shadows x y := by
    intro x y hy hs ht
    rw [hsame, hsame] at ht
    rw [modify_ne f hy]
    exact hs ht
  obtain ⟨h1, h2, h3⟩ := pairwise_append.1 h.first
  obtain ⟨h4, h5⟩ := pairwise_cons.1 h2
  have hb1 : b ∉ l1 := fun hm => hb b hm rfl
  have hb2 : b ∉ l2 := (nodup_cons.1 (nodup_append.1 h.order.nodup).2.1).1
  refine pairwise_append.2 ⟨?_, pairwise_cons.2 ⟨?_, ?_⟩, ?_⟩
  · exact h1.imp_of_mem fun _ hy => hkeep _ _ fun e => hb1 (e ▸ hy)
  · exact fun y hy => hkeep _ _ (fun e => hb2 (e ▸ hy)) (h4 y hy)
  · exact h5.imp_of_mem fun _ hy => hkeep _ _ fun e => hb2 (e ▸ hy)
  · intro x hx y hy
    rcases mem_cons.1 hy with rfl | hy'
    · intro ht
      rw [hsame, hsame] at ht
      exact absurd ht (hb x hx)
    · exact hkeep _ _ (fun e => hb2 (e ▸ hy')) (h3 x hx y hy)

theorem Wf.first_of_used (h : c.Wf (l1 ++ b :: l2))
    (hb : (c.buf b).refcnt ≠ 0) : ∀ x ∈ l1, (c.buf x).tag ≠ (c.buf b).tag := by
  intro x hx ht
  have := (pairwise_append.1 h.first).2.2 x hx b mem_cons_self ht
  exact hb this.1

theorem Wf.bget_used (h : c.Wf l) (hb : (c.buf b).refcnt ≠ 0)
    (ht : (c.buf b).tag = (dev, blockno)) :
    c.bget dev blockno = some (b, c.modify b fun x => { x with refcnt := incr x.refcnt }) := by
  obtain ⟨l1, l2, rfl⟩ := append_of_mem (h.order.all b)
  have hfind : (l1 ++ b :: l2).find? (fun x => (c.buf x).dev == dev && (c.buf x).blockno == blockno)
      = some b := by
    refine List.find?_eq_some_iff_append.2 ⟨?_, l1, l2, rfl, fun x hx => ?_⟩
    · simpa [Buf.tag] using ht
    · have hne : (c.buf x).tag ≠ (dev, blockno) := ht ▸ h.first_of_used hb x hx
      simpa [Buf.tag, imp_iff_not_or] using hne
  unfold Bcache.bget
  rw [h.order.findCached, hfind]
  rfl

theorem Wf.modify (h : c.Wf l) (hb : (c.buf b).refcnt ≠ 0) {f : Buf → Buf}
    (hf : (f (c.buf b)).tag = (c.buf b).tag) : (c.modify b f).Wf l := by
  obtain ⟨l1, l2, rfl⟩ := append_of_mem (h.order.all b)
  exact h.modify_first (h.first_of_used hb) hf

theorem Wf.bget (h : c.Wf l) (hg : c.bget dev blockno = some (b, c')) : c'.Wf l := by
  obtain ⟨l1, l2, rfl, hbt, hno, rfl⟩ | ⟨hno, -, rfl⟩ := h.order.bget_cases hg
  · exact h.modify_first (fun x hx => hbt ▸ hno x hx) rfl
  · -- no other buffer carries the new tag of `b`
    refine ⟨h.order.of_links rfl, (h.first.and h.order.nodup).imp fun {x y} hs ht => ?_⟩
    obtain ⟨hs, hne⟩ := hs
    by_cases hx : x = b
    · subst hx
      rw [modify_self, modify_ne _ hne.symm] at ht
      exact absurd ht.symm (hno y)
    · by_cases hy : y = b
      · subst hy
        rw [modify_self, modify_ne _ hx] at ht
        exact absurd ht (hno x)
      · rw [modify_ne _ hx, modify_ne _ hy] at ht
        rw [modify_ne _ hy]
        exact hs ht

theorem Wf.brelse (h : c.Wf l) (hb : (c.buf b).refcnt ≠ 0) : ∃ l', (c.brelse b).Wf l' := by
  obtain ⟨l1, l2, rfl⟩ := append_of_mem (h.order.all b)
  refine ⟨_, h.order.brelse, ?_⟩
  have hm := (h.modify hb (f := fun x => { x with refcnt := decr x.refcnt })
    (Buf.tag_refcnt _ _)).first
  have hbuf : (c.brelse b).buf = (c.modify b fun x => { x with refcnt := decr x.refcnt }).buf := by
    simp only [Bcache.brelse]
    split_ifs <;> rfl
  have hsh : (c.brelse b).Shadows =
      (c.modify b fun x => { x with refcnt := decr x.refcnt }).Shadows := by
    unfold Shadows; rw [hbuf]
  rw [hsh]
  split_ifs with h0
  · obtain ⟨h1, h2, h3⟩ := pairwise_append.1 hm
    obtain ⟨h4, h5⟩ := pairwise_cons.1 h2
    refine pairwise_cons.2 ⟨fun y hy => ?_, pairwise_append.2
      ⟨h1, h5, fun x hx y hy => h3 x hx y (mem_cons_of_mem _ hy)⟩⟩
    rcases mem_append.1 hy with hy | hy
    · -- `y` was before `b`, so it carries another tag
      intro ht
      have hyb : y ≠ b := fun e => h.first_of_used hb y hy (congrArg (fun z => (c.buf z).tag) e)
      rw [modify_self, modify_ne _ hyb, Buf.tag_refcnt] at ht
      exact absurd ht.symm (h.first_of_used hb y hy)
    · exact h4 y hy
  · exact hm

end Bcache

end Cinux
