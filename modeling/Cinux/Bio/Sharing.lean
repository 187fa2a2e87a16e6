import Cinux.Bio.Bcache
import Cinux.System.Machine
import Mathlib.Data.List.Count

/-!
# Sharing the buffer cache

Any number of processes use the buffer cache at the same time.  A *use* of a buffer is what lies
between the increment of `refcnt` in `bget` and its decrement in `brelse`; it waits for the
sleep-lock, holds it, and has released it.  Each critical section of `bcache.lock` and each
operation on a sleep-lock is one step of the machine `bio`:

* `bget` looks the block up and starts a use, `acquiresleep` ends its waiting;
* `fill` is the disk read of `bread`;
* `releasesleep` and `brelse` are the two halves of `brelse`, with a gap between them;
* `bpin` is called by `log_write` on the buffer its caller holds, and `bunpin` gives a pin back.

`Sharing.Sound` is what the cache promises in every state.  The reference count is a C `uint`, so
it holds as long as no buffer has `2 ^ 32` uses and pins at once (`bcache_sound`); past that point
the count wraps and the promise breaks (`bcache_wraps`).
-/

namespace Cinux

open Function List Bcache

/-- Where a use of a buffer stands. -/
inductive Phase where
  /-- In `acquiresleep`. -/
  | waiting
  /-- Between `bget` and `brelse`, with the sleep-lock. -/
  | holding
  /-- In `brelse`, between `releasesleep` and the decrement. -/
  | releasing
  deriving DecidableEq, Repr

/-- A use of a buffer by a process. -/
structure Use where
  pid : ℕ
  buf : Fin NBUF
  phase : Phase
  deriving DecidableEq

/-- The cache, the uses in progress and the outstanding pins of every buffer. -/
structure Sharing where
  cache : Bcache
  uses : List Use
  pins : Fin NBUF → ℕ

/-- The atomic sections. -/
inductive BioAct where
  | bget (p dev blockno : ℕ)
  | acquiresleep (p : ℕ) (b : Fin NBUF)
  | fill (p : ℕ) (b : Fin NBUF) (d : Block)
  | releasesleep (p : ℕ) (b : Fin NBUF)
  | brelse (p : ℕ) (b : Fin NBUF)
  | bpin (p : ℕ) (b : Fin NBUF)
  | bunpin (b : Fin NBUF)

namespace Sharing

/-- The use `u` moves on to `u'`. -/
def replace (uses : List Use) (u u' : Use) : List Use := u' :: uses.erase u

/-- The steps of the machine. -/
inductive Step : Sharing → BioAct → Sharing → Prop
  | bget {s : Sharing} {p dev blockno : ℕ} {b : Fin NBUF} {c : Bcache} :
      s.cache.bget dev blockno = some (b, c) →
      Step s (.bget p dev blockno) { s with cache := c, uses := ⟨p, b, .waiting⟩ :: s.uses }
  | acquiresleep {s : Sharing} {p : ℕ} {b : Fin NBUF} :
      ⟨p, b, .waiting⟩ ∈ s.uses → (s.cache.buf b).lock = none →
      Step s (.acquiresleep p b)
        { s with
          cache := s.cache.modify b fun x => { x with lock := some p }
          uses := replace s.uses ⟨p, b, .waiting⟩ ⟨p, b, .holding⟩ }
  | fill {s : Sharing} {p : ℕ} {b : Fin NBUF} {d : Block} :
      ⟨p, b, .holding⟩ ∈ s.uses → (s.cache.buf b).valid = false →
      Step s (.fill p b d)
        { s with cache := s.cache.modify b fun x => { x with data := d, valid := true } }
  | releasesleep {s : Sharing} {p : ℕ} {b : Fin NBUF} :
      ⟨p, b, .holding⟩ ∈ s.uses → (s.cache.buf b).lock = some p →
      Step s (.releasesleep p b)
        { s with
          cache := s.cache.modify b fun x => { x with lock := none }
          uses := replace s.uses ⟨p, b, .holding⟩ ⟨p, b, .releasing⟩ }
  | brelse {s : Sharing} {p : ℕ} {b : Fin NBUF} :
      ⟨p, b, .releasing⟩ ∈ s.uses →
      Step s (.brelse p b)
        { s with cache := s.cache.brelse b, uses := s.uses.erase ⟨p, b, .releasing⟩ }
  | bpin {s : Sharing} {p : ℕ} {b : Fin NBUF} :
      ⟨p, b, .holding⟩ ∈ s.uses →
      Step s (.bpin p b)
        { s with cache := s.cache.bpin b, pins := update s.pins b (s.pins b + 1) }
  | bunpin {s : Sharing} {b : Fin NBUF} :
      0 < s.pins b →
      Step s (.bunpin b)
        { s with cache := s.cache.bunpin b, pins := update s.pins b (s.pins b - 1) }

/-- The state after `binit`. -/
def boot : Sharing := ⟨Bcache.binit, [], fun _ => 0⟩

/-- The buffer cache under any interleaving of its users. -/
def bio : Machine Sharing BioAct where
  init s := s = boot
  step := Step

/-- The number of uses of a buffer. -/
def users (s : Sharing) (b : Fin NBUF) : ℕ := s.uses.countP (·.buf = b)

/-- Uses and pins of every buffer fit its `refcnt` field. -/
def Fits (s : Sharing) : Prop := ∀ b, s.users b + s.pins b < 2 ^ 32

/-- What the cache promises. -/
structure Sound (s : Sharing) : Prop where
  /-- Following `next` from the head visits every buffer exactly once ... -/
  visits : (List.ofFn fun i : Fin NBUF => s.cache.links.next^[i.val + 1] none).Perm
    ((List.finRange NBUF).map some)
  /-- ... and returns to the head, -/
  returns : s.cache.links.next^[NBUF + 1] none = none
  /-- and `prev` is its inverse. -/
  inverse : ∀ n, s.cache.links.prev (s.cache.links.next n) = n ∧
    s.cache.links.next (s.cache.links.prev n) = n
  /-- The reference count is the number of uses and pins. -/
  refcnt : ∀ b, (s.cache.buf b).refcnt = s.users b + s.pins b
  /-- No two buffers in use carry the same tag. -/
  unique : ∀ b b', 0 < (s.cache.buf b).refcnt → 0 < (s.cache.buf b').refcnt →
    (s.cache.buf b).tag = (s.cache.buf b').tag → b = b'
  /-- `bget` changes the tag or the `valid` flag of unused buffers only. -/
  recycles : ∀ p dev blockno s', Step s (.bget p dev blockno) s' → ∀ b,
    ((s'.cache.buf b).tag ≠ (s.cache.buf b).tag ∨
      (s'.cache.buf b).valid ≠ (s.cache.buf b).valid) → (s.cache.buf b).refcnt = 0

/-- The inductive form of `Sound`. -/
structure Inv (s : Sharing) : Prop where
  wf : ∃ l, s.cache.Wf l
  refcnt : ∀ b, (s.cache.buf b).refcnt = s.users b + s.pins b

variable {s s' : Sharing} {b : Fin NBUF}

/-! ### Counting uses -/

theorem users_cons (c : Bcache) (u : Use) (us : List Use) (pins : Fin NBUF → ℕ) (b : Fin NBUF) :
    users ⟨c, u :: us, pins⟩ b = (if u.buf = b then 1 else 0) + users ⟨c, us, pins⟩ b := by
  simp [users, countP_cons, Nat.add_comm]

theorem countP_erase_add {us : List Use} {u : Use} (hu : u ∈ us) (b : Fin NBUF) :
    (us.erase u).countP (·.buf = b) + (if u.buf = b then 1 else 0) = us.countP (·.buf = b) := by
  have := (perm_cons_erase hu).countP_eq (fun x : Use => decide (x.buf = b))
  simpa [countP_cons] using this.symm

theorem countP_replace {us : List Use} {u u' : Use} (hu : u ∈ us) (he : u'.buf = u.buf)
    (b : Fin NBUF) : (replace us u u').countP (·.buf = b) = us.countP (·.buf = b) := by
  rw [← countP_erase_add hu b]
  simp [replace, countP_cons, he]

theorem users_pos {u : Use} (hu : u ∈ s.uses) : 0 < s.users u.buf :=
  countP_pos_iff.2 ⟨u, hu, by simp⟩

theorem Inv.used (h : s.Inv) {u : Use} (hu : u ∈ s.uses) : (s.cache.buf u.buf).refcnt ≠ 0 := by
  have := h.refcnt u.buf
  have := users_pos hu
  omega

/-! ### The invariant -/

theorem inv_boot : boot.Inv := by
  refine ⟨⟨_, wf_binit⟩, fun b => ?_⟩
  rfl

theorem Inv.of_modify (h : s.Inv) {u : Use} (hu : u ∈ s.uses) {f : Buf → Buf}
    (ht : ∀ x, (f x).tag = x.tag) (hr : ∀ x, (f x).refcnt = x.refcnt) {us : List Use}
    (hus : ∀ b, us.countP (·.buf = b) = s.users b) :
    (Sharing.mk (s.cache.modify u.buf f) us s.pins).Inv := by
  obtain ⟨l, hl⟩ := h.wf
  refine ⟨⟨l, hl.modify (h.used hu) (ht _)⟩, fun b => ?_⟩
  have hb : (s.cache.modify u.buf f |>.buf b).refcnt = (s.cache.buf b).refcnt := by
    by_cases hbu : b = u.buf
    · subst hbu; simp [hr]
    · rw [modify_ne _ hbu]
  rw [hb, h.refcnt b]
  change _ = us.countP (·.buf = b) + s.pins b
  rw [hus b]

theorem incr_of_lt {n : ℕ} (h : n + 1 < 2 ^ 32) : incr n = n + 1 := Nat.mod_eq_of_lt h

theorem decr_succ {n : ℕ} (h : n + 1 < 2 ^ 32) : decr (n + 1) = n := by
  unfold decr; omega

/-- **Every step keeps the invariant**, as long as the counts fit. -/
theorem Inv.step {a : BioAct} (h : s.Inv) (hst : Step s a s') (hs : s.Fits) (hs' : s'.Fits) :
    s'.Inv := by
  obtain ⟨l, hl⟩ := h.wf
  cases hst with
  | @bget p dev blockno b c hg =>
    refine ⟨⟨l, hl.bget hg⟩, fun x => ?_⟩
    have hx' := hs' x
    have hx := h.refcnt x
    rw [users_cons] at hx' ⊢
    change _ + s.users x + s.pins x < _ at hx'
    change _ = _ + s.users x + s.pins x
    obtain ⟨_, _, -, -, -, rfl⟩ | ⟨-, h0, rfl⟩ := hl.order.bget_cases hg
    · by_cases hxb : x = b
      · subst hxb
        simp only [modify_self, if_true] at hx' ⊢
        rw [hx, incr_of_lt (by omega)]
        omega
      · rw [modify_ne _ hxb, if_neg (Ne.symm hxb), hx, Nat.zero_add]
    · by_cases hxb : x = b
      · subst hxb
        simp only [modify_self, if_true]
        omega
      · rw [modify_ne _ hxb, if_neg (Ne.symm hxb), hx, Nat.zero_add]
  | acquiresleep hu _ =>
    exact h.of_modify hu (fun _ => by rfl) (fun _ => by rfl) (countP_replace hu (by rfl))
  | fill hu _ => exact h.of_modify hu (fun _ => by rfl) (fun _ => by rfl) fun _ => by rfl
  | releasesleep hu _ =>
    exact h.of_modify hu (fun _ => by rfl) (fun _ => by rfl) (countP_replace hu (by rfl))
  | @brelse p b hu =>
    refine ⟨hl.brelse (h.used hu), fun x => ?_⟩
    have hc := countP_erase_add hu x
    have hx := h.refcnt x
    have hfit := hs x
    change _ = (s.uses.erase _).countP (·.buf = x) + s.pins x
    change _ = s.users x at hc
    by_cases hxb : x = b
    · subst hxb
      rw [if_pos rfl] at hc
      rw [brelse_buf_self, hx, ← hc, Nat.add_right_comm, decr_succ (by omega)]
    · rw [if_neg (Ne.symm hxb)] at hc
      rw [brelse_buf_ne hxb, hx]
      omega
  | @bpin p b hu =>
    have hw : (s.cache.bpin b).Wf l := hl.modify (h.used hu) (Buf.tag_refcnt (s.cache.buf b) _)
    refine ⟨⟨l, hw⟩, fun x => ?_⟩
    have hx := h.refcnt x
    have hx' := hs' x
    change _ = s.users x + update s.pins b (s.pins b + 1) x
    change s.users x + update s.pins b (s.pins b + 1) x < _ at hx'
    by_cases hxb : x = b
    · subst hxb
      rw [update_self] at hx' ⊢
      simp only [bpin, modify_self]
      rw [hx, incr_of_lt (by omega), Nat.add_assoc]
    · rw [update_of_ne hxb, bpin, modify_ne _ hxb, hx]
  | @bunpin b hp =>
    have hb : (s.cache.buf b).refcnt ≠ 0 := by rw [h.refcnt b]; omega
    have hw : (s.cache.bunpin b).Wf l := hl.modify hb (Buf.tag_refcnt (s.cache.buf b) _)
    refine ⟨⟨l, hw⟩, fun x => ?_⟩
    have hx := h.refcnt x
    have hfit := hs x
    change _ = s.users x + update s.pins b (s.pins b - 1) x
    by_cases hxb : x = b
    · subst hxb
      rw [update_self]
      simp only [bunpin, modify_self]
      obtain ⟨m, hm⟩ := Nat.exists_eq_succ_of_ne_zero (Nat.ne_of_gt hp)
      rw [hx, hm, Nat.succ_sub_one, Nat.add_succ, decr_succ (by omega)]
    · rw [update_of_ne hxb, bunpin, modify_ne _ hxb, hx]

theorem Inv.sound (h : s.Inv) : s.Sound := by
  obtain ⟨l, hl⟩ := h.wf
  have hlen : (l.map some : List BufNode).length = NBUF := by simp [hl.order.length]
  obtain ⟨hv, hret⟩ := hl.order.ring.iterate
  rw [hlen] at hret
  refine ⟨?_, hret, ?_, h.refcnt, ?_, ?_⟩
  · have hv' : (ofFn fun i : Fin NBUF => s.cache.links.next^[i.val + 1] none) = l.map some := by
      rw [← hv]
      exact ofFn_congr hlen.symm _
    rw [hv']
    exact hl.order.perm.map _
  · refine hl.order.ring.inverse fun n => ?_
    cases n with
    | none => exact mem_cons_self
    | some b => exact mem_cons_of_mem _ (mem_map_of_mem (hl.order.all b))
  · exact fun b b' hb hb' ht => hl.tag_unique (Nat.ne_of_gt hb) (Nat.ne_of_gt hb') ht
  · intro p dev blockno s' hst b hch
    cases hst with
    | @bget _ _ _ b' c hg =>
      obtain ⟨_, _, -, -, -, rfl⟩ | ⟨-, h0, rfl⟩ := hl.order.bget_cases hg
      · exfalso
        by_cases hbb : b = b'
        · subst hbb; simp at hch
        · rw [modify_ne _ hbb] at hch; simp at hch
      · by_cases hbb : b = b'
        · subst hbb; exact h0
        · rw [modify_ne _ hbb] at hch; simp at hch

theorem fits_boot : boot.Fits := fun _ => Nat.two_pow_pos 32

/-- **The buffer cache keeps its promises** in every interleaving in which the uses and pins of
a buffer never outnumber what its `refcnt` field can hold. -/
theorem bcache_sound (h : (bio.restrict fun _ _ s' => s'.Fits).Reachable s) : s.Sound := by
  have : s.Inv ∧ s.Fits := by
    refine h.invariant (I := fun s => s.Inv ∧ s.Fits) ?_ ?_
    · rintro s rfl
      exact ⟨inv_boot, fits_boot⟩
    · rintro s a s' ⟨hi, hf⟩ ⟨hf', hst⟩
      exact ⟨hi.step hst hf hf', hf'⟩
  exact this.1.sound

theorem exists_bget_boot (dev blockno : ℕ) :
    ∃ b c, boot.cache.bget dev blockno = some (b, c) := by
  cases hg : boot.cache.bget dev blockno with
  | none => exact absurd rfl (order_binit.bget_eq_none hg ⟨0, by decide⟩)
  | some r => exact ⟨r.1, r.2, rfl⟩

/-- The first buffer read after boot. -/
theorem bcache_sound_first_bget :
    ∃ s, Step boot (.bget 1 ROOTDEV 1) s ∧ s.Sound := by
  obtain ⟨b, c, hg⟩ := exists_bget_boot ROOTDEV 1
  refine ⟨_, .bget hg, bcache_sound (Machine.Reachable.next (.start rfl) ⟨fun x => ?_, .bget hg⟩)⟩
  rw [users_cons]
  change _ + 0 + 0 < _
  split_ifs <;> simp

/-- A process that pins the buffer it holds over and over makes its reference count wrap. -/
theorem bcache_wraps : ¬ ∀ s, bio.Reachable s → s.Sound := by
  intro hall
  obtain ⟨b, c, hg⟩ := exists_bget_boot ROOTDEV 1
  have hlock : (c.buf b).lock = none := by
    obtain ⟨_, _, -, -, -, rfl⟩ | ⟨-, -, rfl⟩ := order_binit.bget_cases hg <;> simp <;> rfl
  -- hold the buffer, then pin it `k` times
  let held := c.modify b fun x => { x with lock := some 1 }
  let f : ℕ → Sharing := fun k =>
    ⟨(bpin · b)^[k] held, [⟨1, b, .holding⟩], update (fun _ => 0) b k⟩
  have h0 : f 0 = ⟨held, replace [⟨1, b, .waiting⟩] ⟨1, b, .waiting⟩ ⟨1, b, .holding⟩,
      fun _ => 0⟩ := by
    simp [f, replace]
  have htr : bio.Trace [.bget 1 ROOTDEV 1, .acquiresleep 1 b] (f 0) := by
    rw [h0]
    have hget : bio.step boot (.bget 1 ROOTDEV 1) ⟨c, [⟨1, b, .waiting⟩], fun _ => 0⟩ :=
      Step.bget hg
    exact ((Machine.Trace.start rfl).next hget).next
      (Step.acquiresleep mem_cons_self hlock)
  have hpin : ∀ k, bio.step (f k) (.bpin 1 b) (f (k + 1)) := by
    intro k
    change Step (f k) _ (f (k + 1))
    have := Step.bpin (s := f k) (p := 1) (b := b) mem_cons_self
    simpa only [f, update_idem, update_self, Function.iterate_succ_apply']
      using this
  have key : ∀ k, k + 1 < 2 ^ 32 := by
    intro k
    have hs := (hall _ (htr.replicate hpin (k + 1)).reachable).refcnt b
    have hp : (f (k + 1)).pins b = k + 1 := by simp only [f, update_self]
    have hlt : ((f (k + 1)).cache.buf b).refcnt < 2 ^ 32 := by
      simp only [f, Function.iterate_succ_apply', bpin, modify_self]
      exact Nat.mod_lt _ (Nat.two_pow_pos 32)
    omega
  exact absurd (key (2 ^ 32)) (by omega)

end Sharing

end Cinux
