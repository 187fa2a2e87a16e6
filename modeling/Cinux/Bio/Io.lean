import Cinux.Bio.Bcache
import Cinux.System.Program
import Mathlib.Data.Set.Insert

/-!
# Reading and writing blocks through the buffer cache

`bread`, `bwrite` and `brelse` as one process uses them on the root device, over the cache of
`Bio.Bcache` and a disk.  A `bread` of a block whose buffer the process has locked already waits
for ever.

The code indexes `bp->data` without checking, so the memory around the data of a buffer belongs to
the state: `Io.outside n` is what surrounds the data of the buffer of block `n`, by offset.  (In
the kernel this memory belongs to `struct buf`s; what a store there does to them is not
modelled.)

`Io.Holds s held` says that the process holds the buffers `held`.  `Io.Coherent s held dirty` says
in addition that only the buffers `dirty` among them may differ from the disk, and that all other
valid buffers are equal to their disk blocks.
-/

namespace Cinux

open Function Bcache

/-- Why code does not return. -/
inductive Stop where
  | panic (msg : String)
  | deadlock
  deriving DecidableEq

/-- The buffer cache, the disk, and the memory around the data of the buffers.  The disk has a block
for every number, and reading and writing it never fails.  Where it matters that a disk has an end,
the statement asks for a block number below `s_blocks_count`. -/
structure Io where
  cache : Bcache
  disk : ℕ → Block
  outside : ℕ → ℤ → UInt8

/-- Code that uses buffers. -/
abbrev IoM := Program Stop Io

namespace Io

/-- `bread(ROOTDEV, bno)`. -/
def bread (bno : ℕ) : IoM (Fin NBUF) := fun s =>
  match s.cache.bget ROOTDEV bno with
  | none => .error (.panic "bget: no buffers")
  | some (b, c) =>
    if (c.buf b).lock = none then
      .ok (b, { s with
        cache := c.modify b fun x =>
          { x with
            lock := some 0, valid := true, data := if x.valid then x.data else s.disk bno } })
    else .error .deadlock

/-- `bwrite`. -/
def bwrite (b : Fin NBUF) : IoM Unit := fun s =>
  if (s.cache.buf b).lock = none then .error (.panic "bwrite")
  else .ok ((), { s with
    disk := update s.disk (s.cache.buf b).blockno (s.cache.buf b).data })

/-- `brelse`. -/
def brelse (b : Fin NBUF) : IoM Unit := fun s =>
  if (s.cache.buf b).lock = none then .error (.panic "brelse")
  else .ok ((), { s with
    cache := (s.cache.modify b fun x => { x with lock := none }).brelse b })

/-- The data of a buffer. -/
def data (b : Fin NBUF) : IoM Block := fun s => .ok ((s.cache.buf b).data, s)

/-- Change the data of a buffer. -/
def modifyData (b : Fin NBUF) (f : Block → Block) : IoM Unit := fun s =>
  .ok ((), { s with cache := s.cache.modify b fun x => { x with data := f x.data } })

/-- What is stored at `bp->data + i`, wherever that is. -/
def byteAt (s : Io) (b : Fin NBUF) (i : ℤ) : UInt8 :=
  if 0 ≤ i ∧ i < BSIZE then (s.cache.buf b).data.byte i.toNat
  else s.outside (s.cache.buf b).blockno i

/-- `bp->data[i]`. -/
def getByteAt (b : Fin NBUF) (i : ℤ) : IoM UInt8 := fun s => .ok (s.byteAt b i, s)

/-- `bp->data[i] = v`. -/
def setByteAt (b : Fin NBUF) (i : ℤ) (v : UInt8) : IoM Unit := fun s =>
  if 0 ≤ i ∧ i < BSIZE then modifyData b (·.setByte i.toNat v) s
  else .ok ((), { s with
    outside := update s.outside (s.cache.buf b).blockno
      (update (s.outside (s.cache.buf b).blockno) i v) })

/-- `((uint *)bp->data)[k]`. -/
def load (b : Fin NBUF) (k : ℕ) : IoM ℕ := fun s => .ok (le32 (fun i => s.byteAt b i) (4 * k), s)

/-- `((uint *)bp->data)[k] = v`. -/
def store (b : Fin NBUF) (k v : ℕ) : IoM Unit := fun s =>
  if k < BSIZE / 4 then modifyData b (·.setWord k v) s
  else .ok ((), { s with
    outside := update s.outside (s.cache.buf b).blockno fun i =>
      if i / 4 = k then byteOf v (i % 4).toNat else s.outside (s.cache.buf b).blockno i })

/-- The process holds the buffers `held`; no other buffer is in use. -/
structure Holds (s : Io) (held : List (Fin NBUF)) : Prop where
  wf : ∃ l, s.cache.Wf l
  nodup : held.Nodup
  locked : ∀ b ∈ held, (s.cache.buf b).lock ≠ none ∧ (s.cache.buf b).refcnt = 1 ∧
    (s.cache.buf b).valid = true
  free : ∀ b, b ∉ held → (s.cache.buf b).lock = none ∧ (s.cache.buf b).refcnt = 0
  dev : ∀ b, (s.cache.buf b).valid = true → (s.cache.buf b).dev = ROOTDEV

/-- The process holds the buffers `held`; the buffers that are not in `dirty` agree with the
disk. -/
structure Coherent (s : Io) (held : List (Fin NBUF)) (dirty : Set (Fin NBUF)) : Prop where
  wf : ∃ l, s.cache.Wf l
  nodup : held.Nodup
  /-- A buffer that is held is locked, valid and referenced once. -/
  locked : ∀ b ∈ held, (s.cache.buf b).lock ≠ none ∧ (s.cache.buf b).refcnt = 1 ∧
    (s.cache.buf b).valid = true
  /-- No other buffer is locked or referenced. -/
  free : ∀ b, b ∉ held → (s.cache.buf b).lock = none ∧ (s.cache.buf b).refcnt = 0
  dev : ∀ b, (s.cache.buf b).valid = true → (s.cache.buf b).dev = ROOTDEV
  dirty_held : ∀ b ∈ dirty, b ∈ held
  clean : ∀ b, (s.cache.buf b).valid = true → b ∉ dirty →
    (s.cache.buf b).data = s.disk (s.cache.buf b).blockno

variable {s s' : Io} {held : List (Fin NBUF)} {dirty : Set (Fin NBUF)} {b : Fin NBUF} {bno n : ℕ}

/-! ### What the functions do to the buffers -/

theorem Holds.blockno_inj (h : s.Holds held) {x y : Fin NBUF}
    (hx : (s.cache.buf x).valid = true) (hy : (s.cache.buf y).valid = true)
    (he : (s.cache.buf x).blockno = (s.cache.buf y).blockno) : x = y := by
  obtain ⟨l, hl⟩ := h.wf
  exact hl.valid_unique hx hy (by rw [Buf.tag, Buf.tag, h.dev x hx, h.dev y hy, he])

theorem Holds.perm {held' : List (Fin NBUF)} (h : s.Holds held) (hp : held.Perm held') :
    s.Holds held' :=
  ⟨h.wf, hp.nodup_iff.1 h.nodup, fun b hb => h.locked b (hp.mem_iff.2 hb),
    fun b hb => h.free b fun hm => hb (hp.mem_iff.1 hm), h.dev⟩

/-- What a `bread` that returns has done: it shows the block as it was cached, or as it is on the
disk. -/
theorem Holds.bread_ok (h : s.Holds held) (hr : bread bno s = .ok (b, s')) :
    b ∉ held ∧ s'.Holds (b :: held) ∧ s'.disk = s.disk ∧ s'.outside = s.outside ∧
      (s'.cache.buf b).blockno = bno ∧
      ((s'.cache.buf b).data = s.disk bno ∨ ((s.cache.buf b).valid = true ∧
        (s.cache.buf b).blockno = bno ∧ (s'.cache.buf b).data = (s.cache.buf b).data)) ∧
      ∀ x, x ≠ b → s'.cache.buf x = s.cache.buf x := by
  obtain ⟨l, hl⟩ := h.wf
  unfold bread at hr
  cases hg : s.cache.bget ROOTDEV bno with
  | none => simp [hg] at hr
  | some r =>
    obtain ⟨b', c⟩ := r
    simp only [hg] at hr
    split_ifs at hr with hlock
    obtain ⟨rfl, rfl⟩ : b' = b ∧ _ = s' := by simpa using hr
    obtain ⟨htag, hlock', href, hvalid, hother⟩ := hl.order.bget_buf hg
    have hout : b' ∉ held := fun hm => (h.locked b' hm).1 (hlock' ▸ hlock)
    have hone : (c.buf b').refcnt = 1 := by
      rw [href, (h.free b' hout).2]
      rfl
    have hdev : (c.buf b').dev = ROOTDEV ∧ (c.buf b').blockno = bno := by
      simpa [Buf.tag] using htag
    refine ⟨hout, ⟨⟨l, ?_⟩, ?_, ?_, ?_, ?_⟩, rfl, rfl, ?_, ?_, ?_⟩
    · dsimp only
      refine (hl.bget hg).modify ?_ ?_
      · rw [hone]
        exact one_ne_zero
      · rfl
    · exact List.nodup_cons.2 ⟨hout, h.nodup⟩
    · intro x hx
      by_cases hxb : x = b'
      · subst hxb
        simp [hone]
      · simp only [modify_ne _ hxb, hother x hxb]
        exact h.locked x (by simpa [hxb] using hx)
    · intro x hx
      have hxb : x ≠ b' := fun e => hx (by simp [e])
      simp only [modify_ne _ hxb, hother x hxb]
      exact h.free x fun hm => hx (by simp [hm])
    · intro x hx
      by_cases hxb : x = b'
      · subst hxb
        simpa using hdev.1
      · simp only [modify_ne _ hxb, hother x hxb] at hx ⊢
        exact h.dev x hx
    · simpa using hdev.2
    · by_cases hv : (c.buf b').valid = true
      · have hold := hvalid hv
        have hbno := hdev.2
        rw [hold] at hv hbno
        refine .inr ⟨hv, hbno, ?_⟩
        simp [hold, show (s.cache.buf b').valid = true from hv]
      · refine .inl ?_
        simp [hv]
    · intro x hxb
      simp only [modify_ne _ hxb, hother x hxb]

theorem Holds.exists_bread (h : s.Holds held)
    (hbno : ∀ b ∈ held, (s.cache.buf b).blockno ≠ bno) (hlen : held.length < NBUF) :
    ∃ b s', bread bno s = .ok (b, s') := by
  obtain ⟨l, hl⟩ := h.wf
  unfold bread
  cases hg : s.cache.bget ROOTDEV bno with
  | none =>
    -- some buffer is not held, and that one is free
    obtain ⟨x, hx⟩ : ∃ x, x ∉ held := by
      by_contra hall
      push Not at hall
      have := (List.subperm_of_subset hl.order.nodup fun x _ => hall x).length_le
      rw [hl.order.length] at this
      omega
    exact absurd (h.free x hx).2 (hl.order.bget_eq_none hg x)
  | some r =>
    obtain ⟨b, c⟩ := r
    have hout : b ∉ held := by
      intro hm
      obtain ⟨_, _, -, ht, -⟩ | ⟨-, href, -⟩ := hl.order.bget_cases hg
      · exact hbno b hm (by simpa [Buf.tag] using congrArg Prod.snd ht)
      · simp [(h.locked b hm).2.1] at href
    have hlock : (c.buf b).lock = none := (hl.order.bget_buf hg).2.1.trans (h.free b hout).1
    simp [hlock]

/-- Changing the data of a buffer that is held. -/
theorem Holds.modify_data (h : s.Holds held) (hb : b ∈ held) (f : Block → Block) :
    Holds { s with cache := s.cache.modify b fun x => { x with data := f x.data } } held := by
  obtain ⟨l, hl⟩ := h.wf
  have hfields : ∀ x, ((s.cache.modify b fun x => { x with data := f x.data }).buf x).lock =
      (s.cache.buf x).lock ∧
      ((s.cache.modify b fun x => { x with data := f x.data }).buf x).refcnt =
        (s.cache.buf x).refcnt ∧
      ((s.cache.modify b fun x => { x with data := f x.data }).buf x).valid =
        (s.cache.buf x).valid ∧
      ((s.cache.modify b fun x => { x with data := f x.data }).buf x).dev =
        (s.cache.buf x).dev := by
    intro x
    by_cases hx : x = b
    · subst hx
      simp
    · rw [modify_ne _ hx]
      exact ⟨rfl, rfl, rfl, rfl⟩
  refine ⟨⟨l, ?_⟩, h.nodup, fun x hx => ?_, fun x hx => ?_, fun x hx => ?_⟩
  · dsimp only
    refine hl.modify ?_ ?_
    · rw [(h.locked b hb).2.1]
      exact one_ne_zero
    · rfl
  · obtain ⟨h1, h2, h3, -⟩ := hfields x
    rw [h1, h2, h3]
    exact h.locked x hx
  · obtain ⟨h1, h2, -⟩ := hfields x
    rw [h1, h2]
    exact h.free x hx
  · obtain ⟨-, -, h3, h4⟩ := hfields x
    rw [h3] at hx
    rw [h4]
    exact h.dev x hx

/-- `brelse` of a buffer that is held gives it back. -/
theorem Holds.brelse_ok (h : s.Holds held) (hb : b ∈ held) :
    ∃ s', brelse b s = .ok ((), s') ∧ s'.Holds (held.erase b) ∧ s'.disk = s.disk ∧
      s'.outside = s.outside ∧
      s'.cache.buf b = { s.cache.buf b with lock := none, refcnt := 0 } ∧
      ∀ x, x ≠ b → s'.cache.buf x = s.cache.buf x := by
  obtain ⟨l, hl⟩ := h.wf
  obtain ⟨hlock, href, hvalid⟩ := h.locked b hb
  have hused : ((s.cache.modify b fun x => { x with lock := none }).buf b).refcnt ≠ 0 := by
    simp [href]
  have hl' : (s.cache.modify b fun x => { x with lock := none }).Wf l :=
    hl.modify (by rw [href]; exact one_ne_zero) rfl
  have hother : ∀ x, x ≠ b →
      ((s.cache.modify b fun x => { x with lock := none }).brelse b).buf x = s.cache.buf x := by
    intro x hx
    rw [brelse_buf_ne hx, modify_ne _ hx]
  have hself : ((s.cache.modify b fun x => { x with lock := none }).brelse b).buf b =
      { s.cache.buf b with lock := none, refcnt := 0 } := by
    simp [href, decr]
  refine ⟨_, if_neg hlock, ⟨hl'.brelse hused, h.nodup.erase b, fun x hx => ?_, fun x hx => ?_,
    fun x hx => ?_⟩, rfl, rfl, hself, hother⟩
  · have hxb : x ≠ b := ((h.nodup.mem_erase_iff).1 hx).1
    rw [hother x hxb]
    exact h.locked x (List.mem_of_mem_erase hx)
  · by_cases hxb : x = b
    · subst hxb
      rw [hself]
      exact ⟨rfl, rfl⟩
    · rw [hother x hxb]
      exact h.free x fun hm => hx ((h.nodup.mem_erase_iff).2 ⟨hxb, hm⟩)
  · by_cases hxb : x = b
    · subst hxb
      rw [hself]
      exact h.dev x hvalid
    · rw [hother x hxb] at hx ⊢
      exact h.dev x hx

/-! ### Clean buffers -/

theorem Coherent.holds (h : s.Coherent held dirty) : s.Holds held :=
  ⟨h.wf, h.nodup, h.locked, h.free, h.dev⟩

theorem Holds.coherent (h : s.Holds held) (hheld : ∀ b ∈ dirty, b ∈ held)
    (hclean : ∀ b, (s.cache.buf b).valid = true → b ∉ dirty →
      (s.cache.buf b).data = s.disk (s.cache.buf b).blockno) : s.Coherent held dirty :=
  ⟨h.wf, h.nodup, h.locked, h.free, h.dev, hheld, hclean⟩

theorem Coherent.blockno_inj (h : s.Coherent held dirty) {x y : Fin NBUF}
    (hx : (s.cache.buf x).valid = true) (hy : (s.cache.buf y).valid = true)
    (he : (s.cache.buf x).blockno = (s.cache.buf y).blockno) : x = y :=
  h.holds.blockno_inj hx hy he

theorem Coherent.bread_held (h : s.Coherent held dirty) (hb : b ∈ held)
    (hbno : (s.cache.buf b).blockno = bno) : bread bno s = .error .deadlock := by
  obtain ⟨l, hl⟩ := h.wf
  obtain ⟨hlock, href, hvalid⟩ := h.locked b hb
  have htag : (s.cache.buf b).tag = (ROOTDEV, bno) := by rw [Buf.tag, h.dev b hvalid, hbno]
  unfold bread
  rw [hl.bget_used (by omega) htag]
  simp [hlock]

theorem Coherent.bread_ok (h : s.Coherent held dirty) (hr : bread bno s = .ok (b, s')) :
    b ∉ held ∧ s'.Coherent (b :: held) dirty ∧ s'.disk = s.disk ∧ s'.outside = s.outside ∧
      (s'.cache.buf b).blockno = bno ∧ (s'.cache.buf b).data = s.disk bno ∧
      ∀ x ∈ held, s'.cache.buf x = s.cache.buf x := by
  obtain ⟨hout, hh, hd, ho, hbno, hver, hother⟩ := h.holds.bread_ok hr
  have hdata : (s'.cache.buf b).data = s.disk bno := by
    rcases hver with hdata | ⟨hv, hold, hdata⟩
    · exact hdata
    · rw [hdata, ← hold]
      exact h.clean b hv fun hm => hout (h.dirty_held b hm)
  refine ⟨hout, hh.coherent (fun x hx => List.mem_cons_of_mem _ (h.dirty_held x hx)) ?_, hd, ho,
    hbno, hdata, fun x hx => hother x fun e => hout (e ▸ hx)⟩
  intro x hx hdirty
  by_cases hxb : x = b
  · subst hxb
    rw [hdata, hbno, hd]
  · rw [hother x hxb] at hx ⊢
    rw [hd]
    exact h.clean x hx hdirty

theorem Coherent.exists_bread (h : s.Coherent held dirty)
    (hbno : ∀ b ∈ held, (s.cache.buf b).blockno ≠ bno) (hlen : held.length < NBUF) :
    ∃ b s', bread bno s = .ok (b, s') := h.holds.exists_bread hbno hlen

theorem load_eq {k : ℕ} (hk : k < BSIZE / 4) :
    load b k s = .ok ((s.cache.buf b).data.word k, s) := by
  have hbyte : ∀ i < 4, s.byteAt b ((4 * k + i : ℕ) : ℤ) = (s.cache.buf b).data.byte
    (4 * k + i) := by
    intro i hi
    have hin : (0 : ℤ) ≤ (4 * k + i : ℕ) ∧ ((4 * k + i : ℕ) : ℤ) < BSIZE := by
      omega
    rw [byteAt, if_pos hin, Int.toNat_natCast]
  unfold load Block.word le32
  dsimp only
  rw [hbyte 1 (by decide), hbyte 2 (by decide), hbyte 3 (by decide)]
  have h0 := hbyte 0 (by decide)
  rw [Nat.add_zero] at h0
  rw [h0]

theorem Coherent.modify_data (h : s.Coherent held dirty) (hb : b ∈ held) (f : Block → Block) :
    Coherent { s with cache := s.cache.modify b fun x => { x with data := f x.data } } held
      (insert b dirty) := by
  refine (h.holds.modify_data hb f).coherent (fun x hx => ?_) fun x hx hd => ?_
  · rcases Set.mem_insert_iff.1 hx with rfl | hx
    · exact hb
    · exact h.dirty_held x hx
  · have hxb : x ≠ b := fun e => hd (e ▸ Set.mem_insert _ _)
    rw [modify_ne _ hxb] at hx ⊢
    exact h.clean x hx fun hm => hd (Set.mem_insert_of_mem _ hm)

theorem Coherent.bwrite_ok (h : s.Coherent held dirty) (hb : b ∈ held) :
    bwrite b s = .ok ((), { s with
      disk := update s.disk (s.cache.buf b).blockno (s.cache.buf b).data }) ∧
    Coherent { s with
      disk := update s.disk (s.cache.buf b).blockno (s.cache.buf b).data } held
      (dirty \ {b}) := by
  obtain ⟨hlock, -, hvalid⟩ := h.locked b hb
  refine ⟨if_neg hlock, h.wf, h.nodup, h.locked, h.free, h.dev, fun x hx => h.dirty_held x hx.1,
    fun x hx hd => ?_⟩
  dsimp only at hx ⊢
  by_cases hxb : x = b
  · subst hxb
    rw [update_self]
  · have hne : (s.cache.buf x).blockno ≠ (s.cache.buf b).blockno :=
      fun e => hxb (h.blockno_inj hx hvalid e)
    rw [update_of_ne hne]
    exact h.clean x hx fun hm => hd ⟨hm, hxb⟩

theorem Coherent.brelse_ok (h : s.Coherent held dirty) (hb : b ∈ held) (hd : b ∉ dirty) :
    ∃ s', brelse b s = .ok ((), s') ∧ s'.Coherent (held.erase b) dirty ∧ s'.disk = s.disk ∧
      s'.outside = s.outside ∧ ∀ x, x ≠ b → s'.cache.buf x = s.cache.buf x := by
  obtain ⟨s', hr, hh, hdisk, ho, hself, hother⟩ := h.holds.brelse_ok hb
  refine ⟨s', hr, hh.coherent (fun x hx => ?_) fun x hx hx' => ?_, hdisk, ho, hother⟩
  · have hxb : x ≠ b := fun e => hd (e ▸ hx)
    exact (h.nodup.mem_erase_iff).2 ⟨hxb, h.dirty_held x hx⟩
  · by_cases hxb : x = b
    · subst hxb
      rw [hself, hdisk]
      exact h.clean x (h.locked x hb).2.2 hd
    · rw [hother x hxb] at hx ⊢
      rw [hdisk]
      exact h.clean x hx hx'

/-- `data[i]` of the buffer that holds block `n`, before it is read in. -/
def blockByte (s : Io) (n : ℕ) (i : ℤ) : UInt8 :=
  if 0 ≤ i ∧ i < BSIZE then (s.disk n).byte i.toNat else s.outside n i

theorem Coherent.byteAt_eq (h : s.Coherent held dirty) (hb : b ∈ held) (hd : b ∉ dirty) (i : ℤ) :
    s.byteAt b i = s.blockByte (s.cache.buf b).blockno i := by
  unfold byteAt blockByte
  rw [h.clean b (h.locked b hb).2.2 hd]

theorem Coherent.brelse_head (h : s.Coherent (b :: held) ∅) :
    ∃ s', brelse b s = .ok ((), s') ∧ s'.Coherent held ∅ ∧ s'.disk = s.disk ∧
      s'.outside = s.outside ∧ ∀ x, x ≠ b → s'.cache.buf x = s.cache.buf x := by
  have h' := h.brelse_ok List.mem_cons_self (Set.notMem_empty b)
  rwa [List.erase_cons_head] at h'

theorem Coherent.bread_first (h : s.Coherent [] ∅) (n : ℕ) :
    ∃ b s', bread n s = .ok (b, s') ∧ s'.Coherent [b] ∅ ∧ s'.disk = s.disk ∧
      s'.outside = s.outside ∧ (s'.cache.buf b).blockno = n ∧ (s'.cache.buf b).data = s.disk n := by
  obtain ⟨b, s', hr⟩ : ∃ b s', bread n s = .ok (b, s') := h.exists_bread (by simp) (by decide)
  obtain ⟨-, hc, hd, ho, hbno, hdata, -⟩ := h.bread_ok hr
  exact ⟨b, s', hr, hc, hd, ho, hbno, hdata⟩

theorem Coherent.load_clean (h : s.Coherent held dirty) (hb : b ∈ held) (hd : b ∉ dirty) (k : ℕ) :
    load b k s = .ok (le32 (fun i => s.blockByte (s.cache.buf b).blockno i) (4 * k), s) := by
  have hmem : (fun i : ℕ => s.byteAt b i) = fun i : ℕ => s.blockByte (s.cache.buf b).blockno i :=
    funext fun i => h.byteAt_eq hb hd i
  unfold load
  rw [hmem]

theorem blockByte_congr (hd : s'.disk = s.disk) (ho : s'.outside = s.outside) :
    s'.blockByte = s.blockByte := by
  unfold blockByte
  rw [hd, ho]

theorem Coherent.load_of_bread (h : s.Coherent held ∅) (hr : bread n s = .ok (b, s')) (k : ℕ) :
    load b k s' = .ok (le32 (fun i => s.blockByte n i) (4 * k), s') := by
  obtain ⟨-, hc, hd, ho, hbno, -, -⟩ := h.bread_ok hr
  rw [hc.load_clean List.mem_cons_self (Set.notMem_empty b), hbno, blockByte_congr hd ho]

/-- Reading a block in, changing it and writing it back. -/
theorem Coherent.rewrite_ok (h : s.Coherent held ∅)
    (hn : ∀ b ∈ held, (s.cache.buf b).blockno ≠ n) (hlen : held.length < NBUF)
    (f : Block → Block) :
    ∃ s', (do let bp ← bread n; modifyData bp f; bwrite bp; brelse bp : IoM Unit) s =
        .ok ((), s') ∧ s'.Coherent held ∅ ∧
      s'.disk = update s.disk n (f (s.disk n)) ∧ s'.outside = s.outside ∧
      ∀ x ∈ held, s'.cache.buf x = s.cache.buf x := by
  obtain ⟨b, s1, h1⟩ := h.exists_bread hn hlen
  obtain ⟨hb, hc1, hd1, ho1, hbno, hdata, hsame1⟩ := h.bread_ok h1
  have hmem : b ∈ b :: held := by simp
  have hc2 := hc1.modify_data hmem f
  obtain ⟨h3, hc3⟩ := hc2.bwrite_ok hmem
  have hclean : (insert b (∅ : Set (Fin NBUF))) \ {b} = ∅ := by simp
  rw [hclean] at hc3
  obtain ⟨s4, h4, hc4, hd4, ho4, hsame4⟩ := hc3.brelse_ok hmem (Set.notMem_empty b)
  refine ⟨s4, ?_, ?_, ?_, ?_, fun x hx => ?_⟩
  · rw [Program.bind_ok h1, Program.bind_ok rfl, Program.bind_ok h3]
    exact h4
  · rwa [List.erase_cons_head] at hc4
  · rw [hd4]
    simp [hbno, hdata, hd1]
  · rw [ho4]
    exact ho1
  · have hxb : x ≠ b := fun e => hb (e ▸ hx)
    rw [hsame4 x hxb]
    rw [modify_ne _ hxb, hsame1 x hx]

theorem Coherent.with_outside (h : s.Coherent held dirty) (o : ℕ → ℤ → UInt8) :
    Coherent { s with outside := o } held dirty :=
  ⟨h.wf, h.nodup, h.locked, h.free, h.dev, h.dirty_held, h.clean⟩

/-- Setting a byte of a buffer that is held and writing it back. -/
theorem Coherent.setByteAt_bwrite (h : s.Coherent held ∅) (hb : b ∈ held) (i : ℤ) (v : UInt8) :
    ∃ s1 s2, setByteAt b i v s = .ok ((), s1) ∧ bwrite b s1 = .ok ((), s2) ∧ s2.Coherent held ∅ ∧
      s2.disk = update s.disk (s.cache.buf b).blockno
        (if 0 ≤ i ∧ i < BSIZE then (s.disk (s.cache.buf b).blockno).setByte i.toNat v
          else s.disk (s.cache.buf b).blockno) ∧
      (0 ≤ i ∧ i < BSIZE → s2.outside = s.outside) ∧
      ∀ x, (s2.cache.buf x).blockno = (s.cache.buf x).blockno := by
  have hdata := h.clean b (h.locked b hb).2.2 (Set.notMem_empty b)
  unfold setByteAt
  split_ifs with hi
  · have hc := h.modify_data hb (·.setByte i.toNat v)
    obtain ⟨hw, hc'⟩ := hc.bwrite_ok hb
    have hclean : (insert b (∅ : Set (Fin NBUF))) \ {b} = ∅ := by simp
    rw [hclean] at hc'
    refine ⟨_, _, rfl, hw, hc', ?_, fun _ => rfl, fun x => ?_⟩
    · simp [hdata]
    · by_cases hx : x = b
      · subst hx
        simp
      · simp [modify_ne _ hx]
  · have hc := h.with_outside (update s.outside (s.cache.buf b).blockno
      (update (s.outside (s.cache.buf b).blockno) i v))
    obtain ⟨hw, hc'⟩ := hc.bwrite_ok hb
    rw [Set.empty_sdiff] at hc'
    refine ⟨_, _, rfl, hw, hc', ?_, fun hin => absurd hin hi, fun x => rfl⟩
    simp [hdata]

end Io

end Cinux
