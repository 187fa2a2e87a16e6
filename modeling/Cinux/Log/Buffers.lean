import Cinux.Log.Machine
import Mathlib.Data.List.Nodup

/-!
# What the buffers and the disk hold

The invariant of the machine `logging`, and the part of its proof that is about buffers.

* `LogSys.CacheInv` : what the buffers hold.  A block that has been recorded and not yet copied
  home is pinned, so it cannot be read back from the disk too early.
* `LogSys.DiskInv` : what the disk holds at each stage of a commit and of a recovery.

The lemmas `CacheInv.bio`, `CacheInv.overwrite`, `CacheInv.modify`, `CacheInv.record` and
`CacheInv.unpin` say that every kind of step keeps the first part.
-/

namespace Cinux.LogSys

open Function Redo Bcache

/-- The contents of the disk after all transactions, including the current one. -/
def contents (s : LogSys) : ℕ → Block := replay (writes (s.history.flatten ++ s.cur)) s.base

/-- The contents of the disk after the transactions whose header write reached the disk. -/
def committed (s : LogSys) : ℕ → Block := replay (writes s.history.flatten) s.base

/-- The blocks that have been recorded and not yet copied home; they are pinned. -/
def pending (s : LogSys) : List ℕ :=
  match s.phase with
  | .down => []
  | .recovering _ _ => []
  | .installing _ tail => s.lh.drop tail
  | _ => s.lh

/-- The last recovery is complete. -/
def Up (s : LogSys) : Prop :=
  match s.phase with
  | .down => False
  | .recovering _ _ => False
  | _ => True

/-- What a buffer with a home block should hold. -/
def expected (s : LogSys) : ℕ → Block :=
  match s.phase with
  | .down => s.disk
  | .recovering _ _ => s.disk
  | _ => s.contents

/-- The writes that the log on the disk stands for. -/
def logged (L : LogConf) (disk : ℕ → Block) : List (ℕ × Block) :=
  (readHead (disk L.start)).zipIdx.map fun x => (x.1, disk (L.block x.2))

/-- What the buffers hold. -/
structure CacheInv (L : LogConf) (s : LogSys) : Prop where
  sharing : s.sh.Inv
  sequential : s.sh.Sequential
  pins_le : ∀ i, s.sh.pins i ≤ 1
  pins_tag : ∀ i, 0 < s.sh.pins i → ∃ b ∈ s.pending, (s.sh.cache.buf i).tag = (L.dev, b)
  pinned : ∀ b ∈ s.pending, ∃ i, (s.sh.cache.buf i).tag = (L.dev, b) ∧
    (s.sh.cache.buf i).valid = true ∧ 0 < s.sh.pins i
  used : ∀ u ∈ s.sh.uses, (s.sh.cache.buf u.buf).dev = L.dev
  dev : ∀ i, (s.sh.cache.buf i).valid = true → (s.sh.cache.buf i).dev = L.dev
  area : ∀ i b, (s.sh.cache.buf i).valid = true → (s.sh.cache.buf i).blockno = b → L.InArea b →
    s.data i = s.disk b
  home : ∀ i b, (s.sh.cache.buf i).valid = true → (s.sh.cache.buf i).blockno = b → L.Home b →
    s.dirty i = none → s.data i = s.expected b
  dirty : ∀ i p, s.dirty i = some p → (∃ op, (p, op) ∈ s.ops) ∧
    ⟨p, i, .holding⟩ ∈ s.sh.uses ∧ (s.sh.cache.buf i).valid = true

/-- What the header on the disk says at each stage. -/
def HeadOk (L : LogConf) (s : LogSys) : Prop :=
  match s.phase with
  | .down => (∀ b ∈ readHead (s.disk L.start), L.Home b) ∧
      (readHead (s.disk L.start)).length ≤ LOGBLOCKS ∧ (readHead (s.disk L.start)).Nodup
  | .recovering _ _ => readHead (s.disk L.start) = s.lh
  | .installing _ _ => readHead (s.disk L.start) = s.lh
  | _ => readHead (s.disk L.start) = []

/-- The number of log blocks that hold what they should. -/
def copied (s : LogSys) : ℕ :=
  match s.phase with
  | .logging _ tail => tail
  | .installing _ _ => s.lh.length
  | _ => 0

/-- The number of blocks a recovery has copied home. -/
def restored (s : LogSys) : ℕ :=
  match s.phase with
  | .recovering _ tail => tail
  | _ => 0

/-- What the disk holds. -/
structure DiskInv (L : LogConf) (s : LogSys) : Prop where
  lhHome : ∀ b ∈ s.lh, L.Home b
  lhNodup : s.lh.Nodup
  lhLen : s.lh.length ≤ LOGBLOCKS
  head : s.HeadOk L
  landed : s.Up → ∀ b, L.Home b → b ∉ s.pending → s.disk b = s.contents b
  copies : ∀ j b, j < s.copied → s.lh[j]? = some b → s.disk (L.block j) = s.contents b
  replayed : ∀ b, L.Home b → replay ((logged L s.disk).drop s.restored) s.disk b = s.committed b
  recoverable : ∀ b, L.Home b → replay (logged L s.disk) s.disk b = s.committed b
  recorded : ∀ e ∈ s.cur, e.blockno ∈ s.lh
  cur : s.phase ≠ .idle → (∀ p k, s.phase ≠ .logging p k) → s.cur = []
  finishing : ∀ p, s.phase = .finishing p → s.lh = []

variable {L : LogConf} {s s' : LogSys} {p op : ℕ} {i j : Fin NBUF} {b : ℕ}

theorem DiskInv.disk_eq_expected (h : s.DiskInv L) (hb : L.Home b) (hp : b ∉ s.pending) :
    s.disk b = s.expected b := by
  have hl := h.landed
  unfold Up at hl
  unfold expected
  cases hph : s.phase <;> simp only [hph, forall_const] at hl ⊢ <;> exact hl b hb hp

/-! ### Buffers -/

theorem Has.refcnt (hh : s.Has L p i b) (h : s.CacheInv L) : (s.sh.cache.buf i).refcnt ≠ 0 :=
  h.sharing.used hh.holding

theorem Has.blockno (hh : s.Has L p i b) : (s.sh.cache.buf i).blockno = b :=
  congrArg Prod.snd hh.tag

theorem CacheInv.valid_inj (h : s.CacheInv L) (hi : (s.sh.cache.buf i).valid = true)
    (hj : (s.sh.cache.buf j).valid = true)
    (hb : (s.sh.cache.buf i).blockno = (s.sh.cache.buf j).blockno) : i = j := by
  obtain ⟨l, hl⟩ := h.sharing.wf
  refine hl.valid_unique hi hj ?_
  simp only [Buf.tag, h.dev i hi, h.dev j hj, hb]

theorem CacheInv.not_pending (h : s.CacheInv L) (hu : ⟨p, i, .holding⟩ ∈ s.sh.uses)
    (hv : (s.sh.cache.buf i).valid = false) : (s.sh.cache.buf i).blockno ∉ s.pending := by
  intro hb
  obtain ⟨x, ht, hx, hpin⟩ := h.pinned _ hb
  obtain ⟨l, hl⟩ := h.sharing.wf
  have hxi : x = i := by
    refine hl.tag_unique ?_ (h.sharing.used hu) ?_
    · rw [h.sharing.refcnt x]
      omega
    · rw [ht, Buf.tag]
      exact congrArg (·, _) (h.used _ hu).symm
  rw [hxi, hv] at hx
  cases hx

variable {sh : Sharing}

theorem pins_eq {a : BioAct} (hst : Sharing.Step s.sh a sh)
    (ha : a.Allowed L s) : sh.pins = s.sh.pins := by
  cases hst with
  | bpin _ => exact ha.elim
  | bunpin _ => exact ha.elim
  | _ => rfl

/-- The use of buffers by any process. -/
theorem CacheInv.bio {a : BioAct} (h : s.CacheInv L) (hd : s.DiskInv L)
    (hst : Sharing.Step s.sh a sh) (ht : s.sh.Turn a) (ha : a.Allowed L s) :
    CacheInv L { s with sh := sh } := by
  have hpins := pins_eq hst ha
  have hseq := h.sequential.step h.sharing hst ht
  have hbuf := hst.buf_cases h.sharing
  -- a buffer in use is not handed over
  have hkeep : ∀ x, (s.sh.cache.buf x).refcnt ≠ 0 → (sh.cache.buf x).tag = (s.sh.cache.buf x).tag ∧
      ((s.sh.cache.buf x).valid = true → (sh.cache.buf x).valid = true) := by
    intro x hx
    rcases hbuf x with ⟨h1, h2, -⟩ | ⟨-, h0⟩ | ⟨q, d, -, -, -, hf⟩
    · exact ⟨h1, fun hv => h2.trans hv⟩
    · exact absurd h0 hx
    · rw [hf]
      exact ⟨rfl, fun _ => rfl⟩
  -- a buffer that is valid afterwards was valid, with the same contents, or has been filled
  have hvalid : ∀ x, (sh.cache.buf x).valid = true → (sh.cache.buf x).tag = (s.sh.cache.buf x).tag ∧
      ((s.sh.cache.buf x).valid = true ∧ (sh.cache.buf x).data = (s.sh.cache.buf x).data ∨
        (∃ q, ⟨q, x, .holding⟩ ∈ s.sh.uses) ∧ (s.sh.cache.buf x).valid = false ∧
          (sh.cache.buf x).data = s.disk (s.sh.cache.buf x).blockno) := by
    intro x hx
    rcases hbuf x with ⟨h1, h2, h3⟩ | ⟨h1, -⟩ | ⟨q, d, rfl, hq, hv, hf⟩
    · exact ⟨h1, .inl ⟨h2 ▸ hx, h3⟩⟩
    · rw [hx] at h1
      cases h1
    · refine ⟨by rw [hf]; rfl, .inr ⟨⟨q, hq⟩, hv, ?_⟩⟩
      rw [hf]
      exact ha
  have hpinned : ∀ x, 0 < s.sh.pins x → (s.sh.cache.buf x).refcnt ≠ 0 := fun x hx => by
    rw [h.sharing.refcnt x]
    omega
  refine ⟨?_, hseq, hpins ▸ h.pins_le, fun x hx => ?_, fun b hb => ?_, fun u hu => ?_,
    fun x hx => ?_, fun x b hx hb ha => ?_, fun x b hx hb hh hdx => ?_, fun x q hdx => ?_⟩
  · exact h.sharing.step hst (h.sequential.fits h.pins_le) (hseq.fits (hpins ▸ h.pins_le))
  · rw [hpins] at hx
    obtain ⟨b, hb, hbt⟩ := h.pins_tag x hx
    exact ⟨b, hb, (hkeep x (hpinned x hx)).1.trans hbt⟩
  · obtain ⟨x, hxt, hxv, hx⟩ := h.pinned b hb
    obtain ⟨h1, h2⟩ := hkeep x (hpinned x hx)
    exact ⟨x, h1.trans hxt, h2 hxv, hpins ▸ hx⟩
  · rcases hst.mem_uses h.sharing hu with ⟨v, hv, hvu⟩ | ⟨q, dev, blockno, rfl, hut⟩
    · have := (hkeep u.buf (hvu ▸ h.sharing.used hv)).1
      exact (congrArg Prod.fst this).trans (hvu ▸ h.used v hv)
    · exact (congrArg Prod.fst hut).trans ha.1
  · obtain ⟨h1, ⟨hv, -⟩ | ⟨⟨q, hq⟩, -⟩⟩ := hvalid x hx
    · exact (congrArg Prod.fst h1).trans (h.dev x hv)
    · exact (congrArg Prod.fst h1).trans (h.used _ hq)
  · obtain ⟨h1, h2⟩ := hvalid x hx
    have hb' : (s.sh.cache.buf x).blockno = b := (congrArg Prod.snd h1).symm.trans hb
    rcases h2 with ⟨hv, hdata⟩ | ⟨-, -, hdata⟩
    · exact hdata.trans (h.area x b hv hb' ha)
    · exact hdata.trans (by rw [hb'])
  · obtain ⟨h1, h2⟩ := hvalid x hx
    have hb' : (s.sh.cache.buf x).blockno = b := (congrArg Prod.snd h1).symm.trans hb
    rcases h2 with ⟨hv, hdata⟩ | ⟨⟨q, hq⟩, hv, hdata⟩
    · exact hdata.trans (h.home x b hv hb' hh hdx)
    · -- a block read from the disk is not pending, so the disk is up to date
      have hnp := h.not_pending hq hv
      rw [hb'] at hnp hdata
      exact hdata.trans (hd.disk_eq_expected hh hnp)
  · obtain ⟨hop, hq, hv⟩ := h.dirty x q hdx
    refine ⟨hop, hst.holding hq ?_, (hkeep x (h.sharing.used hq)).2 hv⟩
    rintro rfl
    rw [show s.dirty x = none from ha] at hdx
    cases hdx

/-- The buffers have the same uses, tags and valid flags. -/
structure SameUses (s s' : LogSys) : Prop where
  uses : s'.sh.uses = s.sh.uses
  tag : ∀ x, (s'.sh.cache.buf x).tag = (s.sh.cache.buf x).tag
  valid : ∀ x, (s'.sh.cache.buf x).valid = (s.sh.cache.buf x).valid

/-- What is left to show when the uses of the buffers are the same. -/
theorem CacheInv.of_sameUses (h : s.CacheInv L) (hs : SameUses s s') (hsharing : s'.sh.Inv)
    (hseq : s'.sh.Sequential) (hle : ∀ x, s'.sh.pins x ≤ 1)
    (htag : ∀ x, 0 < s'.sh.pins x → ∃ b ∈ s'.pending, (s.sh.cache.buf x).tag = (L.dev, b))
    (hpinned : ∀ b ∈ s'.pending, ∃ x, (s.sh.cache.buf x).tag = (L.dev, b) ∧
      (s.sh.cache.buf x).valid = true ∧ 0 < s'.sh.pins x)
    (hdata : ∀ x b, (s.sh.cache.buf x).valid = true → (s.sh.cache.buf x).blockno = b →
      (L.InArea b → s'.data x = s'.disk b) ∧
        (L.Home b → s'.dirty x = none → s'.data x = s'.expected b))
    (hdirty : ∀ x q, s'.dirty x = some q → (∃ op, (q, op) ∈ s'.ops) ∧
      ⟨q, x, .holding⟩ ∈ s.sh.uses ∧ (s.sh.cache.buf x).valid = true) : s'.CacheInv L where
  sharing := hsharing
  sequential := hseq
  pins_le := hle
  pins_tag x hx := by
    rw [hs.tag]
    exact htag x hx
  pinned b hb := by
    obtain ⟨x, h1, h2, h3⟩ := hpinned b hb
    exact ⟨x, (hs.tag x).trans h1, (hs.valid x).trans h2, h3⟩
  used u hu := (congrArg Prod.fst (hs.tag _)).trans (h.used u (hs.uses ▸ hu))
  dev x hx := (congrArg Prod.fst (hs.tag x)).trans (h.dev x (hs.valid x ▸ hx))
  area x b hx hb := (hdata x b (hs.valid x ▸ hx) ((congrArg Prod.snd (hs.tag x)).symm.trans hb)).1
  home x b hx hb := (hdata x b (hs.valid x ▸ hx) ((congrArg Prod.snd (hs.tag x)).symm.trans hb)).2
  dirty x q hq := by
    obtain ⟨h1, h2, h3⟩ := hdirty x q hq
    exact ⟨h1, hs.uses ▸ h2, (hs.valid x).trans h3⟩

/-! ### Writing to buffers -/

theorem setData_buf (s : LogSys) (i : Fin NBUF) (d : Block) (x : Fin NBUF) :
    (s.setData i d).sh.cache.buf x =
      if x = i then { s.sh.cache.buf i with data := d } else s.sh.cache.buf x := by
  by_cases hx : x = i
  · subst hx
    simp [setData]
  · simp [setData, hx, modify_ne _ hx]

theorem setData_valid (s : LogSys) (i : Fin NBUF) (d : Block) (x : Fin NBUF) :
    ((s.setData i d).sh.cache.buf x).valid = (s.sh.cache.buf x).valid := by
  rw [setData_buf]; split_ifs with hx <;> simp [hx]

theorem setData_tag (s : LogSys) (i : Fin NBUF) (d : Block) (x : Fin NBUF) :
    ((s.setData i d).sh.cache.buf x).tag = (s.sh.cache.buf x).tag := by
  rw [setData_buf]; split_ifs with hx <;> simp [hx, Buf.tag]

theorem setData_lock (s : LogSys) (i : Fin NBUF) (d : Block) (x : Fin NBUF) :
    ((s.setData i d).sh.cache.buf x).lock = (s.sh.cache.buf x).lock := by
  rw [setData_buf]; split_ifs with hx <;> simp [hx]

theorem setData_data (s : LogSys) (i : Fin NBUF) (d : Block) (x : Fin NBUF) :
    (s.setData i d).data x = if x = i then d else s.data x := by
  unfold data; rw [setData_buf]; split_ifs <;> rfl

theorem sharing_setData (h : s.sh.Inv) (hu : ⟨p, i, .holding⟩ ∈ s.sh.uses) (d : Block) :
    (s.setData i d).sh.Inv :=
  h.of_modify hu (fun _ => by rfl) (fun _ => by rfl) fun _ => by rfl

theorem sequential_setData (h : s.sh.Sequential) (i : Fin NBUF) (d : Block) :
    (s.setData i d).sh.Sequential :=
  ⟨h.pid, h.single, fun x => by rw [setData_lock]; exact h.held x⟩

theorem sameUses_setData (s : LogSys) (i : Fin NBUF) (d : Block) : SameUses s (s.setData i d) :=
  ⟨rfl, setData_tag s i d, setData_valid s i d⟩

/-- A buffer is overwritten and written to its block at once. -/
theorem CacheInv.overwrite (h : s.CacheInv L) (hh : s.Has L p i b) {d : Block}
    (hsh : s'.sh = (s.setData i d).sh) (hdisk : s'.disk = update s.disk b d)
    (hdirty : s'.dirty = s.dirty) (hops : s'.ops = s.ops) (hpend : s'.pending = s.pending)
    (hexp : ∀ b', L.Home b' → s'.expected b' = if b' = b then d else s.expected b') :
    s'.CacheInv L := by
  have hdata : ∀ x, s'.data x = if x = i then d else s.data x := by
    intro x
    rw [← setData_data, data, hsh]
    rfl
  have hpins : s'.sh.pins = s.sh.pins := by rw [hsh]; rfl
  have hsame := sameUses_setData s i d
  refine h.of_sameUses ⟨hsh ▸ hsame.uses, hsh ▸ hsame.tag, hsh ▸ hsame.valid⟩
    (by rw [hsh]; exact sharing_setData h.sharing hh.holding d)
    (by rw [hsh]; exact sequential_setData h.sequential i d) (by rw [hpins]; exact h.pins_le)
    (by rw [hpins, hpend]; exact h.pins_tag) (by rw [hpins, hpend]; exact h.pinned)
    (fun x b' hx hxb => ?_) (by rw [hdirty, hops]; exact h.dirty)
  -- the only valid buffer for `b` is `i`
  have hiff : x = i ↔ b' = b := by
    refine ⟨fun he => ?_, fun he => ?_⟩
    · rw [← hxb, he, hh.blockno]
    · exact h.valid_inj hx hh.valid (by rw [hxb, he, hh.blockno])
  rw [hdata, hdisk, update_apply]
  by_cases hxi : x = i
  · rw [if_pos hxi, if_pos (hiff.1 hxi)]
    exact ⟨fun _ => rfl, fun hhm _ => by rw [hexp b' hhm, if_pos (hiff.1 hxi)]⟩
  · rw [if_neg hxi, if_neg (mt hiff.2 hxi)]
    refine ⟨h.area x b' hx hxb, fun hhm hdx => ?_⟩
    rw [hexp b' hhm, if_neg (mt hiff.2 hxi)]
    exact h.home x b' hx hxb hhm (hdirty ▸ hdx)

theorem CacheInv.frame (h : s.CacheInv L) (hsh : s'.sh = s.sh) (hdisk : s'.disk = s.disk)
    (hdirty : s'.dirty = s.dirty) (hops : ∀ i q, s.dirty i = some q → (∃ op, (q, op) ∈ s.ops) →
      ∃ op, (q, op) ∈ s'.ops) (hpend : s'.pending = s.pending)
    (hexp : ∀ b, L.Home b → s'.expected b = s.expected b) : s'.CacheInv L := by
  have hdata : ∀ x, s'.data x = s.data x := fun x => by rw [data, hsh]; rfl
  refine h.of_sameUses ⟨by rw [hsh], fun _ => by rw [hsh], fun _ => by rw [hsh]⟩
    (hsh ▸ h.sharing) (hsh ▸ h.sequential) (hsh ▸ h.pins_le)
    (by rw [hsh, hpend]; exact h.pins_tag) (by rw [hsh, hpend]; exact h.pinned)
    (fun x b hx hb => ?_) fun x q hdx => ?_
  · rw [hdata, hdisk, hdirty]
    exact ⟨h.area x b hx hb, fun hh hdx => (h.home x b hx hb hh hdx).trans (hexp b hh).symm⟩
  · obtain ⟨h1, h2⟩ := h.dirty x q (hdirty ▸ hdx)
    exact ⟨hops x q (hdirty ▸ hdx) h1, h2⟩

/-- An operation modifies a block. -/
theorem CacheInv.modify (h : s.CacheInv L) (hop : (p, op) ∈ s.ops) (hh : s.Has L p i b)
    (hb : L.Home b) (d : Block) :
    CacheInv L { s.setData i d with dirty := update s.dirty i (some p) } := by
  have hsame := sameUses_setData s i d
  refine h.of_sameUses ⟨hsame.uses, hsame.tag, hsame.valid⟩
    (sharing_setData h.sharing hh.holding d) (sequential_setData h.sequential i d) h.pins_le
    h.pins_tag h.pinned (fun x b' hx hxb => ?_) fun x q hdx => ?_
  · by_cases hxi : x = i
    · subst hxi
      refine ⟨fun ha => absurd ha (hxb.symm.trans hh.blockno ▸ hb.2), fun _ hdx => ?_⟩
      simp at hdx
    · have hdata := (setData_data s i d x).trans (if_neg hxi)
      refine ⟨fun ha => hdata.trans (h.area x b' hx hxb ha), fun hhm hdx => ?_⟩
      exact hdata.trans (h.home x b' hx hxb hhm ((update_of_ne hxi _ _).symm.trans hdx))
  · by_cases hxi : x = i
    · subst hxi
      cases (update_self x _ s.dirty).symm.trans hdx
      exact ⟨⟨op, hop⟩, hh.holding, hh.valid⟩
    · exact h.dirty x q ((update_of_ne hxi _ _).symm.trans hdx)

theorem pin_buf {a : BioAct} (hst : Sharing.Step s.sh a sh)
    (ha : a = .bpin p i ∨ a = .bunpin i) (x : Fin NBUF) :
    (sh.cache.buf x).tag = (s.sh.cache.buf x).tag ∧
      (sh.cache.buf x).valid = (s.sh.cache.buf x).valid ∧
      (sh.cache.buf x).data = (s.sh.cache.buf x).data := by
  rcases ha with rfl | rfl
  · cases hst with
    | bpin hu =>
      by_cases hx : x = i
      · subst hx
        simp only [bpin, modify_self]
        exact ⟨Buf.tag_refcnt _ _, trivial, trivial⟩
      · simp only [bpin, modify_ne _ hx]
        exact ⟨trivial, trivial, trivial⟩
  · cases hst with
    | bunpin hp =>
      by_cases hx : x = i
      · subst hx
        simp only [bunpin, modify_self]
        exact ⟨Buf.tag_refcnt _ _, trivial, trivial⟩
      · simp only [bunpin, modify_ne _ hx]
        exact ⟨trivial, trivial, trivial⟩

/-- `install_trans` gives the pin of a block back. -/
theorem CacheInv.unpin (h : s.CacheInv L) (hh : s.Has L p i b)
    (hst : Sharing.Step s.sh (.bunpin i) sh) (hsh : s'.sh = sh) (hdisk : s'.disk = s.disk)
    (hdirty : s'.dirty = s.dirty) (hops : s'.ops = s.ops)
    (hpend : ∀ b', b' ∈ s'.pending ↔ b' ∈ s.pending ∧ b' ≠ b)
    (hexp : s'.expected = s.expected) : s'.CacheInv L := by
  subst hsh
  have hbuf := pin_buf (p := p) hst (.inr rfl)
  have hdata : ∀ x, s'.data x = s.data x := fun x => (hbuf x).2.2
  obtain ⟨hpin, hs⟩ : 0 < s.sh.pins i ∧ s'.sh = { s.sh with
      cache := s.sh.cache.bunpin i, pins := update s.sh.pins i (s.sh.pins i - 1) } := by
    generalize s'.sh = sh at hst
    cases hst
    exact ⟨‹_›, rfl⟩
  have hpins : s'.sh.pins = update s.sh.pins i (s.sh.pins i - 1) := by rw [hs]
  have huses : s'.sh.uses = s.sh.uses := by rw [hs]
  have hle : ∀ x, s'.sh.pins x ≤ s.sh.pins x := fun x => by
    rw [hpins, update_apply]
    split_ifs with hx
    · subst hx; omega
    · exact le_rfl
  -- nobody else has a pin for `b`
  have hother : ∀ x b', x ≠ i → 0 < s.sh.pins x → (s.sh.cache.buf x).tag = (L.dev, b') →
      b' ≠ b := by
    rintro x b' hx hp ht rfl
    obtain ⟨l, hl⟩ := h.sharing.wf
    refine hx (hl.tag_unique ?_ (hh.refcnt h) (ht.trans hh.tag.symm))
    rw [h.sharing.refcnt x]
    omega
  have hseq := h.sequential.step h.sharing hst trivial
  have hone : ∀ x, s'.sh.pins x ≤ 1 := fun x => (hle x).trans (h.pins_le x)
  refine h.of_sameUses ⟨huses, fun x => (hbuf x).1, fun x => (hbuf x).2.1⟩
    (h.sharing.step hst (h.sequential.fits h.pins_le) (hseq.fits hone)) hseq hone
    (fun x hx => ?_) (fun b' hb' => ?_) (fun x b' hx hxb => ?_)
    (by rw [hdirty, hops]; exact h.dirty)
  · have hxi : x ≠ i := by
      rintro rfl
      have := h.pins_le x
      rw [hpins, update_self] at hx
      omega
    obtain ⟨b', hb', ht⟩ := h.pins_tag x (hx.trans_le (hle x))
    exact ⟨b', (hpend b').2 ⟨hb', hother x b' hxi (hx.trans_le (hle x)) ht⟩, ht⟩
  · obtain ⟨hb', hne⟩ := (hpend b').1 hb'
    obtain ⟨x, h1, h2, h3⟩ := h.pinned b' hb'
    have hxi : x ≠ i := by
      rintro rfl
      exact hne (congrArg Prod.snd (h1.symm.trans hh.tag))
    exact ⟨x, h1, h2, by rwa [hpins, update_of_ne hxi]⟩
  · rw [hdata, hdisk, hexp, hdirty]
    exact ⟨h.area x b' hx hxb, h.home x b' hx hxb⟩

/-! ### Recording a block -/

section Record

variable {sh : Sharing}

theorem mem_record_lh : b ∈ (s.record op i sh).lh ↔ b ∈ s.lh ∨ b = (s.sh.cache.buf i).blockno := by
  dsimp only [record]
  split_ifs with hb
  · exact ⟨.inl, fun h => h.elim id fun he => he ▸ hb⟩
  · simp

theorem contents_record : (s.record op i sh).contents =
    update s.contents (s.sh.cache.buf i).blockno (s.data i) := by
  dsimp only [contents, record]
  rw [← List.append_assoc, writes, List.map_append, replay_append]
  rfl

/-- The block is pinned when it is recorded for the first time. -/
theorem CacheInv.record (h : s.CacheInv L) (hph : s.phase = .idle) (hh : s.Has L p i b)
    (hst : Sharing.Step s.sh (.bpin p i) sh) : (s.record op i sh).CacheInv L := by
  have hbno := hh.blockno
  have hpend : s.pending = s.lh := by simp [pending, hph]
  have hpend' : (s.record op i sh).pending = (s.record op i sh).lh := by
    simp [pending, LogSys.record, hph]
  have hexp : s.expected = s.contents := by simp [expected, hph]
  have hexp' : (s.record op i sh).expected = update s.contents b (s.data i) := by
    have hrec : (s.record op i sh).contents = _ := contents_record
    rw [← hbno, ← hrec]
    simp [expected, LogSys.record, hph]
  have hbuf := pin_buf hst (.inl rfl)
  have hs : sh = { s.sh with
      cache := s.sh.cache.bpin i, pins := update s.sh.pins i (s.sh.pins i + 1) } := by
    cases hst
    rfl
  have hseq := h.sequential.step h.sharing hst trivial
  -- a block recorded for the first time has no pin yet
  have hfree : b ∉ s.lh → s.sh.pins i = 0 := by
    intro hb
    by_contra hp
    obtain ⟨b', hb', ht⟩ := h.pins_tag i (Nat.pos_of_ne_zero hp)
    have : b' = b := congrArg Prod.snd (ht.symm.trans hh.tag)
    exact hb (this ▸ hpend ▸ hb')
  have hsame : ∀ x, ((s.record op i sh).sh.cache.buf x).tag = (s.sh.cache.buf x).tag ∧
      ((s.record op i sh).sh.cache.buf x).valid = (s.sh.cache.buf x).valid ∧
      ((s.record op i sh).sh.cache.buf x).data = (s.sh.cache.buf x).data := by
    intro x
    dsimp only [LogSys.record]
    split_ifs
    · exact ⟨rfl, rfl, rfl⟩
    · exact hbuf x
  have huses : (s.record op i sh).sh.uses = s.sh.uses := by
    dsimp only [LogSys.record]
    split_ifs
    · rfl
    · rw [hs]
  have hpins : ∀ x, (s.record op i sh).sh.pins x = if x = i ∧ b ∉ s.lh then 1 else s.sh.pins x := by
    intro x
    dsimp only [LogSys.record]
    rw [hbno]
    split_ifs with hb hx hx
    · exact absurd hb hx.2
    · rfl
    · rw [hs, hx.1]
      simp [hfree hb]
    · have hxi : x ≠ i := fun he => hx ⟨he, hb⟩
      rw [hs]
      simp [hxi]
  have hle : ∀ x, (s.record op i sh).sh.pins x ≤ 1 := by
    intro x
    rw [hpins]
    split_ifs
    · exact le_rfl
    · exact h.pins_le x
  have hseq' : (s.record op i sh).sh.Sequential := by
    dsimp only [LogSys.record]
    split_ifs
    · exact h.sequential
    · exact hseq
  refine h.of_sameUses ⟨huses, fun x => (hsame x).1, fun x => (hsame x).2.1⟩ ?_ hseq' hle
    (fun x hx => ?_) (fun b' hb' => ?_) (fun x b' hx hxb => ?_) fun x q hdx => ?_
  · have hfits := hseq'.fits hle
    revert hfits
    dsimp only [LogSys.record]
    split_ifs
    · exact fun _ => h.sharing
    · exact fun hfits => h.sharing.step hst (h.sequential.fits h.pins_le) hfits
  · rw [hpins] at hx
    rw [hpend']
    split_ifs at hx with hxi
    · exact ⟨b, mem_record_lh.2 (.inr hbno.symm), hxi.1 ▸ hh.tag⟩
    · obtain ⟨b', hb', ht⟩ := h.pins_tag x hx
      exact ⟨b', mem_record_lh.2 (.inl (hpend ▸ hb')), ht⟩
  · rw [hpend', mem_record_lh, hbno] at hb'
    by_cases hb : b' ∈ s.lh
    · obtain ⟨x, h1, h2, h3⟩ := h.pinned b' (hpend ▸ hb)
      refine ⟨x, h1, h2, ?_⟩
      rw [hpins]
      split_ifs
      · exact Nat.one_pos
      · exact h3
    · obtain rfl : b' = b := hb'.resolve_left hb
      exact ⟨i, hh.tag, hh.valid, by simp [hpins, hb]⟩
  · refine ⟨fun ha => (hsame x).2.2.trans (h.area x b' hx hxb ha), fun hhm hdx => ?_⟩
    rw [hexp']
    refine (hsame x).2.2.trans ?_
    by_cases hxi : x = i
    · subst hxi
      rw [show b' = b from hxb.symm.trans hbno, update_self]
      rfl
    · have hne : b' ≠ b := fun he =>
        hxi (h.valid_inj hx hh.valid (by rw [hbno, ← he]; exact hxb))
      rw [update_of_ne hne, ← hexp]
      exact h.home x b' hx hxb hhm ((update_of_ne hxi _ _).symm.trans hdx)
  · have hxi : x ≠ i := by
      rintro rfl
      cases (update_self x _ s.dirty).symm.trans hdx
    exact h.dirty x q ((update_of_ne hxi _ _).symm.trans hdx)

end Record

end Cinux.LogSys
