import Cinux.Virtio.Chains
import Mathlib.Data.Fintype.Prod

/-!
# The protocol between driver and device

The driver and the device carry out requests as the machine `requests` does: a request is in the
avail ring, with the device, in the used ring, or handled, and its tag is the head of its chain.
`Rings` says where requests of a stage are found, `Inv` collects what holds between steps, and a
lemma for each step shows that it is a step of `requests`.
-/

namespace Cinux

open Function List

namespace Virtio

open Requests

variable {A B : Type}

/-- The heads in the avail ring that the device has not taken, oldest first. -/
def availSlots (s : Virtio A B) : List ℕ :=
  slots (2 ^ 16) s.disk.avail.ring s.lastAvail s.disk.avail.idx

/-- The entries of the used ring that `virtio_disk_intr` has not handled, oldest first. -/
def usedSlots (s : Virtio A B) : List ℕ :=
  slots (2 ^ 16) s.disk.used.ring s.disk.usedIdx s.disk.used.idx

/-- The heads that the device has taken and not completed. -/
def working (s : Virtio A B) : List ℕ := s.taken ++ s.marked ++ s.put.toList

/-- Where the requests are. -/
structure Rings (s : Virtio A B) (φ : ℕ → Option (InFlight A B)) : Prop where
  calls : ∀ h a b, Carries φ h a b ↔ (s.pc a).submitted = some (b, h)
  avail_lt : s.disk.avail.idx < 2 ^ 16
  lastAvail_lt : s.lastAvail < 2 ^ 16
  used_lt : s.disk.used.idx < 2 ^ 16
  usedIdx_lt : s.disk.usedIdx < 2 ^ 16
  queued : ∀ h, h ∈ s.availSlots ↔ At φ .queued h
  taken : ∀ h, h ∈ s.working ↔ At φ .taken h
  completed : ∀ h, h ∈ s.usedSlots ↔ At φ .completed h
  avail_nodup : s.availSlots.Nodup
  working_nodup : s.working.Nodup
  used_nodup : s.usedSlots.Nodup
  put : ∀ h, s.put = some h → s.disk.used.ring (slot NUM s.disk.used.idx) = h
  /-- The device has written the status byte. -/
  status : ∀ i : Fin NUM, i.val ∈ s.marked ∨ s.put = some i.val ∨ i.val ∈ s.usedSlots →
    (s.disk.info i).status = 0
  /-- `b->disk` says that the disk is not done with the buffer. -/
  bufDisk : ∀ h a b st, φ h = some ⟨a, b, st⟩ → (s.bufDisk b = true ↔ st ≠ .handled)

/-- What a process relies on at the point `p`. -/
def Point (s : Virtio A B) : DiskPc B → Prop
  | .rw b _ (.ring _) => s.bufDisk b = true
  | .rw b _ (.notify idx) =>
    s.bufDisk b = true ∧ s.disk.avail.ring (slot NUM s.disk.avail.idx) = idx 0
  | .rw b _ (.finish _) => s.bufDisk b = false
  | .intrHandle => s.usedSlots ≠ []
  | _ => True

/-- What holds between steps, when the requests are those of `φ`. -/
structure Inv (blockno : B → ℕ) (s : Virtio A B) (φ : ℕ → Option (InFlight A B)) : Prop where
  fault : s.fault = none
  locked : s.Locked
  owned : s.Owned
  drafted : ∀ a, s.disk.Drafted blockno (s.pc a)
  point : ∀ a, s.Point (s.pc a)
  rings : s.Rings φ

variable {s s' : Virtio A B} {φ : ℕ → Option (InFlight A B)} {a : A} {blockno : B → ℕ}

/-! ### Requests and chains -/

theorem dvd_index : NUM ∣ 2 ^ 16 := by decide

variable {b : B} {t : ℕ}

theorem Inv.call_of_carries (h : s.Inv blockno φ) (hc : Carries φ t a b) :
    ∃ write pc idx, s.pc a = .rw b write pc ∧ pc.idx = some idx ∧ t = idx 0 ∧
      s.disk.Written blockno b write idx 3 := by
  obtain ⟨write, pc, idx, hpc, hidx, ht, hw⟩ := DiskPc.submitted_cases ((h.rings.calls t a b).1 hc)
  exact ⟨write, pc, idx, hpc, hidx, ht, hw ▸ h.drafted a b write pc idx hpc hidx⟩

theorem Inv.lt_of_carries (h : s.Inv blockno φ) (hc : Carries φ t a b) :
    t < NUM := by
  obtain ⟨write, pc, idx, -, -, rfl, -⟩ := h.call_of_carries hc
  exact (idx 0).isLt

theorem Inv.lt_of_at (h : s.Inv blockno φ) {st : Stage} (ht : At φ st t) : t < NUM := by
  obtain ⟨a, b, e⟩ := ht
  exact h.lt_of_carries ⟨st, e⟩

variable {write : Bool} {idx : Fin 3 → Fin NUM} {pc : RwPc}

theorem Inv.eq_none (h : s.Inv blockno φ) (hpc : s.pc a = .rw b write pc) (hidx : pc.idx = some idx)
    (hhead : pc.head = none) (j : Fin 3) : φ (idx j) = none := by
  cases hφ : φ (idx j) with
  | none => rfl
  | some x =>
    -- the call with this request owns the same descriptor
    obtain ⟨a', b', st⟩ := x
    obtain ⟨write', pc', idx', hpc', hidx', he, -⟩ := h.call_of_carries ⟨st, hφ⟩
    have hsub := (h.rings.calls (idx j) a' b').1 ⟨st, hφ⟩
    have haa : a = a' := by
      refine h.owned.disjoint a a' (idx j) ⟨idx, ?_, j, rfl⟩ ⟨idx', ?_, 0, ?_⟩
      · rw [hpc]
        exact hidx
      · rw [hpc']
        exact hidx'
      · exact (Fin.ext he).symm
    rw [← haa, hpc] at hsub
    simp [DiskPc.submitted, hhead] at hsub

theorem Inv.buf_eq (h : s.Inv blockno φ) (hc : Carries φ t a b) :
    (s.pc a).buf = some b := by
  obtain ⟨write, pc, idx, hpc, -⟩ := h.call_of_carries hc
  rw [hpc]
  rfl

theorem Inv.buf_ne (h : s.Inv blockno φ) {b b' : B} {a' : A} (hpc : s.pc a = .rw b write pc)
    (hhead : pc.head = none) (hc : Carries φ t a' b') : b' ≠ b := by
  rintro rfl
  have haa : a = a' := h.owned.buf a a' b' (by rw [hpc]; rfl) (h.buf_eq hc)
  have hsub := (h.rings.calls t a' b').1 hc
  rw [← haa, hpc] at hsub
  simp [DiskPc.submitted, hhead] at hsub

theorem length_lt {l : List ℕ} (hn : l.Nodup) (hl : ∀ x ∈ l, x < NUM) (ht : t < NUM)
    (hnot : t ∉ l) : l.length < NUM := by
  have hsub : t :: l ⊆ List.range NUM := by
    intro x hx
    rw [mem_range]
    rcases mem_cons.1 hx with rfl | hx
    · exact ht
    · exact hl x hx
  have := (subperm_of_subset (nodup_cons.2 ⟨hnot, hn⟩) hsub).length_le
  rwa [length_cons, length_range] at this

theorem mem_tail_iff {l : List ℕ} {t x : ℕ} (h : (t :: l).Nodup) : x ∈ l ↔ x ≠ t ∧ x ∈ t :: l := by
  rw [← h.mem_erase_iff, erase_cons_head]

theorem Inv.avail_room (h : s.Inv blockno φ) (ht : t < NUM) (hnot : ¬At φ .queued t) :
    gap (2 ^ 16) s.lastAvail s.disk.avail.idx < NUM := by
  have := length_lt h.rings.avail_nodup (fun x hx => h.lt_of_at ((h.rings.queued x).1 hx)) ht
    fun hx => hnot ((h.rings.queued t).1 hx)
  rwa [availSlots, length_slots] at this

theorem Inv.used_room (h : s.Inv blockno φ) (ht : t < NUM) (hnot : ¬At φ .completed t) :
    gap (2 ^ 16) s.disk.usedIdx s.disk.used.idx < NUM := by
  have := length_lt h.rings.used_nodup (fun x hx => h.lt_of_at ((h.rings.completed x).1 hx)) ht
    fun hx => hnot ((h.rings.completed t).1 hx)
  rwa [usedSlots, length_slots] at this

theorem Inv.injective (h : s.Inv blockno φ) (hpc : s.pc a = .rw b write pc)
    (hidx : pc.idx = some idx) {i j : Fin 3} (hij : i ≠ j) : idx i ≠ idx j := by
  refine fun e => hij (h.owned.injective a idx ?_ e)
  rw [hpc]
  exact hidx

theorem Inv.ring_room (h : s.Inv blockno φ) (hpc : s.pc a = .rw b write (.ring idx)) :
    gap (2 ^ 16) s.lastAvail s.disk.avail.idx < NUM := by
  refine h.avail_room (idx 0).isLt fun hq => At.ne_none hq ?_
  exact h.eq_none hpc rfl rfl 0

/-! ### Steps that do not concern requests -/

/-- Nothing changes that a request in flight depends on. -/
structure Calm (s s' : Virtio A B) (φ : ℕ → Option (InFlight A B)) : Prop where
  submitted : ∀ a, (s'.pc a).submitted = (s.pc a).submitted
  availIdx : s'.disk.avail.idx = s.disk.avail.idx
  lastAvail : s'.lastAvail = s.lastAvail
  used : s'.disk.used = s.disk.used
  usedIdx : s'.disk.usedIdx = s.disk.usedIdx
  availSlots : s'.availSlots = s.availSlots
  taken : s'.taken = s.taken
  marked : s'.marked = s.marked
  put : s'.put = s.put
  status : ∀ i : Fin NUM, φ i ≠ none → (s'.disk.info i).status = (s.disk.info i).status
  bufDisk : ∀ h a b st, φ h = some ⟨a, b, st⟩ → s'.bufDisk b = s.bufDisk b

theorem Rings.calm (h : s.Rings φ) (hc : Calm s s' φ) : s'.Rings φ := by
  have hused : s'.usedSlots = s.usedSlots := by
    rw [usedSlots, hc.used, hc.usedIdx]
    rfl
  have hworking : s'.working = s.working := by
    rw [working, hc.taken, hc.marked, hc.put]
    rfl
  refine ⟨fun t a b => ?_, ?_, ?_, ?_, ?_, ?_, ?_, ?_, ?_, ?_, ?_, ?_, fun i hi => ?_,
    fun t a b st ht => ?_⟩
  · rw [hc.submitted]
    exact h.calls t a b
  · rw [hc.availIdx]
    exact h.avail_lt
  · rw [hc.lastAvail]
    exact h.lastAvail_lt
  · rw [hc.used]
    exact h.used_lt
  · rw [hc.usedIdx]
    exact h.usedIdx_lt
  · rw [hc.availSlots]
    exact h.queued
  · rw [hworking]
    exact h.taken
  · rw [hused]
    exact h.completed
  · rw [hc.availSlots]
    exact h.avail_nodup
  · rw [hworking]
    exact h.working_nodup
  · rw [hused]
    exact h.used_nodup
  · rw [hc.put, hc.used]
    exact h.put
  · rw [hc.marked, hc.put, hused] at hi
    have hne : φ i ≠ none := by
      rcases hi with hi | hi | hi
      · exact At.ne_none ((h.taken i).1 (by simp [working, hi]))
      · exact At.ne_none ((h.taken i).1 (by simp [working, hi]))
      · exact At.ne_none ((h.completed i).1 hi)
    rw [hc.status i hne]
    exact h.status i hi
  · rw [hc.bufDisk t a b st ht]
    exact h.bufDisk t a b st ht

variable {p : DiskPc B}

theorem Point.congr (h : s.Point p)
    (hbuf : ∀ b, p.buf = some b → s'.bufDisk b = s.bufDisk b)
    (havail : p.locked = true → s'.disk.avail = s.disk.avail)
    (hused : p.locked = true → s.usedSlots ≠ [] → s'.usedSlots ≠ []) : s'.Point p := by
  cases p with
  | rw b write pc =>
    cases pc with
    | ring idx => exact (hbuf b rfl).trans h
    | notify idx =>
      refine ⟨(hbuf b rfl).trans h.1, ?_⟩
      rw [havail rfl]
      exact h.2
    | finish idx => exact (hbuf b rfl).trans h
    | _ => trivial
  | intrHandle => exact hused rfl h
  | _ => trivial

theorem Point.roused {p p' : DiskPc B} (h : s.Point p) (hp : p.Roused p') : s.Point p' := by
  obtain rfl | rfl := hp
  · exact h
  · cases p with
    | rw b write pc => cases pc <;> exact h
    | _ => exact h

theorem Point.of_submitted (hp : p.submitted = some (b, t))
    (hdone : s.bufDisk b = false) : s.Point p := by
  cases p with
  | rw b' write pc =>
    cases pc with
    | finish idx =>
      cases hp
      exact hdone
    | wait idx | sleepBuf idx | woken idx => trivial
    | _ => cases hp
  | _ => cases hp

theorem point_step (hm : Moved s s' a) (hother : ∀ a', a' ≠ a → s'.Point (s.pc a'))
    (hself : s'.Point (s'.pc a)) (a' : A) : s'.Point (s'.pc a') := by
  by_cases hne : a' = a
  · rw [hne]
    exact hself
  · exact (hother a' hne).roused (hm a' hne)

theorem info_clearInfo (s : Virtio A B) (i j : Fin NUM) :
    ((s.clearInfo i).disk.info j).status = (s.disk.info j).status ∧
      (i ≠ j → ((s.clearInfo i).disk.info j).b = (s.disk.info j).b) := by
  change (update s.disk.info i _ j).status = _ ∧ (_ → (update s.disk.info i _ j).b = _)
  rw [update_apply]
  split_ifs with hij
  · exact ⟨by rw [hij], fun hne => absurd hij.symm hne⟩
  · exact ⟨rfl, fun _ => rfl⟩

section Code

variable [DecidableEq A] {b : B} {write : Bool} {idx : Fin 3 → Fin NUM}

theorem Inv.control (h : s.Inv blockno φ) {l : Option A}
    (hlocked : ({ s with vdiskLock := l }.goto a p).Locked)
    (howned : ({ s with vdiskLock := l }.goto a p).Owned) (hdraft : s.disk.Drafted blockno p)
    (hpoint : s.Point p) (hsub : p.submitted = (s.pc a).submitted) :
    ({ s with vdiskLock := l }.goto a p).Inv blockno φ := by
  have hm : Moved s ({ s with vdiskLock := l }.goto a p) a :=
    moved_goto { s with vdiskLock := l } a p
  have hpc : ({ s with vdiskLock := l }.goto a p).pc a = p := pc_goto _ a p
  refine ⟨h.fault, hlocked, howned, drafted_step h.drafted hm (fun _ _ _ _ => .refl _ _) ?_,
    point_step hm (fun a' _ => ?_) ?_, h.rings.calm ?_⟩
  · rw [hpc]
    exact hdraft
  · exact (h.point a').congr (fun _ _ => rfl) (fun _ => rfl) fun _ hu => hu
  · rw [hpc]
    exact hpoint.congr (fun _ _ => rfl) (fun _ => rfl) fun _ hu => hu
  · refine ⟨fun a' => ?_, rfl, rfl, rfl, rfl, rfl, rfl, rfl, rfl, fun _ _ => rfl,
      fun _ _ _ _ _ => rfl⟩
    by_cases hne : a' = a
    · rw [hne, hpc, hsub]
    · exact (DiskPc.call_eq (hm a' hne).call).2.2

variable {p q : DiskPc B}

theorem Inv.acquire (h : s.Inv blockno φ) (hq : s.pc a = q)
    (hfree : s.vdiskLock = none) (hlocked : p.locked = true) (hcall : p.call = q.call)
    (hdraft : s.disk.Drafted blockno p) (hpoint : s.Point p) :
    ({ s with vdiskLock := some a }.goto a p).Inv blockno φ := by
  have hm : Moved s ({ s with vdiskLock := some a }.goto a p) a :=
    moved_goto { s with vdiskLock := some a } a p
  have hpc : ({ s with vdiskLock := some a }.goto a p).pc a = p := pc_goto _ a p
  subst hq
  refine h.control ?_ (h.owned.same rfl (hm.call ?_)) hdraft hpoint (DiskPc.call_eq hcall).2.2
  · exact h.locked.acquire hm hfree rfl (by rw [hpc, hlocked])
  · rw [hpc, hcall]

theorem Inv.release (h : s.Inv blockno φ) (hq : s.pc a = q)
    (hold : q.locked = true) (hlocked : p.locked = false) (hcall : p.call = q.call)
    (hdraft : s.disk.Drafted blockno p) (hpoint : s.Point p) :
    (s.release a p).Inv blockno φ := by
  have hm : Moved s (s.release a p) a := moved_goto { s with vdiskLock := none } a p
  have hpc : (s.release a p).pc a = p := pc_goto _ a p
  subst hq
  refine h.control ?_ (h.owned.same rfl (hm.call ?_)) hdraft hpoint (DiskPc.call_eq hcall).2.2
  · exact h.locked.release hm hold rfl ((congrArg DiskPc.locked hpc).trans hlocked)
  · rw [hpc, hcall]

theorem Inv.goto (h : s.Inv blockno φ) (hq : s.pc a = q)
    (hlocked : p.locked = q.locked) (hcall : p.call = q.call) (hdraft : s.disk.Drafted blockno p)
    (hpoint : s.Point p) :
    (s.goto a p).Inv blockno φ := by
  have hm : Moved s (s.goto a p) a := moved_goto s a p
  have hpc : (s.goto a p).pc a = p := pc_goto s a p
  subst hq
  refine h.control ?_ (h.owned.same rfl (hm.call ?_)) hdraft hpoint
    (DiskPc.call_eq hcall).2.2
  · exact h.locked.keep hm rfl (by rw [hpc, hlocked])
  · rw [hpc, hcall]

/-- A call begins. -/
theorem Inv.call (h : s.Inv blockno φ) (write : Bool) (hidle : s.pc a = .idle)
    (hb : ∀ a', (s.pc a').buf ≠ some b) :
    (s.goto a (.rw b write .acquire)).Inv blockno φ := by
  have hm : Moved s (s.goto a (.rw b write .acquire)) a := moved_goto s a _
  have hpc : (s.goto a (.rw b write .acquire)).pc a = .rw b write .acquire := pc_goto s a _
  have hidx : ∀ a', ((s.goto a (.rw b write .acquire)).pc a').idx = (s.pc a').idx := by
    intro a'
    by_cases hne : a' = a
    · rw [hne, hpc, hidle]
      rfl
    · exact (DiskPc.call_eq (hm a' hne).call).2.1
  have hbuf : ∀ {a' b'}, ((s.goto a (.rw b write .acquire)).pc a').buf = some b' →
      a' = a ∧ b' = b ∨ a' ≠ a ∧ (s.pc a').buf = some b' := by
    intro a' b' h'
    by_cases hne : a' = a
    · rw [hne, hpc] at h'
      exact .inl ⟨hne, (Option.some.inj h').symm⟩
    · rw [(DiskPc.call_eq (hm a' hne).call).1] at h'
      exact .inr ⟨hne, h'⟩
  refine h.control ?_ ⟨fun a1 a2 b' h1 h2 => ?_, fun a' i hi => ?_,
    fun a1 a2 d h1 h2 => ?_, fun d => ?_⟩ (Disk.drafted_of_idx rfl) trivial ?_
  · exact h.locked.keep hm rfl (by rw [hpc, hidle]; rfl)
  · rcases hbuf h1 with ⟨hne1, hb1⟩ | ⟨-, hb1⟩
    · rcases hbuf h2 with ⟨hne2, -⟩ | ⟨-, hb2⟩
      · exact hne1.trans hne2.symm
      · exact absurd (hb1 ▸ hb2) (hb a2)
    · rcases hbuf h2 with ⟨-, hb2⟩ | ⟨-, hb2⟩
      · exact absurd (hb2 ▸ hb1) (hb a1)
      · exact h.owned.buf a1 a2 b' hb1 hb2
  · exact h.owned.injective a' i ((hidx a').symm.trans hi)
  · exact h.owned.disjoint a1 a2 d ((owns_congr (hidx a1) d).1 h1) ((owns_congr (hidx a2) d).1 h2)
  · exact (h.owned.free_iff d).trans (exists_congr fun a' => (owns_congr (hidx a') d).symm)
  · rw [hidle]
    rfl

/-- The call of `a` writes to its own descriptors, to its buffer and behind the avail ring. -/
theorem Inv.writes (h : s.Inv blockno φ) {pc pc' : RwPc}
    {d : Disk B} {f : B → Bool} (hpc : s.pc a = .rw b write pc)
    (hidx : pc.idx = some idx) (hhead : pc.head = none) (hlk : pc.locked = true)
    (hidx' : pc'.idx = some idx) (hhead' : pc'.head = none) (hlk' : pc'.locked = true)
    (hfree : d.free = s.disk.free) (hused : d.used = s.disk.used)
    (husedIdx : d.usedIdx = s.disk.usedIdx) (havail : d.avail.idx = s.disk.avail.idx)
    (hslots : slots (2 ^ 16) d.avail.ring s.lastAvail d.avail.idx = s.availSlots)
    (hdesc : ∀ i, (∀ j, idx j ≠ i) → s.disk.Agrees d i ∧ (d.info i).status = (s.disk.info i).status)
    (hbuf : ∀ b', b' ≠ b → f b' = s.bufDisk b')
    (hw : d.Written blockno b write idx pc'.written)
    (hpoint : ({ s with disk := d, bufDisk := f } : Virtio A B).Point (.rw b write pc')) :
    ({ s with disk := d, bufDisk := f }.goto a (.rw b write pc')).Inv blockno φ := by
  have hm : Moved s ({ s with disk := d, bufDisk := f }.goto a (.rw b write pc')) a :=
    moved_goto { s with disk := d, bufDisk := f } a _
  have hpc' : ({ s with disk := d, bufDisk := f }.goto a (.rw b write pc')).pc a =
      .rw b write pc' := pc_goto _ a _
  have hcall : (.rw b write pc' : DiskPc B).call = (s.pc a).call := by
    rw [hpc]
    simp only [DiskPc.call, DiskPc.buf, DiskPc.idx, DiskPc.submitted, hidx, hidx', hhead, hhead']
  have hlocked : (s.pc a).locked = true := by
    rw [hpc]
    exact hlk
  have hown : ∀ a' i, a' ≠ a → s.Owns a' i → ∀ j, idx j ≠ i := by
    rintro a' i hne ho j rfl
    refine hne (h.owned.disjoint a' a (idx j) ho ⟨idx, ?_, j, rfl⟩)
    rw [hpc]
    exact hidx
  refine ⟨h.fault, h.locked.keep hm rfl ?_, h.owned.same hfree (hm.call (by rw [hpc', hcall])),
    drafted_step h.drafted hm (fun a' i hne ho => (hdesc i (hown a' i hne ho)).1) ?_,
    point_step hm (fun a' hne => ?_) ?_, h.rings.calm ⟨fun a' => ?_, havail, rfl, hused, husedIdx,
      hslots, rfl, rfl, rfl, fun i hi => ?_, fun t a' b' st ht => ?_⟩⟩
  · rw [hpc', hlocked]
    exact hlk'
  · rw [hpc']
    intro b' write' pc'' idx' e hi
    cases e
    obtain rfl := Option.some.inj (hidx'.symm.trans hi)
    exact hw
  · refine (h.point a').congr (fun b' hb' => hbuf b' ?_) (fun hl => ?_) fun hl => ?_
    · -- another call is on another buffer, and does not hold the lock
      rintro rfl
      exact hne (h.owned.buf a' a b' hb' (by rw [hpc]; rfl))
    · exact absurd (h.locked.unique hl hlocked) hne
    · exact absurd (h.locked.unique hl hlocked) hne
  · rw [hpc']
    exact hpoint.congr (fun _ _ => rfl) (fun _ => rfl) fun _ hu => hu
  · exact (DiskPc.call_eq (hm.call (by rw [hpc', hcall]) a')).2.2
  · refine (hdesc i fun j e => hi ?_).2
    rw [← e]
    exact h.eq_none hpc hidx hhead j
  · exact hbuf b' (h.buf_ne hpc hhead ⟨st, ht⟩)

/-! ### `virtio_disk_rw` up to the avail ring -/

theorem Inv.header (h : s.Inv blockno φ) (hpc : s.pc a = .rw b write (.header idx)) :
    ({ s.setDesc (idx 0) (headDesc idx) with
      disk.ops := update s.disk.ops (idx 0) (blkReq blockno b write)
      }.goto a (.rw b write (.data idx))).Inv blockno φ := by
  refine h.writes hpc rfl rfl rfl rfl rfl rfl rfl rfl rfl rfl rfl (fun i hi => ?_)
    (fun _ _ => rfl) ⟨fun _ => ?_, fun hn => ?_, fun hn => ?_⟩ trivial
  · exact ⟨⟨update_of_ne (hi 0).symm _ _, update_of_ne (hi 0).symm _ _, rfl⟩, rfl⟩
  · exact ⟨update_self .., update_self ..⟩
  · exact absurd hn (by decide : ¬2 ≤ 1)
  · exact absurd hn (by decide : ¬3 ≤ 1)

theorem Inv.data (h : s.Inv blockno φ) (hpc : s.pc a = .rw b write (.data idx)) :
    ((s.setDesc (idx 1) (dataDesc b write idx)).goto a (.rw b write (.status idx))).Inv blockno
      φ := by
  have hw := h.drafted a b write _ idx hpc rfl
  have h01 : idx 0 ≠ idx 1 := h.injective hpc rfl (by decide)
  refine h.writes hpc rfl rfl rfl rfl rfl rfl rfl rfl rfl rfl rfl (fun i hi => ?_)
    (fun _ _ => rfl) ⟨fun _ => ?_, fun _ => ?_, fun hn => ?_⟩ trivial
  · exact ⟨⟨update_of_ne (hi 1).symm _ _, rfl, rfl⟩, rfl⟩
  · exact ⟨(update_of_ne h01 _ _).trans (hw.head le_rfl).1, (hw.head le_rfl).2⟩
  · exact update_self ..
  · exact absurd hn (by decide : ¬3 ≤ 2)

theorem Inv.status [DecidableEq B] (h : s.Inv blockno φ)
    (hpc : s.pc a = .rw b write (.status idx)) :
    ((((s.setDesc (idx 2) (statusDesc idx)).setInfo (idx 0) ⟨some b, 0xff⟩).setBufDisk b
      true).goto a (.rw b write (.ring idx))).Inv blockno φ := by
  have hw := h.drafted a b write _ idx hpc rfl
  have h02 : idx 0 ≠ idx 2 := h.injective hpc rfl (by decide)
  have h12 : idx 1 ≠ idx 2 := h.injective hpc rfl (by decide)
  refine h.writes hpc rfl rfl rfl rfl rfl rfl rfl rfl rfl rfl
    rfl (fun i hi => ?_) (fun b' hb => update_of_ne hb _ _)
    ⟨fun _ => ?_, fun _ => ?_, fun _ => ?_⟩ (update_self ..)
  · have hinfo : update s.disk.info (idx 0) ⟨some b, 0xff⟩ i = s.disk.info i :=
      update_of_ne (hi 0).symm _ _
    exact ⟨⟨update_of_ne (hi 2).symm _ _, rfl, congrArg DiskInfo.b hinfo⟩,
      congrArg DiskInfo.status hinfo⟩
  · have hhead := hw.head (by decide : 1 ≤ 2)
    exact ⟨(update_of_ne h02 _ _).trans hhead.1, hhead.2⟩
  · exact (update_of_ne h12 _ _).trans (hw.data le_rfl)
  · refine ⟨update_self .., ?_⟩
    change (update s.disk.info (idx 0) ⟨some b, 0xff⟩ (idx 0)).b = some b
    rw [update_self]

theorem Inv.ring (h : s.Inv blockno φ) (hpc : s.pc a = .rw b write (.ring idx)) :
    ({ s with
      disk.avail.ring := update s.disk.avail.ring (slot NUM s.disk.avail.idx) (idx 0).val
      }.goto a (.rw b write (.notify idx))).Inv blockno φ := by
  have hslots := slots_store dvd_index h.rings.lastAvail_lt h.rings.avail_lt (h.ring_room hpc)
    s.disk.avail.ring (idx 0).val
  refine h.writes hpc rfl rfl rfl rfl rfl rfl rfl rfl rfl rfl hslots
    (fun i _ => ⟨⟨rfl, rfl, rfl⟩, rfl⟩) (fun _ _ => rfl)
    ((h.drafted a b write _ idx hpc rfl).congr fun _ => ⟨rfl, rfl, rfl⟩) ⟨?_, ?_⟩
  · have := h.point a
    rw [hpc] at this
    exact this
  · exact update_self ..

/-- `alloc3_desc` has found three descriptors. -/
theorem Inv.alloc3 (h : s.Inv blockno φ) (hpc : s.pc a = .rw b write .alloc)
    (hinj : Function.Injective idx) (hfree : ∀ j, s.disk.free (idx j) = true) :
    ((((s.reserve (idx 0)).reserve (idx 1)).reserve (idx 2)).goto a
      (.rw b write (.header idx))).Inv blockno φ := by
  set u := ((s.reserve (idx 0)).reserve (idx 1)).reserve (idx 2) with hu
  have hm : Moved s (u.goto a (.rw b write (.header idx))) a := moved_goto u a _
  have hpc' : (u.goto a (.rw b write (.header idx))).pc a = .rw b write (.header idx) :=
    pc_goto u a _
  have hfree' : ∀ d, u.disk.free d = false ↔ s.disk.free d = false ∨ ∃ j, idx j = d := by
    intro d
    rw [hu, free_reserve_eq_false, free_reserve_eq_false, free_reserve_eq_false,
      Fin.exists_fin_succ, Fin.exists_fin_two, or_comm, or_assoc, or_assoc, or_left_comm]
    tauto
  refine ⟨h.fault, h.locked.keep hm rfl ?_, h.owned.alloc hm ?_ ?_ ?_ hinj hfree hfree',
    drafted_step h.drafted hm (fun _ _ _ _ => ⟨rfl, rfl, rfl⟩) ?_,
    point_step hm (fun a' _ => ?_) ?_, h.rings.calm ⟨fun a' => ?_, rfl, rfl, rfl, rfl, rfl, rfl,
      rfl, rfl, fun _ _ => rfl, fun _ _ _ _ _ => rfl⟩⟩
  · rw [hpc', hpc]
    rfl
  · rw [hpc]
    rfl
  · rw [hpc', hpc]
    rfl
  · rw [hpc']
    rfl
  · rw [hpc']
    intro b' write' pc' idx' e hi
    cases e
    exact ⟨fun hn => absurd hn (by decide : ¬1 ≤ 0), fun hn => absurd hn (by decide : ¬2 ≤ 0),
      fun hn => absurd hn (by decide : ¬3 ≤ 0)⟩
  · exact (h.point a').congr (fun _ _ => rfl) (fun _ => rfl) fun _ hu => hu
  · rw [hpc']
    trivial
  · by_cases hne : a' = a
    · rw [hne, hpc', hpc]
      rfl
    · exact (DiskPc.call_eq (hm a' hne).call).2.2

/-- `alloc3_desc` has failed, and the process goes to sleep. -/
theorem Inv.allocFails (h : s.Inv blockno φ) (hpc : s.pc a = .rw b write .alloc)
    (hs : Spared s s') : (s'.release a (.rw b write .sleepFree)).Inv blockno φ := by
  obtain ⟨desc, pc, rfl, hdesc, hroused⟩ := hs
  set u : Virtio A B := { s with disk.desc := desc, pc := pc } with hu
  have hm : Moved s (u.release a (.rw b write .sleepFree)) a := fun a' hne =>
    (hroused a').trans (moved_goto { u with vdiskLock := none } a _ a' hne)
  have hpc' : (u.release a (.rw b write .sleepFree)).pc a = .rw b write .sleepFree := pc_goto _ a _
  have hcall : ((u.release a (.rw b write .sleepFree)).pc a).call = (s.pc a).call := by
    rw [hpc', hpc]
    rfl
  refine ⟨h.fault, h.locked.release hm ?_ rfl ?_, h.owned.same rfl (hm.call hcall),
    drafted_step h.drafted hm (fun a' d _ ho => ⟨?_, rfl, rfl⟩) ?_,
      point_step hm (fun a' _ => ?_) ?_,
    h.rings.calm ⟨fun a' => (DiskPc.call_eq (hm.call hcall a')).2.2, rfl, rfl, rfl, rfl, rfl, rfl,
      rfl, rfl, fun _ _ => rfl, fun _ _ _ _ _ => rfl⟩⟩
  · rw [hpc]
    rfl
  · rw [hpc']
    rfl
  · -- what others own is not free
    exact hdesc d ((h.owned.free_iff d).2 ⟨a', ho⟩)
  · rw [hpc']
    exact Disk.drafted_of_idx rfl
  · exact (h.point a').congr (fun _ _ => rfl) (fun _ => rfl) fun _ hu => hu
  · rw [hpc']
    trivial

/-! ### Submitting a request -/

/-- **The request is submitted** when the index of the avail ring covers its entry. -/
theorem Inv.notify (h : s.Inv blockno φ) (hpc : s.pc a = .rw b write (.notify idx)) :
    Requests.Step φ (.submit a b (idx 0))
        (update φ (idx 0) (some ⟨a, b, .queued⟩)) ∧
      ({ s with disk.avail.idx := (s.disk.avail.idx + 1) % 2 ^ 16 }.goto a
        (.rw b write (.wait idx))).Inv blockno
          (update φ (idx 0) (some ⟨a, b, .queued⟩)) := by
  have hnone : φ (idx 0) = none := h.eq_none hpc rfl rfl 0
  have hnot : ∀ st, ¬At φ st (idx 0) := fun st hst => hst.ne_none hnone
  refine ⟨.submit hnone, ?_⟩
  set u : Virtio A B := { s with disk.avail.idx := (s.disk.avail.idx + 1) % 2 ^ 16 } with hu
  have hm : Moved s (u.goto a (.rw b write (.wait idx))) a := moved_goto u a _
  have hpc' : (u.goto a (.rw b write (.wait idx))).pc a = .rw b write (.wait idx) := pc_goto u a _
  have hpoint : s.bufDisk b = true ∧ s.disk.avail.ring (slot NUM s.disk.avail.idx) = idx 0 := by
    have := h.point a
    rw [hpc] at this
    exact this
  have hroom := h.avail_room (idx 0).isLt (hnot .queued)
  have hslots : (u.goto a (.rw b write (.wait idx))).availSlots =
      s.availSlots ++ [(idx 0).val] := by
    rw [← hpoint.2]
    exact slots_advance dvd_index h.rings.lastAvail_lt h.rings.avail_lt
      (lt_of_le_of_lt (Nat.succ_le_of_lt hroom) (by decide)) s.disk.avail.ring
  have hlocked : (s.pc a).locked = true := by
    rw [hpc]
    rfl
  have hsub : (s.pc a).submitted = none := by
    rw [hpc]
    rfl
  refine ⟨h.fault, h.locked.keep hm rfl ?_, h.owned.congr rfl (fun a' => ?_) fun a' => ?_,
    drafted_step h.drafted hm (fun _ _ _ _ => ⟨rfl, rfl, rfl⟩) ?_,
      point_step hm (fun a' hne => ?_) ?_,
    { h.rings with
      calls := fun t a' b' => ?_
      avail_lt := Nat.mod_lt _ (by decide)
      queued := fun t => ?_
      taken := fun t => ?_
      completed := fun t => ?_
      avail_nodup := ?_
      bufDisk := fun t a' b' st ht => ?_ }⟩
  · rw [hpc', hlocked]
    rfl
  · by_cases hne : a' = a
    · rw [hne, hpc', hpc]
      rfl
    · exact (DiskPc.call_eq (hm a' hne).call).1
  · by_cases hne : a' = a
    · rw [hne, hpc', hpc]
      rfl
    · exact (DiskPc.call_eq (hm a' hne).call).2.1
  · rw [hpc']
    intro b' write' pc' idx' e hi
    cases e
    cases hi
    exact (h.drafted a b write _ idx hpc rfl).congr fun _ => ⟨rfl, rfl, rfl⟩
  · refine (h.point a').congr (fun _ _ => rfl) (fun hl => ?_) fun hl => ?_
    · exact absurd (h.locked.unique hl hlocked) hne
    · exact absurd (h.locked.unique hl hlocked) hne
  · rw [hpc']
    trivial
  · rw [carries_submit hnone, h.rings.calls]
    by_cases hne : a' = a
    · rw [hne, hpc', hsub]
      simp [DiskPc.submitted, RwPc.head, eq_comm, and_comm]
    · rw [(DiskPc.call_eq (hm a' hne).call).2.2]
      simp [hne]
  · rw [hslots, at_update_self, ← h.rings.queued, mem_append, mem_singleton, or_comm]
  · rw [at_update_other (by simp) (hnot .taken)]
    exact h.rings.taken t
  · rw [at_update_other (by simp) (hnot .completed)]
    exact h.rings.completed t
  · rw [hslots]
    refine List.Nodup.append h.rings.avail_nodup (nodup_singleton _) ?_
    rw [disjoint_singleton]
    exact fun hq => hnot .queued ((h.rings.queued _).1 hq)
  · rw [update_apply] at ht
    split_ifs at ht with hh
    · cases ht
      exact iff_of_true hpoint.1 (by simp)
    · exact h.rings.bufDisk t a' b' st ht

/-! ### The end of a request -/

variable [DecidableEq B]

/-- What `virtio_disk_rw` leaves behind. -/
def finished (s : Virtio A B) (a : A) (idx : Fin 3 → Fin NUM) : Virtio A B :=
  ((s.clearInfo (idx 0)).eraseChain idx).release a .idle

theorem moved_finished (s : Virtio A B) (a : A) (idx : Fin 3 → Fin NUM) :
    Moved s (s.finished a idx) a := fun a' hne =>
  (roused_eraseChain (s.clearInfo (idx 0)) idx a').trans (moved_goto _ a _ a' hne)

theorem Inv.rwFinish_eq (h : s.Inv blockno φ) (hpc : s.pc a = .rw b write (.finish idx)) :
    s.rwFinish a b idx = some (.leave a b (idx 0), s.finished a idx) := by
  have hw : s.disk.Written blockno b write idx 3 := h.drafted a b write _ idx hpc rfl
  have hidx : (s.pc a).idx = some idx := by
    rw [hpc]
    rfl
  have hfree : ∀ j, (s.clearInfo (idx 0)).disk.free (idx j) = false := fun j =>
    (h.owned.free_iff (idx j)).2 ⟨a, idx, hidx, j, rfl⟩
  rw [rwFinish, freeChain_eq (s := s.clearInfo (idx 0)) (hw.head (by decide)).1
    (hw.data (by decide)) (hw.status le_rfl).1 (h.owned.injective a idx hidx) hfree]
  rfl

/-- **A call returns** when its request is handled. -/
theorem Inv.finish (h : s.Inv blockno φ) (hpc : s.pc a = .rw b write (.finish idx)) :
    Requests.Step φ (.leave a b (idx 0)) (update φ (idx 0) none) ∧
      (s.finished a idx).Inv blockno (update φ (idx 0) none) := by
  have hidx : (s.pc a).idx = some idx := by
    rw [hpc]
    rfl
  have hsub : (s.pc a).submitted = some (b, (idx 0).val) := by
    rw [hpc]
    rfl
  have hdone : s.bufDisk b = false := by
    have := h.point a
    rw [hpc] at this
    exact this
  obtain ⟨st, hφ⟩ := (h.rings.calls (idx 0) a b).2 hsub
  -- the disk is done with the buffer
  have hst : st = .handled := by
    by_contra hne
    rw [(h.rings.bufDisk _ a b st hφ).2 hne] at hdone
    cases hdone
  subst hst
  refine ⟨.leave hφ, ?_⟩
  have hm := moved_finished s a idx
  have hpc' : (s.finished a idx).pc a = .idle := pc_goto _ a _
  have hother : ∀ st, st ≠ .handled → ∀ t,
      At (update φ (idx 0) none) st t ↔ At φ st t := fun st hne =>
    at_update_other (by simp) (not_at hφ hne.symm)
  refine ⟨h.fault, h.locked.release hm ?_ rfl ?_, h.owned.drop hm hidx ?_ ?_
    (free_eraseChain (s.clearInfo (idx 0)) idx),
    drafted_step h.drafted hm (fun a' d hne ho => ?_) ?_,
    point_step hm (fun a' hne => ?_) ?_,
    { h.rings with
      calls := fun t a' b' => ?_
      queued := fun t => (h.rings.queued t).trans (hother _ (by decide) t).symm
      taken := fun t => (h.rings.taken t).trans (hother _ (by decide) t).symm
      completed := fun t => (h.rings.completed t).trans (hother _ (by decide) t).symm
      status := fun i hi => (info_clearInfo s (idx 0) i).1.trans (h.rings.status i hi)
      bufDisk := fun t a' b' st ht => ?_ }⟩
  · rw [hpc]
    rfl
  · rw [hpc']
    rfl
  · rw [hpc']
    rfl
  · rw [hpc']
    rfl
  · have hne' : ∀ j, idx j ≠ d := by
      rintro j rfl
      exact hne (h.owned.disjoint a' a _ ho ⟨idx, hidx, j, rfl⟩)
    have hag := agrees_eraseChain (s.clearInfo (idx 0)) hne'
    exact ⟨hag.desc, hag.ops, hag.info.trans ((info_clearInfo s (idx 0) d).2 (hne' 0))⟩
  · rw [hpc']
    exact Disk.drafted_of_idx rfl
  · exact (h.point a').congr (fun _ _ => rfl) (fun _ => rfl) fun _ hu => hu
  · rw [hpc']
    trivial
  · rw [carries_leave, h.rings.calls]
    by_cases hne : a' = a
    · rw [hne, hpc', hsub]
      refine iff_of_false ?_ (Option.some_ne_none _).symm
      rintro ⟨ht, e⟩
      exact ht (Prod.mk.inj (Option.some.inj e)).2.symm
    · rw [(DiskPc.call_eq (hm a' hne).call).2.2]
      refine and_iff_right_of_imp ?_
      rintro hs rfl
      -- another call with this head would own its descriptor
      exact hne (congrArg InFlight.caller (Option.some.inj
        (((h.rings.calls _ a' b').2 hs).choose_spec.symm.trans hφ)))
  · rw [update_apply] at ht
    split_ifs at ht with hh
    exact h.rings.bufDisk t a' b' st ht

/-! ### `virtio_disk_intr` -/

/-- What the handler leaves behind when it has found `b` done. -/
def handled (s : Virtio A B) (a : A) (b : B) : Virtio A B :=
  { (s.setBufDisk b false).wakeup (.buf b) with
    disk.usedIdx := (s.disk.usedIdx + 1) % 2 ^ 16 }.goto a .intrTest

theorem moved_handled (s : Virtio A B) (a : A) (b : B) : Moved s (s.handled a b) a := fun a' hne =>
  (roused_wakeup (s.setBufDisk b false) (.buf b) a').trans (moved_goto _ a _ a' hne)

theorem intrHandle_eq {i : Fin NUM} (hid : s.disk.used.ring (slot NUM s.disk.usedIdx) = i)
    (hstatus : (s.disk.info i).status = 0) (hb : (s.disk.info i).b = some b) :
    s.intrHandle a = (.handle i b, s.handled a b) := by
  unfold intrHandle
  simp only [hid, i.isLt, dite_true, Fin.eta, hstatus, hb]
  rfl

/-- **An entry of the used ring is handled**: it names the request of a call whose buffer is in
`disk.info`, and whose status byte is zero. -/
theorem Inv.handle (h : s.Inv blockno φ) (hpc : s.pc a = .intrHandle) :
    ∃ t c b, φ t = some ⟨c, b, .completed⟩ ∧ s.intrHandle a = (.handle t b, s.handled a b) ∧
      (s.handled a b).Inv blockno (update φ t (some ⟨c, b, .handled⟩)) := by
  have hne : s.disk.usedIdx ≠ s.disk.used.idx := by
    intro e
    have := h.point a
    rw [hpc] at this
    refine this ?_
    rw [usedSlots, e, slots_self _ h.rings.used_lt]
  set t := s.disk.used.ring (slot NUM s.disk.usedIdx) with ht
  have hpop : s.usedSlots = t :: slots (2 ^ 16) s.disk.used.ring ((s.disk.usedIdx + 1) % 2 ^ 16)
      s.disk.used.idx := slots_pop dvd_index h.rings.usedIdx_lt h.rings.used_lt hne s.disk.used.ring
  have hmem : t ∈ s.usedSlots := by
    rw [hpop]
    exact mem_cons_self
  obtain ⟨c, b, hφ⟩ := (h.rings.completed t).1 hmem
  obtain ⟨write, pc, idx, hcpc, hidx, hti, hw⟩ := h.call_of_carries ⟨_, hφ⟩
  have hsub : (s.pc c).submitted = some (b, t) := (h.rings.calls t c b).1 ⟨_, hφ⟩
  refine ⟨t, c, b, hφ, ?_, ?_⟩
  · rw [hti]
    refine intrHandle_eq (ht.symm.trans hti) (h.rings.status (idx 0) ?_) (hw.status le_rfl).2
    exact .inr (.inr (hti ▸ hmem))
  have hm := moved_handled s a b
  have hpc' : (s.handled a b).pc a = .intrTest := pc_goto _ a _
  have hcall : ((s.handled a b).pc a).call = (s.pc a).call := by
    rw [hpc', hpc]
    rfl
  have hlocked : (s.pc a).locked = true := by
    rw [hpc]
    rfl
  have hother : ∀ st, st ≠ .handled → st ≠ .completed → ∀ t',
      At (update φ t (some ⟨c, b, .handled⟩)) st t' ↔ At φ st t' := fun st h1 h2 =>
    at_update_other (fun _ _ e => h1 (congrArg InFlight.stage (Option.some.inj e)).symm)
      (not_at hφ h2.symm)
  have hnodup := h.rings.used_nodup
  rw [hpop] at hnodup
  refine ⟨h.fault, h.locked.keep hm rfl ?_, h.owned.same rfl (hm.call hcall),
    drafted_step h.drafted hm (fun _ _ _ _ => ⟨rfl, rfl, rfl⟩) ?_, point_step hm (fun a' hne' => ?_)
    ?_,
    { h.rings with
      calls := fun t' a' b' => ?_
      usedIdx_lt := Nat.mod_lt _ (by decide)
      queued := fun t' => (h.rings.queued t').trans (hother _ (by decide) (by decide) t').symm
      taken := fun t' => (h.rings.taken t').trans (hother _ (by decide) (by decide) t').symm
      completed := fun t' => ?_
      used_nodup := (nodup_cons.1 hnodup).2
      status := fun i hi => h.rings.status i ?_
      bufDisk := fun t' a' b' st ht' => ?_ }⟩
  · rw [hpc', hpc]
    rfl
  · rw [hpc']
    exact Disk.drafted_of_idx rfl
  · by_cases hc : a' = c
    · rw [hc]
      exact Point.of_submitted hsub (update_self ..)
    · refine (h.point a').congr (fun b' hb' => update_of_ne ?_ _ _)
        (fun hl => absurd (h.locked.unique hl hlocked) hne')
        fun hl => absurd (h.locked.unique hl hlocked) hne'
      rintro rfl
      exact hc (h.owned.buf a' c b' hb' (h.buf_eq ⟨_, hφ⟩))
  · rw [hpc']
    trivial
  · rw [carries_move hφ, (DiskPc.call_eq (hm.call hcall a')).2.2]
    exact h.rings.calls t' a' b'
  · rw [at_update_left (by simp), ← h.rings.completed, hpop]
    exact mem_tail_iff hnodup
  · refine hi.imp id (Or.imp id fun hin => ?_)
    rw [hpop]
    exact mem_cons_of_mem _ hin
  · rw [update_apply] at ht'
    split_ifs at ht' with hh
    · cases ht'
      refine iff_of_false ?_ (fun e => e rfl)
      rw [show (s.handled a b).bufDisk b = false from update_self ..]
      exact Bool.false_ne_true
    · rw [show (s.handled a b).bufDisk b' = s.bufDisk b' from update_of_ne ?_ _ _]
      · exact h.rings.bufDisk t' a' b' st ht'
      · rintro rfl
        -- a buffer is in one call, and a call has one request
        obtain rfl := h.owned.buf a' c b' (h.buf_eq ⟨_, ht'⟩) (h.buf_eq ⟨_, hφ⟩)
        have hsub' := (h.rings.calls t' a' b').1 ⟨_, ht'⟩
        exact hh (Prod.mk.inj (Option.some.inj (hsub'.symm.trans hsub))).2

end Code

/-! ### The device -/

theorem Inv.device (h : s.Inv blockno φ) {φ' : ℕ → Option (InFlight A B)}
    (hfault : s'.fault = none) (hpc : s'.pc = s.pc) (hlock : s'.vdiskLock = s.vdiskLock)
    (hfree : s'.disk.free = s.disk.free) (hagree : ∀ i, s.disk.Agrees s'.disk i)
    (hbuf : s'.bufDisk = s.bufDisk) (havail : s'.disk.avail = s.disk.avail)
    (hused : s.usedSlots ≠ [] → s'.usedSlots ≠ []) (hrings : s'.Rings φ') : s'.Inv blockno φ' where
  fault := hfault
  locked a := by
    rw [hlock, hpc]
    exact h.locked a
  owned := h.owned.same hfree fun a => by rw [hpc]
  drafted a := by
    rw [hpc]
    exact (h.drafted a).congr fun idx _ j => hagree (idx j)
  point a := by
    rw [hpc]
    exact (h.point a).congr (fun b _ => congrFun hbuf b) (fun _ => havail) fun _ => hused
  rings := hrings

/-- **The device takes** the oldest request in the avail ring. -/
theorem Inv.devTake (h : s.Inv blockno φ) (hne : s.lastAvail ≠ s.disk.avail.idx) :
    ∃ a b, φ (s.disk.avail.ring (slot NUM s.lastAvail)) = some ⟨a, b, .queued⟩ ∧
      s.devTake.Inv blockno (update φ (s.disk.avail.ring (slot NUM s.lastAvail))
        (some ⟨a, b, .taken⟩)) := by
  set t := s.disk.avail.ring (slot NUM s.lastAvail) with ht
  have hpop : s.availSlots = t :: slots (2 ^ 16) s.disk.avail.ring ((s.lastAvail + 1) % 2 ^ 16)
      s.disk.avail.idx :=
    slots_pop dvd_index h.rings.lastAvail_lt h.rings.avail_lt hne s.disk.avail.ring
  have hnodup := h.rings.avail_nodup
  rw [hpop] at hnodup
  obtain ⟨a, b, hφ⟩ := (h.rings.queued t).1 (by rw [hpop]; exact mem_cons_self)
  have hperm : s.devTake.working.Perm (t :: s.working) := by
    change ((s.taken ++ [t]) ++ s.marked ++ s.put.toList).Perm _
    rw [working, append_assoc, append_assoc, append_assoc, singleton_append]
    exact perm_middle
  have htaken : t ∉ s.working := fun hin =>
    not_at hφ (by decide : Stage.queued ≠ .taken) ((h.rings.taken t).1 hin)
  refine ⟨a, b, hφ, h.device h.fault rfl rfl rfl (fun _ => ⟨rfl, rfl, rfl⟩) rfl rfl id
    { h.rings with
      calls := fun t' a' b' => (carries_move hφ t' a' b').trans (h.rings.calls t' a' b')
      lastAvail_lt := Nat.mod_lt _ (by decide)
      queued := fun t' => ?_
      taken := fun t' => ?_
      completed := fun t' => ?_
      avail_nodup := (nodup_cons.1 hnodup).2
      working_nodup := hperm.nodup_iff.2 (nodup_cons.2 ⟨htaken, h.rings.working_nodup⟩)
      bufDisk := fun t' a' b' st ht' => ?_ }⟩
  · rw [at_update_left (by simp), ← h.rings.queued, hpop]
    exact mem_tail_iff hnodup
  · rw [hperm.mem_iff, at_update_self, ← h.rings.taken, mem_cons]
  · rw [at_update_other (by simp) (not_at hφ (by decide : Stage.queued ≠ .completed))]
    exact h.rings.completed t'
  · rw [update_apply] at ht'
    split_ifs at ht' with hh
    · cases ht'
      exact (h.rings.bufDisk t a b _ hφ).trans (iff_of_true (by decide) (by decide))
    · exact h.rings.bufDisk t' a' b' st ht'

theorem devMark_eq (hw : s.disk.Written blockno b write idx 3) : s.devMark (idx 0) =
      { s.setInfo (idx 0) { s.disk.info (idx 0) with status := 0 } with
        taken := s.taken.erase (idx 0)
        marked := (idx 0).val :: s.marked } := by
  rw [devMark, Disk.chain_eq hw]
  rfl

theorem Inv.devMark (h : s.Inv blockno φ) (ht : t ∈ s.taken) :
    (s.devMark t).Inv blockno φ := by
  obtain ⟨a, b, hφ⟩ := (h.rings.taken t).1 (by simp [working, ht])
  obtain ⟨write, pc, idx, hpc, hidx, rfl, hw⟩ := h.call_of_carries ⟨_, hφ⟩
  rw [devMark_eq hw]
  set info := update s.disk.info (idx 0) { s.disk.info (idx 0) with status := 0 } with hi
  have hb : ∀ i, (info i).b = (s.disk.info i).b := by
    intro i
    rw [hi, update_apply]
    split_ifs with he
    · rw [he]
    · rfl
  have hperm : (s.taken.erase (idx 0) ++ (idx 0).val :: s.marked ++ s.put.toList).Perm s.working :=
    List.Perm.append_right _ (perm_middle.trans ((perm_cons_erase ht).symm.append_right _))
  refine h.device h.fault rfl rfl rfl (fun i => ⟨rfl, rfl, hb i⟩) rfl rfl id
    { h.rings with
      taken := fun t' => hperm.mem_iff.trans (h.rings.taken t')
      working_nodup := hperm.nodup_iff.2 h.rings.working_nodup
      status := fun i hin => ?_ }
  change (info i).status = 0
  rw [hi, update_apply]
  split_ifs with he
  · rfl
  · refine h.rings.status i ?_
    rcases hin with hin | hin
    · rcases mem_cons.1 hin with e | hin
      · exact absurd (Fin.ext e) he
      · exact .inl hin
    · exact .inr hin

/-- The entry is written where no entry stands that has not been handled. -/
theorem Inv.devPut (h : s.Inv blockno φ) (ht : t ∈ s.marked) (hput : s.put = none) :
    (s.devPut t).Inv blockno φ := by
  have hwork : t ∈ s.working := by simp [working, ht]
  have hat := (h.rings.taken t).1 hwork
  have hroom := h.used_room (h.lt_of_at hat) fun hc => by cases hat.unique hc
  have hslots : (s.devPut t).usedSlots = s.usedSlots :=
    slots_store dvd_index h.rings.usedIdx_lt h.rings.used_lt hroom s.disk.used.ring t
  have hperm : (s.devPut t).working.Perm s.working := by
    change (s.taken ++ s.marked.erase t ++ [t]).Perm _
    rw [working, hput, Option.toList_none, append_nil, append_assoc]
    refine List.Perm.append_left _ ?_
    exact (perm_append_singleton t _).trans (perm_cons_erase ht).symm
  refine h.device h.fault rfl rfl rfl (fun i => ⟨rfl, rfl, rfl⟩) rfl rfl (fun hu => hslots ▸ hu)
    { h.rings with
      taken := fun t' => hperm.mem_iff.trans (h.rings.taken t')
      completed := fun t' => by rw [hslots]; exact h.rings.completed t'
      working_nodup := hperm.nodup_iff.2 h.rings.working_nodup
      used_nodup := by rw [hslots]; exact h.rings.used_nodup
      put := fun t' ht' => (update_self ..).trans (Option.some.inj ht')
      status := fun i hin => h.rings.status i ?_ }
  rw [hslots] at hin
  rcases hin with hin | hin | hin
  · exact .inl (mem_of_mem_erase hin)
  · cases hin
    exact .inl ht
  · exact .inr (.inr hin)

/-- **The device completes** the request whose entry it has written. -/
theorem Inv.devPublish (h : s.Inv blockno φ) (hput : s.put = some t) :
    ∃ a b, φ t = some ⟨a, b, .taken⟩ ∧
      s.devPublish.Inv blockno (update φ t (some ⟨a, b, .completed⟩)) := by
  have hworking : s.working = s.taken ++ s.marked ++ [t] := by
    rw [working, hput]
    rfl
  obtain ⟨a, b, hφ⟩ := (h.rings.taken t).1 (by simp [hworking])
  have hnodup := h.rings.working_nodup
  rw [hworking, nodup_append_comm, singleton_append, nodup_cons] at hnodup
  have hnot : t ∉ s.usedSlots := fun hin =>
    not_at hφ (by decide : Stage.taken ≠ .completed) ((h.rings.completed t).1 hin)
  have hroom := h.used_room (h.lt_of_carries ⟨_, hφ⟩)
    (not_at hφ (by decide : Stage.taken ≠ .completed))
  have hslots : s.devPublish.usedSlots = s.usedSlots ++ [t] := by
    rw [← h.rings.put t hput]
    exact slots_advance dvd_index h.rings.usedIdx_lt h.rings.used_lt
      (lt_of_le_of_lt (Nat.succ_le_of_lt hroom) (by decide)) s.disk.used.ring
  have hworking' : s.devPublish.working = s.taken ++ s.marked := append_nil _
  refine ⟨a, b, hφ, h.device h.fault rfl rfl rfl (fun i => ⟨rfl, rfl, rfl⟩) rfl rfl (fun _ => ?_)
    { h.rings with
      calls := fun t' a' b' => (carries_move hφ t' a' b').trans (h.rings.calls t' a' b')
      used_lt := Nat.mod_lt _ (by decide)
      queued := fun t' => ?_
      taken := fun t' => ?_
      completed := fun t' => ?_
      working_nodup := by rw [hworking']; exact hnodup.2
      used_nodup := ?_
      put := fun _ e => by cases e
      status := fun i hin => h.rings.status i ?_
      bufDisk := fun t' a' b' st ht' => ?_ }⟩
  · rw [hslots]
    simp
  · rw [at_update_other (by simp) (not_at hφ (by decide : Stage.taken ≠ .queued))]
    exact h.rings.queued t'
  · rw [at_update_left (by simp), ← h.rings.taken, hworking, hworking']
    constructor
    · intro hin
      refine ⟨?_, mem_append_left _ hin⟩
      rintro rfl
      exact hnodup.1 hin
    · rintro ⟨hne, hin⟩
      exact (mem_append.1 hin).resolve_right fun e => hne (mem_singleton.1 e)
  · rw [hslots, at_update_self, ← h.rings.completed, mem_append, mem_singleton, or_comm]
  · rw [hslots, nodup_append_comm, singleton_append, nodup_cons]
    exact ⟨hnot, h.rings.used_nodup⟩
  · rw [hslots] at hin
    rcases hin with hin | hin | hin
    · exact .inl hin
    · cases hin
    · rcases mem_append.1 hin with hin | hin
      · exact .inr (.inr hin)
      · exact .inr (.inl (hput.trans (congrArg some (mem_singleton.1 hin).symm)))
  · rw [update_apply] at ht'
    split_ifs at ht' with hh
    · cases ht'
      exact (h.rings.bufDisk t a b _ hφ).trans (iff_of_true (by decide) (by decide))
    · exact h.rings.bufDisk t' a' b' st ht'

/-! ### All steps -/

theorem Inv.quiet (h : s'.Inv blockno φ) :
    ∃ φ', Requests.Step φ .quiet φ' ∧ s'.Inv blockno φ' := ⟨φ, .quiet, h⟩

theorem Inv.drafted_at (h : s.Inv blockno φ) {pc pc' : RwPc}
    (hpc : s.pc a = .rw b write pc) (hidx : pc'.idx = pc.idx)
    (hwritten : pc'.written = pc.written) :
    s.disk.Drafted blockno (.rw b write pc') := by
  intro b' write' pc'' idx e hi
  cases e
  rw [hwritten]
  exact h.drafted a b write pc idx hpc (hidx.symm.trans hi)

theorem Inv.usedSlots_ne_nil (h : s.Inv blockno φ) (hne : s.disk.usedIdx ≠ s.disk.used.idx) :
    s.usedSlots ≠ [] := by
  intro hnil
  have hlen : gap (2 ^ 16) s.disk.usedIdx s.disk.used.idx = 0 := by
    rw [← length_slots s.disk.used.ring]
    exact congrArg List.length hnil
  exact hne ((gap_eq_zero h.rings.usedIdx_lt h.rings.used_lt).1 hlen)

theorem inv_start (blockno : B → ℕ) : (start : Virtio A B).Inv blockno fun _ => none := by
  have hpos : 0 < 2 ^ 16 := by decide
  have havail : (start : Virtio A B).availSlots = [] := slots_self _ hpos
  have hused : (start : Virtio A B).usedSlots = [] := slots_self _ hpos
  have hnot : ∀ st t, ¬At (fun _ : ℕ => (none : Option (InFlight A B))) st t :=
    fun st t hat => hat.ne_none rfl
  have howns : ∀ a d, ¬(start : Virtio A B).Owns a d := by
    rintro a d ⟨idx, hidx, -⟩
    cases hidx
  refine ⟨rfl, fun _ => iff_of_false (Option.some_ne_none _).symm Bool.false_ne_true,
    ⟨fun _ _ _ hb => (by cases hb), fun _ _ hi => (by cases hi),
      fun a _ d hd => absurd hd (howns a d),
      fun d => iff_of_false (fun hf => by cases hf) fun ⟨a, ha⟩ => howns a d ha⟩,
    fun _ => Disk.drafted_of_idx rfl, fun _ => trivial,
    ⟨fun t a b => ?_, hpos, hpos, hpos, hpos, fun t => ?_, fun t => ?_, fun t => ?_, ?_,
      nodup_nil, ?_, fun _ hp => (by cases hp), fun _ _ => rfl, fun _ _ _ _ hc => (by cases hc)⟩⟩
  · refine iff_of_false ?_ (Option.some_ne_none _).symm
    rintro ⟨st, hst⟩
    cases hst
  · rw [havail]
    exact iff_of_false not_mem_nil (hnot _ t)
  · exact iff_of_false not_mem_nil (hnot _ t)
  · rw [hused]
    exact iff_of_false not_mem_nil (hnot _ t)
  · rw [havail]
    exact nodup_nil
  · rw [hused]
    exact nodup_nil

section Runs

variable [DecidableEq A] {e : Traffic A B ℕ}

theorem acquire_eq_some (h : s.acquire a p = some (e, s')) :
    s.vdiskLock = none ∧ e = .quiet ∧ s' = { s with vdiskLock := some a }.goto a p := by
  unfold acquire at h
  split_ifs at h with hfree
  cases h
  exact ⟨hfree, rfl, rfl⟩

variable [DecidableEq B]

/-- A step of `virtio_disk_rw`. -/
theorem Inv.rwExec (h : s.Inv blockno φ) (hpc : s.pc a = .rw b write pc)
    (he : s.rwExec blockno a b write pc = some (e, s')) :
    ∃ φ', Requests.Step φ e φ' ∧ s'.Inv blockno φ' := by
  cases pc with
  | acquire =>
    obtain ⟨hfree, rfl, rfl⟩ := acquire_eq_some he
    exact Inv.quiet (h.acquire hpc hfree rfl rfl (Disk.drafted_of_idx rfl) trivial)
  | alloc =>
    cases he
    obtain ⟨u, halloc, hu⟩ | ⟨idx, hinj, hfree, halloc⟩ := s.alloc3Desc_cases
    · rw [rwAlloc, halloc]
      exact (h.allocFails hpc hu).quiet
    · rw [rwAlloc, halloc]
      exact (h.alloc3 hpc hinj hfree).quiet
  | sleepFree => cases he
  | header idx =>
    cases he
    exact (h.header hpc).quiet
  | data idx =>
    cases he
    exact (h.data hpc).quiet
  | status idx =>
    cases he
    exact (h.status hpc).quiet
  | ring idx =>
    cases he
    exact (h.ring hpc).quiet
  | notify idx =>
    cases he
    exact ⟨_, h.notify hpc⟩
  | wait idx =>
    cases he
    split_ifs with hbusy
    · exact Inv.quiet (h.release hpc rfl rfl rfl (h.drafted_at hpc rfl rfl) trivial)
    · have hdone := Bool.eq_false_of_not_eq_true hbusy
      exact Inv.quiet (h.goto hpc rfl rfl (h.drafted_at hpc rfl rfl) hdone)
  | sleepBuf idx => cases he
  | woken idx =>
    obtain ⟨hfree, rfl, rfl⟩ := acquire_eq_some he
    exact Inv.quiet (h.acquire hpc hfree rfl rfl (h.drafted_at hpc rfl rfl) trivial)
  | finish idx =>
    rw [Virtio.rwExec, h.rwFinish_eq hpc] at he
    cases he
    exact ⟨_, h.finish hpc⟩

/-- **Driver and device carry out requests**: every step is one of the life of a request. -/
theorem Inv.step (h : s.Inv blockno φ) (hst : Step blockno s e s') :
    ∃ φ', Requests.Step φ e φ' ∧ s'.Inv blockno φ' := by
  cases hst with
  | call write hidle hb => exact (h.call write hidle hb).quiet
  | interrupt hidle => exact Inv.quiet (h.goto hidle rfl rfl (Disk.drafted_of_idx rfl) trivial)
  | @exec _ a _ he =>
    unfold exec at he
    cases hpc : s.pc a with
    | idle =>
      rw [hpc] at he
      cases he
    | rw b write pc =>
      rw [hpc] at he
      exact h.rwExec hpc he
    | intrAcquire =>
      rw [hpc] at he
      obtain ⟨hfree, rfl, rfl⟩ := acquire_eq_some he
      exact Inv.quiet (h.acquire hpc hfree rfl rfl (Disk.drafted_of_idx rfl) trivial)
    | intrTest =>
      rw [hpc] at he
      cases he
      split_ifs with hempty
      · exact Inv.quiet (h.release hpc rfl rfl rfl (Disk.drafted_of_idx rfl) trivial)
      · have hne := h.usedSlots_ne_nil hempty
        exact Inv.quiet (h.goto hpc rfl rfl (Disk.drafted_of_idx rfl) hne)
    | intrHandle =>
      rw [hpc] at he
      obtain ⟨t, c, b, hφ, heq, hinv⟩ := h.handle hpc
      obtain ⟨rfl, rfl⟩ := Prod.mk.inj (heq.symm.trans (Option.some.inj he))
      exact ⟨_, .handle hφ, hinv⟩
  | @kkill a =>
    refine (h.goto rfl (DiskPc.locked_rouse _) (DiskPc.call_rouse _) (h.drafted a).rouse ?_).quiet
    exact (h.point a).roused (.inr rfl)
  | devTake hne =>
    obtain ⟨a, b, hφ, hinv⟩ := h.devTake hne
    exact ⟨_, .take hφ, hinv⟩
  | devMark ht => exact (h.devMark ht).quiet
  | devPut ht hput => exact (h.devPut ht hput).quiet
  | devPublish hput =>
    obtain ⟨a, b, hφ, hinv⟩ := h.devPublish hput
    exact ⟨_, .complete hφ, hinv⟩

/-! ### The avail ring -/

/-- `virtio_disk_rw` writes the avail ring at one point, and only the slot of its index. -/
theorem Inv.rwExec_ring (h : s.Inv blockno φ) (hpc : s.pc a = .rw b write pc)
    (he : s.rwExec blockno a b write pc = some (e, s')) :
    s'.disk.avail.ring = s.disk.avail.ring ∨ ∃ idx, pc = .ring idx ∧ s'.disk.avail.ring =
      update s.disk.avail.ring (slot NUM s.disk.avail.idx) (idx 0).val := by
  cases pc with
  | acquire | woken idx =>
    obtain ⟨-, -, rfl⟩ := acquire_eq_some he
    exact .inl rfl
  | alloc =>
    cases he
    left
    obtain ⟨u, halloc, desc, pc, rfl, -⟩ | ⟨idx, -, -, halloc⟩ := s.alloc3Desc_cases
    · rw [rwAlloc, halloc]
      rfl
    · rw [rwAlloc, halloc]
      rfl
  | sleepFree | sleepBuf idx => cases he
  | header idx | data idx | status idx | notify idx =>
    cases he
    exact .inl rfl
  | ring idx =>
    cases he
    exact .inr ⟨idx, rfl, rfl⟩
  | wait idx =>
    cases he
    left
    split_ifs
    · rfl
    · rfl
  | finish idx =>
    rw [Virtio.rwExec, h.rwFinish_eq hpc] at he
    cases he
    exact .inl rfl

theorem Inv.step_ring (h : s.Inv blockno φ) (hst : Step blockno s e s') :
    s'.disk.avail.ring = s.disk.avail.ring ∨ ∃ a b write idx, s.pc a = .rw b write (.ring idx) ∧
      s'.disk.avail.ring = update s.disk.avail.ring (slot NUM s.disk.avail.idx) (idx 0).val := by
  cases hst with
  | call | interrupt | kkill | devTake | devPut | devPublish => exact .inl rfl
  | devMark =>
    left
    unfold Virtio.devMark
    split
    · rfl
    · rfl
  | @exec _ a _ he =>
    unfold exec at he
    cases hpc : s.pc a with
    | idle =>
      rw [hpc] at he
      cases he
    | rw b write pc =>
      rw [hpc] at he
      obtain hsame | ⟨idx, rfl, hring⟩ := h.rwExec_ring hpc he
      · exact .inl hsame
      · exact .inr ⟨a, b, write, idx, hpc, hring⟩
    | intrAcquire =>
      rw [hpc] at he
      obtain ⟨-, -, rfl⟩ := acquire_eq_some he
      exact .inl rfl
    | intrTest =>
      rw [hpc] at he
      cases he
      left
      split_ifs
      · rfl
      · rfl
    | intrHandle =>
      rw [hpc] at he
      obtain ⟨t, c, b, -, heq, -⟩ := h.handle hpc
      obtain ⟨-, rfl⟩ := Prod.mk.inj (heq.symm.trans (Option.some.inj he))
      exact .inl rfl

theorem Inv.step_avail (h : s.Inv blockno φ) (hst : Step blockno s e s') {k : ℕ}
    (hk : k < gap (2 ^ 16) s.lastAvail s.disk.avail.idx) :
    s'.disk.avail.ring (slot NUM (s.lastAvail + k)) =
      s.disk.avail.ring (slot NUM (s.lastAvail + k)) := by
  obtain hsame | ⟨a, b, write, idx, hpc, hring⟩ := h.step_ring hst
  · rw [hsame]
  · rw [hring]
    exact update_of_ne (slot_ne_of_gap dvd_index h.rings.lastAvail_lt h.rings.avail_lt
      (h.ring_room hpc) hk) _ _

/-! ### Runs -/

/-- **Refinement**: every run is a run of `requests`, and the invariant holds at its end. -/
theorem exists_requests {tr : List (Traffic A B ℕ)} (htr : (machine A B blockno).Trace tr s) :
    ∃ φ, (requests A B ℕ).Trace tr φ ∧ s.Inv blockno φ := by
  refine htr.simulation ?_ ?_
  · rintro _ rfl
    exact ⟨_, fun _ => rfl, inv_start blockno⟩
  · intro s φ e s' hinv hst
    exact hinv.step hst

/-- A request of one process from its submission to its return, and then two requests at once, of
which the device has completed the one that came second. -/
def threeRequests : List (Move (Fin 3) Bool) :=
  .flatten
    [[.call 0 true true], .replicate 8 (.exec 0), [.take, .mark 0, .put 0, .publish],
      [.interrupt 2], .replicate 4 (.exec 2), .replicate 3 (.exec 0),
      [.call 0 true false, .call 1 false true], .replicate 8 (.exec 1), .replicate 8 (.exec 0),
      [.take, .take, .mark 3, .put 3, .publish]]

theorem reachable_completed : ∃ s, (machine (Fin 3) Bool fun _ => 3).Reachable s ∧
    s.usedSlots = [3] ∧ (s.pc 0).submitted = some (true, 3) ∧
      {a ∈ (.univ : Finset (Fin 3)) | (s.pc a).idx.isSome}.card = 2 := by
  have h : (machine (Fin 3) Bool fun _ => 3).Reachable start := .start rfl
  refine h.play (next _) threeRequests ?_
  decide +kernel

/-- **The virtio block protocol.**  In every run of any number of calls, of interrupts and of the
device, in any interleaving and of any length: nothing panics and no pointer goes astray; a
descriptor is non-free exactly if it is in the chain of exactly one call, and a chain has three
distinct descriptors; no step overwrites an entry of the avail ring that the device has not taken;
and what happens under each head is one request after the other, from its submission over the
device and the handler, which finds its buffer, to the return of its call. -/
theorem virtio_protocol (blockno : B → ℕ) (tr : List (Traffic A B ℕ)) (s : Virtio A B)
    (htr : (machine A B blockno).Trace tr s) :
    s.fault = none ∧
    (∀ a idx, (s.pc a).idx = some idx → Function.Injective idx) ∧
    (∀ d, s.disk.free d = false ↔ ∃! a, s.Owns a d) ∧
    (∀ e s', Step blockno s e s' → ∀ k < gap (2 ^ 16) s.lastAvail s.disk.avail.idx,
      s'.disk.avail.ring (slot NUM (s.lastAvail + k)) =
        s.disk.avail.ring (slot NUM (s.lastAvail + k))) ∧
    ∃ φ, (requests A B ℕ).Trace tr φ ∧
      (∀ h, ∃ l, Cycles h l ∧ eventsAt h tr = l ++ past h (φ h)) ∧
      (∀ h a b, Carries φ h a b ↔ (s.pc a).submitted = some (b, h)) ∧
      s.usedSlots.Nodup ∧ (∀ h, h ∈ s.usedSlots ↔ At φ .completed h) ∧
      (∀ h ∈ s.usedSlots, ∃ i : Fin NUM, ∃ a b, h = i ∧ φ h = some ⟨a, b, .completed⟩ ∧
        (s.disk.info i).b = some b ∧ (s.disk.info i).status = 0) := by
  obtain ⟨φ, hreq, hinv⟩ := exists_requests htr
  refine ⟨hinv.fault, hinv.owned.injective, fun d => ?_,
    fun e s' hst k hk => hinv.step_avail hst hk,
    φ, hreq, cycles hreq, hinv.rings.calls, hinv.rings.used_nodup, hinv.rings.completed,
    fun h hh => ?_⟩
  · rw [hinv.owned.free_iff d]
    constructor
    · rintro ⟨a, ha⟩
      exact ⟨a, ha, fun a' ha' => hinv.owned.disjoint a' a d ha' ha⟩
    · rintro ⟨a, ha, -⟩
      exact ⟨a, ha⟩
  · obtain ⟨a, b, hφ⟩ := (hinv.rings.completed h).1 hh
    obtain ⟨write, pc, idx, -, -, rfl, hw⟩ := hinv.call_of_carries ⟨_, hφ⟩
    exact ⟨idx 0, a, b, rfl, hφ, (hw.status le_rfl).2, hinv.rings.status (idx 0) (.inr (.inr hh))⟩

theorem virtio_protocol_completed : ∃ s : Virtio (Fin 3) Bool, s.fault = none ∧
    (s.disk.info 3).b = some true ∧ (s.disk.info 3).status = 0 ∧ ∃ tr φ l,
      (requests (Fin 3) Bool ℕ).Trace tr φ ∧ Cycles 3 l ∧
        eventsAt 3 tr = l ++ [.submit 0 true 3, .take 3, .complete 3] := by
  obtain ⟨s, ⟨tr, htr⟩, hused, hpc, -⟩ := reachable_completed
  obtain ⟨hfault, -, -, -, φ, hreq, hcycles, hcalls, -, -, hdone⟩ := virtio_protocol _ tr s htr
  obtain ⟨i, a, b, hi, hφ, hb, hstatus⟩ := hdone 3 (by simp [hused])
  obtain rfl : i = 3 := Fin.ext hi.symm
  -- The request under head 3 is the call's own.
  obtain ⟨st, hst⟩ := (hcalls 3 0 true).2 hpc
  cases hφ.symm.trans hst
  obtain ⟨l, hl, hev⟩ := hcycles 3
  rw [hφ] at hev
  exact ⟨s, hfault, hb, hstatus, tr, φ, l, hreq, hl, hev⟩

/-- **At most two requests.**  In every run, at most two calls of `virtio_disk_rw` have descriptors
at a time. -/
theorem two_chains {tr : List (Traffic A B ℕ)} (htr : (machine A B blockno).Trace tr s)
    (calls : Finset A) : {a ∈ calls | (s.pc a).idx.isSome}.card ≤ 2 := by
  obtain ⟨φ, -, hI⟩ := exists_requests htr
  set busy := {a ∈ calls | (s.pc a).idx.isSome}
  choose idx hidx using fun a : busy => Option.isSome_iff_exists.1 (Finset.mem_filter.1 a.2).2
  have hinj : Function.Injective fun x : busy × Fin 3 => idx x.1 x.2 := by
    rintro ⟨a, j⟩ ⟨a', j'⟩ hd
    obtain rfl : a = a' := Subtype.ext
      (hI.owned.disjoint _ _ _ ⟨_, hidx a, j, rfl⟩ ⟨_, hidx a', j', hd.symm⟩)
    exact Prod.ext rfl (hI.owned.injective _ _ (hidx a) hd)
  have hcard := Fintype.card_le_of_injective _ hinj
  simp only [Fintype.card_prod, Fintype.card_coe, Fintype.card_fin] at hcard
  unfold NUM at hcard
  omega

theorem two_chains_completed : ∃ s, (machine (Fin 3) Bool fun _ => 3).Reachable s ∧
    {a ∈ (.univ : Finset (Fin 3)) | (s.pc a).idx.isSome}.card = 2 ∧
    {a ∈ (.univ : Finset (Fin 3)) | (s.pc a).idx.isSome}.card ≤ 2 := by
  obtain ⟨s, ⟨tr, htr⟩, -, -, hbusy⟩ := reachable_completed
  exact ⟨s, ⟨tr, htr⟩, hbusy, two_chains htr _⟩

end Runs

end Virtio

end Cinux
