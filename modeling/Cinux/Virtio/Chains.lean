import Cinux.Virtio.Disk
import Mathlib.Data.Fintype.Basic
import Mathlib.Tactic.FinCases

/-!
# Chains of descriptors

Which descriptors a call of `virtio_disk_rw` has, from `alloc3_desc` until `free_chain`, and what it
has written to them so far.  `Owned` says that `disk.free` agrees with this and that chains are
disjoint; `Drafted` that a chain is linked as far as the code has come.  The views of `DiskPc` that
these are stated with do not change when a process is woken up, so only the steps that allocate,
write or free something need an argument.
-/

namespace Cinux

open Function

namespace RwPc

/-- The descriptors of the call. -/
def idx : RwPc → Option (Fin 3 → Fin NUM)
  | .acquire | .alloc | .sleepFree => none
  | .header idx | .data idx | .status idx | .ring idx | .notify idx | .wait idx | .sleepBuf idx
  | .woken idx | .finish idx => some idx

/-- The number of descriptors that are written. -/
def written : RwPc → ℕ
  | .acquire | .alloc | .sleepFree | .header _ => 0
  | .data _ => 1
  | .status _ => 2
  | .ring _ | .notify _ | .wait _ | .sleepBuf _ | .woken _ | .finish _ => 3

/-- The head of the chain, once it is in the avail ring. -/
def head : RwPc → Option ℕ
  | .wait idx | .sleepBuf idx | .woken idx | .finish idx => some (idx 0)
  | _ => none

/-- The lock is held. -/
def locked : RwPc → Bool
  | .acquire | .sleepFree | .sleepBuf _ | .woken _ => false
  | _ => true

end RwPc

namespace DiskPc

variable {B : Type}

@[inherit_doc RwPc.idx]
def idx : DiskPc B → Option (Fin 3 → Fin NUM)
  | .rw _ _ pc => pc.idx
  | _ => none

@[inherit_doc RwPc.locked]
def locked : DiskPc B → Bool
  | .rw _ _ pc => pc.locked
  | .intrTest | .intrHandle => true
  | .idle | .intrAcquire => false

/-- The buffer and the head of a request that is in the avail ring or further. -/
def submitted : DiskPc B → Option (B × ℕ)
  | .rw b _ pc => pc.head.map fun h => (b, h)
  | _ => none

/-- `p'` is `p`, or `p` woken up. -/
def Roused (p p' : DiskPc B) : Prop := p' = p ∨ p' = p.rouse

variable {p p' p'' : DiskPc B}

theorem rouse_rouse (p : DiskPc B) : p.rouse.rouse = p.rouse := by
  cases p with
  | rw b write pc => cases pc <;> rfl
  | _ => rfl

theorem Roused.refl (p : DiskPc B) : Roused p p := .inl rfl

theorem Roused.trans (h : Roused p p') (h' : Roused p' p'') : Roused p p'' := by
  obtain rfl | rfl := h
  · exact h'
  · obtain rfl | rfl := h'
    · exact .inr rfl
    · exact .inr (rouse_rouse p)

/-- The call that a process is in: its buffer, its descriptors and its request. -/
def call (p : DiskPc B) : Option B × Option (Fin 3 → Fin NUM) × Option (B × ℕ) :=
  (p.buf, p.idx, p.submitted)

theorem call_eq (h : p'.call = p.call) :
    p'.buf = p.buf ∧ p'.idx = p.idx ∧ p'.submitted = p.submitted := by
  simpa only [call, Prod.mk.injEq] using h

theorem call_rouse (p : DiskPc B) : p.rouse.call = p.call := by
  unfold rouse
  split <;> rfl

theorem locked_rouse (p : DiskPc B) : p.rouse.locked = p.locked := by
  unfold rouse
  split <;> rfl

theorem Roused.call (h : Roused p p') : p'.call = p.call := by
  obtain rfl | rfl := h
  · rfl
  · exact call_rouse p

theorem Roused.locked (h : Roused p p') : p'.locked = p.locked := by
  obtain rfl | rfl := h
  · rfl
  · exact locked_rouse p

theorem submitted_cases {b : B} {h : ℕ} (hp : p.submitted = some (b, h)) :
    ∃ write pc idx, p = .rw b write pc ∧ pc.idx = some idx ∧ h = idx 0 ∧ pc.written = 3 := by
  cases p with
  | rw b' write pc =>
    cases pc with
    | wait idx | sleepBuf idx | woken idx | finish idx =>
      cases hp
      exact ⟨write, _, idx, rfl, rfl, rfl, rfl⟩
    | _ => cases hp
  | _ => cases hp

end DiskPc

namespace Disk

variable {B : Type} (blockno : B → ℕ)

/-- The first `n` descriptors of the chain `idx` are written for the call on `b`. -/
structure Written (d : Disk B) (b : B) (write : Bool) (idx : Fin 3 → Fin NUM) (n : ℕ) : Prop where
  head : 1 ≤ n → d.desc (idx 0) = Virtio.headDesc idx ∧
    d.ops (idx 0) = Virtio.blkReq blockno b write
  data : 2 ≤ n → d.desc (idx 1) = Virtio.dataDesc b write idx
  status : 3 ≤ n → d.desc (idx 2) = Virtio.statusDesc idx ∧ (d.info (idx 0)).b = some b

/-- What is to be written at the point `p` is written. -/
def Drafted (d : Disk B) (p : DiskPc B) : Prop :=
  ∀ b write pc idx, p = .rw b write pc → pc.idx = some idx →
    d.Written blockno b write idx pc.written

/-- The two disks agree on what the driver has written to descriptor `i`. -/
structure Agrees (d d' : Disk B) (i : Fin NUM) : Prop where
  desc : d'.desc i = d.desc i
  ops : d'.ops i = d.ops i
  info : (d'.info i).b = (d.info i).b

theorem Agrees.refl (d : Disk B) (i : Fin NUM) : Agrees d d i := ⟨rfl, rfl, rfl⟩

variable {blockno} {d d' : Disk B} {p p' : DiskPc B}

theorem Written.congr {b : B} {write : Bool} {idx : Fin 3 → Fin NUM} {n : ℕ}
    (h : d.Written blockno b write idx n) (ha : ∀ j, d.Agrees d' (idx j)) :
    d'.Written blockno b write idx n where
  head hn := by rw [(ha 0).desc, (ha 0).ops]; exact h.head hn
  data hn := by rw [(ha 1).desc]; exact h.data hn
  status hn := by rw [(ha 2).desc, (ha 0).info]; exact h.status hn

theorem Drafted.congr (h : d.Drafted blockno p)
    (ha : ∀ idx, p.idx = some idx → ∀ j, d.Agrees d' (idx j)) : d'.Drafted blockno p := by
  rintro b write pc idx rfl hidx
  exact (h b write pc idx rfl hidx).congr (ha idx hidx)

theorem Drafted.rouse (h : d.Drafted blockno p) : d.Drafted blockno p.rouse := by
  unfold DiskPc.rouse
  split
  · intro b write pc idx hp hidx
    cases hp
    cases hidx
  · next b write idx =>
    intro b' write' pc idx' hp hidx
    cases hp
    exact h b write (.sleepBuf idx) idx' rfl hidx
  · exact h

theorem Drafted.roused (h : d.Drafted blockno p) (hp : p.Roused p') : d.Drafted blockno p' := by
  obtain rfl | rfl := hp
  · exact h
  · exact h.rouse

theorem drafted_of_idx (h : p.idx = none) : d.Drafted blockno p := by
  rintro b write pc idx rfl hidx
  cases h.symm.trans hidx

theorem chain_next {n : ℕ} (i : Fin NUM) (h : (d.desc i).flags &&& VRING_DESC_F_NEXT ≠ 0) :
    d.chain (n + 1) i = d.desc i :: d.chain n (d.desc i).next := by
  rw [chain, dif_pos i.isLt]
  exact if_pos h

theorem chain_last {n : ℕ} (i : Fin NUM) (h : (d.desc i).flags &&& VRING_DESC_F_NEXT = 0) :
    d.chain (n + 1) i = [d.desc i] := by
  rw [chain, dif_pos i.isLt]
  exact if_neg (not_not.2 h)

theorem headDesc_next (idx : Fin 3 → Fin NUM) :
    (Virtio.headDesc idx : VirtqDesc B).flags &&& VRING_DESC_F_NEXT ≠ 0 :=
  (by decide : VRING_DESC_F_NEXT &&& VRING_DESC_F_NEXT ≠ 0)

theorem dataDesc_next (b : B) (write : Bool) (idx : Fin 3 → Fin NUM) :
    (Virtio.dataDesc b write idx).flags &&& VRING_DESC_F_NEXT ≠ 0 := by
  cases write
  · exact (by decide : (VRING_DESC_F_WRITE ||| VRING_DESC_F_NEXT) &&& VRING_DESC_F_NEXT ≠ 0)
  · exact (by decide : (0 ||| VRING_DESC_F_NEXT) &&& VRING_DESC_F_NEXT ≠ 0)

theorem statusDesc_last (idx : Fin 3 → Fin NUM) :
    (Virtio.statusDesc idx : VirtqDesc B).flags &&& VRING_DESC_F_NEXT = 0 :=
  (by decide : VRING_DESC_F_WRITE &&& VRING_DESC_F_NEXT = 0)

/-- **What the device finds**: the chain of a call whose descriptors are all written. -/
theorem chain_eq {b : B} {write : Bool} {idx : Fin 3 → Fin NUM}
    (h : d.Written blockno b write idx 3) : d.chain NUM (idx 0) =
      [Virtio.headDesc idx, Virtio.dataDesc b write idx, Virtio.statusDesc idx] := by
  have h0 := (h.head (by omega)).1
  have h1 := h.data (by omega)
  have h2 := (h.status (by omega)).1
  have e0 : d.chain (7 + 1) (idx 0) = Virtio.headDesc idx :: d.chain 7 (idx 1) := by
    rw [chain_next _ (by rw [h0]; exact headDesc_next idx), h0]
    rfl
  have e1 : d.chain (6 + 1) (idx 1) = Virtio.dataDesc b write idx :: d.chain 6 (idx 2) := by
    rw [chain_next _ (by rw [h1]; exact dataDesc_next b write idx), h1]
    rfl
  have e2 : d.chain (5 + 1) (idx 2) = [Virtio.statusDesc idx] := by
    rw [chain_last _ (by rw [h2]; exact statusDesc_last idx), h2]
  change d.chain (7 + 1) (idx 0) = _
  rw [e0, e1, e2]

end Disk

namespace Virtio

variable {A B : Type}

/-- The descriptor `d` belongs to the chain of `a`. -/
def Owns (s : Virtio A B) (a : A) (d : Fin NUM) : Prop :=
  ∃ idx, (s.pc a).idx = some idx ∧ ∃ j, idx j = d

/-- The lock is held by the one whose code is at a point where it holds it. -/
def Locked (s : Virtio A B) : Prop := ∀ a, s.vdiskLock = some a ↔ (s.pc a).locked = true

/-- Who has the buffers and the descriptors. -/
structure Owned (s : Virtio A B) : Prop where
  buf : ∀ a a' b, (s.pc a).buf = some b → (s.pc a').buf = some b → a = a'
  injective : ∀ a idx, (s.pc a).idx = some idx → Function.Injective idx
  disjoint : ∀ a a' d, s.Owns a d → s.Owns a' d → a = a'
  free_iff : ∀ d, s.disk.free d = false ↔ ∃ a, s.Owns a d

/-- All but `a` stay where they are or are woken up. -/
def Moved (s s' : Virtio A B) (a : A) : Prop := ∀ a', a' ≠ a → (s.pc a').Roused (s'.pc a')

variable {s s' : Virtio A B} {a : A}

/-! ### The lock -/

theorem Locked.keep (h : s.Locked) (hm : Moved s s' a) (hlock : s'.vdiskLock = s.vdiskLock)
    (ha : (s'.pc a).locked = (s.pc a).locked) : s'.Locked := by
  intro a'
  have : (s'.pc a').locked = (s.pc a').locked := by
    by_cases hne : a' = a
    · rw [hne, ha]
    · exact (hm a' hne).locked
  rw [hlock, this]
  exact h a'

theorem Locked.acquire (h : s.Locked) (hm : Moved s s' a) (hfree : s.vdiskLock = none)
    (hlock : s'.vdiskLock = some a) (ha : (s'.pc a).locked = true) : s'.Locked := by
  intro a'
  rw [hlock]
  by_cases hne : a' = a
  · rw [hne]
    exact iff_of_true rfl ha
  · rw [(hm a' hne).locked, ← h a', hfree]
    exact iff_of_false (fun e => hne (Option.some.inj e).symm) (by simp)

theorem Locked.release (h : s.Locked) (hm : Moved s s' a) (hold : (s.pc a).locked = true)
    (hlock : s'.vdiskLock = none) (ha : (s'.pc a).locked = false) : s'.Locked := by
  intro a'
  rw [hlock]
  refine iff_of_false (by simp) ?_
  by_cases hne : a' = a
  · rw [hne, ha]
    exact Bool.false_ne_true
  · rw [(hm a' hne).locked, ← h a', (h a).2 hold]
    exact fun e => hne (Option.some.inj e).symm

theorem Locked.unique (h : s.Locked) {a' : A} (ha : (s.pc a).locked = true)
    (ha' : (s.pc a').locked = true) : a = a' :=
  Option.some.inj (((h a).2 ha).symm.trans ((h a').2 ha'))

/-! ### The descriptors -/

theorem owns_congr (h : (s'.pc a).idx = (s.pc a).idx) (d : Fin NUM) :
    s'.Owns a d ↔ s.Owns a d := by
  rw [Owns, Owns, h]

theorem Moved.owns (hm : Moved s s' a) {a' : A} (hne : a' ≠ a) (d : Fin NUM) :
    s'.Owns a' d ↔ s.Owns a' d :=
  owns_congr (DiskPc.call_eq (hm a' hne).call).2.1 d

theorem Owned.congr (h : s.Owned) (hfree : s'.disk.free = s.disk.free)
    (hbuf : ∀ a, (s'.pc a).buf = (s.pc a).buf) (hidx : ∀ a, (s'.pc a).idx = (s.pc a).idx) :
    s'.Owned where
  buf a a' b hb hb' := by
    rw [hbuf] at hb hb'
    exact h.buf a a' b hb hb'
  injective a i hi := by
    rw [hidx] at hi
    exact h.injective a i hi
  disjoint a a' d hd hd' := by
    rw [owns_congr (hidx _)] at hd hd'
    exact h.disjoint a a' d hd hd'
  free_iff d := by
    rw [hfree, h.free_iff d]
    exact exists_congr fun a => (owns_congr (hidx a) d).symm

theorem Owned.same (h : s.Owned) (hfree : s'.disk.free = s.disk.free)
    (hpc : ∀ a, (s'.pc a).call = (s.pc a).call) : s'.Owned :=
  h.congr hfree (fun a => (DiskPc.call_eq (hpc a)).1) fun a => (DiskPc.call_eq (hpc a)).2.1

theorem Moved.call (hm : Moved s s' a) (ha : (s'.pc a).call = (s.pc a).call) (a' : A) :
    (s'.pc a').call = (s.pc a').call := by
  by_cases hne : a' = a
  · rw [hne, ha]
  · exact (hm a' hne).call

/-- **Allocation**: a call gets three descriptors that were free. -/
theorem Owned.alloc {idx : Fin 3 → Fin NUM} (h : s.Owned) (hm : Moved s s' a)
    (hnone : (s.pc a).idx = none) (hbuf : (s'.pc a).buf = (s.pc a).buf)
    (hidx : (s'.pc a).idx = some idx) (hinj : Function.Injective idx)
    (hwas : ∀ j, s.disk.free (idx j) = true)
    (hfree : ∀ d, s'.disk.free d = false ↔ s.disk.free d = false ∨ ∃ j, idx j = d) :
    s'.Owned := by
  have hbufs : ∀ a', (s'.pc a').buf = (s.pc a').buf := by
    intro a'
    by_cases hne : a' = a
    · rw [hne, hbuf]
    · exact (DiskPc.call_eq (hm a' hne).call).1
  have hself : ∀ d, s'.Owns a d ↔ ∃ j, idx j = d := by
    intro d
    rw [Owns, hidx]
    simp
  have hclash : ∀ a' d, a' ≠ a → s'.Owns a' d → ¬s'.Owns a d := by
    intro a' d hne hd hd'
    obtain ⟨j, rfl⟩ := (hself d).1 hd'
    have := (h.free_iff (idx j)).2 ⟨a', (hm.owns hne _).1 hd⟩
    rw [hwas j] at this
    cases this
  refine ⟨fun a1 a2 b h1 h2 => ?_, fun a' i hi => ?_, fun a1 a2 d h1 h2 => ?_, fun d => ?_⟩
  · rw [hbufs] at h1 h2
    exact h.buf a1 a2 b h1 h2
  · by_cases hne : a' = a
    · rw [hne, hidx] at hi
      exact Option.some.inj hi ▸ hinj
    · rw [(DiskPc.call_eq (hm a' hne).call).2.1] at hi
      exact h.injective a' i hi
  · by_cases hne1 : a1 = a
    · by_cases hne2 : a2 = a
      · rw [hne1, hne2]
      · exact absurd (hne1 ▸ h1) (hclash a2 d hne2 h2)
    · by_cases hne2 : a2 = a
      · exact absurd (hne2 ▸ h2) (hclash a1 d hne1 h1)
      · exact h.disjoint a1 a2 d ((hm.owns hne1 d).1 h1) ((hm.owns hne2 d).1 h2)
  · rw [hfree d, h.free_iff d]
    constructor
    · rintro (⟨a', ha'⟩ | hj)
      · have hne : a' ≠ a := by
          rintro rfl
          obtain ⟨i, hi, -⟩ := ha'
          cases hnone.symm.trans hi
        exact ⟨a', (hm.owns hne d).2 ha'⟩
      · exact ⟨a, (hself d).2 hj⟩
    · rintro ⟨a', ha'⟩
      by_cases hne : a' = a
      · exact .inr ((hself d).1 (hne ▸ ha'))
      · exact .inl ⟨a', (hm.owns hne d).1 ha'⟩

/-- **Release**: a call gives its descriptors back and is over. -/
theorem Owned.drop {idx : Fin 3 → Fin NUM} (h : s.Owned) (hm : Moved s s' a)
    (hidx : (s.pc a).idx = some idx) (hbuf : (s'.pc a).buf = none) (hnone : (s'.pc a).idx = none)
    (hfree : ∀ d, s'.disk.free d = false ↔ s.disk.free d = false ∧ ∀ j, idx j ≠ d) :
    s'.Owned := by
  have hself : ∀ d, ¬s'.Owns a d := by
    rintro d ⟨i, hi, -⟩
    cases hnone.symm.trans hi
  have hother : ∀ {a'} (d), s'.Owns a' d → a' ≠ a := by
    rintro a' d hd rfl
    exact hself d hd
  refine ⟨fun a1 a2 b h1 h2 => ?_, fun a' i hi => ?_, fun a1 a2 d h1 h2 => ?_, fun d => ?_⟩
  · have hne : ∀ {a'}, (s'.pc a').buf = some b → a' ≠ a := by
      rintro a' hb rfl
      cases hbuf.symm.trans hb
    refine h.buf a1 a2 b ?_ ?_
    · rw [← (DiskPc.call_eq (hm a1 (hne h1)).call).1, h1]
    · rw [← (DiskPc.call_eq (hm a2 (hne h2)).call).1, h2]
  · have hne : a' ≠ a := by
      rintro rfl
      cases hnone.symm.trans hi
    rw [(DiskPc.call_eq (hm a' hne).call).2.1] at hi
    exact h.injective a' i hi
  · exact h.disjoint a1 a2 d ((hm.owns (hother d h1) d).1 h1) ((hm.owns (hother d h2) d).1 h2)
  · rw [hfree d, h.free_iff d]
    constructor
    · rintro ⟨⟨a', ha'⟩, hno⟩
      have hne : a' ≠ a := by
        rintro rfl
        obtain ⟨i, hi, j, hj⟩ := ha'
        obtain rfl := Option.some.inj (hidx.symm.trans hi)
        exact hno j hj
      exact ⟨a', (hm.owns hne d).2 ha'⟩
    · rintro ⟨a', ha'⟩
      have hne := hother d ha'
      refine ⟨⟨a', (hm.owns hne d).1 ha'⟩, ?_⟩
      rintro j rfl
      exact hne (h.disjoint a' a _ ((hm.owns hne _).1 ha') ⟨idx, hidx, j, rfl⟩)

/-! ### What is written -/

variable {blockno : B → ℕ}

theorem drafted_step (hd : ∀ a, s.disk.Drafted blockno (s.pc a)) (hm : Moved s s' a)
    (hagree : ∀ a' d, a' ≠ a → s.Owns a' d → s.disk.Agrees s'.disk d)
    (hself : s'.disk.Drafted blockno (s'.pc a)) (a' : A) : s'.disk.Drafted blockno (s'.pc a') := by
  by_cases hne : a' = a
  · rw [hne]
    exact hself
  · refine Disk.Drafted.roused ?_ (hm a' hne)
    exact (hd a').congr fun idx hidx j => hagree a' (idx j) hne ⟨idx, hidx, j, rfl⟩

section Code

theorem moved_goto [DecidableEq A] (s : Virtio A B) (a : A) (p : DiskPc B) :
    Moved s (s.goto a p) a := by
  intro a' hne
  left
  exact update_of_ne hne _ _

theorem pc_goto [DecidableEq A] (s : Virtio A B) (a : A) (p : DiskPc B) : (s.goto a p).pc a = p :=
  update_self ..

/-! ### Allocating descriptors -/

theorem free_reserve (s : Virtio A B) {i j : Fin NUM} :
    (s.reserve i).disk.free j = true ↔ i ≠ j ∧ s.disk.free j = true := by
  unfold reserve
  dsimp only
  rw [update_apply]
  split_ifs with h
  · simp [h]
  · simp [Ne.symm h]

theorem free_reserve_eq_false (s : Virtio A B) (i d : Fin NUM) :
    (s.reserve i).disk.free d = false ↔ i = d ∨ s.disk.free d = false := by
  rw [← Bool.not_eq_true, free_reserve]
  simp only [not_and_or, not_not, Bool.not_eq_true, ne_eq]

theorem allocDesc_cases (s : Virtio A B) :
    (∃ i, s.disk.free i = true ∧ s.allocDesc = (some i, s.reserve i)) ∨
      s.allocDesc = (none, s) := by
  unfold allocDesc
  cases hf : (List.finRange NUM).find? s.disk.free with
  | none => exact .inr rfl
  | some i => exact .inl ⟨i, List.find?_some hf, rfl⟩

/-- `s'` is `s` up to descriptors that are free and processes that are woken up. -/
def Spared (s s' : Virtio A B) : Prop :=
  ∃ desc pc, s' = { s with disk.desc := desc, pc := pc } ∧
    (∀ d, s.disk.free d = false → desc d = s.disk.desc d) ∧ ∀ a, (s.pc a).Roused (pc a)

theorem Spared.refl (s : Virtio A B) : Spared s s :=
  ⟨s.disk.desc, s.pc, rfl, fun _ _ => rfl, fun _ => .refl _⟩

variable [DecidableEq B]

theorem roused_wakeup (s : Virtio A B) (chan : DiskChan B) (a : A) :
    (s.pc a).Roused ((s.wakeup chan).pc a) := by
  unfold wakeup
  dsimp only
  split_ifs
  · exact .inr rfl
  · exact .inl rfl

variable {i : Fin NUM}

theorem freeDesc_ok (s : Virtio A B) (h : s.disk.free i = false) :
    s.freeDesc i = .ok (s.eraseDesc i) := by
  rw [freeDesc, dif_pos i.isLt]
  exact if_neg (by rw [h]; exact Bool.false_ne_true)

theorem Spared.erase {u : Virtio A B} (h : Spared (s.reserve i) u)
    (hi : s.disk.free i = true) : Spared s (u.eraseDesc i) := by
  obtain ⟨desc, pc, rfl, hdesc, hpc⟩ := h
  have hfree : update (update s.disk.free i false) i true = s.disk.free := by
    rw [update_idem, ← hi, update_eq_self]
  refine ⟨update desc i ⟨.null, 0, 0, 0⟩,
    fun a => if (pc a).chan = some .free then (pc a).rouse else pc a, ?_, fun d hd => ?_,
    fun a => (hpc a).trans (roused_wakeup { s with pc := pc } .free a)⟩
  · unfold eraseDesc reserve wakeup
    rw [hfree]
  · have hne : d ≠ i := by
      rintro rfl
      cases hi.symm.trans hd
    rw [update_of_ne hne]
    exact hdesc d ((update_of_ne hne _ _).trans hd)

/-- **`alloc3_desc`** takes three free descriptors, or leaves all as they were. -/
theorem alloc3Desc_cases (s : Virtio A B) :
    (∃ s', s.alloc3Desc = .ok (none, s') ∧ Spared s s') ∨
      ∃ idx, Function.Injective idx ∧ (∀ j, s.disk.free (idx j) = true) ∧
        s.alloc3Desc = .ok (some idx, ((s.reserve (idx 0)).reserve (idx 1)).reserve (idx 2)) := by
  obtain ⟨i, hi, h1⟩ | h1 := s.allocDesc_cases
  · obtain ⟨j, hj, h2⟩ | h2 := (s.reserve i).allocDesc_cases
    · obtain ⟨hij, hj⟩ := s.free_reserve.1 hj
      obtain ⟨k, hk, h3⟩ | h3 := ((s.reserve i).reserve j).allocDesc_cases
      · obtain ⟨hjk, hk⟩ := (s.reserve i).free_reserve.1 hk
        obtain ⟨hik, hk⟩ := s.free_reserve.1 hk
        refine .inr ⟨![i, j, k], ?_, ?_, ?_⟩
        · intro x y hxy
          fin_cases x <;> fin_cases y <;> simp_all
        · intro x
          fin_cases x
          · exact hi
          · exact hj
          · exact hk
        · simp [alloc3Desc, h1, h2, h3]
      · -- the third is missing: the first two are given back
        have hcomm : (s.reserve i).reserve j = (s.reserve j).reserve i := by
          unfold reserve
          rw [update_comm hij.symm]
        have hfi : ((s.reserve i).reserve j).disk.free i = false :=
          (update_of_ne hij _ _).trans (update_self ..)
        have hfj : (((s.reserve i).reserve j).eraseDesc i).disk.free j = false :=
          (update_of_ne hij.symm _ _).trans (update_self ..)
        refine .inl ⟨(((s.reserve i).reserve j).eraseDesc i).eraseDesc j, ?_, ?_⟩
        · simp [alloc3Desc, h1, h2, h3, freeDesc_ok _ hfi, freeDesc_ok _ hfj, bind, Except.bind]
        · refine Spared.erase (Spared.erase ?_ (s.free_reserve.2 ⟨hij.symm, hi⟩)) hj
          rw [hcomm]
          exact .refl _
    · have hfi : (s.reserve i).disk.free i = false := update_self ..
      refine .inl ⟨(s.reserve i).eraseDesc i, ?_, Spared.erase (.refl _) hi⟩
      simp [alloc3Desc, h1, h2, freeDesc_ok _ hfi, bind, Except.bind]
  · exact .inl ⟨s, by simp [alloc3Desc, h1], .refl s⟩

/-! ### Freeing a chain -/

theorem freeChain_next {n : ℕ} (hi : s.disk.free i = false)
    (h : (s.disk.desc i).flags &&& VRING_DESC_F_NEXT ≠ 0) :
    freeChain (n + 1) s i = freeChain n (s.eraseDesc i) (s.disk.desc i).next := by
  have hi' : Fin.ofNat NUM i = i := Fin.ofNat_val_eq_self i
  rw [freeChain, freeDesc_ok s hi]
  dsimp only
  rw [hi', if_pos h]

theorem freeChain_last {n : ℕ} (hi : s.disk.free i = false)
    (h : (s.disk.desc i).flags &&& VRING_DESC_F_NEXT = 0) :
    freeChain (n + 1) s i = some (.ok (s.eraseDesc i)) := by
  have hi' : Fin.ofNat NUM i = i := Fin.ofNat_val_eq_self i
  rw [freeChain, freeDesc_ok s hi]
  dsimp only
  rw [hi', if_neg (not_not.2 h)]

/-- The chain `idx` is freed. -/
def eraseChain (s : Virtio A B) (idx : Fin 3 → Fin NUM) : Virtio A B :=
  ((s.eraseDesc (idx 0)).eraseDesc (idx 1)).eraseDesc (idx 2)

/-- **`free_chain`** frees the three descriptors and does not panic. -/
theorem freeChain_eq {b : B} {write : Bool} {idx : Fin 3 → Fin NUM}
    (h0 : s.disk.desc (idx 0) = headDesc idx) (h1 : s.disk.desc (idx 1) = dataDesc b write idx)
    (h2 : s.disk.desc (idx 2) = statusDesc idx) (hinj : Function.Injective idx)
    (hfree : ∀ j, s.disk.free (idx j) = false) :
    freeChain (NUM + 1) s (idx 0) = some (.ok (s.eraseChain idx)) := by
  have h01 : idx 1 ≠ idx 0 := fun e => absurd (hinj e) (by decide)
  have h02 : idx 2 ≠ idx 0 := fun e => absurd (hinj e) (by decide)
  have h12 : idx 2 ≠ idx 1 := fun e => absurd (hinj e) (by decide)
  have e0 : freeChain (8 + 1) s (idx 0) = freeChain 8 (s.eraseDesc (idx 0)) (idx 1) := by
    rw [freeChain_next (hfree 0) (by rw [h0]; exact Disk.headDesc_next idx), h0]
    rfl
  have d1 : (s.eraseDesc (idx 0)).disk.desc (idx 1) = dataDesc b write idx :=
    (update_of_ne h01 _ _).trans h1
  have e1 : freeChain (7 + 1) (s.eraseDesc (idx 0)) (idx 1) =
      freeChain 7 ((s.eraseDesc (idx 0)).eraseDesc (idx 1)) (idx 2) := by
    rw [freeChain_next ((update_of_ne h01 _ _).trans (hfree 1))
      (by rw [d1]; exact Disk.dataDesc_next b write idx), d1]
    rfl
  have d2 : ((s.eraseDesc (idx 0)).eraseDesc (idx 1)).disk.desc (idx 2) = statusDesc idx :=
    (update_of_ne h12 _ _).trans ((update_of_ne h02 _ _).trans h2)
  have e2 : freeChain (6 + 1) ((s.eraseDesc (idx 0)).eraseDesc (idx 1)) (idx 2) =
      some (.ok (s.eraseChain idx)) := by
    refine freeChain_last ?_ (by rw [d2]; exact Disk.statusDesc_last idx)
    exact (update_of_ne h12 _ _).trans ((update_of_ne h02 _ _).trans (hfree 2))
  exact e0.trans (e1.trans e2)

theorem free_eraseDesc (s : Virtio A B) (i d : Fin NUM) :
    (s.eraseDesc i).disk.free d = false ↔ s.disk.free d = false ∧ i ≠ d := by
  change update s.disk.free i true d = false ↔ _
  rw [update_apply]
  split_ifs with h
  · simp [h]
  · simp [Ne.symm h]

theorem free_eraseChain (s : Virtio A B) (idx : Fin 3 → Fin NUM) (d : Fin NUM) :
    (s.eraseChain idx).disk.free d = false ↔ s.disk.free d = false ∧ ∀ j, idx j ≠ d := by
  rw [eraseChain, free_eraseDesc, free_eraseDesc, free_eraseDesc, Fin.forall_fin_succ,
    Fin.forall_fin_two, and_assoc, and_assoc]
  rfl

theorem agrees_eraseDesc (s : Virtio A B) {i d : Fin NUM} (h : i ≠ d) :
    s.disk.Agrees (s.eraseDesc i).disk d := ⟨update_of_ne h.symm _ _, rfl, rfl⟩

theorem agrees_eraseChain (s : Virtio A B) {idx : Fin 3 → Fin NUM} {d : Fin NUM}
    (h : ∀ j, idx j ≠ d) : s.disk.Agrees (s.eraseChain idx).disk d where
  desc := by
    rw [eraseChain, (agrees_eraseDesc _ (h 2)).desc, (agrees_eraseDesc _ (h 1)).desc,
      (agrees_eraseDesc _ (h 0)).desc]
  ops := rfl
  info := rfl

theorem roused_eraseChain (s : Virtio A B) (idx : Fin 3 → Fin NUM) (a : A) :
    (s.pc a).Roused ((s.eraseChain idx).pc a) :=
  ((roused_wakeup _ .free a).trans (roused_wakeup _ .free a)).trans (roused_wakeup _ .free a)

end Code

end Virtio

end Cinux
