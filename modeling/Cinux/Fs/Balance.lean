import Cinux.Fs.Kernel
import Cinux.System.Occurrences
import Mathlib.Algebra.Group.Pi.Basic
import Mathlib.Data.Fintype.Prod
import Mathlib.Tactic.Abel

/-!
# The balance of references

Between two calls every reference to a file comes from a descriptor, and every reference to an inode
from a file or from the directory of a process.  Inside a call the code itself holds some: between
`iget` and `iput`, between `filealloc` and `fdalloc`, between `ilock` and `iunlock`.  A `Ledger`
says how many of each, and `Bal R x s` that the tables of `s` are in balance when the running code
holds `x`; `R` is a fact about the process table, which most of the code leaves alone.  It may also
owe a reference, as `sys_dup` does between `fdalloc` and `filedup`; the entry is then negative.

`Moves R m δ` says that `m` adds `δ` to what is held, whatever that was.  Ledgers are an abelian
group, so the balance of a sequence of statements is a sum, and a call is balanced if the sum is
zero.
-/

namespace Cinux

open Function

open Program

/-- What running code may hold: a reference to an inode, its lock, a reference to a file, and an
operation of the log. -/
inductive Account where
  | ref (ip : Fin NINODE)
  | lock (ip : Fin NINODE)
  | file (f : Fin NFILE)
  | op
  deriving DecidableEq

/-- How many of each the running code holds. -/
abbrev Ledger := Account → ℤ

namespace Ledger

/-- One of `a`. -/
def one (a : Account) : Ledger := Pi.single a 1

theorem one_apply (a b : Account) : one a b = if b = a then 1 else 0 := Pi.single_apply a 1 b

/-- A reference to an inode. -/
def ref (ip : Fin NINODE) : Ledger := one (.ref ip)

/-- The lock of an inode. -/
def lock (ip : Fin NINODE) : Ledger := one (.lock ip)

/-- A reference to a file. -/
def file (f : Fin NFILE) : Ledger := one (.file f)

/-- The reference that an entry of a table stands for. -/
def refOf (r : Option (Fin NINODE)) : Ledger := r.elim 0 ref

@[inherit_doc refOf]
def fileOf (r : Option (Fin NFILE)) : Ledger := r.elim 0 file

theorem refOf_ref (r : Option (Fin NINODE)) (i : Fin NINODE) : refOf r (.ref i) = refers r i := by
  cases r with
  | none => rfl
  | some j => simp [refOf, ref, one_apply, refers, eq_comm]

theorem refOf_other (r : Option (Fin NINODE)) {a : Account} (h : ∀ i, a ≠ .ref i) :
    refOf r a = 0 := by
  cases r with
  | none => rfl
  | some j => simp [refOf, ref, one_apply, h]

theorem fileOf_file (r : Option (Fin NFILE)) (f : Fin NFILE) : fileOf r (.file f) = refers r f := by
  cases r with
  | none => rfl
  | some j => simp [fileOf, file, one_apply, refers, eq_comm]

theorem fileOf_other (r : Option (Fin NFILE)) {a : Account} (h : ∀ f, a ≠ .file f) :
    fileOf r a = 0 := by
  cases r with
  | none => rfl
  | some j => simp [fileOf, file, one_apply, h]

end Ledger

/-- The file is the end of the pipe on page `n` that `writable` says. -/
def OpenFile.IsEnd (x : OpenFile) (n : ℕ) (writable : Bool) : Prop :=
  0 < x.ref ∧ x.type = .pipe ∧ x.pipe = n ∧ x.writable = writable

/-- The inode that an open file refers to. -/
def OpenFile.inode (x : OpenFile) : Option (Fin NINODE) :=
  if 0 < x.ref ∧ (x.type = .inode ∨ x.type = .device) then x.ip else none

/-- `readopen` or `writeopen`. -/
def PipeEnds.isOpen (e : PipeEnds) (writable : Bool) : Bool :=
  if writable then e.writeopen else e.readopen

theorem OpenFile.not_isEnd {x : OpenFile} (h : x.type ≠ .pipe) (n : ℕ) (w : Bool) :
    ¬ x.IsEnd n w := fun hx => h hx.2.1

theorem OpenFile.IsEnd.isEnd_iff {x : OpenFile} {n n' : ℕ} {w w' : Bool} (h : x.IsEnd n w) :
    x.IsEnd n' w' ↔ n' = n ∧ w' = w := by
  constructor
  · intro h'
    exact ⟨h'.2.2.1.symm.trans h.2.2.1, h'.2.2.2.symm.trans h.2.2.2⟩
  · rintro ⟨rfl, rfl⟩
    exact h

theorem OpenFile.inode_of_type {x : OpenFile} (h : x.type ≠ .inode) (h' : x.type ≠ .device) :
    x.inode = none := by
  simp [OpenFile.inode, h, h']

/-- The panics of `filedup` and `fileclose`, and the use of a page that holds no pipe. -/
def Stop.Expected (e : Stop) : Prop :=
  e ≠ .panic "filedup" ∧ e ≠ .panic "fileclose" ∧ e ≠ .panic "pipeclose"

theorem toInt32_add (a b : ℤ) : toInt32 (toInt32 a + b) = toInt32 (a + b) := by
  simp [toInt32]

variable {f : CInode → CInode}

namespace Icache

variable {c c' : Icache} {i : Fin NINODE} {g : Fin NINODE → ℤ} {δ : Ledger}

theorem modify_ref (hg : ∀ j, (c.inode j).ref = toInt32 (g j))
    (hf : (f (c.inode i)).ref = toInt32 (g i + δ (.ref i))) (hδ : ∀ j, j ≠ i → δ (.ref j) = 0)
    (j : Fin NINODE) : ((c.modify i f).inode j).ref = toInt32 (g j + δ (.ref j)) := by
  rw [modify_inode]
  by_cases hj : j = i
  · rw [if_pos hj, hj]
    exact hf
  · rw [if_neg hj, hδ j hj, add_zero]
    exact hg j

theorem one_ref_ne {j : Fin NINODE} (h : j ≠ i) : Ledger.one (.ref i) (.ref j) = 0 := by
  rw [Ledger.one_apply, if_neg fun h' => h (Account.ref.inj h')]

theorem one_ref_self : Ledger.one (.ref i) (.ref i) = 1 := by
  rw [Ledger.one_apply, if_pos rfl]

theorem iget_ref {dev inum : ℕ} (h : c.iget dev inum = .ok (i, c'))
    (hg : ∀ j, (c.inode j).ref = toInt32 (g j)) (j : Fin NINODE) :
    (c'.inode j).ref = toInt32 (g j + Ledger.ref i (.ref j)) := by
  have hadd : toInt32 (g i + Ledger.ref i (.ref i)) = toInt32 ((c.inode i).ref + 1) := by
    rw [Ledger.ref, one_ref_self, hg i, toInt32_add]
  have hne : ∀ j, j ≠ i → Ledger.ref i (.ref j) = 0 := fun j hj => one_ref_ne hj
  obtain ⟨-, rfl⟩ | ⟨-, h0, ⟨-, k, -, rfl⟩ | ⟨-, rfl⟩⟩ := iget_cases h
  · exact modify_ref hg hadd.symm hne j
  · refine modify_ref (c := c.setBusy k true) hg ?_ hne j
    rw [hadd, h0]
    rfl
  · refine modify_ref hg ?_ hne j
    rw [hadd, h0]
    rfl

theorem idup_ref (hg : ∀ j, (c.inode j).ref = toInt32 (g j)) (j : Fin NINODE) :
    ((c.idup i).inode j).ref = toInt32 (g j + Ledger.ref i (.ref j)) := by
  refine modify_ref hg ?_ (fun j hj => one_ref_ne hj) j
  rw [one_ref_self, hg i, toInt32_add]

theorem drop_ref (hf : (f (c.inode i)).ref = (c.inode i).ref)
    (hg : ∀ j, (c.inode j).ref = toInt32 (g j)) (j : Fin NINODE) :
    (((c.modify i f).modify i fun x => { x with ref := toInt32 (x.ref - 1) }).inode j).ref =
      toInt32 (g j + (-Ledger.ref i) (.ref j)) := by
  have hg' : ∀ j, ((c.modify i f).inode j).ref = toInt32 (g j) := by
    intro j
    rw [modify_inode]
    split_ifs with hj
    · rw [hf, hj, hg i]
    · exact hg j
  refine modify_ref hg' ?_ (fun j hj => ?_) j
  · change toInt32 (((c.modify i f).inode i).ref + -1) = toInt32 (g i + -Ledger.one _ _)
    rw [one_ref_self, hg' i, toInt32_add]
  · change -Ledger.one _ _ = 0
    rw [one_ref_ne hj, neg_zero]

theorem iput_ref (h : c.iput i = .ok c') (hg : ∀ j, (c.inode j).ref = toInt32 (g j))
    (j : Fin NINODE) : (c'.inode j).ref = toInt32 (g j + (-Ledger.ref i) (.ref j)) := by
  unfold iput at h
  split at h
  · unfold ext2fsIput at h
    have hdel : (ext2fsDelete (c.inode i)).ref = (c.inode i).ref := by
      unfold ext2fsDelete
      split_ifs <;> rfl
    have hdrop := drop_ref hdel hg j
    simp only at h
    split_ifs at h with h0
    · split at h
      · cases h
        rw [modify_inode]
        split_ifs with hj
        · rw [← hdrop, hj]
          rfl
        · exact hdrop
      · cases h
    · cases h
      exact hdrop
  · cases h
    refine drop_ref ?_ hg j
    unfold delete
    split_ifs <;> rfl

theorem iget_error {dev inum : ℕ} {msg : String} (h : c.iget dev inum = .error msg) :
    msg = "iget: no inodes" ∨ msg = "iget: no ext2fs_addrs slots" := by
  unfold iget at h
  split at h
  · cases h
  · exact .inl (Except.error.inj h).symm
  · simp only at h
    split_ifs at h
    split at h
    · cases h
    · exact .inr (Except.error.inj h).symm

theorem iput_error {msg : String} (h : c.iput i = .error msg) : msg = "kerneltrap" := by
  unfold iput at h
  split at h
  · unfold ext2fsIput at h
    simp only at h
    split_ifs at h
    split at h
    · cases h
    · exact (Except.error.inj h).symm
  · cases h

end Icache

namespace Kern

variable {D : Type}

/-- The inode that each file refers to. -/
def fileInode (ftable : Fin NFILE → OpenFile) (f : Fin NFILE) : Option (Fin NINODE) :=
  (ftable f).inode

/-- Facts about `p->state`, `p->ofile` and `p->cwd` of all processes. -/
abbrev ProcFact :=
  (Fin NPROC → ProcState) → (Fin NPROC × Fin NOFILE → Option (Fin NFILE)) →
    (Fin NPROC → Option (Fin NINODE)) → Prop

/-- The pipes and the files that are their ends agree, and a page holds a pipe for as long as it has
not been given back. -/
structure PipesOk (ftable : Fin NFILE → OpenFile) (pipe : ℕ → Option PipeEnds) (freelist : List ℕ)
    (made freed : ℕ → ℕ) : Prop where
  holds : ∀ f n w, (ftable f).IsEnd n w → pipe n ≠ none
  ends : ∀ n e, pipe n = some e → ∀ w, e.isOpen w = true ↔ ∃ f, (ftable f).IsEnd n w
  unique : ∀ f g n w, (ftable f).IsEnd n w → (ftable g).IsEnd n w → f = g
  held : ∀ n e, pipe n = some e → ∃ w, e.isOpen w = true
  nodup : freelist.Nodup
  apart : ∀ n ∈ freelist, pipe n = none
  count : ∀ n, made n = freed n + if pipe n = none then 0 else 1

/-- The tables are in balance when the running code holds `x`.  Counts of references to inodes are
`int`s. -/
structure Bal (R : ProcFact) (x : Ledger) (s : Kern D) : Prop where
  refs : ∀ i, (s.icache.inode i).ref =
    toInt32 (occ (fileInode s.ftable) i + occ s.cwd i + x (.ref i))
  locks : ∀ i, ((s.locked i).toNat : ℤ) = x (.lock i)
  files : ∀ f, ((s.ftable f).ref : ℤ) = occ s.ofile f + x (.file f)
  ops : s.outstanding = x .op
  idle : ∀ f, (s.ftable f).ref = 0 → (s.ftable f).type = .none
  pipes : PipesOk s.ftable s.pipe s.freelist s.made s.freed
  sb : s.ninodes = 0
  procs : R s.state s.ofile s.cwd

/-- `m` keeps the balance and adds `δ` to what is held; if it stops, then not in one of the checks
of `file.c`. -/
def Moves (R : ProcFact) {α : Type} (m : KernM D α) (δ : α → Ledger) : Prop :=
  ∀ x, Guarded Stop.Expected (Bal R x) m fun a => Bal R (x + δ a)

variable {R S : ProcFact} {α β : Type} {m : KernM D α} {k : α → KernM D β} {x y : Ledger}
  {s : Kern D}

namespace Moves

variable {δ : α → Ledger} {η : β → Ledger}

theorem pure {a : α} (h : δ a = 0) : Moves R (Pure.pure a : KernM D α) δ := by
  refine fun x => Guarded.pure fun s hs => ?_
  rw [h, add_zero]
  exact hs

theorem bind (hm : Moves R m δ) (hk : ∀ a, Moves R (k a) fun b => η b - δ a) :
    Moves R (m >>= k) η := by
  intro x
  refine Guarded.bind (hm x) fun a => ?_
  refine Guarded.conseq (hk a (x + δ a)) (fun _ hs => hs) fun b s hs => ?_
  have hsum : x + δ a + (η b - δ a) = x + η b := by abel
  exact hsum ▸ hs

theorem congr {δ' : α → Ledger} (hm : Moves R m δ) (h : ∀ a, δ a = δ' a) : Moves R m δ' := by
  obtain rfl : δ = δ' := funext h
  exact hm

theorem throw {e : Stop} (h : e.Expected) : Moves R (MonadExcept.throw e : KernM D α) δ :=
  fun _ => Guarded.throw h

theorem look {g : Kern D → α} (hm : ∀ s, m s = .ok (g s, s)) (hk : ∀ a, Moves R (k a) η) :
    Moves R (m >>= k) η := by
  intro x
  exact Guarded.look hm fun a => Guarded.conseq (hk a x) (fun _ hs => hs.2) fun _ _ hs => hs

end Moves

/-! ### Changes of one table -/

namespace Bal

theorem setIcache {c : Icache} {δ : Ledger} (h : Bal R x s)
    (hr : ∀ i, (c.inode i).ref =
      toInt32 (occ (fileInode s.ftable) i + occ s.cwd i + x (.ref i) + δ (.ref i)))
    (hδ : ∀ a, (∀ i, a ≠ .ref i) → δ a = 0) : Bal R (x + δ) { s with icache := c } := by
  refine ⟨fun i => ?_, fun i => ?_, fun f => ?_, ?_, h.idle, h.pipes, h.sb, h.procs⟩
  · rw [Pi.add_apply, ← add_assoc]
    exact hr i
  · rw [Pi.add_apply, hδ _ (by simp), add_zero]
    exact h.locks i
  · rw [Pi.add_apply, hδ _ (by simp), add_zero]
    exact h.files f
  · rw [Pi.add_apply, hδ _ (by simp), add_zero]
    exact h.ops

theorem add_zsmul_one (n : ℤ) (a b : Account) :
    (x + n • Ledger.one a) b = x b + if b = a then n else 0 := by
  rw [Pi.add_apply, Pi.smul_apply, Ledger.one_apply]
  split_ifs
  · rw [zsmul_one, Int.cast_id]
  · rw [zsmul_zero]

theorem setLocked {b : Bool} {n : ℤ} (h : Bal R x s) (ip : Fin NINODE)
    (hn : (b.toNat : ℤ) = (s.locked ip).toNat + n) :
    Bal R (x + n • Ledger.lock ip) { s with locked := update s.locked ip b } := by
  refine ⟨fun i => ?_, fun i => ?_, fun f => ?_, ?_, h.idle, h.pipes, h.sb, h.procs⟩
  · rw [Ledger.lock, add_zsmul_one, if_neg (by simp), add_zero]
    exact h.refs i
  · rw [Ledger.lock, add_zsmul_one, ← h.locks i]
    by_cases hi : i = ip
    · subst hi
      rw [if_pos rfl, ← hn]
      exact congrArg (fun v : Bool => (v.toNat : ℤ)) (update_self i b s.locked)
    · rw [if_neg fun he => hi (Account.lock.inj he), add_zero]
      exact congrArg (fun v : Bool => (v.toNat : ℤ)) (update_of_ne hi b s.locked)
  · rw [Ledger.lock, add_zsmul_one, if_neg (by simp), add_zero]
    exact h.files f
  · rw [Ledger.lock, add_zsmul_one, if_neg (by simp), add_zero]
    exact h.ops

theorem setOutstanding (h : Bal R x s) (n : ℤ) :
    Bal R (x + n • Ledger.one .op) { s with outstanding := s.outstanding + n } := by
  refine ⟨fun i => ?_, fun i => ?_, fun f => ?_, ?_, h.idle, h.pipes, h.sb, h.procs⟩
  · rw [add_zsmul_one, if_neg (by simp), add_zero]
    exact h.refs i
  · rw [add_zsmul_one, if_neg (by simp), add_zero]
    exact h.locks i
  · rw [add_zsmul_one, if_neg (by simp), add_zero]
    exact h.files f
  · rw [add_zsmul_one, if_pos rfl, ← h.ops]

theorem setOfile {p : Fin NPROC} {r : Option (Fin NFILE)} (h : Bal R x s) (fd : Fin NOFILE)
    (hR : S s.state (update s.ofile (p, fd) r) s.cwd) :
    Bal S (x + (Ledger.fileOf (s.ofile (p, fd)) - Ledger.fileOf r))
      { s with ofile := update s.ofile (p, fd) r } := by
  have hrest : ∀ a, (∀ f, a ≠ .file f) →
      (x + (Ledger.fileOf (s.ofile (p, fd)) - Ledger.fileOf r)) a = x a := by
    intro a ha
    simp [Ledger.fileOf_other _ ha]
  refine ⟨fun i => ?_, fun i => ?_, fun f => ?_, ?_, h.idle, h.pipes, h.sb, hR⟩
  · rw [hrest _ (by simp)]
    exact h.refs i
  · rw [hrest _ (by simp)]
    exact h.locks i
  · have hocc := occ_update s.ofile (p, fd) r f
    have hf := h.files f
    simp only [Pi.add_apply, Pi.sub_apply, Ledger.fileOf_file]
    omega
  · rw [hrest _ (by simp)]
    exact h.ops

theorem setCwd {p : Fin NPROC} {r : Option (Fin NINODE)} (h : Bal R x s)
    (hR : S s.state s.ofile (update s.cwd p r)) :
    Bal S (x + (Ledger.refOf (s.cwd p) - Ledger.refOf r))
      { s with cwd := update s.cwd p r } := by
  have hrest : ∀ a, (∀ i, a ≠ .ref i) →
      (x + (Ledger.refOf (s.cwd p) - Ledger.refOf r)) a = x a := by
    intro a ha
    simp [Ledger.refOf_other _ ha]
  refine ⟨fun i => ?_, fun i => ?_, fun f => ?_, ?_, h.idle, h.pipes, h.sb, hR⟩
  · have hocc := occ_update s.cwd p r i
    rw [h.refs i]
    simp only [Pi.add_apply, Pi.sub_apply, Ledger.refOf_ref]
    congr 1
    omega
  · rw [hrest _ (by simp)]
    exact h.locks i
  · rw [hrest _ (by simp)]
    exact h.files f
  · rw [hrest _ (by simp)]
    exact h.ops

theorem setState {st : Fin NPROC → ProcState} (h : Bal R x s) (hR : S st s.ofile s.cwd) :
    Bal S x { s with state := st } :=
  ⟨h.refs, h.locks, h.files, h.ops, h.idle, h.pipes, h.sb, hR⟩

/-- A change of one file and of the pipes. -/
theorem setFile {f : Fin NFILE} {z : OpenFile} {pipe : ℕ → Option PipeEnds} {l : List ℕ}
    {made freed : ℕ → ℕ} (h : Bal R x s) (hz : z.ref = 0 → z.type = .none)
    (hpipes : PipesOk (update s.ftable f z) pipe l made freed) :
    Bal R (x + ((z.ref : ℤ) - (s.ftable f).ref) • Ledger.file f +
        (Ledger.refOf (s.ftable f).inode - Ledger.refOf z.inode))
      { s with
        ftable := update s.ftable f z, pipe := pipe, freelist := l, made := made
        freed := freed } := by
  have hinode : fileInode (update s.ftable f z) = update (fileInode s.ftable) f z.inode := by
    funext g
    by_cases hg : g = f
    · subst hg
      simp [fileInode]
    · simp [fileInode, hg]
  have hinodes : ∀ a, (∀ i, a ≠ .ref i) →
      (Ledger.refOf (s.ftable f).inode - Ledger.refOf z.inode) a = 0 := by
    intro a ha
    rw [Pi.sub_apply, Ledger.refOf_other _ ha, Ledger.refOf_other _ ha, sub_zero]
  refine ⟨fun i => ?_, fun i => ?_, fun g => ?_, ?_, fun g hg => ?_, hpipes, h.sb, h.procs⟩
  · have hocc := occ_update (fileInode s.ftable) f z.inode i
    have hf : fileInode s.ftable f = (s.ftable f).inode := rfl
    rw [hf] at hocc
    simp only [hinode]
    rw [h.refs i]
    simp only [Pi.add_apply, Pi.sub_apply, Ledger.refOf_ref, Pi.smul_apply, Ledger.file,
      Ledger.one_apply, reduceCtorEq, if_false, zsmul_zero]
    congr 1
    omega
  · rw [Pi.add_apply, Ledger.file, add_zsmul_one, if_neg (by simp), hinodes _ (by simp), add_zero,
      add_zero]
    exact h.locks i
  · rw [Pi.add_apply, Ledger.file, add_zsmul_one, hinodes _ (by simp), add_zero]
    by_cases hgf : g = f
    · subst hgf
      have hg := h.files g
      rw [if_pos rfl]
      change ((update s.ftable g z g).ref : ℤ) = _
      rw [update_self]
      change (z.ref : ℤ) = occ s.ofile g + _
      omega
    · rw [if_neg fun he => hgf (Account.file.inj he), add_zero, ← h.files g]
      exact congrArg (fun v : OpenFile => (v.ref : ℤ)) (update_of_ne hgf z s.ftable)
  · rw [Pi.add_apply, Ledger.file, add_zsmul_one, if_neg (by simp), hinodes _ (by simp), add_zero,
      add_zero]
    exact h.ops
  · by_cases hgf : g = f
    · subst hgf
      simp only [update_self] at hg ⊢
      exact hz hg
    · simp only [update_of_ne hgf] at hg ⊢
      exact h.idle g hg

end Bal

/-! ### Inodes -/

variable (V : Volume D)

theorem moves_inode {ip : Fin NINODE} {η : β → Ledger} {k : CInode → KernM D β}
    (hk : ∀ z, Moves R (k z) η) : Moves R (inode ip >>= k) η :=
  .look (fun _ => rfl) hk

theorem moves_get {η : β → Ledger} {k : Kern D → KernM D β} (hk : ∀ z, Moves R (k z) η) :
    Moves R (get >>= k) η :=
  .look (fun _ => rfl) hk

theorem moves_of_ok {δ : α → Ledger} {g : Kern D → α} {t : Kern D → Kern D}
    (hm : ∀ s, m s = .ok (g s, t s)) (ht : ∀ x s, Bal R x s → Bal R (x + δ (g s)) (t s)) :
    Moves R m δ := by
  refine fun x s hs => ⟨fun a s' hr => ?_, fun e he => ?_⟩
  · obtain ⟨rfl, rfl⟩ := ok_inj ((hm s).symm.trans hr)
    exact ht x s hs
  · cases (hm s).symm.trans he

theorem Bal.zero (h : Bal R x s) : Bal R (x + 0) s := by
  rw [add_zero]
  exact h

theorem ref_other {ip : Fin NINODE} {a : Account} (h : ∀ i, a ≠ .ref i) : Ledger.ref ip a = 0 :=
  Ledger.refOf_other (some ip) h

theorem moves_modifyInode (ip : Fin NINODE) (hf : ∀ z, (f z).ref = z.ref) :
    Moves R (modifyInode ip f : KernM D Unit) 0 := by
  refine moves_of_ok (fun _ => rfl) fun x s h => h.setIcache (fun i => ?_) fun _ _ => rfl
  change _ = toInt32 (_ + 0)
  rw [add_zero, ← h.refs i, Icache.modify_inode]
  split_ifs with hi
  · rw [hf, hi]
  · rfl

theorem moves_iget (inum : ℕ) : Moves R (iget inum : KernM D _) Ledger.ref := by
  refine fun x s h => ⟨fun ip s' hr => ?_, fun e he => ?_⟩
  · unfold iget at hr
    split at hr
    · rename_i i c hc
      cases hr
      exact h.setIcache (Icache.iget_ref hc h.refs) fun _ => ref_other
    · cases hr
  · unfold iget at he
    split at he
    · cases he
    · rename_i msg hc
      cases he
      obtain rfl | rfl := Icache.iget_error hc <;> simp [Stop.Expected]

theorem moves_idup (ip : Fin NINODE) : Moves R (idup ip : KernM D Unit) fun _ => Ledger.ref ip :=
  moves_of_ok (fun _ => rfl) fun _ _ h => h.setIcache (Icache.idup_ref h.refs) fun _ => ref_other

theorem moves_iupdate (ip : Fin NINODE) : Moves R (iupdate V ip) 0 :=
  moves_of_ok (fun _ => rfl) fun _ _ h => { h.zero with }

theorem moves_onDisk (f : D → Option (α × D)) : Moves R (onDisk f) 0 := by
  refine fun x s h => ⟨fun a s' hr => ?_, fun e he => ?_⟩
  · unfold onDisk at hr
    split at hr
    · cases hr
      exact { h.zero with }
    · cases hr
  · unfold onDisk at he
    split at he
    · cases he
    · cases he
      simp [Stop.Expected]

theorem moves_acquiresleep (ip : Fin NINODE) :
    Moves R (acquiresleep ip : KernM D Unit) fun _ => Ledger.lock ip := by
  refine fun x s h => ⟨fun u s' hr => ?_, fun e he => ?_⟩
  · unfold acquiresleep at hr
    split_ifs at hr with hl
    cases hr
    have := h.setLocked (b := true) (n := 1) ip (by simp [hl])
    rwa [one_zsmul] at this
  · unfold acquiresleep at he
    split_ifs at he
    cases he
    simp [Stop.Expected]

theorem moves_iunlock (ip : Fin NINODE) :
    Moves R (iunlock ip : KernM D Unit) fun _ => -Ledger.lock ip := by
  refine fun x s h => ⟨fun u s' hr => ?_, fun e he => ?_⟩
  · unfold iunlock at hr
    split_ifs at hr with hl
    cases hr
    have hlocked : s.locked ip = true := by simpa using (not_or.1 hl).1
    have := h.setLocked (b := false) (n := -1) ip (by simp [hlocked])
    rwa [neg_one_zsmul] at this
  · unfold iunlock at he
    split_ifs at he
    cases he
    simp [Stop.Expected]

theorem moves_dropRef (ip : Fin NINODE) :
    Moves R (dropRef ip : KernM D Unit) fun _ => -Ledger.ref ip := by
  refine fun x s h => ⟨fun u s' hr => ?_, fun e he => ?_⟩
  · unfold dropRef at hr
    split at hr
    · cases hr
    · rename_i c hc
      cases hr
      refine h.setIcache (Icache.iput_ref hc h.refs) fun a ha => ?_
      change -Ledger.ref ip a = 0
      rw [ref_other ha, neg_zero]
  · unfold dropRef at he
    split at he
    · rename_i msg hc
      cases he
      obtain rfl := Icache.iput_error hc
      simp [Stop.Expected]
    · cases he

theorem moves_setMajor (ip : Fin NINODE) (major : ℤ) :
    Moves R (setMajor ip major : KernM D Unit) 0 :=
  moves_of_ok (fun _ => rfl) fun _ _ h => { h.zero with }

theorem moves_ilock (ip : Fin NINODE) : Moves R (ilock V ip) fun _ => Ledger.lock ip := by
  refine moves_inode fun z => ?_
  split_ifs with hz
  · exact .throw (by simp [Stop.Expected])
  refine .bind (moves_acquiresleep ip) fun _ => moves_inode fun z => ?_
  split_ifs with hv
  · exact .pure (sub_self _)
  refine moves_get fun s => .bind (moves_modifyInode ip fun _ => rfl) fun _ => ?_
  exact (moves_setMajor ip 0).congr fun _ => by simp

theorem moves_iput (ip : Fin NINODE) : Moves R (iput V ip) fun _ => -Ledger.ref ip := by
  refine moves_get fun s => ?_
  split_ifs with hl
  · exact .throw (by simp [Stop.Expected])
  refine moves_inode fun z => ?_
  split_ifs with hz
  · exact .bind (moves_onDisk _) fun _ => (moves_dropRef ip).congr fun _ => by simp
  · exact moves_dropRef ip

theorem moves_iunlockput (ip : Fin NINODE) :
    Moves R (iunlockput V ip) fun _ => -Ledger.lock ip - Ledger.ref ip :=
  .bind (moves_iunlock ip) fun _ => (moves_iput V ip).congr fun _ => by abel

/-- The ledger of a function that may return an inode. -/
@[simp] def found (δ : Fin NINODE → Ledger) : Option (Fin NINODE) → Ledger
  | none => 0
  | some ip => δ ip

theorem moves_dirlookup (dp : Fin NINODE) (name : Bytes) :
    Moves R (dirlookup V dp name) fun r => found Ledger.ref (r.map Prod.fst) := by
  refine moves_inode fun z => .bind (moves_onDisk _) fun r => ?_
  rcases r with _ | ⟨inum, off⟩
  · exact .pure (by simp)
  · exact .bind (moves_iget inum) fun ip => .pure (by simp)

theorem moves_dirlink (dp : Fin NINODE) (name : Bytes) (inum : ℕ) :
    Moves R (dirlink V dp name inum) 0 := by
  refine .bind (moves_dirlookup V dp name) fun r => ?_
  rcases r with _ | ⟨ip, off⟩
  · exact moves_inode fun z => (moves_onDisk _).congr fun _ => by simp
  · exact .bind (moves_iput V ip) fun _ => .pure (by simp)

theorem moves_walk (parent : Bool) (l : List Bytes) (ip : Fin NINODE) :
    Moves R (walk V parent l ip) fun r => found Ledger.ref r - Ledger.ref ip := by
  induction l generalizing ip with
  | nil =>
    unfold walk
    split_ifs with hp
    · exact .bind (moves_iput V ip) fun _ => .pure (by simp)
    · exact .pure (by simp)
  | cons name rest ih =>
    refine .bind (moves_ilock V ip) fun _ => moves_inode fun z => ?_
    split_ifs with ht hp
    · refine .bind (moves_iunlockput V ip) fun _ => .pure ?_
      abel
    · refine .bind (moves_iunlock ip) fun _ => .pure ?_
      simp only [found]
      abel
    · refine .bind (moves_dirlookup V ip name) fun r => ?_
      rcases r with _ | ⟨next, off⟩
      · refine .bind (moves_iunlockput V ip) fun _ => .pure ?_
        abel
      · refine .bind (moves_iunlockput V ip) fun _ => (ih next).congr fun r => ?_
        abel

theorem moves_start (p : Fin NPROC) (path : Bytes) :
    Moves R (start p path : KernM D _) Ledger.ref := by
  unfold start
  split_ifs with ha
  · exact moves_iget ROOTINO
  · refine moves_get fun s => ?_
    cases s.cwd p with
    | none => exact .throw (by simp [Stop.Expected])
    | some ip => exact .bind (moves_idup ip) fun _ => .pure (by simp)

theorem moves_namex (p : Fin NPROC) (parent : Bool) (path behind : Bytes) :
    Moves R (namex V p parent path behind) (found Ledger.ref) :=
  .bind (moves_start p path) fun ip => moves_walk V parent (names path behind) ip

theorem moves_iallocLoop (type : ℕ) (l : List ℕ) :
    Moves R (iallocLoop V type l) (found Ledger.ref) := by
  induction l with
  | nil => exact .pure rfl
  | cons inum rest ih =>
    refine moves_get fun s => ?_
    cases V.claim s.disk inum type with
    | none => exact ih
    | some d =>
      refine .bind (moves_onDisk _) fun _ => .bind (moves_iget inum) fun ip => .pure ?_
      simp

theorem moves_ialloc (type : ℕ) : Moves R (ialloc V type) (found Ledger.ref) :=
  moves_get fun _ => moves_iallocLoop V type _

theorem moves_addLink (ip : Fin NINODE) (n : ℤ) : Moves R (addLink V ip n) 0 :=
  .bind (moves_modifyInode ip fun _ => rfl) fun _ => (moves_iupdate V ip).congr fun _ => by simp

theorem moves_linkDots (dp ip : Fin NINODE) : Moves R (linkDots V dp ip) 0 := by
  refine moves_inode fun z => .bind (moves_dirlink V ip [46] z.inum) fun r => ?_
  cases r with
  | false => exact .pure (by simp)
  | true => exact moves_inode fun y => (moves_dirlink V ip [46, 46] y.inum).congr fun _ => by simp

theorem moves_linkNew (dp ip : Fin NINODE) (name : Bytes) (type : ℕ) :
    Moves R (linkNew V dp ip name type) 0 := by
  have hname : Moves R (do
      let x ← inode ip
      dirlink V dp name x.inum) 0 := moves_inode fun z => moves_dirlink V dp name z.inum
  unfold linkNew
  split_ifs with ht
  · refine .bind (moves_linkDots V dp ip) fun r => ?_
    cases r with
    | false => exact .pure (by simp)
    | true => exact hname.congr fun _ => by simp
  · exact hname

theorem moves_addDotDot (dp : Fin NINODE) (type : ℕ) (n : ℤ) :
    Moves R (addDotDot V dp type n) 0 := by
  unfold addDotDot
  split_ifs with ht
  · exact moves_addLink V dp n
  · exact .pure rfl

theorem moves_createLocked (dp ip : Fin NINODE) (name : Bytes) (type : ℕ) (major : ℤ) :
    Moves R (createLocked V dp ip name type major) fun r =>
      found (fun i => Ledger.lock i + Ledger.ref i) r - Ledger.ref ip - Ledger.lock dp -
        Ledger.ref dp := by
  refine .bind (moves_ilock V ip) fun _ => .bind (moves_setMajor ip major) fun _ => ?_
  refine .bind (moves_modifyInode ip fun _ => rfl) fun _ => .bind (moves_iupdate V ip) fun _ => ?_
  refine .bind (moves_linkNew V dp ip name type) fun r => ?_
  cases r with
  | true =>
    refine .bind (moves_addDotDot V dp type 1) fun _ =>
      .bind (moves_iunlockput V dp) fun _ => .pure ?_
    simp only [Pi.zero_apply, found]
    abel
  | false =>
    refine .bind (moves_modifyInode ip fun _ => rfl) fun _ => .bind (moves_iupdate V ip) fun _ => ?_
    refine .bind (moves_iunlockput V ip) fun _ => .bind (moves_iunlockput V dp) fun _ => .pure ?_
    abel

/-- `create` returns with the inode locked. -/
theorem moves_create (p : Fin NPROC) (path behind : Bytes) (type : ℕ) (major : ℤ) :
    Moves R (create V p path behind type major) (found fun i => Ledger.lock i + Ledger.ref i) := by
  refine .bind (moves_namex V p true path behind) fun r => ?_
  cases r with
  | none => exact .pure (by simp)
  | some dp =>
    refine .bind (moves_ilock V dp) fun _ => .bind (moves_dirlookup V dp _) fun r => ?_
    rcases r with _ | ⟨ip, off⟩
    · refine .bind (moves_ialloc V type) fun r => ?_
      cases r with
      | none =>
        refine .bind (moves_iunlockput V dp) fun _ => .pure ?_
        simp only [found, Option.map_none]
        abel
      | some ip =>
        refine (moves_createLocked V dp ip _ type major).congr fun r => ?_
        simp only [found, Option.map_none]
        abel
    · refine .bind (moves_iunlockput V dp) fun _ => .bind (moves_ilock V ip) fun _ => ?_
      refine moves_inode fun z => ?_
      split_ifs with ht
      · refine .pure ?_
        simp only [found, Option.map_some]
        abel
      · refine .bind (moves_iunlockput V ip) fun _ => .pure ?_
        simp only [found, Option.map_some]
        abel

end Kern

end Cinux
