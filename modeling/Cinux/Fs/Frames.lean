import Cinux.Fs.CallBalance

/-!
# Calls that leave no reference behind

A call that gives back every reference and every lock that it takes, and does not change the table
of files, leaves all counts as they were.  Giving back is what `Moves` says; the rest is here.

* `Kern.KeepsFiles` : code that leaves the table of files;
* `Kern.restored` : the counts and locks after a call that gives everything back;
* `Kern.kexec_restores` : such a call is `kexec`.
-/

namespace Cinux

namespace Kern

variable {D : Type} {V : Volume D} {α β : Type} {m : KernM D α} {k : α → KernM D β}
  {p : Fin NPROC} {ip : Fin NINODE} {s s' : Kern D} {a : α}

/-- `m` leaves the table of files. -/
def KeepsFiles (m : KernM D α) : Prop := ∀ s a s', m s = .ok (a, s') → s'.ftable = s.ftable

namespace KeepsFiles

theorem pure (a : α) : KeepsFiles (Pure.pure a : KernM D α) := by
  intro s b s' h
  obtain ⟨-, rfl⟩ := Program.pure_eq_ok.1 h
  rfl

theorem throw (e : Stop) : KeepsFiles (MonadExcept.throw e : KernM D α) := fun _ _ _ h => nomatch h

theorem bind (hm : KeepsFiles m) (hk : ∀ a, KeepsFiles (k a)) : KeepsFiles (m >>= k) := by
  intro s b s' h
  obtain ⟨a, s1, h1, h2⟩ := Program.bind_eq_ok.1 h
  rw [hk a s1 b s' h2, hm s a s1 h1]

theorem look {g : Kern D → α} (hm : ∀ s, m s = .ok (g s, s)) : KeepsFiles m := by
  intro s a s' h
  obtain ⟨-, rfl⟩ := Program.ok_inj ((hm s).symm.trans h)
  rfl

theorem inode (ip : Fin NINODE) : KeepsFiles (inode ip : KernM D CInode) := look fun _ => rfl

theorem get : KeepsFiles (MonadState.get : KernM D (Kern D)) := look fun _ => rfl

theorem modifyInode (ip : Fin NINODE) (f : CInode → CInode) :
    KeepsFiles (modifyInode ip f : KernM D Unit) := by
  rintro s a s' ⟨⟩
  rfl

theorem iget (inum : ℕ) : KeepsFiles (iget inum : KernM D (Fin NINODE)) := by
  intro s a s' h
  unfold Kern.iget at h
  split at h <;> cases h
  rfl

theorem onDisk (f : D → Option (α × D)) : KeepsFiles (onDisk f) := by
  intro s a s' h
  unfold Kern.onDisk at h
  split at h <;> cases h
  rfl

theorem acquiresleep (ip : Fin NINODE) : KeepsFiles (acquiresleep ip : KernM D Unit) := by
  intro s a s' h
  unfold Kern.acquiresleep at h
  split_ifs at h
  cases h
  rfl

theorem iunlock (ip : Fin NINODE) : KeepsFiles (iunlock ip : KernM D Unit) := by
  intro s a s' h
  unfold Kern.iunlock at h
  split_ifs at h
  cases h
  rfl

theorem dropRef (ip : Fin NINODE) : KeepsFiles (dropRef ip : KernM D Unit) := by
  intro s a s' h
  unfold Kern.dropRef at h
  split at h <;> cases h
  rfl

theorem beginOp : KeepsFiles (beginOp : KernM D Unit) := by
  intro s a s' h
  unfold Kern.beginOp at h
  split_ifs at h
  cases h
  rfl

theorem endOp : KeepsFiles (endOp : KernM D Unit) := by
  rintro s a s' ⟨⟩
  rfl

theorem ilock (V : Volume D) (ip : Fin NINODE) : KeepsFiles (ilock V ip) := by
  refine (inode ip).bind fun x => ?_
  split_ifs
  · exact throw _
  refine (acquiresleep ip).bind fun _ => (inode ip).bind fun y => ?_
  split_ifs
  · exact pure ()
  refine get.bind fun s => (modifyInode ip _).bind fun _ => ?_
  rintro s a s' ⟨⟩
  rfl

theorem iput (V : Volume D) (ip : Fin NINODE) : KeepsFiles (iput V ip) := by
  refine get.bind fun s => ?_
  split_ifs
  · exact throw _
  refine (inode ip).bind fun x => ?_
  split_ifs
  · exact (onDisk _).bind fun _ => dropRef ip
  · exact dropRef ip

theorem iunlockput (V : Volume D) (ip : Fin NINODE) : KeepsFiles (iunlockput V ip) :=
  (iunlock ip).bind fun _ => iput V ip

theorem dirlookup (V : Volume D) (dp : Fin NINODE) (name : Bytes) :
    KeepsFiles (dirlookup V dp name) := by
  refine (inode dp).bind fun x => (onDisk _).bind fun r => ?_
  cases r with
  | none => exact pure none
  | some r => exact (iget r.1).bind fun ip => pure _

theorem walk (V : Volume D) (parent : Bool) (l : List Bytes) (ip : Fin NINODE) :
    KeepsFiles (walk V parent l ip) := by
  induction l generalizing ip with
  | nil =>
    unfold Kern.walk
    split_ifs
    · exact (iput V ip).bind fun _ => pure none
    · exact pure _
  | cons name rest ih =>
    unfold Kern.walk
    refine (ilock V ip).bind fun _ => (inode ip).bind fun x => ?_
    split_ifs
    · exact (iunlockput V ip).bind fun _ => pure none
    · exact (iunlock ip).bind fun _ => pure _
    refine (dirlookup V ip name).bind fun r => ?_
    cases r with
    | none => exact (iunlockput V ip).bind fun _ => pure none
    | some r => exact (iunlockput V ip).bind fun _ => ih r.1

theorem start (p : Fin NPROC) (path : Bytes) :
    KeepsFiles (start p path : KernM D (Fin NINODE)) := by
  unfold Kern.start
  split_ifs
  · exact iget _
  refine get.bind fun s => ?_
  cases s.cwd p with
  | none => exact throw _
  | some ip =>
    refine bind ?_ fun _ => pure ip
    rintro s a s' ⟨⟩
    rfl

theorem namex (V : Volume D) (p : Fin NPROC) (parent : Bool) (path behind : Bytes) :
    KeepsFiles (namex V p parent path behind) :=
  (start p path).bind fun ip => walk V parent _ ip

theorem kexec (V : Volume D) (p : Fin NPROC) (path behind : Bytes) (loads runs : Bool) :
    KeepsFiles (kexec V p path behind loads runs) := by
  refine beginOp.bind fun _ => (namex V p false path behind).bind fun r => ?_
  cases r with
  | none => exact endOp.bind fun _ => pure _
  | some ip =>
    refine (ilock V ip).bind fun _ => ?_
    split_ifs <;> exact (iunlockput V ip).bind fun _ => endOp.bind fun _ => pure _

end KeepsFiles

/-- **After a call that gives everything back and leaves the files**, all counts of references to
inodes and all locks are as they were. -/
theorem restored {R : ProcFact} {x : Ledger} (hmoves : ∀ R, Moves R m 0) (hkeeps : KeepsFiles m)
    (h : Bal R x s) (hrun : m s = .ok (a, s')) :
    (∀ i, (s'.icache.inode i).ref = (s.icache.inode i).ref) ∧ s'.locked = s.locked := by
  have hbal : Bal (fun _ _ c => c = s.cwd) x s := { h with procs := rfl }
  have hend := (hmoves _ x s hbal).1 a s' hrun
  refine ⟨fun i => ?_, funext fun i => ?_⟩
  · rw [hend.refs i, h.refs i, hkeeps s a s' hrun, hend.procs]
    simp
  · have hlock := (hend.locks i).trans (by simp [h.locks i] : _ = ((s.locked i).toNat : ℤ))
    cases hl : s.locked i <;> cases hl' : s'.locked i <;> simp [hl, hl'] at hlock ⊢

theorem kexec_restores {R : ProcFact} {x : Ledger} (h : Bal R x s) {path behind : Bytes}
    {loads runs : Bool} {r : ℤ} (hrun : kexec V p path behind loads runs s = .ok (r, s')) :
    (∀ i, (s'.icache.inode i).ref = (s.icache.inode i).ref) ∧ s'.locked = s.locked :=
  restored (fun _ => moves_kexec V path behind loads runs)
    (KeepsFiles.kexec V p path behind loads runs) h hrun

end Kern

end Cinux
