import Cinux.Fs.FileBalance

/-!
# The balance of system calls

Each call leaves the ledger as it was, at every exit: the sum of what its statements take and give
back is zero.  So in every state between two calls the counts in the tables are the numbers of
references (`files_counted`, `inodes_counted`).
-/

namespace Cinux

open Function List Ledger

open Program

namespace Kern

variable {D : Type} {R S : ProcFact} {α : Type} {x : Ledger} {s : Kern D} (V : Volume D)

/-- A process that is unused or a zombie has no descriptor and no directory. -/
def Closed : ProcFact := fun st o c =>
  ∀ q, st q = .unused ∨ st q = .zombie → (∀ fd, o (q, fd) = none) ∧ c q = none

/-- The process is neither unused nor a zombie, and those that are have been closed. -/
def Running (p : Fin NPROC) : ProcFact := fun st o c =>
  (st p ≠ .unused ∧ st p ≠ .zombie) ∧ Closed st o c

namespace Running

variable {p : Fin NPROC} {st : Fin NPROC → ProcState}
  {o : Fin NPROC × Fin NOFILE → Option (Fin NFILE)} {c : Fin NPROC → Option (Fin NINODE)}

theorem ne (h : Running p st o c) {q : Fin NPROC} (hq : st q = .unused ∨ st q = .zombie) :
    q ≠ p := by
  rintro rfl
  exact hq.elim h.1.1 h.1.2

theorem update_ofile (h : Running p st o c) (fd : Fin NOFILE) (r : Option (Fin NFILE)) :
    Running p st (update o (p, fd) r) c := by
  refine ⟨h.1, fun q hq => ⟨fun fd' => ?_, (h.2 q hq).2⟩⟩
  rw [update_of_ne fun he => h.ne hq (congrArg Prod.fst he)]
  exact (h.2 q hq).1 fd'

theorem update_cwd (h : Running p st o c) (r : Option (Fin NINODE)) :
    Running p st o (update c p r) := by
  refine ⟨h.1, fun q hq => ⟨(h.2 q hq).1, ?_⟩⟩
  rw [update_of_ne (h.ne hq)]
  exact (h.2 q hq).2

end Running

variable {p : Fin NPROC}

theorem guarded_argfd (p : Fin NPROC) (fd : ℤ) {Q : α → Kern D → Prop}
    {k : Option (Fin NOFILE × Fin NFILE) → KernM D α}
    (hnone : Guarded Stop.Expected (Bal R x) (k none) Q)
    (hsome : ∀ fd f, Guarded Stop.Expected (fun s => s.ofile (p, fd) = some f ∧ Bal R x s)
      (k (some (fd, f))) Q) :
    Guarded Stop.Expected (Bal R x) (argfd p fd >>= k) Q := by
  by_cases hfd : 0 ≤ fd ∧ fd.toNat < NOFILE
  · refine .look (g := fun s => (s.ofile (p, ⟨fd.toNat, hfd.2⟩)).map (⟨fd.toNat, hfd.2⟩, ·))
      (fun s => by simp [argfd, hfd]) fun r => ?_
    cases r with
    | none => exact hnone.pre fun s hs => hs.2
    | some q =>
      refine (hsome q.1 q.2).pre fun s hs => ⟨?_, hs.2⟩
      obtain ⟨f, hf, rfl⟩ := Option.map_eq_some_iff.1 hs.1
      exact hf
  · refine .look (g := fun _ => none) (fun s => by simp [argfd, hfd]) fun r => ?_
    cases r with
    | none => exact hnone.pre fun s hs => hs.2
    | some q => exact fun s hs => absurd hs.1 (by simp)

theorem balanced_sysDup (fd : ℤ) :
    Guarded Stop.Expected (Bal (Running p) 0) (sysDup p fd : KernM D ℤ)
      fun _ => Bal (Running p) 0 := by
  refine guarded_argfd p fd (.pure fun s h => h) fun fd f => ?_
  refine .bind ((guarded_fdalloc (x := 0) (F := fun ft => 0 < (ft f).ref) (R := Running p)
    fun fd st o c hs _ => hs.update_ofile fd _).pre fun s h => ?_)
    fun r => ?_
  · have hocc := occ_pos h.1
    have hfiles := h.2.files f
    simp only [Pi.zero_apply] at hfiles
    exact ⟨by omega, h.2⟩
  cases r with
  | none => exact .pure fun s h => h.2
  | some fd =>
    refine .bind guarded_filedup fun _ => .pure fun s h => ?_
    rwa [sub_add_cancel] at h

theorem balanced_sysClose (fd : ℤ) :
    Guarded Stop.Expected (Bal (Running p) 0) (sysClose V p fd) fun _ => Bal (Running p) 0 := by
  refine guarded_argfd p fd (.pure fun s h => h) fun fd f => ?_
  refine .bind ((guarded_clearFd (R := fun st o c => o (p, fd) = some f ∧ Running p st o c)
    (fun st o c h => h.1) fun st o c h => h.2.update_ofile fd none).pre
    fun s h => { h.2 with procs := ⟨h.1, h.2.procs⟩ }) fun _ => ?_
  rw [zero_add]
  refine .bind (guarded_fileclose_held V (file_self_pos f)) fun _ => .pure fun s h => ?_
  rwa [sub_self] at h

theorem balanced_pipeUndo (rf wf : Fin NFILE) :
    Guarded Stop.Expected (Bal R (file rf + file wf)) (pipeUndo V rf wf)
      fun _ => Bal R 0 :=
  (guarded_closeBoth V (-1)).conseq (fun _ h => h) fun _ _ h => h.2

/-- The descriptors that `sys_pipe` has set. -/
def PipeFds (p : Fin NPROC) (rf wf : Fin NFILE) (fd0 fd1 : Fin NOFILE) : ProcFact := fun st o c =>
  fd0 ≠ fd1 ∧ o (p, fd0) = some rf ∧ o (p, fd1) = some wf ∧ Running p st o c

theorem balanced_sysPipe (out : Bool) :
    Guarded Stop.Expected (Bal (Running p) 0) (sysPipe V p out) fun _ => Bal (Running p) 0 := by
  refine .bind (guarded_pipealloc V) fun r => ?_
  rcases r with _ | ⟨rf, wf⟩
  · exact .pure fun s h => h
  refine .bind ((guarded_fdalloc (F := fun _ => True)
    (x := file rf + file wf)
    (S := fun fd0 st o c => o (p, fd0) = some rf ∧ Running p st o c)
    fun fd st o c hs _ => ⟨by simp, hs.update_ofile fd _⟩).pre fun s h => ⟨trivial, h⟩) fun r => ?_
  cases r with
  | none => exact (balanced_pipeUndo V rf wf).pre fun s h => h.2
  | some fd0 =>
    simp only [add_sub_cancel_left]
    refine .bind ((guarded_fdalloc
      (F := fun _ => True) (S := PipeFds p rf wf fd0)
      fun fd1 st o c hs hfd1 => ?_)) fun r => ?_
    · have hne : fd0 ≠ fd1 := by
        rintro rfl
        simp [hs.1] at hfd1
      refine ⟨hne, ?_, by simp, hs.2.update_ofile fd1 _⟩
      rw [update_of_ne fun he => hne (congrArg Prod.snd he)]
      exact hs.1
    cases r with
    | none =>
      refine .bind ((guarded_clearFd (fun st o c h => h.1)
        fun st o c h => h.2.update_ofile fd0 none).pre fun s h => h.2) fun _ => ?_
      rw [add_comm]
      exact balanced_pipeUndo V rf wf
    | some fd1 =>
      split_ifs with hout
      · refine .pure fun s h => ?_
        have h := h.2
        rw [sub_self] at h
        exact { h with procs := h.procs.2.2.2 }
      · refine .bind ((guarded_clearFd
          (S := fun st o c => o (p, fd1) = some wf ∧ Running p st o c) (fun st o c h => h.2.1)
          fun st o c h => ⟨?_, h.2.2.2.update_ofile fd0 none⟩).pre fun s h => h.2) fun _ => ?_
        · rw [update_of_ne fun he => h.1 (congrArg Prod.snd he).symm]
          exact h.2.2.1
        refine .bind (guarded_clearFd (fun st o c h => h.1)
          fun st o c h => h.2.update_ofile fd1 none) fun _ => ?_
        rw [sub_self, zero_add]
        exact balanced_pipeUndo V rf wf

theorem guarded_openFile {f : Fin NFILE} (ip : Fin NINODE) {g : OpenFile → OpenFile}
    (hg : ∀ z, (g z).ref = z.ref ∧ ((g z).type = .inode ∨ (g z).type = .device) ∧
      (g z).ip = some ip) :
    Guarded Stop.Expected (fun s : Kern D => Fresh f s.ftable ∧ Bal R x s) (modifyFile f g)
      fun _ => Bal R (x - ref ip) := by
  refine .of_ok fun s ⟨hf, h⟩ => ⟨_, _, rfl, ?_⟩
  obtain ⟨href, htype, hip⟩ := hg (s.ftable f)
  have hnot : (g (s.ftable f)).type ≠ .pipe := by
    obtain ht | ht := htype <;> simp [ht]
  have hpipes := h.pipes.setFile (f := f) fun n w =>
    iff_of_false (OpenFile.not_isEnd hnot n w) (OpenFile.not_isEnd (by simp [hf.2]) n w)
  have hbal := h.setFile (by simp [href, hf.1]) hpipes
  have hnew : (g (s.ftable f)).inode = some ip := by
    simp [OpenFile.inode, href, hf.1, htype, hip]
  have hold : (s.ftable f).inode = none := OpenFile.inode_of_type (by simp [hf.2]) (by simp [hf.2])
  rw [hnew, hold, href, sub_self, zero_zsmul, add_zero] at hbal
  have hx : x + (refOf none - refOf (some ip)) = x - ref ip := by
    simp [refOf, sub_eq_add_neg]
  rw [hx] at hbal
  exact hbal

theorem moves_openTrunc (omode : ℕ) (z : CInode) : Moves R (openTrunc V omode z) 0 := by
  unfold openTrunc
  split_ifs with ht
  · exact moves_onDisk _
  · exact .pure rfl

theorem moves_putEnd (ip : Fin NINODE) (r : α) :
    Moves R (do
      iunlockput V ip
      endOp
      pure r) fun _ => -lock ip - ref ip - one .op := by
  refine .bind (moves_iunlockput V ip) fun _ => .bind moves_endOp fun _ => .pure ?_
  abel

theorem moves_openLocked (omode : ℕ) (ip : Fin NINODE) :
    Moves (Running p) (openLocked V p omode ip) fun _ =>
      -lock ip - ref ip - one .op := by
  refine moves_inode fun z => moves_get fun t => ?_
  by_cases hdev : z.type = T_DEVICE ∧ (t.major ip < 0 ∨ (NDEV : ℤ) ≤ t.major ip)
  · simp only [if_pos hdev]
    exact moves_putEnd V ip (-1)
  simp only [if_neg hdev]
  intro x
  refine .bind ((guarded_filealloc (F := fun _ => True) fun _ _ _ _ _ => trivial).pre
    fun s h => ⟨trivial, h⟩) fun r => ?_
  cases r with
  | none => exact (moves_putEnd V ip (-1) x).pre fun s h => h.2
  | some f =>
    refine .bind ((guarded_fdalloc (F := Fresh f) (R := Running p) (S := fun _ => Running p)
      (x := x + file f) fun fd st o c hs _ => hs.update_ofile fd _).pre
      fun s h => ⟨h.2.2.1, h.2.2.2⟩) fun r => ?_
    cases r with
    | none =>
      refine .bind ((guarded_fileclose V).pre fun s h => ⟨by simp [h.1.1], h.2⟩) fun _ => ?_
      rw [add_sub_cancel_right]
      exact moves_putEnd V ip (-1) x
    | some fd =>
      simp only [add_sub_cancel_right]
      refine .bind (guarded_openFile ip fun z => ⟨rfl, ?_, rfl⟩) fun _ => ?_
      · split_ifs
        · exact .inr rfl
        · exact .inl rfl
      have htail : Moves (Running p) (do
          openTrunc V omode z
          iunlock ip
          endOp
          pure (fd : ℤ)) fun _ => -lock ip - one .op := by
        refine .bind (moves_openTrunc V omode z) fun _ => .bind (moves_iunlock ip) fun _ => ?_
        refine .bind moves_endOp fun _ => .pure ?_
        simp only [Pi.zero_apply]
        abel
      exact htail.guarded fun _ => by abel

theorem moves_sysOpen (path : Option Bytes) (behind : Bytes) (omode : ℕ) :
    Moves (Running p) (sysOpen V p path behind omode) 0 := by
  cases path with
  | none => exact .pure rfl
  | some path =>
    refine .bind moves_beginOp fun _ => ?_
    split_ifs with hc
    · refine .bind (moves_create V p path behind T_FILE 0) fun r => ?_
      cases r with
      | none => exact .bind moves_endOp fun _ => .pure (by simp)
      | some ip =>
        refine (moves_openLocked V omode ip).congr fun _ => ?_
        simp only [found, Pi.zero_apply]
        abel
    · refine .bind (moves_namex V p false path behind) fun r => ?_
      cases r with
      | none => exact .bind moves_endOp fun _ => .pure (by simp)
      | some ip =>
        refine .bind (moves_ilock V ip) fun _ => moves_inode fun z => ?_
        split_ifs with ht
        · refine (moves_putEnd V ip (-1)).congr fun _ => ?_
          simp only [found, Pi.zero_apply]
          abel
        · refine (moves_openLocked V omode ip).congr fun _ => ?_
          simp only [found, Pi.zero_apply]
          abel

theorem moves_linkBad (ip : Fin NINODE) :
    Moves R (linkBad V ip) fun _ => -ref ip - one .op := by
  refine .bind (moves_ilock V ip) fun _ => .bind (moves_addLink V ip (-1)) fun _ => ?_
  refine (moves_putEnd V ip (-1)).congr fun _ => ?_
  simp only [Pi.zero_apply]
  abel

theorem moves_sysLink (paths : Option (Bytes × Bytes)) (inner behind : Bytes) :
    Moves R (sysLink V p paths inner behind) 0 := by
  rcases paths with _ | ⟨old, new⟩
  · exact .pure rfl
  refine .bind moves_beginOp fun _ => .bind (moves_namex V p false old inner) fun r => ?_
  cases r with
  | none => exact .bind moves_endOp fun _ => .pure (by simp)
  | some ip =>
    refine .bind (moves_ilock V ip) fun _ => moves_inode fun z => ?_
    split_ifs with ht
    · refine (moves_putEnd V ip (-1)).congr fun _ => ?_
      simp only [found, Pi.zero_apply]
      abel
    refine .bind (moves_addLink V ip 1) fun _ => .bind (moves_iunlock ip) fun _ => ?_
    refine .bind (moves_namex V p true new behind) fun r => ?_
    cases r with
    | none =>
      refine (moves_linkBad V ip).congr fun _ => ?_
      simp only [found, Pi.zero_apply]
      abel
    | some dp =>
      refine .bind (moves_ilock V dp) fun _ => moves_inode fun _ => moves_inode fun _ => ?_
      have hbad : Moves R (do
          iunlockput V dp
          linkBad V ip) fun _ =>
            -lock dp - ref dp - ref ip - one .op :=
        .bind (moves_iunlockput V dp) fun _ => (moves_linkBad V ip).congr fun _ => by abel
      split_ifs with hdev
      · refine hbad.congr fun _ => ?_
        simp only [found, Pi.zero_apply]
        abel
      · refine .bind (moves_dirlink V dp _ _) fun r => ?_
        cases r with
        | true =>
          refine .bind (moves_iunlockput V dp) fun _ => .bind (moves_iput V ip) fun _ => ?_
          refine .bind moves_endOp fun _ => .pure ?_
          simp only [found, Pi.zero_apply]
          abel
        | false =>
          refine hbad.congr fun _ => ?_
          simp only [found, Pi.zero_apply]
          abel

theorem moves_removable (z : CInode) : Moves R (removable V z) 0 := by
  unfold removable
  split_ifs with ht
  · exact moves_onDisk _
  · exact .pure rfl

theorem moves_unlinkLocked (dp ip : Fin NINODE) (off : ℕ) :
    Moves R (unlinkLocked V dp ip off) fun _ =>
      -lock ip - ref ip - lock dp - ref dp - one .op := by
  refine moves_inode fun z => ?_
  split_ifs with hn
  · exact .throw (by simp [Stop.Expected])
  refine .bind (moves_removable V z) fun r => ?_
  cases r with
  | true =>
    refine moves_inode fun y => .bind (moves_onDisk _) fun _ => ?_
    refine .bind (moves_addDotDot V dp z.type (-1)) fun _ =>
      .bind (moves_iunlockput V dp) fun _ => ?_
    refine .bind (moves_addLink V ip (-1)) fun _ => (moves_putEnd V ip 0).congr fun _ => ?_
    simp only [Pi.zero_apply]
    abel
  | false =>
    refine .bind (moves_iunlockput V ip) fun _ => (moves_putEnd V dp (-1)).congr fun _ => ?_
    simp only [Pi.zero_apply]
    abel

theorem moves_sysUnlink (path : Option Bytes) (behind : Bytes) :
    Moves R (sysUnlink V p path behind) 0 := by
  cases path with
  | none => exact .pure rfl
  | some path =>
    refine .bind moves_beginOp fun _ => .bind (moves_namex V p true path behind) fun r => ?_
    cases r with
    | none => exact .bind moves_endOp fun _ => .pure (by simp)
    | some dp =>
      have hbad : Moves R (unlinkBad V dp) fun _ =>
          -lock dp - ref dp - one .op := moves_putEnd V dp (-1)
      refine .bind (moves_ilock V dp) fun _ => ?_
      dsimp only
      split_ifs with hdot
      · refine hbad.congr fun _ => ?_
        simp only [found, Pi.zero_apply]
        abel
      refine .bind (moves_dirlookup V dp _) fun r => ?_
      rcases r with _ | ⟨ip, off⟩
      · refine hbad.congr fun _ => ?_
        simp only [found, Option.map_none, Pi.zero_apply]
        abel
      · refine .bind (moves_ilock V ip) fun _ => (moves_unlinkLocked V dp ip off).congr fun _ => ?_
        simp only [found, Option.map_some, Pi.zero_apply]
        abel

theorem moves_sysMake (path : Option Bytes) (behind : Bytes) (type : ℕ) (major : ℤ) :
    Moves R (sysMake V p path behind type major) 0 := by
  refine .bind moves_beginOp fun _ => ?_
  cases path with
  | none => exact .bind moves_endOp fun _ => .pure (by simp)
  | some path =>
    refine .bind (moves_create V p path behind type major) fun r => ?_
    cases r with
    | none => exact .bind moves_endOp fun _ => .pure (by simp)
    | some ip =>
      refine (moves_putEnd V ip 0).congr fun _ => ?_
      simp only [found, Pi.zero_apply]
      abel

theorem moves_kexec (path behind : Bytes) (loads runs : Bool) :
    Moves R (kexec V p path behind loads runs) 0 := by
  refine .bind moves_beginOp fun _ => .bind (moves_namex V p false path behind) fun r => ?_
  cases r with
  | none => exact .bind moves_endOp fun _ => .pure (by simp)
  | some ip =>
    have hend : ∀ r : ℤ, Moves R (do
        iunlockput V ip
        endOp
        pure r) fun _ => (0 - one .op - ref ip) - lock ip := by
      intro r
      exact (moves_putEnd V ip r).congr fun _ => by abel
    refine .bind (moves_ilock V ip) fun _ => ?_
    split_ifs with hl hr
    · exact hend 0
    · exact hend (-1)
    · exact hend (-1)

/-- `sys_chdir` gives the old directory back before it stores the new one. -/
theorem moves_sysChdir (path : Option Bytes) (behind : Bytes) :
    Moves (Running p) (sysChdir V p path behind) 0 := by
  refine .bind moves_beginOp fun _ => ?_
  cases path with
  | none => exact .bind moves_endOp fun _ => .pure (by simp)
  | some path =>
    refine .bind (moves_namex V p false path behind) fun r => ?_
    cases r with
    | none => exact .bind moves_endOp fun _ => .pure (by simp)
    | some ip =>
      refine .bind (moves_ilock V ip) fun _ => moves_inode fun z => ?_
      split_ifs with ht
      · refine (moves_putEnd V ip (-1)).congr fun _ => ?_
        simp only [found, Pi.zero_apply]
        abel
      refine .bind (moves_iunlock ip) fun _ => fun x => ?_
      refine .look (fun _ => rfl) fun t => ?_
      cases hcwd : t.cwd p with
      | none => exact .throw (by simp [Stop.Expected])
      | some old =>
        -- until the assignment the entry still refers to the old directory
        refine .bind ((moves_iput (R := fun st o c => c p = some old ∧ Running p st o c) V old
          x).pre ?_) fun _ => ?_
        · rintro s ⟨rfl, h⟩
          exact { h with procs := ⟨hcwd, h.procs⟩ }
        refine .bind (moves_endOp _) fun _ => ?_
        refine .bind (Q := fun _ => Bal (Running p) (x + -one .op - ref ip))
          (.of_ok fun s h => ⟨_, _, rfl, ?_⟩) fun _ => .pure fun s h => ?_
        · have hbal := h.setCwd (h.procs.2.update_cwd (some ip))
          rw [h.procs.1] at hbal
          have hx : x + -ref old + -one .op + (refOf (some old) - refOf (some ip)) =
              x + -one .op - ref ip := by
            simp only [refOf, Option.elim]
            abel
          rw [hx] at hbal
          exact hbal
        · have hx : x + -one .op - ref ip = x + ((0 : ℤ → Ledger) 0 -
              one .op - found ref (some ip) - lock ip - -lock ip) := by
            simp only [found, Pi.zero_apply]
            abel
          rw [hx] at h
          exact h

/-! ### Processes -/

/-- The loop of `kfork`: the child has no descriptor yet from the ones in `l`. -/
def Forking (p np : Fin NPROC) (l : List (Fin NOFILE)) : ProcFact := fun st o c =>
  (l.Nodup ∧ ∀ fd ∈ l, o (np, fd) = none) ∧ c np = none ∧ Running np st o c ∧ Running p st o c ∧
    p ≠ np

theorem guarded_dupFd {np : Fin NPROC} {fd : Fin NOFILE} {l : List (Fin NOFILE)} :
    Guarded Stop.Expected (Bal (Forking p np (fd :: l)) 0) (dupFd p np fd : KernM D Unit)
      fun _ => Bal (Forking p np l) 0 := by
  have hnext : ∀ st o c, Forking p np (fd :: l) st o c → Forking p np l st o c :=
    fun st o c h => ⟨⟨(nodup_cons.1 h.1.1).2, fun fd' hfd' =>
      h.1.2 fd' (mem_cons_of_mem fd hfd')⟩, h.2⟩
  refine .look (fun _ => rfl) fun t => ?_
  cases hf : t.ofile (p, fd) with
  | none =>
    refine .pure fun s h => ?_
    exact { h.2 with procs := hnext _ _ _ h.2.procs }
  | some f =>
    refine .bind ((guarded_filedup (x := 0) (R := Forking p np (fd :: l))).pre ?_) fun _ => .of_ok
      fun s h => ⟨_, _, rfl, ?_⟩
    · rintro s ⟨rfl, h⟩
      have hocc := occ_pos hf
      have hfiles := h.files f
      simp only [Pi.zero_apply] at hfiles
      exact ⟨by omega, h⟩
    obtain ⟨⟨hnodup, hnone⟩, hcwd, hnp, hp, hne⟩ := h.procs
    have hbal := h.setOfile (S := Forking p np l) (p := np) (r := some f) fd ?_
    · rw [hnone fd mem_cons_self] at hbal
      simpa [fileOf] using hbal
    refine ⟨⟨(nodup_cons.1 hnodup).2, fun fd' hfd' => ?_⟩, hcwd, hnp.update_ofile fd _, ⟨hp.1, ?_⟩,
      hne⟩
    · have hfd : fd' ≠ fd := by
        rintro rfl
        exact (nodup_cons.1 hnodup).1 hfd'
      rw [update_of_ne fun he => hfd (congrArg Prod.snd he)]
      exact hnone fd' (mem_cons_of_mem fd hfd')
    · exact (hnp.update_ofile fd _).2

theorem forking_start {np : Fin NPROC} {st : Fin NPROC → ProcState}
    {o : Fin NPROC × Fin NOFILE → Option (Fin NFILE)} {c : Fin NPROC → Option (Fin NINODE)}
    (h : Running p st o c) (hnp : st np = .unused) :
    Forking p np (finRange NOFILE) (update st np .used) o c := by
  have hne := h.ne (.inl hnp)
  have hempty := h.2 np (.inl hnp)
  have hclosed : Closed (update st np .used) o c := by
    intro q hq
    by_cases hqnp : q = np
    · rw [hqnp]
      exact hempty
    · rw [update_of_ne hqnp] at hq
      exact h.2 q hq
  refine ⟨⟨nodup_finRange _, fun fd _ => hempty.1 fd⟩, hempty.2, ⟨?_, hclosed⟩, ⟨?_, hclosed⟩,
    hne.symm⟩
  · simp
  · rw [update_of_ne hne.symm]
    exact h.1

theorem balanced_kfork (alloc copy : Bool) :
    Guarded Stop.Expected (Bal (Running p) 0) (kfork p alloc copy : KernM D _)
      fun _ => Bal (Running p) 0 := by
  refine .look (fun _ => rfl) fun t => ?_
  cases hfind : (finRange NPROC).find? fun np => t.state np = .unused with
  | none => exact .pure fun s h => h.2
  | some np =>
    have hnp : t.state np = .unused := by simpa using List.find?_some hfind
    refine .bind (Q := fun _ => Bal (Forking p np (finRange NOFILE)) 0)
      (.of_ok fun s h => ⟨_, _, rfl, ?_⟩) fun _ => ?_
    · obtain ⟨rfl, h⟩ := h
      exact h.setState (forking_start h.procs hnp)
    split_ifs with hfail
    · refine .bind (Guarded.forM (I := fun l => Bal (Forking p np l) 0)
        fun fd l => guarded_dupFd) fun _ => ?_
      refine .look (fun _ => rfl) fun t => ?_
      cases hcwd : t.cwd p with
      | none => exact .throw (by simp [Stop.Expected])
      | some ip =>
        refine .bind ((moves_idup ip 0).pre fun s h => h.2) fun _ => ?_
        refine .bind (Q := fun _ =>
            Bal (fun st o c => Running np st o c ∧ Running p st o c ∧ p ≠ np) 0)
          (.of_ok fun s h => ⟨_, _, rfl, ?_⟩) fun _ => ?_
        · obtain ⟨-, hcwd, hnp, hp, hne⟩ := h.procs
          have hrun := hnp.update_cwd (some ip)
          have hbal := h.setCwd
            (S := fun st o c => Running np st o c ∧ Running p st o c ∧ p ≠ np)
            ⟨hrun, ⟨hp.1, hrun.2⟩, hne⟩
          rw [hcwd] at hbal
          simpa [refOf] using hbal
        · refine .bind (.of_ok fun s h => ⟨_, _, rfl, ?_⟩)
            fun _ => .pure fun s h => h
          obtain ⟨hnp, hp, hne⟩ := h.procs
          refine h.setState ⟨?_, fun q hq => ?_⟩
          · rw [update_of_ne hne]
            exact hp.1
          · have hqnp : q ≠ np := by
              rintro rfl
              simp at hq
            rw [update_of_ne hqnp] at hq
            exact hp.2 q hq
    · refine .bind (.of_ok fun s h => ⟨_, _, rfl, ?_⟩)
        fun _ => .pure fun s h => h
      obtain ⟨⟨-, hnone⟩, hcwd, hnp, hp, hne⟩ := h.procs
      refine h.setState ⟨?_, fun q hq => ?_⟩
      · rw [update_of_ne hne]
        exact hp.1
      · by_cases hqnp : q = np
        · subst hqnp
          exact ⟨fun fd => hnone fd (mem_finRange fd), hcwd⟩
        · rw [update_of_ne hqnp] at hq
          exact hp.2 q hq

/-- The loop of `kexit`: the descriptors outside `l` have been closed. -/
def Exiting (p : Fin NPROC) (l : List (Fin NOFILE)) : ProcFact := fun st o c =>
  (∀ fd, fd ∉ l → o (p, fd) = none) ∧ Running p st o c

theorem guarded_closeFd {fd : Fin NOFILE} {l : List (Fin NOFILE)} :
    Guarded Stop.Expected (Bal (Exiting p (fd :: l)) 0) (closeFd V p fd)
      fun _ => Bal (Exiting p l) 0 := by
  have hnext : ∀ o : Fin NPROC × Fin NOFILE → Option (Fin NFILE),
      (∀ fd', fd' ∉ fd :: l → o (p, fd') = none) → o (p, fd) = none →
      ∀ fd', fd' ∉ l → o (p, fd') = none := by
    intro o ho hfd fd' hfd'
    by_cases he : fd' = fd
    · rw [he]
      exact hfd
    · exact ho fd' fun hmem => (mem_cons.1 hmem).elim he hfd'
  refine .look (fun _ => rfl) fun t => ?_
  cases hf : t.ofile (p, fd) with
  | none =>
    refine .pure fun s ⟨hs, h⟩ => ?_
    subst hs
    exact { h with procs := ⟨hnext _ h.procs.1 hf, h.procs.2⟩ }
  | some f =>
    refine .bind ((guarded_fileclose (x := 0)
      (R := fun st o c => o (p, fd) = some f ∧ Exiting p (fd :: l) st o c) V).pre ?_) fun _ => ?_
    · rintro s ⟨rfl, h⟩
      have hocc := occ_pos hf
      have hfiles := h.files f
      simp only [Pi.zero_apply] at hfiles
      exact ⟨by omega, { h with procs := ⟨hf, h.procs⟩ }⟩
    refine (guarded_clearFd (S := Exiting p l) (fun st o c h => h.1) fun st o c h =>
      ⟨hnext _ (fun fd' hfd' => ?_) (by simp), h.2.2.update_ofile fd none⟩).conseq (fun _ h => h)
      fun _ s h => ?_
    · have hne : fd' ≠ fd := fun he => hfd' (he ▸ mem_cons_self)
      rw [update_of_ne fun he => hne (congrArg Prod.snd he)]
      exact h.2.1 fd' hfd'
    · rwa [sub_add_cancel] at h

theorem balanced_kexit :
    Guarded Stop.Expected (Bal (Running p) 0) (kexit V p) fun _ => Bal Closed 0 := by
  unfold kexit
  split_ifs with hinit
  · exact .throw (by simp [Stop.Expected])
  refine .bind ((Guarded.forM (I := fun l => Bal (Exiting p l) 0)
    fun fd l => guarded_closeFd V).pre fun s h => ?_) fun _ => ?_
  · exact { h with procs := ⟨fun fd hfd => absurd (mem_finRange fd) hfd, h.procs⟩ }
  refine .bind (moves_beginOp 0) fun _ => .look (fun _ => rfl) fun t => ?_
  cases hcwd : t.cwd p with
  | none => exact .throw (by simp [Stop.Expected])
  | some ip =>
    refine .bind ((moves_iput (R := fun st o c => c p = some ip ∧ Exiting p [] st o c) V ip
      (0 + one .op)).pre ?_) fun _ => ?_
    · rintro s ⟨rfl, h⟩
      exact { h with procs := ⟨hcwd, h.procs⟩ }
    refine .bind (moves_endOp _) fun _ => ?_
    refine .bind (Q := fun _ => Bal (fun st o c => c p = none ∧ Exiting p [] st o c) 0)
      (.of_ok fun s h => ⟨_, _, rfl, ?_⟩) fun _ => .of_ok fun s h => ⟨_, _, rfl, ?_⟩
    · have hbal := h.setCwd (S := fun st o c => c p = none ∧ Exiting p [] st o c)
        ⟨update_self p none s.cwd, h.procs.2.1, h.procs.2.2.update_cwd none⟩
      rw [h.procs.1] at hbal
      have hx : 0 + one .op + -ref ip + -one .op + (refOf (some ip) - refOf none) = 0 := by
        simp only [refOf, Option.elim]
        abel
      rw [hx] at hbal
      exact hbal
    · obtain ⟨hcwd, hnone, hp⟩ := h.procs
      refine h.setState fun q hq => ?_
      by_cases hqp : q = p
      · rw [hqp]
        exact ⟨fun fd => hnone fd not_mem_nil, hcwd⟩
      · rw [update_of_ne hqp] at hq
        exact hp.2 q hq

theorem balanced_kwait (pp : Fin NPROC) :
    Guarded Stop.Expected (Bal Closed 0) (kwait pp : KernM D Unit) fun _ => Bal Closed 0 := by
  refine .look (fun _ => rfl) fun t => ?_
  split_ifs with hz
  · refine .of_ok fun s h => ⟨_, _, rfl, ?_⟩
    obtain ⟨rfl, h⟩ := h
    refine h.setState fun q hq => ?_
    by_cases hqp : q = pp
    · rw [hqp]
      exact h.procs pp (.inr hz)
    · rw [update_of_ne hqp] at hq
      exact h.procs q hq
  · exact .pure fun s h => h.2

/-! ### Runs -/

theorem Moves.call {m : KernM D α} (h : Moves (Running p) m 0) :
    Guarded Stop.Expected (Bal (Running p) 0) (call m) fun _ => Bal Closed 0 := by
  refine .bind (h.guarded fun _ => add_zero 0) fun _ => .pure fun _ hs => ?_
  exact { hs with procs := hs.procs.2 }

theorem balanced_call {m : KernM D α}
    (h : Guarded Stop.Expected (Bal (Running p) 0) m fun _ => Bal (Running p) 0) :
    Guarded Stop.Expected (Bal (Running p) 0) (call m) fun _ => Bal Closed 0 :=
  .bind h fun _ => .pure fun _ hs => { hs with procs := hs.procs.2 }

/-- **Every call is balanced**, at every exit. -/
theorem balanced_run (c : FileCall) :
    Guarded Stop.Expected (Bal (Running p) 0) (c.run V p) fun _ => Bal Closed 0 := by
  cases c with
  | sysOpen path behind omode => exact (moves_sysOpen V path behind omode).call
  | sysLink paths inner behind => exact (moves_sysLink V paths inner behind).call
  | sysUnlink path behind => exact (moves_sysUnlink V path behind).call
  | sysMkdir path behind => exact (moves_sysMake V path behind T_DIR 0).call
  | sysMknod path behind major => exact (moves_sysMake V path behind T_DEVICE _).call
  | sysChdir path behind => exact (moves_sysChdir V path behind).call
  | sysDup fd => exact balanced_call (balanced_sysDup fd)
  | sysClose fd => exact balanced_call (balanced_sysClose V fd)
  | sysPipe out => exact balanced_call (balanced_sysPipe V out)
  | kexec path behind loads runs => exact (moves_kexec V path behind loads runs).call
  | kfork alloc copy => exact balanced_call (balanced_kfork alloc copy)
  | kexit => exact balanced_kexit V
  | kwait pp => exact (balanced_kwait pp).pre fun s h => { h with procs := h.procs.2 }

theorem Bal.running (h : Bal Closed 0 s) (hp : s.Live p) : Bal (Running p) 0 s :=
  { h with procs := ⟨hp, h.procs⟩ }

theorem occ_none {ι κ : Type} [Fintype ι] [DecidableEq κ] (b : κ) :
    occ (fun _ : ι => (none : Option κ)) b = 0 := by
  simp [occ]

theorem bal_boot (d : D) {l : List ℕ} (hl : l.Nodup) : Bal Closed 0 (boot d l) := by
  have hfiles : fileInode (boot d l).ftable = fun _ => none := by
    funext f
    rfl
  refine ⟨fun i => ?_, fun i => rfl, fun f => ?_, rfl, fun f _ => rfl, ?_, rfl, fun q hq => ?_⟩
  · have hcwd : (boot d l).cwd = update (fun _ => none) initproc (some ⟨0, by decide⟩) := by
      funext q
      simp [boot, update_apply]
    have hocc := occ_update (fun _ : Fin NPROC => none) initproc
      (some (⟨0, by decide⟩ : Fin NINODE)) i
    rw [occ_none, refers_none] at hocc
    rw [hfiles, occ_none, hcwd, show occ (update _ _ _) i = _ by simpa using hocc]
    by_cases hi : i = ⟨0, by decide⟩
    · subst hi
      rfl
    · have hi' : (some (⟨0, by decide⟩ : Fin NINODE)) ≠ some i := fun h => hi
        (Option.some.inj h).symm
      simp only [refers, if_neg hi', boot, Icache.modify_inode, if_neg hi]
      rfl
  · change ((0 : ℕ) : ℤ) = (occ (fun _ => none) f : ℕ) + 0
    rw [occ_none]
    rfl
  · have hno : ∀ (f : Fin NFILE) (n : ℕ) (w : Bool), ¬ ((boot d l).ftable f).IsEnd n w :=
      fun f n w h => absurd h.1 (by simp [boot])
    refine ⟨fun f n w h => absurd h (hno f n w), fun n e he => ?_,
      fun f g n w h => absurd h (hno f n w), fun n e he => ?_, hl, fun n _ => rfl, fun n => rfl⟩
    · cases he
    · cases he
  · have hne : q ≠ initproc := by
      rintro rfl
      simp [boot] at hq
    exact ⟨fun fd => rfl, by simp [boot, hne]⟩

theorem Step.balanced {s s' : Kern D} {l : FileAct} (h : Bal Closed 0 s) (hst : Step V s l s') :
    Bal Closed 0 s' := by
  cases hst with
  | call hp hrun => exact ((balanced_run V _) s (h.running hp)).1 () _ hrun
  | disk => exact { h with }
  | pages hl hpipe => exact { h with pipes := { h.pipes with nodup := hl, apart := hpipe } }

/-- **Between two calls the tables are in balance.** -/
theorem reachable_balanced (h : (machine V).Reachable s) : Bal Closed 0 s := by
  refine h.invariant (I := fun s => Bal Closed 0 s) ?_ fun s l s' hs hst => Step.balanced V hs hst
  rintro s ⟨d, l, hl, rfl⟩
  exact bal_boot d hl

/-- The numbers of references to files are counted. -/
structure FilesCounted (s : Kern D) : Prop where
  ref : ∀ f, (s.ftable f).ref =
    (Finset.univ.filter fun q : Fin NPROC × Fin NOFILE => s.ofile q = some f).card
  idle : ∀ f, (s.ftable f).ref = 0 → (s.ftable f).type = .none
  /-- A pipe has at most one file for each end. -/
  oneEnd : ∀ f g n w, (s.ftable f).IsEnd n w → (s.ftable g).IsEnd n w → f = g
  readopen : ∀ n e, s.pipe n = some e →
    (e.readopen = true ↔ ∃ f, (s.ftable f).IsEnd n false)
  writeopen : ∀ n e, s.pipe n = some e →
    (e.writeopen = true ↔ ∃ f, (s.ftable f).IsEnd n true)
  /-- A page holds a pipe exactly as long as an end is open. -/
  pipe : ∀ n, s.pipe n ≠ none ↔ ∃ f w, (s.ftable f).IsEnd n w
  /-- Each time it was made a pipe it has been given back once, unless it is one now. -/
  freed : ∀ n, s.made n = s.freed n + if s.pipe n = none then 0 else 1
  freelist : s.freelist.Nodup ∧ ∀ n ∈ s.freelist, s.pipe n = none

/-- **Files are counted** between any two calls, and no call stops in `filedup` or in
`fileclose`. -/
theorem files_counted (h : (machine V).Reachable s) :
    s.FilesCounted ∧ ∀ (p : Fin NPROC) (c : FileCall), s.Live p →
      c.run V p s ≠ .error (.panic "filedup") ∧ c.run V p s ≠ .error (.panic "fileclose") := by
  have hbal := reachable_balanced V h
  have hpipes := hbal.pipes
  refine ⟨⟨fun f => ?_, hbal.idle, hpipes.unique, fun n e he => hpipes.ends n e he false,
    fun n e he => hpipes.ends n e he true, fun n => ⟨fun hn => ?_, ?_⟩, hpipes.count,
    hpipes.nodup, hpipes.apart⟩, fun p c hp => ?_⟩
  · have hf := hbal.files f
    rw [Pi.zero_apply, add_zero] at hf
    exact_mod_cast hf
  · obtain ⟨e, he⟩ := Option.ne_none_iff_exists'.1 hn
    obtain ⟨w, hw⟩ := hpipes.held n e he
    obtain ⟨f, hf⟩ := (hpipes.ends n e he w).1 hw
    exact ⟨f, w, hf⟩
  · rintro ⟨f, w, hf⟩
    exact hpipes.holds f n w hf
  · have hstop := (balanced_run V c s (hbal.running hp)).2
    exact ⟨fun he => (hstop _ he).1 rfl, fun he => (hstop _ he).2.1 rfl⟩

/-- A volume on which every path leads to a file. -/
def oneFile : Volume Unit where
  ilock _ inum := (if inum = ROOTINO then T_DIR else T_FILE, 1)
  iupdate d _ _ _ := d
  dirlookup _ _ _ := some (some (2, 24))
  dirlink _ _ _ _ := none
  isdirempty _ _ := some true
  erase d _ _ := some d
  itrunc d _ := some d
  delete d _ := some d
  claim _ _ _ := none

theorem reachable_first {c : FileCall} {q : Kern Unit → Bool}
    (h : returns (c.run oneFile initproc) (boot () [7]) (fun _ s => q s) = true) :
    ∃ s, (machine oneFile).Reachable s ∧ q s = true := by
  obtain ⟨_, s, hrun, hq⟩ := exists_of_returns h
  have hboot : (machine oneFile).Reachable (boot () [7]) := .start ⟨(), [7], by simp, rfl⟩
  exact ⟨s, hboot.next (.call (by simp [Live, boot]) hrun), hq⟩

/-- After `sys_pipe` both ends are open. -/
theorem files_counted_pipe :
    ∃ s, (machine oneFile).Reachable s ∧ s.pipe 7 = some ⟨true, true⟩ ∧ s.FilesCounted ∧
      ∀ (p : Fin NPROC) (c : FileCall), s.Live p →
        c.run oneFile p s ≠ .error (.panic "filedup") ∧
          c.run oneFile p s ≠ .error (.panic "fileclose") := by
  obtain ⟨s, hs, hq⟩ := reachable_first (c := .sysPipe true)
    (q := fun s => s.pipe 7 == some ⟨true, true⟩) (by decide +kernel)
  obtain ⟨hcounted, hcalls⟩ := files_counted oneFile hs
  exact ⟨s, hs, by simpa using hq, hcounted, hcalls⟩

/-- The numbers of references to inodes are counted, and nothing is locked. -/
structure InodesCounted (s : Kern D) : Prop where
  ref : ∀ i, (s.icache.inode i).ref =
    (Finset.univ.filter fun f => 0 < (s.ftable f).ref ∧
      ((s.ftable f).type = .inode ∨ (s.ftable f).type = .device) ∧ (s.ftable f).ip = some i).card +
    (Finset.univ.filter fun p => s.state p ≠ .unused ∧ s.cwd p = some i).card
  unlocked : ∀ i, s.locked i = false
  outstanding : s.outstanding = 0

/-- **Inodes are counted** between any two calls: open files and current directories are all the
references there are. -/
theorem inodes_counted (h : (machine V).Reachable s) : s.InodesCounted := by
  have hbal := reachable_balanced V h
  refine ⟨fun i => ?_, fun i => ?_, hbal.ops⟩
  · have hfiles : ∀ f, 0 < (s.ftable f).ref ∧
        ((s.ftable f).type = .inode ∨ (s.ftable f).type = .device) ∧ (s.ftable f).ip = some i ↔
        fileInode s.ftable f = some i := by
      intro f
      unfold fileInode OpenFile.inode
      split_ifs with hf
      · simp [hf]
      · exact iff_of_false (fun hf' => hf ⟨hf'.1, hf'.2.1⟩) (by simp)
    have hcwds : ∀ p, s.state p ≠ .unused ∧ s.cwd p = some i ↔ s.cwd p = some i := by
      intro p
      refine and_iff_right_of_imp fun hp hun => ?_
      simp [(hbal.procs p (.inl hun)).2] at hp
    have hle : occ (fileInode s.ftable) i ≤ 100 :=
      (occ_le_card (fileInode s.ftable) i).trans_eq (Fintype.card_fin NFILE)
    have hle' : occ s.cwd i ≤ 64 := (occ_le_card s.cwd i).trans_eq (Fintype.card_fin NPROC)
    have hsmall : occ (fileInode s.ftable) i + occ s.cwd i < 2 ^ 31 := by omega
    rw [card_eq_occ hfiles, card_eq_occ hcwds, hbal.refs i, Pi.zero_apply, add_zero]
    exact_mod_cast toInt32_of_fits hsmall
  · have hi := hbal.locks i
    cases hl : s.locked i with
    | false => rfl
    | true => simp [hl] at hi

/-- After `sys_open` the file has the only reference to its inode. -/
theorem inodes_counted_open :
    ∃ s, (machine oneFile).Reachable s ∧ (s.icache.inode ⟨1, by decide⟩).inum = 2 ∧
      (s.icache.inode ⟨1, by decide⟩).ref = 1 ∧ s.InodesCounted := by
  obtain ⟨s, hs, hq⟩ := reachable_first (c := .sysOpen (some [47, 97]) [] 0)
    (q := fun s => (s.icache.inode ⟨1, by decide⟩).inum == 2 &&
      (s.icache.inode ⟨1, by decide⟩).ref == 1) (by decide +kernel)
  obtain ⟨hinum, href⟩ := (Bool.and_eq_true _ _).mp hq
  exact ⟨s, hs, by simpa using hinum, by simpa using href, inodes_counted oneFile hs⟩

end Kern

end Cinux
