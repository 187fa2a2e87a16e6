import Cinux.Fs.Deadlock

/-!
# A process that waits for itself

A sleep-lock is not recursive: a process that acquires one that it holds sleeps for ever.  One
system call, with no other process active, may do so.  `ext2fs_dirlink` puts the inode that it finds
under the new name, `ext2fs_iput` acquires the lock of the inode, and the inode may be the
directory, which `sys_link` has locked: `link("/a", "/.")`.  In the same way `sys_unlink` locks what
it finds.

* `Syscall.Clash t c` : the call comes to such a name.
* `Syscall.returns_iff_not_clash` : otherwise the call never waits for itself and runs to its end.
-/

namespace Cinux

open List

namespace Vfs

variable {P : Type}

/-- What `iput` leaves. -/
def put (t : Vfs P) (i : ℕ) : Vfs P :=
  (t.modify i Inode.reclaim).modify i fun ip => { ip with ref := ip.ref - 1 }

/-- The loop of `namex` from inode `ip` on, run alone: it ends with `r` and leaves `t'`. -/
def Walks (parent : Bool) : List Bytes → ℕ → Vfs P → Option ℕ → Vfs P → Prop
  | [], ip, t, r, t' => if parent then r = none ∧ t' = t.put ip else r = some ip ∧ t' = t
  | name :: rest, ip, t, r, t' =>
    if (t.inode ip).type ≠ .dir then r = none ∧ t' = t.put ip
    else if parent ∧ rest = [] then r = some ip ∧ t' = t
    else
      ((t.inode ip).file.Looks name .absent ∧ r = none ∧ t' = t.put ip) ∨
        ∃ next off, (t.inode ip).file.Looks name (.found next off) ∧
          Walks parent rest next ((t.idup next).put ip) r t'

/-- `namex` by process `p`, run alone, ends with `r` and leaves `t'`. -/
def Resolves (t : Vfs P) (p : P) (parent : Bool) (path behind : Bytes) (r : Option ℕ)
    (t' : Vfs P) : Prop :=
  Walks parent (names path behind) (t.start p path) (t.idup (t.start p path)) r t'

/-- `sys_link` finds the directory itself under the new name. -/
def LinkClash (t : Vfs P) (p : P) (old new inner behind : Bytes) : Prop :=
  ∃ ip t₁ dp t₂ off, t.Resolves p false old inner (some ip) t₁ ∧ (t₁.inode ip).type ≠ .dir ∧
    (t₁.modify ip fun ip => { ip with nlink := ip.nlink + 1 }).Resolves p true new behind (some dp)
      t₂ ∧
    (t₂.inode dp).file.Looks (lastName new behind) (.found dp off)

/-- `sys_unlink` finds the directory itself under the name that it is to remove. -/
def UnlinkClash (t : Vfs P) (p : P) (path behind : Bytes) : Prop :=
  ∃ dp t₁ off, t.Resolves p true path behind (some dp) t₁ ∧
    ¬(namecmp (lastName path behind) [46] = 0 ∨ namecmp (lastName path behind) [46, 46] = 0) ∧
    (t₁.inode dp).file.Looks (lastName path behind) (.found dp off)

end Vfs

/-- The call comes to a directory that it has locked once more. -/
def Syscall.Clash (t : Vfs Unit) : Syscall → Prop
  | .sysLink old new inner behind _ => t.LinkClash () old new inner behind
  | .sysUnlink path behind => t.UnlinkClash () path behind
  | _ => False

namespace VfsProg

variable {P : Type} {t : Vfs P} {H : List ℕ} {i d : ℕ} {k : VfsProg P}

/-! ### What the parts of a system call need -/

@[simp] theorem smooth_done : (.done : VfsProg P).Smooth t H := trivial

@[simp] theorem smooth_ilock : (ilock i k).Smooth t H ↔ i ∉ H ∧ k.Smooth t (i :: H) := Iff.rfl

@[simp] theorem smooth_look {k : ℕ → Vfs P → VfsProg P} :
    (look k).Smooth t H ↔ ∀ n, (k n t).Smooth t H := Iff.rfl

@[simp] theorem smooth_modify {f : Inode → Inode} :
    (modify i f k).Smooth t H ↔ k.Smooth (t.modify i f) H := forall_const ℕ

@[simp] theorem smooth_iunlock : (iunlock i k).Smooth t (i :: H) ↔ k.Smooth t H := by
  simp [iunlock, LockProg.Smooth]

@[simp] theorem smooth_iput : (iput i k).Smooth t H ↔ i ∉ H ∧ k.Smooth (t.put i) H := by
  simp [iput, LockProg.Smooth, Vfs.put]

@[simp] theorem smooth_iunlockput :
    (iunlockput i k).Smooth t (i :: H) ↔ i ∉ H ∧ k.Smooth (t.put i) H := by
  simp [iunlockput]

theorem smooth_dirlookup {name : Bytes} {absent : VfsProg P} {found : ℕ → ℕ → VfsProg P} :
    (dirlookup d name absent found).Smooth t H ↔
      ((t.inode d).file.Looks name .absent → absent.Smooth t H) ∧
        ∀ i off, (t.inode d).file.Looks name (.found i off) →
          (found i off).Smooth (t.idup i) H := by
  constructor
  · intro h
    refine ⟨?_, ?_⟩
    · rintro ⟨n, hn⟩
      have hk := h n
      simpa only [hn] using hk
    · rintro i off ⟨n, hn⟩
      have hk := h n
      simpa only [hn] using hk
  · rintro ⟨habsent, hfound⟩ n
    cases hl : (t.inode d).file.ext2fsDirlookup name n with
    | none => simp only [hl]; trivial
    | some r =>
      cases r with
      | panic msg => simp only [hl]; trivial
      | absent => simpa only [hl] using habsent ⟨n, hl⟩
      | found i off => simpa only [hl] using hfound i off ⟨n, hl⟩

theorem smooth_walk {parent : Bool} {k : Option ℕ → VfsProg P} (l : List Bytes) (ip : ℕ)
    (t : Vfs P) : (walk parent k l ip).Smooth t [] ↔
      ∀ r t', Vfs.Walks parent l ip t r t' → (k r).Smooth t' [] := by
  induction l generalizing ip t with
  | nil =>
    unfold walk Vfs.Walks
    split_ifs <;> simp
  | cons name rest ih =>
    unfold walk
    simp only [smooth_ilock, not_mem_nil, not_false_eq_true, true_and, smooth_look, forall_const]
    unfold Vfs.Walks
    split_ifs with hdir hlast
    · simp
    · simp
    · rw [smooth_dirlookup]
      simp only [smooth_iunlockput, not_mem_nil, not_false_eq_true, true_and, ih]
      constructor
      · rintro ⟨habsent, hfound⟩ r t' (⟨hl, rfl, rfl⟩ | ⟨next, off, hl, hw⟩)
        · exact habsent hl
        · exact hfound next off hl r t' hw
      · exact fun h => ⟨fun hl => h _ _ (.inl ⟨hl, rfl, rfl⟩),
          fun next off hl r t' hw => h r t' (.inr ⟨next, off, hl, hw⟩)⟩

theorem smooth_namex {p : P} {parent : Bool} {path behind : Bytes}
    {k : Option ℕ → VfsProg P} : (namex p parent path behind k).Smooth t [] ↔
      ∀ r t', t.Resolves p parent path behind r t' → (k r).Smooth t' [] := by
  unfold namex Vfs.Resolves
  rw [← smooth_walk]
  exact forall_const ℕ

/-! ### The system calls -/

theorem smooth_linkBad (i : ℕ) : (linkBad i).Smooth t [] := by
  simp [linkBad]

theorem smooth_link_dirlink {name : Bytes} {ip : ℕ} {stack : ℕ → UInt8} :
    (dirlink d name ip stack fun
      | true => iunlockput d (iput ip .done)
      | false => iunlockput d (linkBad ip)).Smooth t [d] ↔
      ∀ off, ¬(t.inode d).file.Looks name (.found d off) := by
  unfold dirlink
  rw [smooth_dirlookup]
  constructor
  · rintro ⟨-, hfound⟩ off hl
    have hput := hfound d off hl
    simp at hput
  · intro h
    refine ⟨fun _ n => ?_, fun i off hl => ?_⟩
    · dsimp only
      cases (t.inode d).file.slotLoop n 0 with
      | none => trivial
      | some r =>
        cases r with
        | error msg => trivial
        | ok off => simp
    · have hne : i ≠ d := fun he => h off (he ▸ hl)
      simp [hne, smooth_linkBad]

theorem smooth_sysLink {p : P} {old new inner behind : Bytes} {stack : ℕ → UInt8} :
    (sysLink p old new inner behind stack).Smooth t [] ↔ ¬t.LinkClash p old new inner behind := by
  unfold sysLink
  rw [smooth_namex]
  constructor
  · rintro h ⟨ip, t1, dp, t2, off, hold, hfile, hnew, hl⟩
    have hip := h _ _ hold
    simp only [smooth_ilock, not_mem_nil, not_false_eq_true, true_and, smooth_look,
      if_neg hfile, smooth_modify, smooth_iunlock, forall_const] at hip
    have hdp := smooth_namex.1 hip _ _ hnew
    simp only [smooth_ilock, not_mem_nil, not_false_eq_true, true_and] at hdp
    exact smooth_link_dirlink.1 hdp off hl
  · intro h r t1 hold
    cases r with
    | none => trivial
    | some ip =>
      simp only [smooth_ilock, not_mem_nil, not_false_eq_true, true_and, smooth_look]
      intro _
      split_ifs with hdir
      · simp
      · simp only [smooth_modify, smooth_iunlock]
        rw [smooth_namex]
        intro r t2 hnew
        cases r with
        | none => exact smooth_linkBad ip
        | some dp =>
          simp only [smooth_ilock, not_mem_nil, not_false_eq_true, true_and]
          exact smooth_link_dirlink.2 fun off hl => h ⟨ip, t1, dp, t2, off, hold, hdir, hnew, hl⟩

theorem smooth_unlinkLocked {ip off : ℕ} (hne : ip ≠ d) :
    (unlinkLocked d ip off).Smooth t [ip, d] := by
  have hput : ∀ (t : Vfs P) (k : VfsProg P), k.Smooth (t.put d) [ip] →
      (iunlockput d k).Smooth t [ip, d] := by
    intro t k hk
    have herase : [ip, d].erase d = [ip] := by
      rw [erase_cons_tail (by simpa using hne), erase_cons_head]
    refine ⟨by simp, ?_⟩
    rw [herase]
    exact smooth_iput.2 ⟨by simpa using hne.symm, hk⟩
  intro n
  dsimp only
  split_ifs with hlinks
  · trivial
  · cases (t.inode ip).removable n with
    | none => trivial
    | some r =>
      rcases r with msg | (_ | _)
      · trivial
      · simp [hne]
      · intro n
        dsimp only
        split_ifs
        · trivial
        · exact hput _ _ (by simp)

theorem smooth_unlinkIn {name : Bytes} : (unlinkIn d name).Smooth t [d] ↔
    ¬(¬(namecmp name [46] = 0 ∨ namecmp name [46, 46] = 0) ∧
      ∃ off, (t.inode d).file.Looks name (.found d off)) := by
  unfold unlinkIn
  split_ifs with hname
  · simp [hname]
  · rw [smooth_dirlookup]
    constructor
    · rintro ⟨-, hfound⟩ ⟨-, off, hl⟩
      have hlock := hfound d off hl
      simp at hlock
    · intro h
      refine ⟨fun _ => by simp, fun i off hl => ?_⟩
      have hne : i ≠ d := fun he => h ⟨hname, off, he ▸ hl⟩
      exact ⟨by simpa using hne, smooth_unlinkLocked hne⟩

theorem smooth_sysUnlink {p : P} {path behind : Bytes} :
    (sysUnlink p path behind).Smooth t [] ↔ ¬t.UnlinkClash p path behind := by
  unfold sysUnlink
  rw [smooth_namex]
  constructor
  · rintro h ⟨dp, t1, off, hres, hname, hl⟩
    have hdp := h _ _ hres
    simp only [smooth_ilock, not_mem_nil, not_false_eq_true, true_and] at hdp
    exact smooth_unlinkIn.1 hdp ⟨hname, off, hl⟩
  · intro h r t1 hres
    cases r with
    | none => trivial
    | some dp =>
      simp only [smooth_ilock, not_mem_nil, not_false_eq_true, true_and]
      exact smooth_unlinkIn.2 fun ⟨hname, off, hl⟩ => h ⟨dp, t1, off, hres, hname, hl⟩

theorem smooth_create {p : P} {file : Bool} {path behind : Bytes} {k : Option ℕ → VfsProg P}
    (hnone : ∀ t, (k none).Smooth t []) (hsome : ∀ i t, (k (some i)).Smooth t [i]) :
    (create p file path behind k).Smooth t [] := by
  unfold create
  rw [smooth_namex]
  intro r t1 _
  cases r with
  | none => exact hnone t1
  | some dp =>
    simp only [smooth_ilock, not_mem_nil, not_false_eq_true, true_and]
    rw [smooth_dirlookup]
    refine ⟨fun _ => by simp [hnone], fun i off _ => ?_⟩
    simp only [smooth_iunlockput, smooth_ilock, not_mem_nil, not_false_eq_true, true_and,
      smooth_look]
    intro _
    split_ifs
    · exact hsome i _
    · simp [hnone]

theorem smooth_openLocked {omode : ℕ} {room : Bool} : (openLocked omode room i).Smooth t [i] := by
  unfold openLocked
  split_ifs
  · rw [smooth_look]
    intro _
    split_ifs <;> simp
  · simp

theorem smooth_sysOpen {p : P} {path behind : Bytes} {omode : ℕ} {room : Bool} :
    (sysOpen p path behind omode room).Smooth t [] := by
  unfold sysOpen
  split_ifs
  · exact smooth_create (fun _ => trivial) fun _ _ => smooth_openLocked
  · rw [smooth_namex]
    intro r t1 _
    cases r with
    | none => trivial
    | some ip =>
      simp only [smooth_ilock, not_mem_nil, not_false_eq_true, true_and, smooth_look]
      intro _
      split_ifs
      · simp
      · exact smooth_openLocked

theorem smooth_sysMkdir {p : P} {path behind : Bytes} :
    (sysMkdir p path behind).Smooth t [] :=
  smooth_create (fun _ => smooth_done) fun _ _ => by simp

theorem smooth_sysChdir [DecidableEq P] {p : P} {path behind : Bytes} :
    (sysChdir p path behind).Smooth t [] := by
  unfold sysChdir
  rw [smooth_namex]
  intro r t1 _
  cases r with
  | none => trivial
  | some ip =>
    simp only [smooth_ilock, not_mem_nil, not_false_eq_true, true_and, smooth_look]
    intro _
    split_ifs
    · simp
    · simp only [smooth_iunlock, smooth_look, smooth_iput, not_mem_nil, not_false_eq_true, true_and]
      exact fun _ _ => trivial

theorem smooth_filewrite (rounds : List (ℕ × ℕ × (ℕ → UInt8))) (t : Vfs P) :
    (filewrite i rounds).Smooth t [] := by
  induction rounds generalizing t with
  | nil => trivial
  | cons round rest ih =>
    obtain ⟨off, n, src⟩ := round
    refine ⟨not_mem_nil, fun _ => smooth_iunlock.2 ?_⟩
    split_ifs
    · exact ih _
    · trivial

end VfsProg

open VfsProg in
theorem Syscall.smooth_iff (t : Vfs Unit) (c : Syscall) : (c.code ()).Smooth t [] ↔ ¬c.Clash t := by
  cases c with
  | sysOpen path behind omode room => exact iff_of_true smooth_sysOpen not_false
  | sysLink old new inner behind stack => exact smooth_sysLink
  | sysUnlink path behind => exact smooth_sysUnlink
  | sysMkdir path behind => exact iff_of_true smooth_sysMkdir not_false
  | sysChdir path behind => exact iff_of_true smooth_sysChdir not_false
  | fileread ip => exact iff_of_true (by simp [Syscall.code, VfsProg.fileread]) not_false
  | filewrite ip rounds => exact iff_of_true (smooth_filewrite rounds t) not_false
  | fileclose ip => exact iff_of_true (by simp [Syscall.code, VfsProg.fileclose]) not_false

/-- **A system call that runs alone** never acquires the lock of an inode that it has locked and can
always run to its end, exactly if it does not come to the directory that it has locked under the
name that it is to add or to remove. -/
theorem Syscall.returns_iff_not_clash (t : Vfs Unit) (c : Syscall) :
    LockState.Returns t (c.code ()) ↔ ¬c.Clash t :=
  (LockState.returns_iff (c.safe () t)).trans (c.smooth_iff t)

theorem looks_dirBA_dot : dirBA.Looks [46] (.found ROOTINO 0) := by
  refine ⟨1, ?_⟩
  unfold File.ext2fsDirlookup
  rw [File.lookupLoop_step (by decide) (by decide), if_pos (by decide +kernel)]
  decide +kernel

/-- **`link("/a", "/.")` waits for itself.** -/
theorem link_dot_selfDeadlock : ∃ s, (LockState.single ⟨treeBA, fun _ => ROOTINO⟩
      (Syscall.code () (.sysLink [47, 97] [47, 46] [] [] fun _ => 0))).Reachable s ∧
    s.SelfDeadlock () := by
  refine LockState.exists_selfDeadlock (Syscall.safe () _ _) fun hs => ?_
  obtain ⟨t1, hold, hfile, hroot⟩ : ∃ t1,
      (⟨treeBA, fun _ => ROOTINO⟩ : Vfs Unit).Resolves () false [47, 97] [] (some 12) t1 ∧
        (t1.inode 12).type = .file ∧
        ∃ nlink ref, t1.inode ROOTINO = ⟨.dir, nlink, ref, dirBA⟩ := by
    unfold Vfs.Resolves
    rw [show names [47, 97] [] = [[97]] by decide]
    exact ⟨_, .inr ⟨12, 36, ⟨4, lookup_dirBA⟩, rfl, rfl⟩, rfl, 2, _, rfl⟩
  obtain ⟨nlink, ref, hroot⟩ := hroot
  obtain ⟨t2, hnew, hdir⟩ : ∃ t2,
      (t1.modify 12 fun ip => { ip with nlink := ip.nlink + 1 }).Resolves () true [47, 46] []
        (some ROOTINO) t2 ∧ (t2.inode ROOTINO).file = dirBA := by
    unfold Vfs.Resolves
    rw [show names [47, 46] [] = [[46]] by decide]
    unfold Vfs.Walks
    have hstart : ∀ t : Vfs Unit, t.start () [47, 46] = ROOTINO := fun t => if_pos (by decide)
    simp only [hstart]
    simp [Vfs.idup, Vfs.modify, ROOTINO] at hroot ⊢
    simp [hroot]
  refine (Syscall.smooth_iff _ _).1 hs ⟨12, t1, ROOTINO, t2, 0, hold, by simp [hfile], hnew, ?_⟩
  rw [hdir, show lastName [47, 46] [] = [46] by decide]
  exact looks_dirBA_dot

end Cinux
