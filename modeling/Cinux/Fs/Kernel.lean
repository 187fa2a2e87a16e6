import Cinux.Bio.Io
import Cinux.Fs.Icache
import Cinux.Fs.Syscalls
import Cinux.Proc.Table

/-!
# Files, descriptors and inodes in use

The tables behind the file descriptors: the files of `file.c`, the descriptors and the current
directories of the processes, the inode cache, and the pages of pipes; and the code of `file.c`,
`pipe.c`, `fs.c`, `sysfile.c`, `exec.c` and `proc.c` that creates, copies and drops references from
one table to another, with every exit.  A call runs from its start to its end.

What the disk holds is left to a `Volume`: any functions may stand for what `ext2fs.c` reads and
writes, so that what follows is true of every directory tree and of every behaviour of the ext2
code.  The parameters of the calls say which of the allocations and of the copies from and to user
space succeed.
-/

namespace Cinux

open Function

/-- What the functions of `ext2fs.c` and, for `ialloc`, of `fs.c` find and store on a disk with
contents `D`, for inodes given by number.  A result is missing if the code panics or does not
return. -/
structure Volume (D : Type) where
  /-- `ext2fs_ilock`: type and number of links. -/
  ilock : D → ℕ → ℕ × ℤ
  /-- `ext2fs_iupdate`, as far as type and number of links go. -/
  iupdate : D → ℕ → ℕ → ℤ → D
  /-- `ext2fs_dirlookup`: the inode number and the offset of an entry. -/
  dirlookup : D → ℕ → Bytes → Option (Option (ℕ × ℕ))
  /-- `ext2fs_dirlink` of a name that is not in the directory. -/
  dirlink : D → ℕ → Bytes → ℕ → Option D
  /-- `isdirempty`. -/
  isdirempty : D → ℕ → Option Bool
  /-- The call of `writei` by which `sys_unlink` erases the entry at an offset. -/
  erase : D → ℕ → ℕ → Option D
  /-- `itrunc` of `fs.c`. -/
  itrunc : D → ℕ → Option D
  /-- `ext2fs_ifree` and `ext2fs_itrunc`, with the `ext2fs_iupdate` after them. -/
  delete : D → ℕ → Option D
  /-- The body of the loop of `ialloc`: if the `struct dinode` with this number is free, it gets
  the type. -/
  claim : D → ℕ → ℕ → Option D

/-- `type` of a `struct file`: `FD_NONE`, `FD_PIPE`, `FD_INODE` and `FD_DEVICE`. -/
inductive FdType where
  | none
  | pipe
  | inode
  | device
  deriving DecidableEq, Repr

/-- `struct file`.  A pipe is given by the number of its page. -/
structure OpenFile where
  type : FdType
  ref : ℕ
  readable : Bool
  writable : Bool
  pipe : ℕ
  ip : Option (Fin NINODE)
  off : ℕ
  major : ℤ

/-- The fields of `struct pipe` that closing looks at. -/
structure PipeEnds where
  readopen : Bool
  writeopen : Bool
  deriving DecidableEq

/-- The tables. -/
structure Kern (D : Type) where
  icache : Icache
  /-- `ip->major`. -/
  major : Fin NINODE → ℤ
  /-- The sleep-lock of the inode is held. -/
  locked : Fin NINODE → Bool
  /-- `log.outstanding`. -/
  outstanding : ℤ
  /-- `sb.ninodes`, of the superblock of `fs.c`. -/
  ninodes : ℕ
  ftable : Fin NFILE → OpenFile
  /-- `p->state`, `p->ofile[fd]` and `p->cwd`. -/
  state : Fin NPROC → ProcState
  ofile : Fin NPROC × Fin NOFILE → Option (Fin NFILE)
  cwd : Fin NPROC → Option (Fin NINODE)
  /-- The pages that hold a pipe. -/
  pipe : ℕ → Option PipeEnds
  /-- `kmem.freelist`. -/
  freelist : List ℕ
  disk : D
  /-- Auxiliary: how often a page has been made a pipe, and given back by `pipeclose`. -/
  made : ℕ → ℕ
  freed : ℕ → ℕ

/-- Code on the tables. -/
abbrev KernM (D : Type) := Program Stop (Kern D)

namespace Kern

variable {D : Type} (V : Volume D)

/-- A null pointer is dereferenced. -/
def kerneltrap {α : Type} : KernM D α := throw (.panic "kerneltrap")

/-! ### Inodes -/

/-- The entry `ip` of the inode cache. -/
def inode (ip : Fin NINODE) : KernM D CInode := fun s => .ok (s.icache.inode ip, s)

/-- Change the entry `ip` in memory. -/
def modifyInode (ip : Fin NINODE) (f : CInode → CInode) : KernM D Unit := fun s =>
  .ok ((), { s with icache := s.icache.modify ip f })

/-- `iget` for the root device. -/
def iget (inum : ℕ) : KernM D (Fin NINODE) := fun s =>
  match s.icache.iget ROOTDEV inum with
  | .ok (ip, c) => .ok (ip, { s with icache := c })
  | .error msg => .error (.panic msg)

/-- `idup`. -/
def idup (ip : Fin NINODE) :
    KernM D Unit := fun s => .ok ((), { s with icache := s.icache.idup ip })

/-- `iupdate`. -/
def iupdate (ip : Fin NINODE) : KernM D Unit := fun s =>
  let x := s.icache.inode ip
  .ok ((), { s with disk := V.iupdate s.disk x.inum x.type x.nlink })

/-- Code that only concerns the disk. -/
def onDisk {α : Type} (f : D → Option (α × D)) : KernM D α := fun s =>
  match f s.disk with
  | some (a, d) => .ok (a, { s with disk := d })
  | none => .error .deadlock

/-- `acquiresleep` of the lock of an inode. -/
def acquiresleep (ip : Fin NINODE) : KernM D Unit := fun s =>
  if s.locked ip then .error .deadlock
  else .ok ((), { s with locked := update s.locked ip true })

/-- `ip->major = major`. -/
def setMajor (ip : Fin NINODE) (major : ℤ) : KernM D Unit := fun s =>
  .ok ((), { s with major := update s.major ip major })

/-- `ilock`. -/
def ilock (ip : Fin NINODE) : KernM D Unit := do
  if (← inode ip).ref < 1 then throw (.panic "ilock")
  else
    acquiresleep ip
    let x ← inode ip
    if x.valid then pure ()
    else
      let s ← get
      modifyInode ip fun y =>
        { y with
          type := (V.ilock s.disk x.inum).1, nlink := (V.ilock s.disk x.inum).2
          iops := some .ext2fs, valid := true }
      setMajor ip 0

/-- `iunlock`. -/
def iunlock (ip : Fin NINODE) : KernM D Unit := fun s =>
  if s.locked ip = false ∨ (s.icache.inode ip).ref < 1 then .error (.panic "iunlock")
  else .ok ((), { s with locked := update s.locked ip false })

/-- What `iput` does to the cache. -/
def dropRef (ip : Fin NINODE) : KernM D Unit := fun s =>
  match s.icache.iput ip with
  | .error msg => .error (.panic msg)
  | .ok c => .ok ((), { s with icache := c })

/-- `iput`, which waits for the lock of the inode. -/
def iput (ip : Fin NINODE) : KernM D Unit := do
  if (← get).locked ip then throw .deadlock
  else
    let x ← inode ip
    if x.valid ∧ x.nlink = 0 ∧ x.ref = 1 then onDisk fun d => (V.delete d x.inum).map ((), ·)
    else pure ()
    dropRef ip

/-- `iunlockput`. -/
def iunlockput (ip : Fin NINODE) : KernM D Unit := do
  iunlock ip
  iput V ip

/-- `dirlookup`: the entry that `iget` returns and the offset. -/
def dirlookup (dp : Fin NINODE) (name : Bytes) : KernM D (Option (Fin NINODE × ℕ)) := do
  let x ← inode dp
  match ← onDisk fun d => (V.dirlookup d x.inum name).map (·, d) with
  | none => pure none
  | some (inum, off) =>
    let ip ← iget inum
    pure (some (ip, off))

/-- `dirlink`: whether it succeeds. -/
def dirlink (dp : Fin NINODE) (name : Bytes) (inum : ℕ) : KernM D Bool := do
  match ← dirlookup V dp name with
  | some (ip, _) =>
    iput V ip
    pure false
  | none =>
    let x ← inode dp
    onDisk fun d => (V.dirlink d x.inum name inum).map (true, ·)

/-- The loop of `namex` over the elements of the path. -/
def walk (parent : Bool) : List Bytes → Fin NINODE → KernM D (Option (Fin NINODE))
  | [], ip => do
    if parent then
      iput V ip
      pure none
    else pure (some ip)
  | name :: rest, ip => do
    ilock V ip
    let x ← inode ip
    if x.type ≠ T_DIR then
      iunlockput V ip
      pure none
    else if parent ∧ rest = [] then
      iunlock ip
      pure (some ip)
    else
      match ← dirlookup V ip name with
      | none =>
        iunlockput V ip
        pure none
      | some (next, _) =>
        iunlockput V ip
        walk parent rest next

/-- The inode that `namex` starts from, with a reference. -/
def start (p : Fin NPROC) (path : Bytes) : KernM D (Fin NINODE) := do
  if Vfs.absolute path then iget ROOTINO
  else
    match (← get).cwd p with
    | some ip =>
      idup ip
      pure ip
    | none => kerneltrap

/-- `namex`, called by process `p`; `behind` is what lies behind the buffer `name`. -/
def namex (p : Fin NPROC) (parent : Bool) (path behind : Bytes) :
    KernM D (Option (Fin NINODE)) := do
  let ip ← start p path
  walk V parent (names path behind) ip

/-- The loop of `ialloc` over the inode numbers, for as long as no `struct dinode` is free. -/
def iallocLoop (type : ℕ) : List ℕ → KernM D (Option (Fin NINODE))
  | [] => pure none
  | inum :: rest => do
    match V.claim (← get).disk inum type with
    | some d =>
      onDisk fun _ => some ((), d)
      let ip ← iget inum
      pure (some ip)
    | none => iallocLoop type rest

/-- `ialloc`: the numbers from 1 up to `sb.ninodes` are tried. -/
def ialloc (type : ℕ) : KernM D (Option (Fin NINODE)) := do
  iallocLoop V type (List.range' 1 ((← get).ninodes - 1))

/-- `ip->nlink += n` and `iupdate(ip)`. -/
def addLink (ip : Fin NINODE) (n : ℤ) : KernM D Unit := do
  modifyInode ip fun x => { x with nlink := toInt16 (x.nlink + n) }
  iupdate V ip

/-- The entries `.` and `..` of a new directory. -/
def linkDots (dp ip : Fin NINODE) : KernM D Bool := do
  let x ← inode ip
  if ← dirlink V ip [46] x.inum then
    let y ← inode dp
    dirlink V ip [46, 46] y.inum
  else pure false

/-- The entries that `create` makes: whether all of them could be made. -/
def linkNew (dp ip : Fin NINODE) (name : Bytes) (type : ℕ) : KernM D Bool := do
  if type = T_DIR then
    if ← linkDots V dp ip then
      let x ← inode ip
      dirlink V dp name x.inum
    else pure false
  else
    let x ← inode ip
    dirlink V dp name x.inum

/-- `dp->nlink += n` for the entry `..` of a directory. -/
def addDotDot (dp : Fin NINODE) (type : ℕ) (n : ℤ) : KernM D Unit := do
  if type = T_DIR then addLink V dp n else pure ()

/-- The end of `create`, from where `ialloc` has returned `ip`. -/
def createLocked (dp ip : Fin NINODE) (name : Bytes) (type : ℕ) (major : ℤ) :
    KernM D (Option (Fin NINODE)) := do
  ilock V ip
  setMajor ip major
  modifyInode ip fun x => { x with nlink := 1 }
  iupdate V ip
  if ← linkNew V dp ip name type then
    addDotDot V dp type 1
    iunlockput V dp
    pure (some ip)
  else
    modifyInode ip fun x => { x with nlink := 0 }
    iupdate V ip
    iunlockput V ip
    iunlockput V dp
    pure none

/-- `create`; the inode that it returns is locked. -/
def create (p : Fin NPROC) (path behind : Bytes) (type : ℕ) (major : ℤ) :
    KernM D (Option (Fin NINODE)) := do
  match ← namex V p true path behind with
  | none => pure none
  | some dp =>
    ilock V dp
    match ← dirlookup V dp (lastName path behind) with
    | some (ip, _) =>
      iunlockput V dp
      ilock V ip
      let x ← inode ip
      if type = T_FILE ∧ (x.type = T_FILE ∨ x.type = T_DEVICE) then pure (some ip)
      else
        iunlockput V ip
        pure none
    | none =>
      match ← ialloc V type with
      | none =>
        iunlockput V dp
        pure none
      | some ip => createLocked V dp ip (lastName path behind) type major

/-! ### Files -/

/-- `begin_op`, which waits while the log has no room for another call. -/
def beginOp : KernM D Unit := fun s =>
  if LOGBLOCKS < (s.outstanding + 1) * MAXOPBLOCKS then .error .deadlock
  else .ok ((), { s with outstanding := s.outstanding + 1 })

/-- `end_op`. -/
def endOp : KernM D Unit := fun s => .ok ((), { s with outstanding := s.outstanding - 1 })

/-- Change a file. -/
def modifyFile (f : Fin NFILE) (g : OpenFile → OpenFile) : KernM D Unit := fun s =>
  .ok ((), { s with ftable := update s.ftable f (g (s.ftable f)) })

/-- `filealloc`. -/
def filealloc : KernM D (Option (Fin NFILE)) := do
  let s ← get
  match (List.finRange NFILE).find? fun f => (s.ftable f).ref = 0 with
  | none => pure none
  | some f =>
    modifyFile f fun x => { x with ref := 1 }
    pure (some f)

/-- `filedup`. -/
def filedup (f : Fin NFILE) : KernM D Unit := do
  if ((← get).ftable f).ref < 1 then throw (.panic "filedup")
  else modifyFile f fun x => { x with ref := x.ref + 1 }

/-- The pipe after one of its ends is closed. -/
def PipeEnds.close (e : PipeEnds) (writable : Bool) : PipeEnds :=
  if writable then { e with writeopen := false } else { e with readopen := false }

/-- `pipeclose`.  That the page still holds a pipe is not checked in the code. -/
def pipeclose (pi : ℕ) (writable : Bool) : KernM D Unit := fun s =>
  match s.pipe pi with
  | none => .error (.panic "pipeclose")
  | some e =>
    let e := PipeEnds.close e writable
    if e.readopen = false ∧ e.writeopen = false then
      .ok ((), { s with
        pipe := update s.pipe pi none
        freelist := pi :: s.freelist
        freed := update s.freed pi (s.freed pi + 1) })
    else .ok ((), { s with pipe := update s.pipe pi (some e) })

/-- `fileclose`. -/
def fileclose (f : Fin NFILE) : KernM D Unit := do
  let ff := (← get).ftable f
  if ff.ref < 1 then throw (.panic "fileclose")
  else if 0 < ff.ref - 1 then modifyFile f fun x => { x with ref := x.ref - 1 }
  else
    modifyFile f fun x => { x with ref := 0, type := .none }
    match ff.type with
    | .none => pure ()
    | .pipe => pipeclose ff.pipe ff.writable
    | .inode | .device =>
      match ff.ip with
      | none => kerneltrap
      | some ip =>
        beginOp
        iput V ip
        endOp

/-- Set a descriptor. -/
def setFd (p : Fin NPROC) (fd : Fin NOFILE) (f : Option (Fin NFILE)) : KernM D Unit := fun s =>
  .ok ((), { s with ofile := update s.ofile (p, fd) f })

/-- `fdalloc`. -/
def fdalloc (p : Fin NPROC) (f : Fin NFILE) : KernM D (Option (Fin NOFILE)) := do
  let s ← get
  match (List.finRange NOFILE).find? fun fd => s.ofile (p, fd) = none with
  | none => pure none
  | some fd =>
    setFd p fd (some f)
    pure (some fd)

/-- `argfd`. -/
def argfd (p : Fin NPROC) (fd : ℤ) : KernM D (Option (Fin NOFILE × Fin NFILE)) := fun s =>
  if h : 0 ≤ fd ∧ fd.toNat < NOFILE then
    .ok ((s.ofile (p, ⟨fd.toNat, h.2⟩)).map (⟨fd.toNat, h.2⟩, ·), s)
  else .ok (none, s)

/-- `kalloc`. -/
def kalloc : KernM D (Option ℕ) := fun s =>
  match s.freelist with
  | [] => .ok (none, s)
  | n :: l => .ok (some n, { s with freelist := l })

/-- The assignments of `pipealloc` to the page and the two files. -/
def pipeinit (pi : ℕ) (f0 f1 : Fin NFILE) : KernM D Unit := do
  modify fun s => { s with
    pipe := update s.pipe pi (some ⟨true, true⟩)
    made := update s.made pi (s.made pi + 1) }
  modifyFile f0 fun x => { x with type := .pipe, readable := true, writable := false, pipe := pi }
  modifyFile f1 fun x => { x with type := .pipe, readable := false, writable := true, pipe := pi }

/-- `pipealloc`. -/
def pipealloc : KernM D (Option (Fin NFILE × Fin NFILE)) := do
  match ← filealloc with
  | none => pure none
  | some f0 =>
    match ← filealloc with
    | none =>
      fileclose V f0
      pure none
    | some f1 =>
      match ← kalloc with
      | none =>
        fileclose V f0
        fileclose V f1
        pure none
      | some pi =>
        pipeinit pi f0 f1
        pure (some (f0, f1))

/-! ### System calls -/

/-- `sys_dup`. -/
def sysDup (p : Fin NPROC) (fd : ℤ) : KernM D ℤ := do
  match ← argfd p fd with
  | none => pure (-1)
  | some (_, f) =>
    match ← fdalloc p f with
    | none => pure (-1)
    | some fd =>
      filedup f
      pure fd

/-- `sys_close`. -/
def sysClose (p : Fin NPROC) (fd : ℤ) : KernM D ℤ := do
  match ← argfd p fd with
  | none => pure (-1)
  | some (fd, f) =>
    setFd p fd none
    fileclose V f
    pure 0

/-- The end of `sys_pipe` when it gives both files back. -/
def pipeUndo (rf wf : Fin NFILE) : KernM D ℤ := do
  fileclose V rf
  fileclose V wf
  pure (-1)

/-- `sys_pipe`; `out` says whether the two descriptors can be copied out. -/
def sysPipe (p : Fin NPROC) (out : Bool) : KernM D ℤ := do
  match ← pipealloc V with
  | none => pure (-1)
  | some (rf, wf) =>
    match ← fdalloc p rf with
    | none => pipeUndo V rf wf
    | some fd0 =>
      match ← fdalloc p wf with
      | none =>
        setFd p fd0 none
        pipeUndo V rf wf
      | some fd1 =>
        if out then pure 0
        else
          setFd p fd0 none
          setFd p fd1 none
          pipeUndo V rf wf

/-- `itrunc` if the file is opened with `O_TRUNC`. -/
def openTrunc (omode : ℕ) (x : CInode) : KernM D Unit := do
  if omode.testBit 10 ∧ x.type = T_FILE then onDisk fun d => (V.itrunc d x.inum).map ((), ·)
  else pure ()

/-- The end of `sys_open` with the inode locked. -/
def openLocked (p : Fin NPROC) (omode : ℕ) (ip : Fin NINODE) : KernM D ℤ := do
  let x ← inode ip
  let major := (← get).major ip
  if x.type = T_DEVICE ∧ (major < 0 ∨ NDEV ≤ major) then
    iunlockput V ip
    endOp
    pure (-1)
  else
    match ← filealloc with
    | none =>
      iunlockput V ip
      endOp
      pure (-1)
    | some f =>
      match ← fdalloc p f with
      | none =>
        fileclose V f
        iunlockput V ip
        endOp
        pure (-1)
      | some fd =>
        modifyFile f fun y =>
          { y with
            type := if x.type = T_DEVICE then .device else .inode
            major := if x.type = T_DEVICE then major else y.major
            off := if x.type = T_DEVICE then y.off else 0
            ip := some ip
            readable := !omode.testBit 0
            writable := omode.testBit 0 || omode.testBit 1 }
        openTrunc V omode x
        iunlock ip
        endOp
        pure fd

/-- `sys_open`.  A path is missing if `argstr` fails. -/
def sysOpen (p : Fin NPROC) (path : Option Bytes) (behind : Bytes) (omode : ℕ) :
    KernM D ℤ := do
  match path with
  | none => pure (-1)
  | some path =>
    beginOp
    if omode.testBit 9 then
      match ← create V p path behind T_FILE 0 with
      | none =>
        endOp
        pure (-1)
      | some ip => openLocked V p omode ip
    else
      match ← namex V p false path behind with
      | none =>
        endOp
        pure (-1)
      | some ip =>
        ilock V ip
        let x ← inode ip
        if x.type = T_DIR ∧ omode ≠ 0 then
          iunlockput V ip
          endOp
          pure (-1)
        else openLocked V p omode ip

/-- The end of `sys_link` when it fails after it has counted the link. -/
def linkBad (ip : Fin NINODE) : KernM D ℤ := do
  ilock V ip
  addLink V ip (-1)
  iunlockput V ip
  endOp
  pure (-1)

/-- `sys_link`; `inner` is what lies behind the buffer of `namei`, `behind` what lies behind its own
buffer `name`. -/
def sysLink (p : Fin NPROC) (paths : Option (Bytes × Bytes)) (inner behind : Bytes) :
    KernM D ℤ := do
  match paths with
  | none => pure (-1)
  | some (old, new) =>
    beginOp
    match ← namex V p false old inner with
    | none =>
      endOp
      pure (-1)
    | some ip =>
      ilock V ip
      let x ← inode ip
      if x.type = T_DIR then
        iunlockput V ip
        endOp
        pure (-1)
      else
        addLink V ip 1
        iunlock ip
        match ← namex V p true new behind with
        | none => linkBad V ip
        | some dp =>
          ilock V dp
          let y ← inode dp
          let x ← inode ip
          if y.dev ≠ x.dev then
            iunlockput V dp
            linkBad V ip
          else if ← dirlink V dp (lastName new behind) x.inum then
            iunlockput V dp
            iput V ip
            endOp
            pure 0
          else
            iunlockput V dp
            linkBad V ip

/-- The end of `sys_unlink` at the label `bad`. -/
def unlinkBad (dp : Fin NINODE) : KernM D ℤ := do
  iunlockput V dp
  endOp
  pure (-1)

/-- Whether `sys_unlink` may remove the entry of an inode. -/
def removable (x : CInode) : KernM D Bool := do
  if x.type = T_DIR then onDisk fun d => (V.isdirempty d x.inum).map (·, d) else pure true

/-- `sys_unlink`, from where the entry at `off` has been found and `ip` is locked. -/
def unlinkLocked (dp ip : Fin NINODE) (off : ℕ) : KernM D ℤ := do
  let x ← inode ip
  if x.nlink < 1 then throw (.panic "unlink: nlink < 1")
  else
    if ← removable V x then
      let y ← inode dp
      onDisk fun d => (V.erase d y.inum off).map ((), ·)
      addDotDot V dp x.type (-1)
      iunlockput V dp
      addLink V ip (-1)
      iunlockput V ip
      endOp
      pure 0
    else
      iunlockput V ip
      unlinkBad V dp

/-- `sys_unlink`. -/
def sysUnlink (p : Fin NPROC) (path : Option Bytes) (behind : Bytes) : KernM D ℤ := do
  match path with
  | none => pure (-1)
  | some path =>
    beginOp
    match ← namex V p true path behind with
    | none =>
      endOp
      pure (-1)
    | some dp =>
      ilock V dp
      let name := lastName path behind
      if namecmp name [46] = 0 ∨ namecmp name [46, 46] = 0 then unlinkBad V dp
      else
        match ← dirlookup V dp name with
        | none => unlinkBad V dp
        | some (ip, off) =>
          ilock V ip
          unlinkLocked V dp ip off

/-- `sys_mkdir` and `sys_mknod`, which differ in the arguments of `create`. -/
def sysMake (p : Fin NPROC) (path : Option Bytes) (behind : Bytes) (type : ℕ)
    (major : ℤ) : KernM D ℤ := do
  beginOp
  match path with
  | none =>
    endOp
    pure (-1)
  | some path =>
    match ← create V p path behind type major with
    | none =>
      endOp
      pure (-1)
    | some ip =>
      iunlockput V ip
      endOp
      pure 0

/-- `sys_mkdir`. -/
def sysMkdir (p : Fin NPROC) (path : Option Bytes) (behind : Bytes) : KernM D ℤ :=
  sysMake V p path behind T_DIR 0

/-- `sys_mknod`. -/
def sysMknod (p : Fin NPROC) (path : Option Bytes) (behind : Bytes) (major : ℤ) :
    KernM D ℤ :=
  sysMake V p path behind T_DEVICE (toInt16 major)

/-- `sys_chdir`. -/
def sysChdir (p : Fin NPROC) (path : Option Bytes) (behind : Bytes) : KernM D ℤ := do
  beginOp
  match path with
  | none =>
    endOp
    pure (-1)
  | some path =>
    match ← namex V p false path behind with
    | none =>
      endOp
      pure (-1)
    | some ip =>
      ilock V ip
      let x ← inode ip
      if x.type ≠ T_DIR then
        iunlockput V ip
        endOp
        pure (-1)
      else
        iunlock ip
        match (← get).cwd p with
        | none => kerneltrap
        | some old =>
          iput V old
          endOp
          modify fun s => { s with cwd := update s.cwd p (some ip) }
          pure 0

/-- `kexec`: `loads` says whether the program is loaded, and `runs` whether the stack is set up
after that. -/
def kexec (p : Fin NPROC) (path behind : Bytes) (loads runs : Bool) : KernM D ℤ := do
  beginOp
  match ← namex V p false path behind with
  | none =>
    endOp
    pure (-1)
  | some ip =>
    ilock V ip
    if loads then
      iunlockput V ip
      endOp
      pure (if runs then 0 else -1)
    else
      -- the label `bad`, where `ip` is still set
      iunlockput V ip
      endOp
      pure (-1)

/-! ### Processes -/

/-- Set the state of a process. -/
def setState (p : Fin NPROC) (st : ProcState) : KernM D Unit :=
  modify fun s => { s with state := update s.state p st }

/-- A round of the loop of `kfork` over the descriptors. -/
def dupFd (p np : Fin NPROC) (fd : Fin NOFILE) : KernM D Unit := do
  match (← get).ofile (p, fd) with
  | none => pure ()
  | some f =>
    filedup f
    setFd np fd (some f)

/-- `kfork`: `alloc` says whether `allocproc` gets its memory, `copy` whether `uvmcopy` does.  The
child is given by its slot. -/
def kfork (p : Fin NPROC) (alloc copy : Bool) : KernM D (Option (Fin NPROC)) := do
  let s ← get
  match (List.finRange NPROC).find? fun np => s.state np = .unused with
  | none => pure none
  | some np =>
    setState np .used
    if ¬(alloc ∧ copy) then
      setState np .unused
      pure none
    else
      (List.finRange NOFILE).forM (dupFd p np)
      match (← get).cwd p with
      | none => kerneltrap
      | some ip =>
        idup ip
        modify fun s => { s with cwd := update s.cwd np (some ip) }
        setState np .runnable
        pure (some np)

/-- A round of the loop of `kexit` over the descriptors. -/
def closeFd (p : Fin NPROC) (fd : Fin NOFILE) : KernM D Unit := do
  match (← get).ofile (p, fd) with
  | none => pure ()
  | some f =>
    fileclose V f
    setFd p fd none

/-- `kexit`, up to the point where the process is a zombie. -/
def kexit (p : Fin NPROC) : KernM D Unit := do
  if p = initproc then throw (.panic "init exiting")
  else
    (List.finRange NOFILE).forM (closeFd V p)
    beginOp
    match (← get).cwd p with
    | none => kerneltrap
    | some ip =>
      iput V ip
      endOp
      modify fun s => { s with cwd := update s.cwd p none }
      setState p .zombie

/-- `kwait` when it finds the zombie `pp`. -/
def kwait (pp : Fin NPROC) : KernM D Unit := do
  if (← get).state pp = .zombie then setState pp .unused else pure ()

end Kern

/-- The calls. -/
inductive FileCall where
  | sysOpen (path : Option Bytes) (behind : Bytes) (omode : ℕ)
  | sysLink (paths : Option (Bytes × Bytes)) (inner behind : Bytes)
  | sysUnlink (path : Option Bytes) (behind : Bytes)
  | sysMkdir (path : Option Bytes) (behind : Bytes)
  | sysMknod (path : Option Bytes) (behind : Bytes) (major : ℤ)
  | sysChdir (path : Option Bytes) (behind : Bytes)
  | sysDup (fd : ℤ)
  | sysClose (fd : ℤ)
  | sysPipe (out : Bool)
  | kexec (path behind : Bytes) (loads runs : Bool)
  | kfork (alloc copy : Bool)
  | kexit
  | kwait (pp : Fin NPROC)

/-- A call whose result goes to user space. -/
def Kern.call {D α : Type} (m : KernM D α) : KernM D Unit := do
  let _ ← m
  pure ()

/-- The code of a call by process `p`. -/
def FileCall.run {D : Type} (V : Volume D) (p : Fin NPROC) : FileCall → KernM D Unit
  | .sysOpen path behind omode => Kern.call (Kern.sysOpen V p path behind omode)
  | .sysLink paths inner behind => Kern.call (Kern.sysLink V p paths inner behind)
  | .sysUnlink path behind => Kern.call (Kern.sysUnlink V p path behind)
  | .sysMkdir path behind => Kern.call (Kern.sysMkdir V p path behind)
  | .sysMknod path behind major => Kern.call (Kern.sysMknod V p path behind major)
  | .sysChdir path behind => Kern.call (Kern.sysChdir V p path behind)
  | .sysDup fd => Kern.call (Kern.sysDup p fd)
  | .sysClose fd => Kern.call (Kern.sysClose V p fd)
  | .sysPipe out => Kern.call (Kern.sysPipe V p out)
  | .kexec path behind loads runs => Kern.call (Kern.kexec V p path behind loads runs)
  | .kfork alloc copy => Kern.call (Kern.kfork p alloc copy)
  | .kexit => Kern.kexit V p
  | .kwait pp => Kern.kwait pp

namespace Kern

variable {D : Type} (V : Volume D)

/-- The process is neither unused nor a zombie. -/
def Live (s : Kern D) (p : Fin NPROC) : Prop := s.state p ≠ .unused ∧ s.state p ≠ .zombie

/-- What happens between two states: a call, or a change of the disk or of the free pages by
anything else. -/
inductive FileAct where
  | call (p : Fin NPROC) (c : FileCall)
  | disk
  | pages

/-- Calls run one after the other.  In between the contents of the disk may change, and the pages
that are free, except for those that hold a pipe. -/
inductive Step (s : Kern D) : FileAct → Kern D → Prop
  | call {p : Fin NPROC} {c : FileCall} {s' : Kern D} : s.Live p → c.run V p s = .ok ((), s') →
      Step s (.call p c) s'
  | disk {d : D} : Step s .disk { s with disk := d }
  | pages {l : List ℕ} : l.Nodup → (∀ n ∈ l, s.pipe n = none) →
      Step s .pages { s with freelist := l }

/-- The tables after `userinit`: the first process has the inode that absolute paths start from as
its directory.  Nothing reads `sb` in. -/
def boot (d : D) (l : List ℕ) : Kern D where
  icache := (Icache.boot.setBusy ⟨0, by decide⟩ true).modify ⟨0, by decide⟩ fun x =>
    { x with
      dev := ROOTDEV, inum := ROOTINO, ref := 1, iops := some .ext2fs
      extAddrs := some ⟨0, by decide⟩ }
  major _ := 0
  locked _ := false
  outstanding := 0
  ninodes := 0
  ftable _ := ⟨.none, 0, false, false, 0, none, 0, 0⟩
  state p := if p = initproc then .runnable else .unused
  ofile _ := none
  cwd p := if p = initproc then some ⟨0, by decide⟩ else none
  pipe _ := none
  freelist := l
  disk := d
  made _ := 0
  freed _ := 0

/-- The kernel on the volume `V`, from boot on. -/
def machine : Machine (Kern D) FileAct where
  init s := ∃ d l, l.Nodup ∧ s = boot d l
  step := Step V

end Kern

end Cinux
