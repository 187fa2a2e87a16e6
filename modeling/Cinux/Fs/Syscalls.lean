import Cinux.System.Locks
import Cinux.Ext2.Dirlink
import Cinux.Ext2.Unlink

/-!
# The locks that system calls take

The system calls on inodes of the ext2 root device, with every operation on an inode lock.  What
happens between two of them is one action on the inodes, as `Ext2.File`, `Ext2.Dirlink` and
`Ext2.Unlink` have it.  A call that panics or searches a directory for ever is halted.

`ext2fs_iput` takes the lock of the inode whether or not it is about to free it.  `ialloc` scans the
`sb.ninodes` inodes of the original file system, whose superblock is never read in, so it finds
none, and `create` opens files that exist or fails.
-/

namespace Cinux

/-- Where the lock of an inode is acquired: in `ext2fs_ilock` or in `ext2fs_iput`. -/
inductive LockSite where
  | ilock
  | iput
  deriving DecidableEq

/-- The inodes and the current directories of the processes. -/
structure Vfs (P : Type) where
  inode : FileTree
  cwd : P → ℕ

namespace Vfs

variable {P : Type}

/-- Change inode `i`. -/
def modify (t : Vfs P) (i : ℕ) (f : Inode → Inode) : Vfs P :=
  { t with inode := Function.update t.inode i (f (t.inode i)) }

/-- `ip->ref++`. -/
def idup (t : Vfs P) (i : ℕ) : Vfs P := t.modify i fun ip => { ip with ref := ip.ref + 1 }

/-- `path` is absolute. -/
def absolute (path : Bytes) : Bool := path.head? = some 47

/-- The inode that `namex` starts from. -/
def start (t : Vfs P) (p : P) (path : Bytes) : ℕ := if absolute path then ROOTINO else t.cwd p

end Vfs

/-- What `ext2fs_iput` does under the lock: the last reference to an inode without links frees
it. -/
def Inode.reclaim (ip : Inode) : Inode :=
  if ip.nlink = 0 ∧ ip.ref = 1 then ⟨.none, 0, ip.ref, ⟨0, fun _ => Block.zero⟩⟩ else ip

/-- The elements of a path, as `skipelem` finds them one after the other. -/
def elements (path : Bytes) : List Bytes := (path.splitOn 47).filter (· ≠ [])

/-- The strings that `skipelem` leaves in `name`; `behind` is what lies behind the buffer. -/
def names (path behind : Bytes) : List Bytes :=
  (elements path).map (nameBuffer · behind)

/-- The string in `name` when `nameiparent` returns. -/
def lastName (path behind : Bytes) : Bytes := (names path behind).getLastD []

/-- Code of a system call. -/
abbrev VfsProg (P : Type) := LockProg (Vfs P) ℕ LockSite

namespace VfsProg

variable {P : Type}

/-- `ilock`. -/
def ilock (i : ℕ) (k : VfsProg P) : VfsProg P := .acquire .ilock i k

/-- `iunlock`. -/
def iunlock (i : ℕ) (k : VfsProg P) : VfsProg P := .release i k

/-- Look at the inodes. -/
def look (k : ℕ → Vfs P → VfsProg P) : VfsProg P := .act (fun _ t => t) k

/-- Change inode `i`. -/
def modify (i : ℕ) (f : Inode → Inode) (k : VfsProg P) : VfsProg P :=
  .act (fun _ t => t.modify i f) fun _ _ => k

/-- `iput`, which is `ext2fs_iput`. -/
def iput (i : ℕ) (k : VfsProg P) : VfsProg P :=
  .acquire .iput i <| modify i Inode.reclaim <| .release i <|
    modify i (fun ip => { ip with ref := ip.ref - 1 }) k

/-- `iunlockput`. -/
def iunlockput (i : ℕ) (k : VfsProg P) : VfsProg P := iunlock i (iput i k)

/-- `dirlookup`: the inode that is found has been passed to `iget`. -/
def dirlookup (d : ℕ) (name : Bytes) (absent : VfsProg P) (found : ℕ → ℕ → VfsProg P) :
    VfsProg P :=
  .act
    (fun n t =>
      match (t.inode d).file.ext2fsDirlookup name n with
      | some (.found i _) => t.idup i
      | _ => t)
    fun n t =>
      match (t.inode d).file.ext2fsDirlookup name n with
      | some (.found i off) => found i off
      | some .absent => absent
      | _ => .halt

/-- `ext2fs_dirlink`, with its result: whether it has added the entry. -/
def dirlink (d : ℕ) (name : Bytes) (inum : ℕ) (stack : ℕ → UInt8) (k : Bool → VfsProg P) :
    VfsProg P :=
  dirlookup d name
    (.act
      (fun n t =>
        match (t.inode d).file.slotLoop n 0 with
        | some (.ok off) =>
          t.modify d fun dp => { dp with file := dp.file.insertAt off (.link name inum) stack }
        | _ => t)
      fun n t =>
        match (t.inode d).file.slotLoop n 0 with
        | some (.ok _) => k true
        | _ => .halt)
    fun i _ => iput i (k false)

/-- The loop of `namex` over the elements of the path. -/
def walk (parent : Bool) (k : Option ℕ → VfsProg P) : List Bytes → ℕ → VfsProg P
  | [], ip => if parent then iput ip (k none) else k (some ip)
  | name :: rest, ip =>
    ilock ip <| look fun _ t =>
      if (t.inode ip).type ≠ .dir then iunlockput ip (k none)
      else if parent ∧ rest = [] then iunlock ip (k (some ip))
      else
        dirlookup ip name (iunlockput ip (k none)) fun next _ =>
          iunlockput ip (walk parent k rest next)

/-- `namex`, called by process `p`. -/
def namex (p : P) (parent : Bool) (path behind : Bytes) (k : Option ℕ → VfsProg P) :
    VfsProg P :=
  .act (fun _ t => t.idup (t.start p path)) fun _ t =>
    walk parent k (names path behind) (t.start p path)

/-- The end of `sys_link` when it fails after it has counted the link. -/
def linkBad (ip : ℕ) : VfsProg P :=
  ilock ip <| modify ip (fun ip => { ip with nlink := ip.nlink - 1 }) <| iunlockput ip .done

/-- `sys_link`; `inner` is what lies behind the buffer of `namei`, `behind` what lies behind its own
buffer `name`. -/
def sysLink (p : P) (old new inner behind : Bytes) (stack : ℕ → UInt8) : VfsProg P :=
  namex p false old inner fun
    | none => .done
    | some ip =>
      ilock ip <| look fun _ t =>
        if (t.inode ip).type = .dir then iunlockput ip .done
        else
          modify ip (fun ip => { ip with nlink := ip.nlink + 1 }) <| iunlock ip <|
            namex p true new behind fun
              | none => linkBad ip
              | some dp =>
                ilock dp <| dirlink dp (lastName new behind) ip stack fun
                  | true => iunlockput dp (iput ip .done)
                  | false => iunlockput dp (linkBad ip)

/-- The directory after `sys_unlink` has erased the entry at `off`, which leads to `ip`. -/
def eraseEntry (off : ℕ) (ip dp : Inode) : Inode :=
  { dp with
    file := (dp.file.writei off sizeofDirent fun _ => 0).2
    nlink := if ip.type = .dir then dp.nlink - 1 else dp.nlink }

/-- The end of `sys_unlink`, when the entry at `off` in `dp` is to be removed and both inodes are
locked. -/
def unlinkErase (dp ip off : ℕ) : VfsProg P :=
  .act (fun _ t => t.modify dp (eraseEntry off (t.inode ip))) fun _ t =>
    if ((t.inode dp).file.writei off sizeofDirent fun _ => 0).1 ≠ sizeofDirent then .halt
    else
      iunlockput dp <| modify ip (fun ip => { ip with nlink := ip.nlink - 1 }) <|
        iunlockput ip .done

/-- `sys_unlink` after `ilock(ip)`. -/
def unlinkLocked (dp ip off : ℕ) : VfsProg P :=
  look fun n t =>
    if (t.inode ip).nlink < 1 then .halt
    else
      match (t.inode ip).removable n with
      | some (.ok true) => unlinkErase dp ip off
      | some (.ok false) => iunlockput ip (iunlockput dp .done)
      | _ => .halt

/-- `sys_unlink` after `ilock(dp)`. -/
def unlinkIn (dp : ℕ) (name : Bytes) : VfsProg P :=
  if namecmp name [46] = 0 ∨ namecmp name [46, 46] = 0 then iunlockput dp .done
  else
    dirlookup dp name (iunlockput dp .done) fun ip off => ilock ip (unlinkLocked dp ip off)

/-- `sys_unlink`. -/
def sysUnlink (p : P) (path behind : Bytes) : VfsProg P :=
  namex p true path behind fun
    | none => .done
    | some dp => ilock dp (unlinkIn dp (lastName path behind))

/-- `create`, for a file or a directory.  It returns a locked inode. -/
def create (p : P) (file : Bool) (path behind : Bytes) (k : Option ℕ → VfsProg P) :
    VfsProg P :=
  namex p true path behind fun
    | none => k none
    | some dp =>
      ilock dp <| dirlookup dp (lastName path behind) (iunlockput dp (k none)) fun ip _ =>
        iunlockput dp <| ilock ip <| look fun _ t =>
          if file ∧ (t.inode ip).type = .file then k (some ip) else iunlockput ip (k none)

/-- `sys_open` with the inode locked; `room` says whether there are a file and a descriptor. -/
def openLocked (omode : ℕ) (room : Bool) (ip : ℕ) : VfsProg P :=
  if ¬room then iunlockput ip .done
  else
    look fun _ t =>
      if omode.testBit 10 ∧ (t.inode ip).type = .file then
        modify ip (fun ip => { ip with file := { ip.file with size := 0 } }) (iunlock ip .done)
      else iunlock ip .done

/-- `sys_open`; bit 9 of `omode` is `O_CREATE`, bit 10 `O_TRUNC`. -/
def sysOpen (p : P) (path behind : Bytes) (omode : ℕ) (room : Bool) : VfsProg P :=
  if omode.testBit 9 then
    create p true path behind fun
      | none => .done
      | some ip => openLocked omode room ip
  else
    namex p false path behind fun
      | none => .done
      | some ip =>
        ilock ip <| look fun _ t =>
          if (t.inode ip).type = .dir ∧ omode ≠ 0 then iunlockput ip .done
          else openLocked omode room ip

/-- `sys_mkdir`. -/
def sysMkdir (p : P) (path behind : Bytes) : VfsProg P :=
  create p false path behind fun
    | none => .done
    | some ip => iunlockput ip .done

/-- `sys_chdir`. -/
def sysChdir [DecidableEq P] (p : P) (path behind : Bytes) : VfsProg P :=
  namex p false path behind fun
    | none => .done
    | some ip =>
      ilock ip <| look fun _ t =>
        if (t.inode ip).type ≠ .dir then iunlockput ip .done
        else
          iunlock ip <| look fun _ t => iput (t.cwd p) <|
            .act (fun _ t => { t with cwd := Function.update t.cwd p ip }) fun _ _ => .done

/-- `fileread` of a file with inode `ip`. -/
def fileread (ip : ℕ) : VfsProg P := ilock ip (iunlock ip .done)

/-- `filewrite` to a file with inode `ip`: a round for each offset, length and source. -/
def filewrite (ip : ℕ) : List (ℕ × ℕ × (ℕ → UInt8)) → VfsProg P
  | [] => .done
  | (off, n, src) :: rest =>
    ilock ip <| .act
      (fun _ t => t.modify ip fun ip => { ip with file := (ip.file.writei off n src).2 })
      fun _ t =>
        iunlock ip <|
          if ((t.inode ip).file.writei off n src).1 = n then filewrite ip rest else .done

/-- `fileclose` of the last reference to a file with inode `ip`. -/
def fileclose (ip : ℕ) : VfsProg P := iput ip .done

end VfsProg

/-- The system calls. -/
inductive Syscall where
  | sysOpen (path behind : Bytes) (omode : ℕ) (room : Bool)
  | sysLink (old new inner behind : Bytes) (stack : ℕ → UInt8)
  | sysUnlink (path behind : Bytes)
  | sysMkdir (path behind : Bytes)
  | sysChdir (path behind : Bytes)
  | fileread (ip : ℕ)
  | filewrite (ip : ℕ) (rounds : List (ℕ × ℕ × (ℕ → UInt8)))
  | fileclose (ip : ℕ)

/-- The code of a system call. -/
def Syscall.code {P : Type} [DecidableEq P] (p : P) : Syscall → VfsProg P
  | .sysOpen path behind omode room => .sysOpen p path behind omode room
  | .sysLink old new inner behind stack => .sysLink p old new inner behind stack
  | .sysUnlink path behind => .sysUnlink p path behind
  | .sysMkdir path behind => .sysMkdir p path behind
  | .sysChdir path behind => .sysChdir p path behind
  | .fileread ip => .fileread ip
  | .filewrite ip rounds => .filewrite ip rounds
  | .fileclose ip => .fileclose ip

end Cinux
