import Mathlib.Data.Nat.Notation

/-!
# Kernel parameters

The constants of `param.h`, `fs.h` and `stat.h` that the models below refer to, under the names
the headers give them, and the type of the strings that the kernel passes around.
-/

namespace Cinux

/-- Maximum number of processes. -/
def NPROC : ℕ := 64

/-- Open files per process. -/
def NOFILE : ℕ := 16

/-- Open files per system. -/
def NFILE : ℕ := 100

/-- Maximum number of active i-nodes. -/
def NINODE : ℕ := 50

/-- Maximum major device number. -/
def NDEV : ℕ := 10

/-- Device number of the file system root disk. -/
def ROOTDEV : ℕ := 1

/-- Number of the inode that absolute paths start from. -/
def ROOTINO : ℕ := 1

/-- Maximum number of blocks any file system operation writes. -/
def MAXOPBLOCKS : ℕ := 10

/-- Maximum number of data blocks in the on-disk log. -/
def LOGBLOCKS : ℕ := MAXOPBLOCKS * 3

/-- Size of the disk block cache. -/
def NBUF : ℕ := MAXOPBLOCKS * 3

/-- Maximum length of a path name, with its NUL. -/
def MAXPATH : ℕ := 128

/-- Block size. -/
def BSIZE : ℕ := 1024

/-- The types of `stat.h`, as `ip->type` has them. -/
def T_DIR : ℕ := 1

@[inherit_doc T_DIR] def T_FILE : ℕ := 2

@[inherit_doc T_DIR] def T_DEVICE : ℕ := 3

/-- The types of `stat.h` that an ext2 inode has. -/
inductive InodeType where
  | none
  | dir
  | file
  deriving DecidableEq

/-- A string of bytes. -/
abbrev Bytes := List UInt8

end Cinux
