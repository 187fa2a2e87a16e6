import Cinux.System.Requests
import Cinux.Ring.Counters
import Cinux.Kernel.Param
import Mathlib.Data.Fin.VecNotation
import Mathlib.Data.Fintype.Defs

/-!
# The driver of the virtio disk

`virtio_disk_rw` and `virtio_disk_intr` of `virtio_disk.c`, and the device they share their rings
with.  Any number of processes and interrupt handlers run the code; `vdisk_lock` keeps them apart,
but not from the device, which may do something of its own between any two steps.  A step of the
code ends where the device could look at what it wrote: after each descriptor, before and after the
index of the avail ring, and between the test of the used ring and the look at its entry.

The device takes the heads in the avail ring in their order and completes the requests in any order:
it writes the status byte where the last descriptor of the chain says, then an entry of the used
ring, and then the index.  Both indices, and the two counters that follow them, count modulo
`2 ^ 16`.
-/

namespace Cinux

open Function

/-- This many virtio descriptors. -/
def NUM : ℕ := 8

instance : NeZero NUM := ⟨by decide⟩

/-- A chain has three descriptors. -/
instance neZero_three : NeZero 3 := ⟨by decide⟩

/-- Chained with another descriptor. -/
def VRING_DESC_F_NEXT : ℕ := 1

/-- The device writes, rather than reads. -/
def VRING_DESC_F_WRITE : ℕ := 2

/-- Read the disk. -/
def VIRTIO_BLK_T_IN : ℕ := 0

/-- Write the disk. -/
def VIRTIO_BLK_T_OUT : ℕ := 1

/-- What a descriptor points to: nothing, `disk.ops[i]`, `b->data` or `disk.info[i].status`. -/
inductive DmaAddr (B : Type) where
  | null
  | ops (i : Fin NUM)
  | data (b : B)
  | status (i : Fin NUM)

/-- `struct virtq_desc`. -/
structure VirtqDesc (B : Type) where
  addr : DmaAddr B
  len : ℕ
  flags : ℕ
  next : ℕ

/-- `struct virtio_blk_req`. -/
structure VirtioBlkReq where
  type : ℕ
  reserved : ℕ
  sector : ℕ

/-- The avail ring or the used ring; of the entries of the latter only `id` is read. -/
structure Virtq where
  idx : ℕ
  ring : Fin NUM → ℕ

/-- An element of `disk.info`. -/
structure DiskInfo (B : Type) where
  b : Option B
  status : UInt8

/-- `struct disk`, without its lock. -/
structure Disk (B : Type) where
  desc : Fin NUM → VirtqDesc B
  avail : Virtq
  used : Virtq
  free : Fin NUM → Bool
  usedIdx : ℕ
  info : Fin NUM → DiskInfo B
  ops : Fin NUM → VirtioBlkReq

/-- Why a hart or the device goes astray: a panic, or an access to no object of the driver. -/
inductive DiskFault where
  | panic (msg : String)
  | wild
  deriving DecidableEq

/-- What processes sleep on: `&disk.free[0]`, or a `struct buf`. -/
inductive DiskChan (B : Type) where
  | free
  | buf (b : B)
  deriving DecidableEq

/-- The points of `virtio_disk_rw`; `idx` holds the three descriptors once they are allocated. -/
inductive RwPc where
  | acquire
  | alloc
  | sleepFree
  | header (idx : Fin 3 → Fin NUM)
  | data (idx : Fin 3 → Fin NUM)
  | status (idx : Fin 3 → Fin NUM)
  | ring (idx : Fin 3 → Fin NUM)
  | notify (idx : Fin 3 → Fin NUM)
  | wait (idx : Fin 3 → Fin NUM)
  | sleepBuf (idx : Fin 3 → Fin NUM)
  | woken (idx : Fin 3 → Fin NUM)
  | finish (idx : Fin 3 → Fin NUM)

/-- The points of the driver. -/
inductive DiskPc (B : Type) where
  | idle
  /-- In `virtio_disk_rw(b, write)`. -/
  | rw (b : B) (write : Bool) (pc : RwPc)
  | intrAcquire
  | intrTest
  | intrHandle

/-- The buffer of the call that a process is in. -/
def DiskPc.buf {B : Type} : DiskPc B → Option B
  | .rw b _ _ => some b
  | _ => none

/-- The channel that a process sleeps on. -/
def DiskPc.chan {B : Type} : DiskPc B → Option (DiskChan B)
  | .rw _ _ .sleepFree => some .free
  | .rw b _ (.sleepBuf _) => some (.buf b)
  | _ => none

/-- Where a process goes on when it is woken up: in `sleep`, before `acquire(lk)`. -/
def DiskPc.rouse {B : Type} : DiskPc B → DiskPc B
  | .rw b write .sleepFree => .rw b write .acquire
  | .rw b write (.sleepBuf idx) => .rw b write (.woken idx)
  | pc => pc

/-- The driver with the processes and handlers `A` that are in it, and the device. -/
structure Virtio (A B : Type) where
  disk : Disk B
  /-- `b->disk`. -/
  bufDisk : B → Bool
  vdiskLock : Option A
  pc : A → DiskPc B
  /-- How far the device has read the avail ring. -/
  lastAvail : ℕ
  /-- Heads of the chains that the device works on. -/
  taken : List ℕ
  /-- Heads of the chains whose status byte is written. -/
  marked : List ℕ
  /-- The head in the entry of the used ring that the index does not cover yet. -/
  put : Option ℕ
  fault : Option DiskFault

/-- The descriptors that the device finds from `i` on. -/
def Disk.chain {B : Type} (d : Disk B) : ℕ → ℕ → List (VirtqDesc B)
  | 0, _ => []
  | n + 1, i =>
    if h : i < NUM then
      let x := d.desc ⟨i, h⟩
      if x.flags &&& VRING_DESC_F_NEXT ≠ 0 then x :: d.chain n x.next else [x]
    else []

namespace Virtio

variable {A B : Type}

/-- A hart or the device stops. -/
def fail (s : Virtio A B) (f : DiskFault) : Virtio A B := { s with fault := some f }

section Code

variable [DecidableEq A] [DecidableEq B]

/-- `a` goes on at `p`. -/
def goto (s : Virtio A B) (a : A) (p : DiskPc B) : Virtio A B :=
  { s with pc := update s.pc a p }

/-- `acquire(&disk.vdisk_lock)`. -/
def acquire (s : Virtio A B) (a : A) (p : DiskPc B) : Option (Traffic A B ℕ × Virtio A B) :=
  if s.vdiskLock = none then some (.quiet, { s with vdiskLock := some a }.goto a p) else none

/-- `release(&disk.vdisk_lock)`, or the one in `sleep`. -/
def release (s : Virtio A B) (a : A) (p : DiskPc B) : Virtio A B :=
  { s with vdiskLock := none }.goto a p

/-- `wakeup(chan)`. -/
def wakeup (s : Virtio A B) (chan : DiskChan B) : Virtio A B :=
  { s with pc := fun a => if (s.pc a).chan = some chan then (s.pc a).rouse else s.pc a }

/-- The descriptor `i` is marked as non-free. -/
def reserve (s : Virtio A B) (i : Fin NUM) : Virtio A B :=
  { s with disk.free := update s.disk.free i false }

/-- `alloc_desc`. -/
def allocDesc (s : Virtio A B) : Option (Fin NUM) × Virtio A B :=
  match (List.finRange NUM).find? s.disk.free with
  | some i => (some i, s.reserve i)
  | none => (none, s)

/-- The descriptor `i` is cleared and marked as free. -/
def eraseDesc (s : Virtio A B) (i : Fin NUM) : Virtio A B :=
  { s with
    disk.desc := update s.disk.desc i ⟨.null, 0, 0, 0⟩
    disk.free := update s.disk.free i true }.wakeup .free

/-- `free_desc`. -/
def freeDesc (s : Virtio A B) (i : ℕ) : Except String (Virtio A B) :=
  if h : i < NUM then
    if s.disk.free ⟨i, h⟩ then .error "free_desc 2" else .ok (s.eraseDesc ⟨i, h⟩)
  else .error "free_desc 1"

/-- `free_chain`, for at most `fuel` rounds. -/
def freeChain : ℕ → Virtio A B → ℕ → Option (Except String (Virtio A B))
  | 0, _, _ => none
  | fuel + 1, s, i =>
    match s.freeDesc i with
    | .error msg => some (.error msg)
    | .ok s' =>
      -- `free_desc` has not failed, so `i` is in range
      let x := s.disk.desc (Fin.ofNat NUM i)
      if x.flags &&& VRING_DESC_F_NEXT ≠ 0 then freeChain fuel s' x.next else some (.ok s')

/-- `alloc3_desc`, with its loop written out: three descriptors or none. -/
def alloc3Desc (s : Virtio A B) : Except String (Option (Fin 3 → Fin NUM) × Virtio A B) :=
  match s.allocDesc with
  | (none, s) => .ok (none, s)
  | (some i, s) =>
    match s.allocDesc with
    | (none, s) => do
      let s ← s.freeDesc i
      .ok (none, s)
    | (some j, s) =>
      match s.allocDesc with
      | (none, s) => do
        let s ← s.freeDesc i
        let s ← s.freeDesc j
        .ok (none, s)
      | (some k, s) => .ok (some ![i, j, k], s)

/-- Write the descriptor `i`. -/
def setDesc (s : Virtio A B) (i : Fin NUM) (x : VirtqDesc B) : Virtio A B :=
  { s with disk.desc := update s.disk.desc i x }

/-- Write `disk.info[i]`. -/
def setInfo (s : Virtio A B) (i : Fin NUM) (x : DiskInfo B) : Virtio A B :=
  { s with disk.info := update s.disk.info i x }

/-- Write `b->disk`. -/
def setBufDisk (s : Virtio A B) (b : B) (x : Bool) : Virtio A B :=
  { s with bufDisk := update s.bufDisk b x }

/-- The command header of a call; `sector` is computed with 32 bits. -/
def blkReq (blockno : B → ℕ) (b : B) (write : Bool) : VirtioBlkReq where
  type := if write then VIRTIO_BLK_T_OUT else VIRTIO_BLK_T_IN
  reserved := 0
  sector := blockno b * (BSIZE / 512) % 2 ^ 32

/-- The descriptor of the command header; `sizeof(struct virtio_blk_req)` is 16. -/
def headDesc (idx : Fin 3 → Fin NUM) : VirtqDesc B :=
  ⟨.ops (idx 0), 16, VRING_DESC_F_NEXT, (idx 1).val⟩

/-- The descriptor of the data. -/
def dataDesc (b : B) (write : Bool) (idx : Fin 3 → Fin NUM) : VirtqDesc B :=
  ⟨.data b, BSIZE, (if write then 0 else VRING_DESC_F_WRITE) ||| VRING_DESC_F_NEXT, (idx 2).val⟩

/-- The descriptor of the status byte. -/
def statusDesc (idx : Fin 3 → Fin NUM) : VirtqDesc B :=
  ⟨.status (idx 0), 1, VRING_DESC_F_WRITE, 0⟩

/-- The part of `virtio_disk_rw` that allocates the descriptors. -/
def rwAlloc (s : Virtio A B) (a : A) (b : B) (write : Bool) : Virtio A B :=
  match s.alloc3Desc with
  | .error msg => s.fail (.panic msg)
  | .ok (none, s) => s.release a (.rw b write .sleepFree)
  | .ok (some idx, s) => s.goto a (.rw b write (.header idx))

/-- `disk.info[idx[0]].b = 0`. -/
def clearInfo (s : Virtio A B) (i : Fin NUM) : Virtio A B :=
  s.setInfo i { s.disk.info i with b := none }

/-- The end of `virtio_disk_rw`.  A chain cannot be longer than `NUM`: after so many rounds every
descriptor is free, and `free_desc` panics. -/
def rwFinish (s : Virtio A B) (a : A) (b : B) (idx : Fin 3 → Fin NUM) :
    Option (Traffic A B ℕ × Virtio A B) :=
  match freeChain (NUM + 1) (s.clearInfo (idx 0)) (idx 0) with
  | none => none
  | some (.error msg) => some (.quiet, s.fail (.panic msg))
  | some (.ok s) => some (.leave a b (idx 0), s.release a .idle)

/-- The next step of `virtio_disk_rw(b, write)`. -/
def rwExec (blockno : B → ℕ) (s : Virtio A B) (a : A) (b : B) (write : Bool) :
    RwPc → Option (Traffic A B ℕ × Virtio A B)
  | .acquire => s.acquire a (.rw b write .alloc)
  | .alloc => some (.quiet, s.rwAlloc a b write)
  | .sleepFree => none
  | .header idx =>
    some (.quiet, { s.setDesc (idx 0) (headDesc idx) with
      disk.ops := update s.disk.ops (idx 0) (blkReq blockno b write)
      }.goto a (.rw b write (.data idx)))
  | .data idx =>
    some (.quiet, (s.setDesc (idx 1) (dataDesc b write idx)).goto a (.rw b write (.status idx)))
  | .status idx =>
    some (.quiet, (((s.setDesc (idx 2) (statusDesc idx)).setInfo (idx 0) ⟨some b, 0xff⟩).setBufDisk
      b true).goto a (.rw b write (.ring idx)))
  | .ring idx =>
    some (.quiet, { s with
      disk.avail.ring := update s.disk.avail.ring (slot NUM s.disk.avail.idx) (idx 0).val
      }.goto a (.rw b write (.notify idx)))
  | .notify idx =>
    some (.submit a b (idx 0), { s with
      disk.avail.idx := (s.disk.avail.idx + 1) % 2 ^ 16 }.goto a (.rw b write (.wait idx)))
  | .wait idx =>
    some (.quiet,
      if s.bufDisk b then s.release a (.rw b write (.sleepBuf idx))
      else s.goto a (.rw b write (.finish idx)))
  | .sleepBuf _ => none
  | .woken idx => s.acquire a (.rw b write (.wait idx))
  | .finish idx => s.rwFinish a b idx

/-- The body of the loop of `virtio_disk_intr`. -/
def intrHandle (s : Virtio A B) (a : A) : Traffic A B ℕ × Virtio A B :=
  let id := s.disk.used.ring (slot NUM s.disk.usedIdx)
  if h : id < NUM then
    if (s.disk.info ⟨id, h⟩).status ≠ 0 then (.quiet, s.fail (.panic "virtio_disk_intr status"))
    else
      match (s.disk.info ⟨id, h⟩).b with
      | none => (.quiet, s.fail .wild)
      | some b =>
        (.handle id b, { (s.setBufDisk b false).wakeup (.buf b) with
          disk.usedIdx := (s.disk.usedIdx + 1) % 2 ^ 16 }.goto a .intrTest)
  else (.quiet, s.fail .wild)

/-- The next step of `a`, unless it sleeps, waits for the lock or is not in the driver. -/
def exec (blockno : B → ℕ) (s : Virtio A B) (a : A) : Option (Traffic A B ℕ × Virtio A B) :=
  match s.pc a with
  | .idle => none
  | .rw b write pc => s.rwExec blockno a b write pc
  | .intrAcquire => s.acquire a .intrTest
  | .intrTest =>
    some (.quiet,
      if s.disk.usedIdx = s.disk.used.idx then s.release a .idle else s.goto a .intrHandle)
  | .intrHandle => some (s.intrHandle a)

/-! ### The device -/

/-- The device takes the next head from the avail ring. -/
def devTake (s : Virtio A B) : Virtio A B :=
  { s with
    taken := s.taken ++ [s.disk.avail.ring (slot NUM s.lastAvail)]
    lastAvail := (s.lastAvail + 1) % 2 ^ 16 }

/-- The device writes the status byte of the chain with head `h`. -/
def devMark (s : Virtio A B) (h : ℕ) : Virtio A B :=
  match (s.disk.chain NUM h).getLast? with
  | some ⟨.status i, _, _, _⟩ =>
    { s.setInfo i { s.disk.info i with status := 0 } with
      taken := s.taken.erase h
      marked := h :: s.marked }
  | _ => s.fail .wild

/-- The device writes `h` to the used ring. -/
def devPut (s : Virtio A B) (h : ℕ) : Virtio A B :=
  { s with
    disk.used.ring := update s.disk.used.ring (slot NUM s.disk.used.idx) h
    marked := s.marked.erase h
    put := some h }

/-- The device increments the index of the used ring. -/
def devPublish (s : Virtio A B) : Virtio A B :=
  { s with disk.used.idx := (s.disk.used.idx + 1) % 2 ^ 16, put := none }

end Code

variable [DecidableEq A] [DecidableEq B]

/-- The steps of the driver and of the device. -/
inductive Step (blockno : B → ℕ) : Virtio A B → Traffic A B ℕ → Virtio A B → Prop
  /-- Calls that are in the driver at the same time are on different buffers. -/
  | call {s a b} (write : Bool) : s.pc a = .idle → (∀ a', (s.pc a').buf ≠ some b) →
      Step blockno s .quiet (s.goto a (.rw b write .acquire))
  | interrupt {s a} : s.pc a = .idle → Step blockno s .quiet (s.goto a .intrAcquire)
  | exec {s s' a e} : s.exec blockno a = some (e, s') → Step blockno s e s'
  /-- `kkill` ends every sleep. -/
  | kkill {s a} : Step blockno s .quiet (s.goto a (s.pc a).rouse)
  | devTake {s} : s.lastAvail ≠ s.disk.avail.idx →
      Step blockno s (.take (s.disk.avail.ring (slot NUM s.lastAvail))) s.devTake
  | devMark {s h} : h ∈ s.taken → Step blockno s .quiet (s.devMark h)
  | devPut {s h} : h ∈ s.marked → s.put = none → Step blockno s .quiet (s.devPut h)
  | devPublish {s h} : s.put = some h → Step blockno s (.complete h) s.devPublish

/-- After `virtio_disk_init`: the memory of the queues is zero and all descriptors are free. -/
def start : Virtio A B where
  disk :=
    { desc := fun _ => ⟨.null, 0, 0, 0⟩, avail := ⟨0, fun _ => 0⟩, used := ⟨0, fun _ => 0⟩
      free := fun _ => true, usedIdx := 0, info := fun _ => ⟨none, 0⟩, ops := fun _ => ⟨0, 0, 0⟩ }
  bufDisk _ := false
  vdiskLock := none
  pc _ := .idle
  lastAvail := 0
  taken := []
  marked := []
  put := none
  fault := none

/-- All interleavings of calls, interrupts and the device. -/
def machine (A B : Type) [DecidableEq A] [DecidableEq B] (blockno : B → ℕ) :
    Machine (Virtio A B) (Traffic A B ℕ) where
  init s := s = start
  step := Step blockno

/-! ### Playing runs -/

/-- A move of a process or of a handler, or of the device. -/
inductive Move (A B : Type) where
  | call (a : A) (b : B) (write : Bool)
  | interrupt (a : A)
  | exec (a : A)
  | take
  | mark (h : ℕ)
  | put (h : ℕ)
  | publish

/-- The state after a move, if it can be made. -/
def next [Fintype A] (blockno : B → ℕ) (s : Virtio A B) :
    Move A B → Option {s' : Virtio A B // ∃ e, Step blockno s e s'}
  | .call a b write =>
    match hidle : s.pc a with
    | .idle =>
      if hb : ∀ a', (s.pc a').buf ≠ some b then some ⟨_, _, .call write hidle hb⟩ else none
    | _ => none
  | .interrupt a =>
    match hidle : s.pc a with
    | .idle => some ⟨_, _, .interrupt hidle⟩
    | _ => none
  | .exec a =>
    match he : s.exec blockno a with
    | some _ => some ⟨_, _, .exec he⟩
    | none => none
  | .take => if h : s.lastAvail ≠ s.disk.avail.idx then some ⟨_, _, .devTake h⟩ else none
  | .mark h => if hh : h ∈ s.taken then some ⟨_, _, .devMark hh⟩ else none
  | .put h => if hh : h ∈ s.marked ∧ s.put = none then some ⟨_, _, .devPut hh.1 hh.2⟩ else none
  | .publish =>
    match hput : s.put with
    | some _ => some ⟨_, _, .devPublish hput⟩
    | none => none

end Virtio

end Cinux
