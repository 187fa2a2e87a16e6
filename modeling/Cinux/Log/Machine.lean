import Cinux.Bio.Sequential
import Cinux.Redo.Basic

/-!
# The redo log

`log.c` over the buffer cache: operations modify cached blocks and record them with `log_write`,
and the last `end_op` commits what has been recorded.  The machine `logging` has one step for each
critical section of `log.lock`, each use of a buffer and each disk write; between any two of them
the power may fail.

* `LogConf` : where the log lies on the disk, and which blocks are outside it.
* `readHead`, `writeHead` : the header block, `struct logheader` on the disk.
* `LogSys` : disk, buffer cache, `struct log`, and the operations in progress.  Three fields only
  record what happened: the calls of `log_write` of the current transaction, of every transaction
  whose header reached the disk, and all of them.
* `LogSys.Step` : what the processes and the power supply can do.
-/

namespace Cinux

/-- The device and the place of the log: `log.dev` and `log.start`. -/
structure LogConf where
  dev : ℕ
  start : ℕ
  start_lt : start < 2 ^ 32

namespace LogConf

/-- The log block for the entry `tail`: `log.start+tail+1` as a block number. -/
def block (L : LogConf) (tail : ℕ) : ℕ := (L.start + tail + 1) % 2 ^ 32

/-- The block belongs to the log. -/
def InArea (L : LogConf) (b : ℕ) : Prop := b = L.start ∨ ∃ i < LOGBLOCKS, b = L.block i

/-- A block number outside the log. -/
def Home (L : LogConf) (b : ℕ) : Prop := b < 2 ^ 32 ∧ ¬ L.InArea b

variable {L : LogConf} {i j : ℕ}

theorem block_ne_start (hi : i < LOGBLOCKS) : L.block i ≠ L.start := by
  have := L.start_lt
  simp only [block, LOGBLOCKS, MAXOPBLOCKS] at *
  omega

theorem block_inj (hi : i < LOGBLOCKS) (hj : j < LOGBLOCKS) (h : L.block i = L.block j) :
    i = j := by
  simp only [block, LOGBLOCKS, MAXOPBLOCKS] at *
  omega

theorem Home.ne_start {b : ℕ} (h : L.Home b) : b ≠ L.start := fun he => h.2 (.inl he)

theorem Home.ne_block {b : ℕ} (h : L.Home b) (hi : i < LOGBLOCKS) : b ≠ L.block i := fun he =>
  h.2 (.inr ⟨i, hi, he⟩)

end LogConf

/-! ### The header block -/

/-- The loop of `write_head`, from entry `i` on. -/
def setBlocks (i : ℕ) : List ℕ → Block → Block
  | [], d => d
  | b :: bs, d => setBlocks (i + 1) bs (d.setWord (i + 1) b)

/-- What `write_head` puts into the header block: `n`, then `block[0..n-1]`. -/
def writeHead (lh : List ℕ) (d : Block) : Block := setBlocks 0 lh (d.setWord 0 lh.length)

/-- What `read_head` takes from the header block. -/
def readHead (d : Block) : List ℕ :=
  (List.range (toInt32 (d.word 0)).toNat).map fun i => d.word (i + 1)

theorem word_setBlocks_of_le {i j : ℕ} (hj : j ≤ i) (bs : List ℕ) (d : Block)
    (hlen : i + bs.length < BSIZE / 4) : (setBlocks i bs d).word j = d.word j := by
  induction bs generalizing i d with
  | nil => rfl
  | cons b bs ih =>
    rw [List.length_cons] at hlen
    rw [setBlocks, ih (by omega) _ (by omega), Block.word_setWord_ne d (by omega) (by omega)]

theorem word_setBlocks {i k : ℕ} {bs : List ℕ} (hk : k < bs.length) (d : Block)
    (hlen : i + bs.length < BSIZE / 4) (hb : ∀ b ∈ bs, b < 2 ^ 32) :
    (setBlocks i bs d).word (i + 1 + k) = bs.get ⟨k, hk⟩ := by
  induction bs generalizing i k d with
  | nil => simp at hk
  | cons b bs ih =>
    rw [List.length_cons] at hk hlen
    obtain ⟨hb0, hb⟩ := List.forall_mem_cons.1 hb
    cases k with
    | zero =>
      rw [setBlocks, word_setBlocks_of_le (by omega) _ _ (by omega)]
      exact Block.word_setWord_self d (by omega) hb0
    | succ k =>
      rw [setBlocks, show i + 1 + (k + 1) = i + 1 + 1 + k by omega]
      exact ih (by omega) _ (by omega) hb

/-- **The header round trip.** -/
theorem readHead_writeHead {lh : List ℕ} (d : Block) (hlen : lh.length ≤ LOGBLOCKS)
    (hb : ∀ b ∈ lh, b < 2 ^ 32) : readHead (writeHead lh d) = lh := by
  simp only [LOGBLOCKS, MAXOPBLOCKS] at hlen
  have hw : lh.length + 0 < BSIZE / 4 := by simp only [BSIZE]; omega
  have hn : (writeHead lh d).word 0 = lh.length := by
    rw [writeHead, word_setBlocks_of_le le_rfl _ _ (by omega)]
    exact Block.word_setWord_self d (by decide) (by omega)
  unfold readHead
  rw [hn, toInt32_of_fits (by omega), Int.toNat_natCast]
  refine List.ext_getElem (by simp) fun k h1 h2 => ?_
  have := word_setBlocks (i := 0) h2 (d.setWord 0 lh.length) (by omega) hb
  simpa [writeHead, Nat.add_comm] using this

theorem readHead_writeHead_nil (d : Block) : readHead (writeHead [] d) = [] :=
  readHead_writeHead d (by simp) (by simp)

/-! ### The system -/

/-- One call of `log_write`: the operation, the block and its contents. -/
structure Entry where
  op : ℕ
  blockno : ℕ
  data : Block

/-- The entries as writes to the disk. -/
def writes (es : List Entry) : List (ℕ × Block) := es.map fun e => (e.blockno, e.data)

/-- Where the log stands. -/
inductive LogPhase where
  /-- The power has come back; `read_head` has not run. -/
  | down
  /-- In `recover_from_log`, process `p` has copied `tail` blocks home. -/
  | recovering (p tail : ℕ)
  /-- `committing` is clear. -/
  | idle
  /-- In `commit`, process `p` has written `tail` blocks to the log. -/
  | logging (p tail : ℕ)
  /-- In `commit`, the header is written and `tail` blocks are copied home. -/
  | installing (p tail : ℕ)
  /-- `commit` is done, `committing` is still set. -/
  | finishing (p : ℕ)
  deriving DecidableEq

/-- Disk, buffer cache and `struct log`. -/
structure LogSys where
  disk : ℕ → Block
  sh : Sharing
  /-- `log.lh.block[0..n-1]`. -/
  lh : List ℕ
  outstanding : ℕ
  phase : LogPhase
  /-- The operations between `begin_op` and `end_op`, with their processes. -/
  ops : List (ℕ × ℕ)
  /-- The process that has modified a buffer since the last `log_write` of it. -/
  dirty : Fin NBUF → Option ℕ
  nextOp : ℕ
  /-- The initial contents of the disk. -/
  base : ℕ → Block
  /-- The calls of `log_write` since the last commit, -/
  cur : List Entry
  /-- those of every transaction whose header write reached the disk, -/
  history : List (List Entry)
  /-- and all of them. -/
  written : List Entry

/-- What can happen. -/
inductive LogAct where
  | bio (a : BioAct)
  | modify (p : ℕ) (i : Fin NBUF) (d : Block)
  | logWrite (p : ℕ) (i : Fin NBUF)
  | beginOp (p : ℕ)
  | endOp (p : ℕ)
  /-- A round of `write_log`. -/
  | writeLog (p : ℕ)
  /-- The first `write_head` of `commit`. -/
  | commit (p : ℕ)
  /-- A round of `install_trans`. -/
  | install (p : ℕ)
  /-- The second `write_head` of `commit`. -/
  | erase (p : ℕ)
  | finish (p : ℕ)
  /-- All memory is lost. -/
  | crash
  | readHead (p : ℕ)
  /-- The `write_head` of `recover_from_log`, which completes it. -/
  | recovered (p : ℕ)

/-- The acts of processes on buffers.  Pins are left to `log_write` and `install_trans`, and a
buffer is filled from the disk. -/
def BioAct.Allowed (L : LogConf) (s : LogSys) : BioAct → Prop
  | .bget _ dev blockno => dev = L.dev ∧ blockno < 2 ^ 32
  | .acquiresleep _ _ => True
  | .fill _ i d => d = s.disk (s.sh.cache.buf i).blockno
  -- a modified block is recorded before it is released
  | .releasesleep _ i => s.dirty i = none
  | .brelse _ _ => True
  | .bpin _ _ => False
  | .bunpin _ => False

namespace LogSys

/-- Process `p` has read block `b` into buffer `i` and holds it. -/
structure Has (L : LogConf) (s : LogSys) (p : ℕ) (i : Fin NBUF) (b : ℕ) : Prop where
  holding : ⟨p, i, .holding⟩ ∈ s.sh.uses
  valid : (s.sh.cache.buf i).valid = true
  tag : (s.sh.cache.buf i).tag = (L.dev, b)

/-- The contents of a buffer. -/
def data (s : LogSys) (i : Fin NBUF) : Block := (s.sh.cache.buf i).data

/-- `memmove` into a buffer. -/
def setData (s : LogSys) (i : Fin NBUF) (d : Block) : LogSys :=
  { s with
    sh := { s.sh with cache := s.sh.cache.modify i fun x => { x with data := d } } }

/-- `bwrite` of block `b` with contents `d`. -/
def write (s : LogSys) (b : ℕ) (d : Block) : LogSys :=
  { s with disk := Function.update s.disk b d }

/-- `log_write` of buffer `i` by operation `op` under `log.lock`, with `sh` the cache after
`bpin`. -/
def record (s : LogSys) (op : ℕ) (i : Fin NBUF) (sh : Sharing) : LogSys :=
  { s with
    -- log absorption: a block that is already in the log is not added and not pinned again
    lh := if (s.sh.cache.buf i).blockno ∈ s.lh then s.lh else s.lh ++ [(s.sh.cache.buf i).blockno]
    sh := if (s.sh.cache.buf i).blockno ∈ s.lh then s.sh else sh
    dirty := Function.update s.dirty i none
    cur := s.cur ++ [⟨op, (s.sh.cache.buf i).blockno, s.data i⟩]
    written := s.written ++ [⟨op, (s.sh.cache.buf i).blockno, s.data i⟩] }

/-- Memory is lost; the disk and what is remembered of the past stay. -/
def powerFail (s : LogSys) : LogSys :=
  { s with
    sh := Sharing.boot, lh := [], outstanding := 0, phase := .down, ops := []
    dirty := fun _ => none, cur := [] }

/-- The steps. -/
inductive Step (L : LogConf) : LogSys → LogAct → LogSys → Prop
  | bio {s a sh} : Sharing.Step s.sh a sh → s.sh.Turn a → a.Allowed L s →
      Step L s (.bio a) { s with sh := sh }
  | modify {s p op i b d} : (p, op) ∈ s.ops → s.Has L p i b → L.Home b →
      Step L s (.modify p i d)
        { s.setData i d with dirty := Function.update s.dirty i (some p) }
  | logWrite {s p op i b sh} : (p, op) ∈ s.ops → s.Has L p i b → L.Home b →
      s.lh.length < LOGBLOCKS → 1 ≤ s.outstanding → Sharing.Step s.sh (.bpin p i) sh →
      Step L s (.logWrite p i) (s.record op i sh)
  | beginOp {s p} : s.phase = .idle → (∀ op, (p, op) ∉ s.ops) →
      s.lh.length + (s.outstanding + 1) * MAXOPBLOCKS ≤ LOGBLOCKS →
      Step L s (.beginOp p)
        { s with
          outstanding := s.outstanding + 1
          ops := (p, s.nextOp) :: s.ops
          nextOp := s.nextOp + 1 }
  -- what an operation has modified, it has recorded before it ends
  | endOp {s p op} : (p, op) ∈ s.ops → (∀ i, s.dirty i ≠ some p) →
      Step L s (.endOp p)
        { s with
          outstanding := s.outstanding - 1
          ops := s.ops.erase (p, op)
          phase := if s.outstanding - 1 = 0 then
              if s.lh.length > 0 then .logging p 0 else .finishing p
            else s.phase }
  | writeLog {s p tail b i j} : s.phase = .logging p tail → s.lh[tail]? = some b →
      s.Has L p i (L.block tail) → s.Has L p j b →
      Step L s (.writeLog p)
        { (s.setData i (s.data j)).write (L.block tail) (s.data j) with
          phase := .logging p (tail + 1) }
  | commit {s p i} : s.phase = .logging p s.lh.length → s.Has L p i L.start →
      Step L s (.commit p)
        { (s.setData i (writeHead s.lh (s.data i))).write L.start (writeHead s.lh (s.data i)) with
          phase := .installing p 0
          history := s.history ++ [s.cur]
          cur := [] }
  | install {s p tail b i j sh} : s.phase = .installing p tail → s.lh[tail]? = some b →
      s.Has L p i (L.block tail) → s.Has L p j b →
      Sharing.Step (s.setData j (s.data i)).sh (.bunpin j) sh →
      Step L s (.install p)
        { s.write b (s.data i) with sh := sh, phase := .installing p (tail + 1) }
  | erase {s p i} : s.phase = .installing p s.lh.length → s.Has L p i L.start →
      Step L s (.erase p)
        { (s.setData i (writeHead [] (s.data i))).write L.start (writeHead [] (s.data i)) with
          phase := .finishing p
          lh := [] }
  | finish {s p} : s.phase = .finishing p → Step L s (.finish p) { s with phase := .idle }
  | crash {s} : Step L s .crash s.powerFail
  | readHead {s p i} : s.phase = .down → s.Has L p i L.start →
      Step L s (.readHead p)
        { s with phase := .recovering p 0, lh := Cinux.readHead (s.data i) }
  | reinstall {s p tail b i j} : s.phase = .recovering p tail → s.lh[tail]? = some b →
      s.Has L p i (L.block tail) → s.Has L p j b →
      Step L s (.install p)
        { (s.setData j (s.data i)).write b (s.data i) with phase := .recovering p (tail + 1) }
  | recovered {s p i} : s.phase = .recovering p s.lh.length → s.Has L p i L.start →
      Step L s (.recovered p)
        { (s.setData i (writeHead [] (s.data i))).write L.start (writeHead [] (s.data i)) with
          phase := .idle
          lh := [] }

/-- Any disk with an empty header, before the first recovery. -/
def Init (L : LogConf) (s : LogSys) : Prop :=
  s = s.powerFail ∧ readHead (s.disk L.start) = [] ∧ s.base = s.disk ∧ s.history = [] ∧
    s.written = [] ∧ s.nextOp = 0

/-- The redo log. -/
def logging (L : LogConf) : Machine LogSys LogAct where
  init := Init L
  step := Step L

/-! ### Playing runs -/

instance Has.decidable (L : LogConf) (s : LogSys) (p : ℕ) (i : Fin NBUF) (b : ℕ) :
    Decidable (s.Has L p i b) :=
  decidable_of_iff (⟨p, i, .holding⟩ ∈ s.sh.uses ∧ (s.sh.cache.buf i).valid = true ∧
    (s.sh.cache.buf i).tag = (L.dev, b)) ⟨fun h => ⟨h.1, h.2.1, h.2.2⟩, fun h => ⟨h.1, h.2, h.3⟩⟩

instance decidableHome (L : LogConf) (b : ℕ) : Decidable (L.Home b) := by
  unfold LogConf.Home LogConf.InArea
  infer_instance

instance decidableIdle (s : Sharing) (p : ℕ) : Decidable (s.Idle p) := by
  unfold Sharing.Idle
  infer_instance

/-- A move of process 0 with its buffers, in operation 0. -/
inductive Move where
  | bget (b : ℕ)
  | acquiresleep (i : Fin NBUF)
  | fill (i : Fin NBUF)
  | releasesleep (i : Fin NBUF)
  | brelse (i : Fin NBUF)
  | modify (i : Fin NBUF) (b : ℕ) (d : Block)
  | logWrite (i : Fin NBUF) (b : ℕ)
  | beginOp
  | endOp
  | writeLog (i j : Fin NBUF) (tail b : ℕ)
  | commit (i : Fin NBUF)
  | crash
  | readHead (i : Fin NBUF)
  | reinstall (i j : Fin NBUF) (tail b : ℕ)
  | recovered (i : Fin NBUF)

/-- The state after a move, if it can be made. -/
def next (L : LogConf) (s : LogSys) : Move → Option {s' : LogSys // ∃ a, Step L s a s'}
  | .bget b =>
    match hg : s.sh.cache.bget L.dev b with
    | some _ =>
      if h : s.sh.Idle 0 ∧ b < 2 ^ 32 then
        some ⟨_, _, .bio (.bget hg) ⟨by decide, h.1⟩ ⟨rfl, h.2⟩⟩
      else none
    | none => none
  | .acquiresleep i =>
    if h : ⟨0, i, .waiting⟩ ∈ s.sh.uses ∧ (s.sh.cache.buf i).lock = none then
      some ⟨_, _, .bio (.acquiresleep h.1 h.2) trivial trivial⟩
    else none
  | .fill i =>
    if h : ⟨0, i, .holding⟩ ∈ s.sh.uses ∧ (s.sh.cache.buf i).valid = false then
      some ⟨_, _, .bio (.fill h.1 h.2) trivial rfl⟩
    else none
  | .releasesleep i =>
    if h : (⟨0, i, .holding⟩ ∈ s.sh.uses ∧ (s.sh.cache.buf i).lock = some 0) ∧
        s.sh.Idle 0 ∧ s.dirty i = none then
      some ⟨_, _, .bio (.releasesleep h.1.1 h.1.2) h.2.1 h.2.2⟩
    else none
  | .brelse i =>
    if h : ⟨0, i, .releasing⟩ ∈ s.sh.uses then some ⟨_, _, .bio (.brelse h) trivial trivial⟩
    else none
  | .modify i b d =>
    if h : (0, 0) ∈ s.ops ∧ s.Has L 0 i b ∧ L.Home b then
      some ⟨_, .modify 0 i d, .modify h.1 h.2.1 h.2.2⟩
    else none
  | .logWrite i b =>
    if h : ((0, 0) ∈ s.ops ∧ s.Has L 0 i b ∧ L.Home b) ∧ s.lh.length < LOGBLOCKS ∧
        1 ≤ s.outstanding then
      some ⟨_, _, .logWrite h.1.1 h.1.2.1 h.1.2.2 h.2.1 h.2.2 (.bpin h.1.2.1.holding)⟩
    else none
  | .beginOp =>
    if h : s.phase = .idle ∧ (∀ x ∈ s.ops, x.1 ≠ 0) ∧
        s.lh.length + (s.outstanding + 1) * MAXOPBLOCKS ≤ LOGBLOCKS then
      some ⟨_, _, .beginOp h.1 (fun _ hop => h.2.1 _ hop rfl) h.2.2⟩
    else none
  | .endOp =>
    if h : (0, 0) ∈ s.ops ∧ ∀ i, s.dirty i ≠ some 0 then some ⟨_, _, .endOp h.1 h.2⟩ else none
  | .writeLog i j tail b =>
    if h : (s.phase = .logging 0 tail ∧ s.lh[tail]? = some b) ∧ s.Has L 0 i (L.block tail) ∧
        s.Has L 0 j b then
      some ⟨_, _, .writeLog h.1.1 h.1.2 h.2.1 h.2.2⟩
    else none
  | .commit i =>
    if h : s.phase = .logging 0 s.lh.length ∧ s.Has L 0 i L.start then
      some ⟨_, _, .commit h.1 h.2⟩
    else none
  | .crash => some ⟨_, _, .crash⟩
  | .readHead i =>
    if h : s.phase = .down ∧ s.Has L 0 i L.start then some ⟨_, _, .readHead h.1 h.2⟩ else none
  | .reinstall i j tail b =>
    if h : (s.phase = .recovering 0 tail ∧ s.lh[tail]? = some b) ∧ s.Has L 0 i (L.block tail) ∧
        s.Has L 0 j b then
      some ⟨_, _, .reinstall h.1.1 h.1.2 h.2.1 h.2.2⟩
    else none
  | .recovered i =>
    if h : s.phase = .recovering 0 s.lh.length ∧ s.Has L 0 i L.start then
      some ⟨_, _, .recovered h.1 h.2⟩
    else none

end LogSys

end Cinux
