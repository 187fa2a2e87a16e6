import Cinux.Ext2.Coherence

/-!
# Write-through of the ext2 driver

The driver as a machine: its state is the buffer cache with the disk, and the inodes in memory; a
step is a stretch of code after which the process holds no buffer.  `ext2fs_readi`,
`ext2fs_writei` and `ext2fs_dirlink` are sequences of such steps (`DriverRuns`), with steps of other
processes in between.

`ext2fs_bmap` and `ext2fs_itrunc` change pointer blocks in their buffers and release them without
`bwrite`; so does `ext2fs_writei` when `either_copyin` fails in the middle of a block.  The steps
that do none of this (`DriverAct.Ok`) leave every valid buffer equal to its disk block.
-/

namespace Cinux

open Program

open Io

/-- The state of the driver: `inode i` is entry `i` of the inode table. -/
structure Driver where
  io : Io
  inode : ℕ → InCore

/-- Steps of the driver. -/
inductive DriverAct where
  /-- Some process reads a block in and releases it. -/
  | access (bno : ℕ)
  /-- The memory around the buffers changes. -/
  | outside (o : ℕ → ℤ → UInt8)
  /-- An inode changes in memory: it is read in, or a field is set. -/
  | inode (i : ℕ) (ip : InCore)
  | balloc (inum : ℕ)
  | bfree (a : ℕ)
  | ifree (i : ℕ)
  | bmap (i bn : ℕ)
  | itrunc (i : ℕ)
  | iupdate (i : ℕ)
  | readRound (i off m : ℕ)
  | writeRound (i off m c : ℕ) (src : ℕ → UInt8)

namespace Driver

/-- The state after a step on inode `i`. -/
def set (s : Driver) (i : ℕ) (io : Io) (ip : InCore) : Driver :=
  ⟨io, Function.update s.inode i ip⟩

/-- The steps of the code. -/
inductive Performs (sb : Super) (s : Driver) : DriverAct → Driver → Prop
  | access {bno : ℕ} {io : Io} :
      (do let bp ← bread bno; brelse bp : IoM Unit) s.io = .ok ((), io) →
      Performs sb s (.access bno) { s with io := io }
  | balloc {inum a : ℕ} {io : Io} : ext2fsBalloc sb inum s.io = .ok (a, io) →
      Performs sb s (.balloc inum) { s with io := io }
  | bfree {a : ℕ} {io : Io} : ext2fsBfree sb a s.io = .ok ((), io) →
      Performs sb s (.bfree a) { s with io := io }
  | ifree {i : ℕ} {io : Io} : ext2fsIfree sb (s.inode i) s.io = .ok ((), io) →
      Performs sb s (.ifree i) { s with io := io }
  | bmap {i bn a : ℕ} {ip : InCore} {io : Io} :
      ext2fsBmap sb (s.inode i) bn s.io = .ok ((a, ip), io) →
      Performs sb s (.bmap i bn) (s.set i io ip)
  | itrunc {i : ℕ} {ip : InCore} {io : Io} : ext2fsItrunc sb (s.inode i) s.io = .ok (ip, io) →
      Performs sb s (.itrunc i) (s.set i io ip)
  | iupdate {i : ℕ} {io : Io} : ext2fsIupdate sb (s.inode i) s.io = .ok ((), io) →
      Performs sb s (.iupdate i) { s with io := io }
  | readRound {i off m : ℕ} {bytes : Bytes} {ip : InCore} {io : Io} :
      Io.readRound sb (s.inode i) off m s.io = .ok ((bytes, ip), io) →
      Performs sb s (.readRound i off m) (s.set i io ip)
  | writeRound {i off m c : ℕ} {src : ℕ → UInt8} {ip : InCore} {io : Io} :
      Io.writeRound sb (s.inode i) off m c src s.io = .ok (ip, io) →
      Performs sb s (.writeRound i off m c src) (s.set i io ip)

/-- The steps of the machine. -/
inductive Step (sb : Super) (s : Driver) : DriverAct → Driver → Prop
  | outside {o : ℕ → ℤ → UInt8} : Step sb s (.outside o) { s with io := { s.io with outside := o } }
  | inode {i : ℕ} {ip : InCore} : Step sb s (.inode i ip) (s.set i s.io ip)
  | performs {a : DriverAct} {s' : Driver} : Performs sb s a s' → Step sb s a s'
  /-- A store outside the data of its buffer may damage anything. -/
  | stray {a : DriverAct} {s₁ s' : Driver} : Performs sb s a s₁ → s₁.io.outside ≠ s.io.outside →
      Step sb s a s'

/-- The driver with the superblock `sb`, from boot on. -/
def machine (sb : Super) : Machine Driver DriverAct where
  init s := s.io.cache = Bcache.binit
  step := Step sb

end Driver

/-- The steps that write through.  `ext2fs_bmap` allocates nothing below `addrs`; `ext2fs_itrunc`
finds no pointers to clear; a copy from user memory does not fail in the middle of a block; and no
bit outside a bitmap is changed. -/
def DriverAct.Ok (sb : Super) (s : Driver) : DriverAct → Prop
  | .balloc inum => s.io.BallocInside sb inum
  | .bfree a => s.io.BfreeInside sb a
  | .ifree i => IfreeInside sb (s.inode i)
  | .bmap i bn => s.io.BmapOk sb (s.inode i) bn
  | .itrunc i => s.io.ItruncOk sb (s.inode i)
  | .readRound i off _ => s.io.BmapOk sb (s.inode i) (off / BSIZE)
  | .writeRound i off m c _ => s.io.BmapOk sb (s.inode i) (off / BSIZE) ∧ (m ≤ c ∨ c = 0)
  | _ => True

namespace Driver

variable {sb : Super} {s s' : Driver} {a : DriverAct} {i : ℕ} {ip : InCore}

/-- The runs all of whose steps write through. -/
def writesThrough (sb : Super) : Machine Driver DriverAct :=
  (machine sb).restrict fun s a _ => a.Ok sb s

/-! ### The invariant -/

/-- **A step that writes through leaves all buffers released and clean**, and stays inside them. -/
theorem Performs.released (h : s.io.Coherent [] ∅) (hok : a.Ok sb s)
    (hst : Performs sb s a s') : s.io.Released s'.io := by
  have hrel : s.io.Released s.io := ⟨h, rfl⟩
  cases hst with
  | access hr =>
    obtain ⟨bp, s₁, h1, hr⟩ := bind_eq_ok.1 hr
    obtain ⟨hc, -, ho⟩ := triple_brelse s.io [] bp s₁
      (triple_bread s.io [] _ s.io ⟨h, rfl, rfl⟩ bp s₁ h1).1 () _ hr
    exact ⟨hc, ho⟩
  | balloc hr =>
    obtain ⟨hc, ho⟩ := h.balloc hr
    exact ⟨hc, ho hok⟩
  | bfree hr =>
    obtain ⟨hc, ho, -⟩ := h.bfree_ok hok hr
    exact ⟨hc, ho⟩
  | ifree hr => exact triple_released (fun _ => triple_ifree hok) _ hrel _ _ hr
  | bmap hr => exact h.bmap_ok hok hr
  | itrunc hr => exact triple_itrunc hok s.io ⟨h, rfl, rfl, fun _ hn => hn⟩ _ _ hr
  | iupdate hr => exact triple_released (fun _ => triple_iupdate) _ hrel _ _ hr
  | readRound hr => exact h.readRound_ok hok hr
  | writeRound hr => exact h.writeRound_ok hok.1 hok.2 hr

theorem step_coherent (h : s.io.Coherent [] ∅) (hst : (writesThrough sb).step s a s') :
    s'.io.Coherent [] ∅ := by
  obtain ⟨hok, hst⟩ := hst
  cases hst with
  | outside => exact h.with_outside _
  | inode => exact h
  | performs hp => exact (hp.released h hok).1
  | stray hp hne => exact absurd (hp.released h hok).2 hne

theorem coherent_of_reachable (h : (writesThrough sb).Reachable s) : s.io.Coherent [] ∅ := by
  refine h.invariant (fun s hs => ?_) fun s a s' hc hst => step_coherent hc hst
  have hio : s.io = ⟨Bcache.binit, s.io.disk, s.io.outside⟩ := by
    rw [← show s.io.cache = Bcache.binit from hs]
  rw [hio]
  exact coherent_binit _ _

/-! ### Operations that take several steps -/

@[simp] theorem set_inode_self (s : Driver) (i : ℕ) (io : Io) (ip : InCore) :
    (s.set i io ip).inode i = ip := Function.update_self _ _ _

@[simp] theorem set_io (s : Driver) (i : ℕ) (io : Io) (ip : InCore) : (s.set i io ip).io = io := rfl

@[simp] theorem set_set (s : Driver) (i : ℕ) (io io' : Io) (ip ip' : InCore) :
    (s.set i io ip).set i io' ip' = s.set i io' ip' := by
  simp [set]

theorem set_inode (s : Driver) (i : ℕ) (io : Io) : s.set i io
    (s.inode i) = { s with io := io } := by
  simp [set]

/-- The code `m` on inode `i`, which holds `ip` before and `out r` after it, is a sequence of
steps. -/
def Runs (sb : Super) (i : ℕ) (ip : InCore) {α : Type} (m : IoM α) (out : α → InCore) : Prop :=
  ∀ s : Driver, s.inode i = ip → ∀ r io, m s.io = .ok (r, io) →
    ∃ acts, (machine sb).Path s acts (s.set i io (out r))

namespace Runs

variable {α β : Type} {m : IoM α} {f : α → IoM β} {out : α → InCore} {out' : β → InCore}

theorem pure {r : α} (h : out r = ip) : Runs sb i ip (Pure.pure r) out := by
  intro s hs r' io hr
  cases hr
  refine ⟨[], ?_⟩
  rw [h, ← hs, set_inode]
  exact .nil

theorem bind (hm : Runs sb i ip m out) (hf : ∀ r, Runs sb i (out r) (f r) out') :
    Runs sb i ip (m >>= f) out' := by
  intro s hs r io hr
  obtain ⟨r1, io1, h1, h2⟩ := bind_eq_ok.1 hr
  obtain ⟨acts, hp⟩ := hm s hs r1 io1 h1
  obtain ⟨acts', hp'⟩ := hf r1 (s.set i io1 (out r1)) (by simp) r io h2
  rw [set_set] at hp'
  exact ⟨acts ++ acts', hp.append hp'⟩

theorem inode {ip' : InCore} (hm : Runs sb i ip' m out) : Runs sb i ip m out := by
  intro s hs r io hr
  obtain ⟨acts, hp⟩ := hm (s.set i s.io ip') (by simp) r io hr
  rw [set_set] at hp
  exact ⟨.inode i ip' :: acts, .cons .inode hp⟩

theorem stop {e : Stop} : Runs sb i ip (throw e : IoM α) out := by
  intro s hs r io hr
  cases hr

theorem iupdate : Runs sb i ip (ext2fsIupdate sb ip) fun _ => ip := by
  intro s hs r io hr
  rw [← hs] at hr ⊢
  rw [set_inode]
  exact ⟨_, .single (.performs (.iupdate hr))⟩

theorem ifree : Runs sb i ip (ext2fsIfree sb ip) fun _ => ip := by
  intro s hs r io hr
  rw [← hs] at hr ⊢
  rw [set_inode]
  exact ⟨_, .single (.performs (.ifree hr))⟩

theorem itrunc : Runs sb i ip (ext2fsItrunc sb ip) id := by
  intro s hs r io hr
  rw [← hs] at hr
  exact ⟨_, .single (.performs (.itrunc hr))⟩

theorem readRound {off m : ℕ} : Runs sb i ip (Io.readRound sb ip off m) Prod.snd := by
  intro s hs r io hr
  rw [← hs] at hr
  exact ⟨_, .single (.performs (.readRound hr))⟩

theorem writeRound {off m c : ℕ} {src : ℕ → UInt8} :
    Runs sb i ip (Io.writeRound sb ip off m c src) id := by
  intro s hs r io hr
  rw [← hs] at hr
  exact ⟨_, .single (.performs (.writeRound hr))⟩

theorem readLoop (fuel : ℕ) (ip : InCore) (off n room : ℕ) :
    Runs sb i ip (Io.readLoop sb fuel ip off n room) Prod.snd := by
  induction fuel generalizing ip off n room with
  | zero => exact .pure rfl
  | succ fuel ih =>
    unfold Io.readLoop
    split_ifs
    · exact .pure rfl
    · refine .bind .readRound fun r => ?_
      split_ifs
      · exact .pure rfl
      · exact .bind (ih _ _ _ _) fun r' => .pure rfl

theorem readi (ip : InCore) (off n room : ℕ) :
    Runs sb i ip (ext2fsReadi sb ip off n room) fun r => r.2.2 := by
  unfold ext2fsReadi
  by_cases hoff : ip.size < off ∨ (off + n) % 2 ^ 32 < off
  · rw [if_pos hoff]
    exact .pure rfl
  · rw [if_neg hoff]
    refine .bind (readLoop _ _ _ _ _) fun r => ?_
    obtain ⟨_ | bytes, ip'⟩ := r
    · exact .pure rfl
    · exact .pure rfl

theorem writeLoop (fuel : ℕ) (ip : InCore) (off n avail : ℕ) (src : ℕ → UInt8) :
    Runs sb i ip (Io.writeLoop sb fuel ip off n avail src) Prod.snd := by
  induction fuel generalizing ip off n avail src with
  | zero => exact .pure rfl
  | succ fuel ih =>
    unfold Io.writeLoop
    split_ifs
    · exact .pure rfl
    · refine .bind .writeRound fun r => ?_
      split_ifs
      · exact .pure rfl
      · exact ih _ _ _ _ _

theorem writei (ip : InCore) (off n avail : ℕ) (src : ℕ → UInt8) :
    Runs sb i ip (ext2fsWritei sb ip off n avail src) Prod.snd := by
  unfold ext2fsWritei
  split_ifs
  · exact .pure rfl
  · exact .pure rfl
  · refine .bind (writeLoop _ _ _ _ _ _) fun ⟨_, _⟩ => ?_
    dsimp only
    split_ifs
    · exact .inode (.bind .iupdate fun _ => .pure rfl)
    · exact .pure rfl

theorem lookupLoop (name : Bytes) (fuel : ℕ) (dp : InCore) (off : ℕ) :
    Runs sb i dp (Io.lookupLoop sb name fuel dp off) Prod.snd := by
  induction fuel generalizing dp off with
  | zero => exact .stop
  | succ fuel ih =>
    unfold Io.lookupLoop
    split_ifs
    · refine .bind (readi _ _ _ _) fun ⟨_, _, _⟩ => ?_
      dsimp only
      split_ifs
      · exact .stop
      · exact .pure rfl
      · exact ih _ _
    · exact .pure rfl

theorem slotLoop (fuel : ℕ) (dp : InCore) (off : ℕ) :
    Runs sb i dp (Io.slotLoop sb fuel dp off) Prod.snd := by
  induction fuel generalizing dp off with
  | zero => exact .stop
  | succ fuel ih =>
    unfold Io.slotLoop
    split_ifs
    · refine .bind (readi _ _ _ _) fun ⟨_, _, _⟩ => ?_
      dsimp only
      split_ifs
      · exact .stop
      · exact .pure rfl
      · exact ih _ _
    · exact .pure rfl

theorem linkAbsent (fuel : ℕ) (dp : InCore) (name : Bytes) (inum : ℕ) (stack : ℕ → UInt8) :
    Runs sb i dp (Io.linkAbsent sb fuel dp name inum stack) Prod.snd := by
  refine .bind (slotLoop _ _ _) fun r => ?_
  exact .inode (.bind .iupdate fun _ => .bind (writei _ _ _ _ _) fun _ => .pure rfl)

theorem iput (ip : InCore) : Runs sb i ip (ext2fsIput sb ip) id := by
  unfold ext2fsIput
  split_ifs
  · refine .bind .ifree fun _ => .bind .itrunc fun r => .inode (.bind .iupdate fun _ => ?_)
    exact .inode (.pure rfl)
  · exact .inode (.pure rfl)

end Runs

/-- `ext2fs_dirlink` on the directory in entry `i` of the inode table; `slot` says in which entry
`iget` finds an inode.  The lock of the directory is held. -/
def dirlink (s : Driver) (sb : Super) (fuel i : ℕ) (name : Bytes) (inum : ℕ)
    (stack : ℕ → UInt8) (slot : ℕ → ℕ) : Except Stop (ℤ × Driver) :=
  match Io.lookupLoop sb name fuel (s.inode i) 0 s.io with
  | .error e => .error e
  | .ok ((none, dp), io) =>
    match Io.linkAbsent sb fuel dp name inum stack io with
    | .error e => .error e
    | .ok ((r, dp), io) => .ok (r, s.set i io dp)
  | .ok ((some (n, _), dp), io) =>
    if slot n = i then .error .deadlock
    else
      let ip := s.inode (slot n)
      match ext2fsIput sb { ip with ref := ip.ref + 1 } io with
      | .error e => .error e
      | .ok (ip, io) => .ok (-1, (s.set i io dp).set (slot n) io ip)

theorem dirlink_path {fuel inum : ℕ} {name : Bytes} {stack : ℕ → UInt8} {slot : ℕ → ℕ} {r : ℤ}
    (h : s.dirlink sb fuel i name inum stack slot = .ok (r, s')) :
    ∃ acts, (machine sb).Path s acts s' := by
  unfold dirlink at h
  cases hlook : Io.lookupLoop sb name fuel (s.inode i) 0 s.io with
  | error e =>
    rw [hlook] at h
    cases h
  | ok x =>
    obtain ⟨⟨found, dp⟩, io⟩ := x
    obtain ⟨acts, hp⟩ := Runs.lookupLoop name fuel _ 0 s rfl _ _ hlook
    rw [hlook] at h
    cases found with
    | none =>
      dsimp only at h
      cases hlink : Io.linkAbsent sb fuel dp name inum stack io with
      | error e =>
        rw [hlink] at h
        cases h
      | ok y =>
        obtain ⟨⟨r', dp'⟩, io'⟩ := y
        rw [hlink] at h
        cases h
        obtain ⟨acts', hp'⟩ := Runs.linkAbsent fuel dp name inum stack (s.set i io dp)
          (set_inode_self s i io dp) _ _ hlink
        rw [set_set] at hp'
        exact ⟨acts ++ acts', hp.append hp'⟩
    | some f =>
      dsimp only at h
      split_ifs at h with hslot
      cases hput : ext2fsIput sb { s.inode (slot f.1) with ref := (s.inode (slot f.1)).ref + 1 }
          io with
      | error e =>
        rw [hput] at h
        cases h
      | ok y =>
        obtain ⟨ip', io'⟩ := y
        rw [hput] at h
        cases h
        obtain ⟨acts', hp'⟩ := (Runs.iput _).inode (s.set i io dp) rfl _ _ hput
        exact ⟨acts ++ acts', hp.append hp'⟩

/-! ### The block map -/

/-- Inode `i` has kept the pointers that lead to its block `bn`. -/
def KeepsPointers (s s' : Driver) (i bn : ℕ) : Prop :=
  (s'.inode i).addrs (pointers bn).1 = (s.inode i).addrs (pointers bn).1 ∧
    ∀ n ∈ chain s.io.disk ((s.inode i).addrs (pointers bn).1) (pointers bn).2,
      s'.io.disk n = s.io.disk n

theorem mapped_congr {d d' : ℕ → Block} {n : ℕ} {ks : List ℕ}
    (h : ∀ m ∈ chain d n ks, d' m = d m) (hm : Mapped d n ks) :
    Mapped d' n ks ∧ follow d' n ks = follow d n ks := by
  induction ks generalizing n with
  | nil => exact ⟨trivial, rfl⟩
  | cons k ks ih =>
    obtain ⟨hk, hne, hm⟩ := hm
    have hn : d' n = d n := h n (by simp [chain])
    unfold Mapped follow
    rw [hn]
    obtain ⟨hm', hf⟩ := ih (fun m hmem => h m (by simp [chain, hmem])) hm
    exact ⟨⟨hk, hne, hm'⟩, hf⟩

theorem bmap_direct {bn a : ℕ} {ip ip' : InCore} {io io' : Io} (hbn : bn < EXT2_NDIR_BLOCKS)
    (hr : ext2fsBmap sb ip bn io = .ok ((a, ip'), io')) :
    ip'.addrs bn = a ∧ (ip.addrs bn ≠ 0 → ip.addrs bn = a) := by
  unfold ext2fsBmap at hr
  unfold mapAddr at hr
  split_ifs at hr with hzero
  · obtain ⟨a', io1, -, hr⟩ := bind_eq_ok.1 hr
    obtain ⟨hr, -⟩ := pure_eq_ok.1 hr
    cases hr
    exact ⟨by simp [InCore.setAddr], fun hne => absurd hzero hne⟩
  · obtain ⟨hr, -⟩ := pure_eq_ok.1 hr
    cases hr
    exact ⟨rfl, fun _ => rfl⟩

/-- **As long as the pointers are kept, `ext2fs_bmap` returns the same block.** -/
theorem bmap_again {bn a a' : ℕ} {ip' : InCore} {io io' : Io} (h : s.io.Coherent [] ∅)
    (h' : s'.io.Coherent [] ∅) (hok : s.io.BmapOk sb (s.inode i) bn)
    (hr : ext2fsBmap sb (s.inode i) bn s.io = .ok ((a, ip), io)) (ha : a ≠ 0)
    (hkeep : (s.set i io ip).KeepsPointers s' i bn)
    (hr' : ext2fsBmap sb (s'.inode i) bn s'.io = .ok ((a', ip'), io')) : a' = a := by
  obtain ⟨haddr, hchain⟩ := hkeep
  rw [set_inode_self] at haddr hchain
  unfold BmapOk at hok
  split_ifs at hok with hbn
  · have htop : (pointers bn).1 = bn := by
      unfold pointers
      rw [if_pos hbn]
    rw [htop, (bmap_direct hbn hr).1] at haddr
    rw [← (bmap_direct hbn hr').2 (haddr ▸ ha), haddr]
  · obtain ⟨he, -, hd, -⟩ := triple_bmap (by omega) hok.1 hok.2 s.io ⟨h, rfl, rfl⟩ _ _ hr
    cases he
    rw [set_io, hd] at hchain
    obtain ⟨hm, hf⟩ := mapped_congr hchain hok.2
    have htop : (s'.inode i).addrs (pointers bn).1 ≠ 0 := haddr ▸ hok.1
    rw [← haddr] at hm hf
    obtain ⟨he', -⟩ := triple_bmap (by omega) htop hm s'.io ⟨h', rfl, rfl⟩ _ _ hr'
    rw [(Prod.mk.inj he').1, hf, haddr]

theorem access_keeps {acts : List DriverAct} (h : (writesThrough sb).Reachable s)
    (hp : (writesThrough sb).Path s acts s') (hacts : ∀ a ∈ acts, ∃ n, a = .access n) :
    (writesThrough sb).Reachable s' ∧ s'.io.disk = s.io.disk ∧ s'.inode = s.inode := by
  refine hp.invariant (I := fun t => (writesThrough sb).Reachable t ∧ t.io.disk = s.io.disk ∧
    t.inode = s.inode) (fun t a t' ha ht hst => ?_) ⟨h, rfl, rfl⟩
  obtain ⟨hreach, hd, hi⟩ := ht
  refine ⟨hreach.next hst, ?_⟩
  have hc := coherent_of_reachable hreach
  obtain ⟨n, rfl⟩ := hacts a ha
  obtain ⟨hok, hst⟩ := hst
  cases hst with
  | performs hst =>
    cases hst with
    | access hr =>
      obtain ⟨bp, s₁, h1, hr⟩ := bind_eq_ok.1 hr
      obtain ⟨-, hd', -⟩ := triple_brelse t.io [] bp s₁
        (triple_bread t.io [] n t.io ⟨hc, rfl, rfl⟩ bp s₁ h1).1 () _ hr
      exact ⟨hd'.trans hd, hi⟩
  | stray hst hne => exact absurd (hst.released hc hok).2 hne

/-- **Write-through coherence.**  In every run whose steps write through, every valid buffer is
equal to its disk block between any two steps.  `ext2fs_readi`, `ext2fs_writei` and
`ext2fs_dirlink` are sequences of steps.  A block that `ext2fs_bmap` has returned is returned
again as long as the pointers to it are kept, in particular after any number of other
accesses. -/
theorem write_through (sb : Super) :
    (∀ s, (writesThrough sb).Reachable s → ∀ b, (s.io.cache.buf b).valid = true →
      (s.io.cache.buf b).data = s.io.disk (s.io.cache.buf b).blockno) ∧
    (∀ (s : Driver) (i : ℕ),
      (∀ off n room r io, ext2fsReadi sb (s.inode i) off n room s.io = .ok (r, io) →
        ∃ acts, (machine sb).Path s acts (s.set i io r.2.2)) ∧
      (∀ off n avail src r io, ext2fsWritei sb (s.inode i) off n avail src s.io = .ok (r, io) →
        ∃ acts, (machine sb).Path s acts (s.set i io r.2)) ∧
      (∀ fuel name inum stack slot r s', s.dirlink sb fuel i name inum stack slot = .ok (r, s') →
        ∃ acts, (machine sb).Path s acts s')) ∧
    (∀ s i bn a ip io, (writesThrough sb).Reachable s → (DriverAct.bmap i bn).Ok sb s →
      ext2fsBmap sb (s.inode i) bn s.io = .ok ((a, ip), io) → a ≠ 0 →
      (∀ s', (writesThrough sb).Reachable s' → (s.set i io ip).KeepsPointers s' i bn →
        ∀ a' ip' io', ext2fsBmap sb (s'.inode i) bn s'.io = .ok ((a', ip'), io') → a' = a) ∧
      ∀ acts s', (writesThrough sb).Path (s.set i io ip) acts s' →
        (∀ a ∈ acts, ∃ n, a = .access n) →
        (writesThrough sb).Reachable s' ∧ (s.set i io ip).KeepsPointers s' i bn) := by
  refine ⟨fun s h b hb => (coherent_of_reachable h).clean b hb (Set.notMem_empty b),
    fun s i => ⟨fun off n room r io hr => Runs.readi _ off n room s rfl r io hr,
      fun off n avail src r io hr => Runs.writei _ off n avail src s rfl r io hr,
      fun fuel name inum stack slot r s' hr => dirlink_path hr⟩,
    fun s i bn a ip io h hok hr ha => ⟨fun s' h' hkeep a' ip' io' hr' => ?_,
      fun acts s' hp hacts => ?_⟩⟩
  · exact bmap_again (coherent_of_reachable h) (coherent_of_reachable h') hok hr ha hkeep hr'
  · have hnext : (writesThrough sb).Reachable (s.set i io ip) := h.next ⟨hok, .performs (.bmap hr)⟩
    obtain ⟨hreach, hd, hi⟩ := access_keeps hnext hp hacts
    exact ⟨hreach, by rw [hi], fun n _ => by rw [hd]⟩

/-! ### Two first steps -/

/-- A file that ends where its indirect block begins, which is block 13 and still empty. -/
def sampleInode : InCore := ⟨13, .file, 1, 1, true, 12288, fun k => if k = 12 then 13 else 0⟩

/-- The state after boot, with that file open. -/
def sampleDriver : Driver := ⟨sampleIo 8 127, fun _ => sampleInode⟩

theorem reachable_sampleDriver (sb : Super) : (writesThrough sb).Reachable sampleDriver :=
  .start rfl

/-- A direct block is allocated, and all buffers are clean. -/
theorem write_through_direct : ∃ s, (writesThrough sampleSuper).Reachable s ∧
    ∃ b, (s.io.cache.buf b).valid = true ∧
      (s.io.cache.buf b).data = s.io.disk (s.io.cache.buf b).blockno := by
  obtain ⟨⟨a, ip⟩, io, hr, hb⟩ := exists_of_returns
    (m := ext2fsBmap sampleSuper sampleInode 0) (s := sampleIo 8 127)
    (p := fun _ io => decide (∃ b, (io.cache.buf b).valid = true)) (by decide +kernel)
  have hscan : (sampleIo 8 127).scan sampleSuper 13 = some (1, 0) := by decide +kernel
  have hinside : (sampleIo 8 127).BallocInside sampleSuper 13 := by
    intro i j h
    cases h
    decide
  have hok : (DriverAct.bmap 0 0).Ok sampleSuper sampleDriver := by
    change (sampleIo 8 127).BmapOk sampleSuper sampleInode 0
    unfold BmapOk
    exact fun _ => hinside
  have hst : Performs sampleSuper sampleDriver (.bmap 0 0) (sampleDriver.set 0 io ip) := .bmap hr
  have hreach : (writesThrough sampleSuper).Reachable (sampleDriver.set 0 io ip) :=
    (reachable_sampleDriver sampleSuper).next ⟨hok, .performs hst⟩
  obtain ⟨b, hb⟩ := of_decide_eq_true hb
  exact ⟨_, hreach, b, hb, (write_through sampleSuper).1 _ hreach b hb⟩

/-- **`ext2fs_bmap` allocates the first block below the indirect block: it releases the buffer of
the indirect block with the new pointer in it, and the disk block is still empty.** -/
theorem bmap_leaves_dirty_buffer :
    sampleSuper.Standard sampleDriver.io.disk (fun _ => True) ∧
      ∃ s, (machine sampleSuper).Reachable s ∧ (∀ b, (s.io.cache.buf b).refcnt = 0) ∧
        ∃ b, (s.io.cache.buf b).valid = true ∧
          (s.io.cache.buf b).data ≠ s.io.disk (s.io.cache.buf b).blockno := by
  refine ⟨standard_sampleDisk_good, ?_⟩
  obtain ⟨⟨a, ip⟩, io, hr, hb⟩ := exists_of_returns
    (m := ext2fsBmap sampleSuper sampleInode 12) (s := sampleIo 8 127)
    (p := fun _ io => decide ((∀ b, (io.cache.buf b).refcnt = 0) ∧
      ∃ b, (io.cache.buf b).valid = true ∧
        (io.cache.buf b).data.word 0 ≠ (io.disk (io.cache.buf b).blockno).word 0))
    (by decide +kernel)
  obtain ⟨hfree, b, hv, hne⟩ := of_decide_eq_true hb
  refine ⟨sampleDriver.set 0 io ip, ?_, hfree, b, hv, fun he => hne (congrArg (Block.word · 0) he)⟩
  have hst : Performs sampleSuper sampleDriver (.bmap 0 12) (sampleDriver.set 0 io ip) := .bmap hr
  exact (reachable_sampleDriver sampleSuper).of_restrict.next (.performs hst)

end Driver

end Cinux
