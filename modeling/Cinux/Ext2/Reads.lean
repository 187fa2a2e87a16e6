import Cinux.Ext2.Durable
import Cinux.Ext2.Marks

/-!
# Reads that write

`ext2fs_readi` uses `ext2fs_bmap`, which allocates a block wherever it finds a pointer that is not
set.  So reading a hole of a file changes the bitmap, and the pointers of the file in memory.

* `Io.Reaches` : `ext2fs_bmap` finds a block without allocating;
* `Io.Clean.bmap_runs`, `bmap_cases` : then it returns the block and changes nothing, and otherwise,
  if it returns, it has set a bit of the bitmap, which stays set (`Io.Altered`);
* `Io.readi_readsOnly` : exactly which reads leave disk and inode alone.
-/

namespace Cinux

open List

namespace Io

open Program

/-! ### Paths -/

section

variable (s : Io)

/-- Word `k` at the data of a clean buffer of block `n`. -/
@[irreducible] def wordAt (n k : ℕ) : ℕ := le32 (fun i => s.blockByte n i) (4 * k)

/-- The pointers at the places `ks`, starting in block `n`, are all set. -/
def PathSet : ℕ → List ℕ → Prop
  | _, [] => True
  | n, k :: ks => s.wordAt n k ≠ 0 ∧ PathSet (s.wordAt n k) ks

/-- The block at the end of the path. -/
def pathEnd : ℕ → List ℕ → ℕ
  | n, [] => n
  | n, k :: ks => pathEnd (s.wordAt n k) ks

/-- The pointer blocks on the path. -/
def pathBlocks : ℕ → List ℕ → List ℕ
  | _, [] => []
  | n, k :: ks => n :: pathBlocks (s.wordAt n k) ks

/-- `ext2fs_bmap` finds block `bn` of the file: the pointers on its way are set, and it does not
come through a pointer block twice. -/
structure Reaches (ip : InCore) (bn : ℕ) : Prop where
  root : ip.addrs (pointers bn).1 ≠ 0
  set : s.PathSet (ip.addrs (pointers bn).1) (pointers bn).2
  nodup : (s.pathBlocks (ip.addrs (pointers bn).1) (pointers bn).2).Nodup

/-- The block that it finds. -/
def blockFor (ip : InCore) (bn : ℕ) : ℕ := s.pathEnd (ip.addrs (pointers bn).1) (pointers bn).2

/-- The file that it presents. -/
def fileOf (ip : InCore) : File := ⟨ip.size, fun bn => s.disk (s.blockFor ip bn)⟩

end

variable {s₀ s s' : Io} {b : Fin NBUF} {n k addr : ℕ} {ks : List ℕ} {held : List (Fin NBUF × ℕ)}
  {sb : Super} {ip : InCore}

theorem pathEnd_cons : s.pathEnd n (k :: ks) = s.pathEnd (s.wordAt n k) ks := by rw [pathEnd]

/-! ### Clean states -/

/-- The buffers `held` are held, each with its block, and disk, memory and buffers are
as in `s₀`. -/
structure CleanAt (s₀ : Io) (held : List (Fin NBUF × ℕ)) (s : Io) : Prop where
  clean : s₀.Clean (held.map Prod.fst) s
  blockno : ∀ x ∈ held, (s.cache.buf x.1).blockno = x.2

namespace CleanAt

theorem perm {held' : List (Fin NBUF × ℕ)} (h : s₀.CleanAt held s) (hp : held.Perm held') :
    s₀.CleanAt held' s := by
  obtain ⟨⟨hc, hd, ho⟩, hbno⟩ := h
  refine ⟨⟨(hc.holds.perm (hp.map _)).coherent
      (fun b hb => absurd hb (Set.notMem_empty b)) hc.clean,
    hd, ho⟩, fun x hx => hbno x (hp.mem_iff.2 hx)⟩

theorem bread (h : s₀.CleanAt held s) (hr : Io.bread n s = .ok (b, s')) :
    s₀.CleanAt ((b, n) :: held) s' := by
  obtain ⟨⟨hc, hd, ho⟩, hbno⟩ := h
  obtain ⟨-, hc', hd', ho', hself, -, hsame⟩ := hc.bread_ok hr
  refine ⟨⟨hc', hd'.trans hd, ho'.trans ho⟩, fun x hx => ?_⟩
  rcases mem_cons.1 hx with rfl | hx
  · exact hself
  · rw [hsame x.1 (mem_map_of_mem hx), hbno x hx]

theorem bread_ne (h : s₀.CleanAt held s) (hr : Io.bread n s = .ok (b, s')) {x : Fin NBUF × ℕ}
    (hx : x ∈ held) : x.2 ≠ n := by
  intro he
  rw [h.clean.1.bread_held (mem_map_of_mem hx) ((h.blockno x hx).trans he)] at hr
  cases hr

theorem exists_bread (h : s₀.CleanAt held s) (hn : ∀ x ∈ held, x.2 ≠ n)
    (hlen : held.length < NBUF) : ∃ b s', Io.bread n s = .ok (b, s') := by
  refine h.clean.1.exists_bread (fun c hc => ?_) (by rwa [length_map])
  obtain ⟨x, hx, rfl⟩ := mem_map.1 hc
  rw [h.blockno x hx]
  exact hn x hx

theorem load_eq (h : s₀.CleanAt held s) (hb : (b, n) ∈ held) (k : ℕ) :
    load b k s = .ok (s₀.wordAt n k, s) := by
  have hbno : (s.cache.buf b).blockno = n := h.blockno _ hb
  have hload := h.clean.1.load_clean (mem_map_of_mem hb) (Set.notMem_empty b) k
  rw [hbno, blockByte_congr h.clean.2.1 h.clean.2.2] at hload
  unfold wordAt
  exact hload

theorem brelse_head (h : s₀.CleanAt ((b, n) :: held) s) :
    ∃ s', Io.brelse b s = .ok ((), s') ∧ s₀.CleanAt held s' := by
  obtain ⟨⟨hc, hd, ho⟩, hbno⟩ := h
  obtain ⟨s', hr, hc', hd', ho', hother⟩ := hc.brelse_ok mem_cons_self
    (Set.notMem_empty b)
  rw [map_cons, erase_cons_head] at hc'
  refine ⟨s', hr, ⟨hc', hd'.trans hd, ho'.trans ho⟩, fun x hx => ?_⟩
  rw [hother x.1 (Untouched.ne_head hx hc.holds), hbno x (mem_cons_of_mem _ hx)]

theorem release (h : s₀.CleanAt held s) :
    ∃ s', (held.map Prod.fst).forM brelse s = .ok ((), s') ∧ s₀.CleanAt [] s' := by
  induction held generalizing s with
  | nil => exact ⟨s, rfl, h⟩
  | cons x held ih =>
    obtain ⟨s1, h1, hc1⟩ := h.brelse_head
    obtain ⟨s2, h2, hc2⟩ := ih hc1
    refine ⟨s2, ?_, hc2⟩
    rw [map_cons, forM_eq_forM, forM_cons, bind_ok h1]
    exact h2

theorem version_eq (h : s₀.CleanAt held s) {d : Block} (hd : s.Version n d) : d = s₀.disk n := by
  rcases hd with rfl | ⟨x, hv, rfl, rfl⟩
  · rw [h.clean.2.1]
  · rw [h.clean.1.clean x hv (Set.notMem_empty x), h.clean.2.1]

theorem marked (h : s₀.CleanAt held s) (sb : Super) (inum : ℕ) :
    Marked (bitmapWord sb inum) (s₀.groupBitmap sb inum) (fun _ => True) held s := by
  refine ⟨s₀.outside, h.clean.1.holds, h.blockno, h.clean.2.2, fun n d hd => ⟨?_, fun _ => trivial⟩⟩
  rintro rfl
  rw [h.version_eq hd]
  rfl

theorem data_eq (h : s₀.CleanAt held s) (hb : (b, n) ∈ held) : data b s = .ok (s₀.disk n, s) := by
  have hmem : b ∈ held.map Prod.fst := mem_map_of_mem hb
  have hdata := h.clean.1.clean b (h.clean.1.locked b hmem).2.2 (Set.notMem_empty b)
  have hbno : (s.cache.buf b).blockno = n := h.blockno _ hb
  unfold data
  rw [hdata, hbno, h.clean.2.1]

end CleanAt

/-! ### A path that is set -/

/-- **Along a path that is set the walk ends, and changes nothing.** -/
theorem CleanAt.walk_runs (sb : Super) (ip : InCore) (h : s₀.CleanAt held s)
    (hset : s₀.PathSet addr ks)
    (hnd : (s₀.pathBlocks addr ks).Nodup) (hdisj : ∀ x ∈ held, x.2 ∉ s₀.pathBlocks addr ks)
    (hlen : held.length + ks.length ≤ NBUF) :
    ∃ s', walk sb ip (held.map Prod.fst) addr ks s = .ok (s₀.pathEnd addr ks, s') ∧
      s₀.CleanAt [] s' := by
  induction ks generalizing addr held s with
  | nil =>
    obtain ⟨s1, h1, hc1⟩ := h.release
    refine ⟨s1, ?_, hc1⟩
    unfold Io.walk
    rw [bind_ok h1]
    rfl
  | cons k ks ih =>
    rw [length_cons] at hlen
    obtain ⟨hne, hset⟩ := hset
    obtain ⟨hself, hnd⟩ := nodup_cons.1 hnd
    -- the block is not held, so it can be read in
    obtain ⟨bp, s1, h1⟩ := h.exists_bread
      (fun x hx he => hdisj x hx (he ▸ mem_cons_self)) (by omega)
    have hc1 := (h.bread h1).perm (perm_append_singleton _ _).symm
    have hmap : held.map Prod.fst ++ [bp] = (held ++ [(bp, addr)]).map Prod.fst := by simp
    have hentry : mapEntry sb ip bp k s1 = .ok (s₀.wordAt addr k, s1) := by
      have hmem : (bp, addr) ∈ held ++ [(bp, addr)] := by simp
      unfold mapEntry
      rw [bind_ok (hc1.load_eq hmem k), if_neg hne]
      rfl
    have hdisj' : ∀ x ∈ held ++ [(bp, addr)], x.2 ∉ s₀.pathBlocks (s₀.wordAt addr k) ks := by
      intro x hx
      rcases mem_append.1 hx with hx | hx
      · exact fun hmem => hdisj x hx (mem_cons_of_mem _ hmem)
      · obtain rfl := mem_singleton.1 hx
        exact hself
    obtain ⟨s2, h2, hc2⟩ := ih hc1 hset hnd hdisj'
      (by rw [length_append, length_singleton]; omega)
    refine ⟨s2, ?_, hc2⟩
    unfold Io.walk
    rw [bind_ok h1, bind_ok hentry, hmap, pathEnd_cons]
    exact h2

theorem length_pointers (bn : ℕ) : (pointers bn).2.length ≤ 3 := by
  unfold pointers
  dsimp only
  split_ifs <;> simp

/-- **`ext2fs_bmap` finds what it reaches.** -/
theorem CleanAt.bmap_runs (sb : Super) (h : s₀.CleanAt [] s) {bn : ℕ} (hbn : bn < EXT2_MAXFILE)
    (hreach : s₀.Reaches ip bn) :
    ∃ s', ext2fsBmap sb ip bn s = .ok ((s₀.blockFor ip bn, ip), s') ∧ s₀.CleanAt [] s' := by
  have hbuf : 3 ≤ NBUF := by decide
  have hlen : 0 + (pointers bn).2.length ≤ NBUF := by
    have := length_pointers bn
    omega
  obtain ⟨s', hr, hc⟩ := h.walk_runs sb ip hreach.set hreach.nodup
    (fun x hx => absurd hx not_mem_nil) hlen
  rw [map_nil] at hr
  refine ⟨s', ?_, hc⟩
  rw [ext2fsBmap_eq sb ip hbn]
  unfold bmapPath
  rw [bind_ok (mapAddr_eq hreach.root)]
  dsimp only
  rw [bind_ok hr]
  rfl

theorem CleanAt.readRound_runs (sb : Super) (h : s₀.CleanAt [] s) {off : ℕ} (m : ℕ)
    (hoff : off / BSIZE < EXT2_MAXFILE) (hreach : s₀.Reaches ip (off / BSIZE)) :
    ∃ s', readRound sb ip off m s = .ok (((s₀.fileOf ip).chunk off m, ip), s') ∧
      s₀.CleanAt [] s' := by
  obtain ⟨s1, h1, hc1⟩ := h.bmap_runs sb hoff hreach
  obtain ⟨bp, s2, h2⟩ := hc1.exists_bread
    (fun x hx => absurd hx not_mem_nil) (by decide)
  have hc2 := hc1.bread h2
  obtain ⟨s3, h3, hc3⟩ := hc2.brelse_head
  refine ⟨s3, ?_, hc3⟩
  unfold readRound
  rw [bind_ok h1]
  dsimp only
  rw [bind_ok h2, bind_ok (hc2.data_eq mem_cons_self), bind_ok h3]
  rfl

theorem div_lt_maxfile {off : ℕ} (h : off < 2 ^ 32) : off / BSIZE < EXT2_MAXFILE := by
  simp only [BSIZE, EXT2_MAXFILE]
  omega

/-- **The loop of a read that reaches every block it looks for.** -/
theorem CleanAt.readLoop_runs (sb : Super) (h : s₀.CleanAt [] s) {off n room fuel : ℕ}
    (hfuel : n ≤ fuel) (hend : off + n < 2 ^ 32)
    (hreach : ∀ bn, Visits off n room bn → s₀.Reaches ip bn) :
    ∃ s', readLoop sb fuel ip off n room s =
        .ok ((if n ≤ room then some ((s₀.fileOf ip).readLoop off n) else none, ip), s') ∧
      s₀.CleanAt [] s' := by
  induction fuel generalizing s off n room with
  | zero =>
    obtain rfl : n = 0 := by omega
    refine ⟨s, ?_, h⟩
    rw [if_pos (Nat.zero_le _), File.readLoop, if_pos rfl]
    rfl
  | succ fuel ih =>
    unfold readLoop
    by_cases hn : n = 0
    · subst hn
      refine ⟨s, ?_, h⟩
      rw [if_pos rfl, if_pos (Nat.zero_le _), File.readLoop, if_pos rfl]
      rfl
    rw [if_neg hn, File.readLoop, if_neg hn]
    have hvis := visits_round off room hn
    obtain ⟨m, hm⟩ : ∃ m, m = min n (BSIZE - off % BSIZE) := ⟨_, rfl⟩
    rw [← hm] at hvis ⊢
    have hsize : off % BSIZE < BSIZE := Nat.mod_lt _ (by decide)
    obtain ⟨s1, h1, hc1⟩ := h.readRound_runs sb m
      (div_lt_maxfile (by omega)) (hreach _ ((hvis _).2 (.inl rfl)))
    rw [bind_ok h1]
    dsimp only
    by_cases hroom : room < m
    · refine ⟨s1, ?_, hc1⟩
      rw [if_pos hroom, if_neg (by omega)]
      rfl
    · obtain ⟨s2, h2, hc2⟩ := ih hc1 (by omega) (by omega : off + m + (n - m) < _)
        fun bn hv => hreach bn ((hvis bn).2 (.inr ⟨hroom, hv⟩))
      refine ⟨s2, ?_, hc2⟩
      rw [if_neg hroom, bind_ok h2]
      by_cases hle : n ≤ room
      · rw [if_pos hle, if_pos (by omega)]
        rfl
      · rw [if_neg hle, if_neg (by omega)]
        rfl

/-! ### A bit that has been set -/

/-- A bit of the bitmap that was clear in `s₀`, or one in the memory around it, is set in all
versions. -/
def Altered (s₀ : Io) (sb : Super) (inum : ℕ) (held : List (Fin NBUF × ℕ)) (s : Io) : Prop :=
  ∃ i j, (s₀.blockByte (s₀.groupBitmap sb inum) i).toNat.testBit j = false ∧
    Marked (bitmapWord sb inum) (s₀.groupBitmap sb inum) (fun m => (m i).toNat.testBit j = true)
      held s

theorem upward_bit (i : ℤ) (j : ℕ) : Upward fun m => (m i).toNat.testBit j = true :=
  fun _ _ hle hm => hle i j hm

theorem upward_true : Upward fun _ => True := fun _ _ _ _ => trivial

theorem Altered.ne {inum : ℕ} (h : s₀.Altered sb inum held s) :
    s.disk ≠ s₀.disk ∨ s.outside ≠ s₀.outside := by
  obtain ⟨i, j, hclear, o, hk⟩ := h
  by_contra hsame
  push Not at hsame
  have hset := (hk.versions _ _ (.inl rfl)).2 rfl
  rw [← hk.outside, hsame.1, hsame.2] at hset
  exact absurd (hclear.symm.trans hset) (by decide)

section Hole

variable (hv : BitmapApart sb (s₀.groupBitmap sb ip.inum))
include hv

theorem CleanAt.balloc (h : s₀.CleanAt held s)
    (hr : ext2fsBalloc sb ip.inum s = .ok (addr, s')) :
    s₀.Altered sb ip.inum held s' ∧ ∀ x ∈ held, Untouched x.1 s s' := by
  obtain ⟨d, i, j, hd, hclear, hm, huntouched⟩ := (h.marked sb ip.inum).balloc upward_true hv hr
  rw [h.version_eq hd, h.clean.2.2] at hclear
  exact ⟨⟨i, j, hclear, hm.imp fun _ => And.right⟩, huntouched⟩

theorem CleanAt.mapEntry_hole (h : s₀.CleanAt held s) (hb : (b, n) ∈ held)
    (hz : s₀.wordAt n k = 0) (hr : mapEntry sb ip b k s = .ok (addr, s')) :
    s₀.Altered sb ip.inum held s' := by
  have hv0 : s₀.groupBitmap sb ip.inum ≠ 0 := by
    have := hv.1
    omega
  have hload := h.load_eq hb k
  have hword : le32 (fun i => s.byteAt b i) (4 * k) = 0 := by
    rw [← hz]
    exact (ok_inj hload).1
  unfold mapEntry at hr
  rw [bind_ok hload, if_pos hz] at hr
  obtain ⟨c, s1, h1, hr⟩ := bind_eq_ok.1 hr
  obtain ⟨_, s2, h2, hr⟩ := bind_eq_ok.1 hr
  cases hr
  obtain ⟨⟨i, j, hclear, hm⟩, huntouched⟩ := h.balloc hv h1
  refine ⟨i, j, hclear, hm.store (upward_bit i j) hv0 hb ?_ h2⟩
  simpa only [(huntouched _ hb).byteAt] using hword

theorem Altered.walk {jp : InCore} (h : s₀.Altered sb ip.inum held s)
    (hr : walk sb jp (held.map Prod.fst) addr ks s = .ok (n, s')) (hi : jp.inum = ip.inum) :
    s₀.Altered sb ip.inum [] s' := by
  obtain ⟨i, j, hclear, hm⟩ := h
  exact ⟨i, j, hclear, triple_marked_walk (upward_bit i j) hv hi ks addr s hm n s' hr⟩

/-- **Along a path**: it is set and the walk returns its end, or a bit has been set. -/
theorem CleanAt.walk_cases (h : s₀.CleanAt held s)
    (hr : walk sb ip (held.map Prod.fst) addr ks s = .ok (n, s')) :
    (s₀.PathSet addr ks ∧ (s₀.pathBlocks addr ks).Nodup ∧
      (∀ x ∈ held, x.2 ∉ s₀.pathBlocks addr ks) ∧ n = s₀.pathEnd addr ks ∧ s₀.CleanAt [] s') ∨
    s₀.Altered sb ip.inum [] s' := by
  induction ks generalizing addr held s with
  | nil =>
    obtain ⟨s1, h1, hc1⟩ := h.release
    unfold Io.walk at hr
    rw [bind_ok h1] at hr
    cases hr
    exact .inl ⟨trivial, nodup_nil, fun _ _ => not_mem_nil, rfl, hc1⟩
  | cons k ks ih =>
    obtain ⟨bp, s1, h1, hr⟩ := bind_eq_ok.1 hr
    have hc1 := h.bread h1
    obtain ⟨a, s2, h2, hr⟩ := bind_eq_ok.1 hr
    have hmap : held.map Prod.fst ++ [bp] = (held ++ [(bp, addr)]).map Prod.fst := by simp
    have hperm : ((bp, addr) :: held).Perm (held ++ [(bp, addr)]) :=
      (perm_append_singleton _ _).symm
    rw [hmap] at hr
    by_cases hz : s₀.wordAt addr k = 0
    · obtain ⟨i, j, hclear, hm⟩ := hc1.mapEntry_hole hv mem_cons_self hz h2
      exact .inr (Altered.walk hv ⟨i, j, hclear, hm.perm hperm⟩ hr rfl)
    · unfold mapEntry at h2
      rw [bind_ok (hc1.load_eq mem_cons_self k), if_neg hz] at h2
      cases h2
      rcases ih (hc1.perm hperm) hr with ⟨hset, hnd, hdisj, hend, hc⟩ | halt
      · have hself : addr ∉ s₀.pathBlocks (s₀.wordAt addr k) ks := hdisj (bp, addr) (by simp)
        refine .inl ⟨⟨hz, hset⟩, nodup_cons.2 ⟨hself, hnd⟩, fun x hx hmem => ?_,
          hend.trans pathEnd_cons.symm, hc⟩
        rcases mem_cons.1 hmem with he | hmem
        · exact h.bread_ne h1 hx he
        · exact hdisj x (by simp [hx]) hmem
      · exact .inr halt

/-- **`ext2fs_bmap` finds the block, or it has set a bit.** -/
theorem CleanAt.bmap_cases (h : s₀.CleanAt [] s) {bn : ℕ} (hbn : bn < EXT2_MAXFILE)
    {r : ℕ × InCore} (hr : ext2fsBmap sb ip bn s = .ok (r, s')) :
    (s₀.Reaches ip bn ∧ r = (s₀.blockFor ip bn, ip) ∧ s₀.CleanAt [] s') ∨
      s₀.Altered sb ip.inum [] s' := by
  rw [ext2fsBmap_eq sb ip hbn] at hr
  obtain ⟨⟨a, ip1⟩, s1, h1, hr⟩ := bind_eq_ok.1 hr
  obtain ⟨c, s2, h2, hr⟩ := bind_eq_ok.1 hr
  cases hr
  unfold mapAddr at h1
  split_ifs at h1 with h0
  · obtain ⟨a', s3, h3, h1⟩ := bind_eq_ok.1 h1
    obtain ⟨he, rfl⟩ := pure_eq_ok.1 h1
    cases he
    exact .inr ((h.balloc hv h3).1.walk hv h2 rfl)
  · obtain ⟨he, rfl⟩ := pure_eq_ok.1 h1
    cases he
    rcases h.walk_cases hv h2 with ⟨hset, hnd, -, rfl, hc⟩ | halt
    · exact .inl ⟨⟨h0, hset, hnd⟩, rfl, hc⟩
    · exact .inr halt

theorem CleanAt.readRound_cases (h : s₀.CleanAt [] s) {off m : ℕ}
    (hoff : off / BSIZE < EXT2_MAXFILE)
    {r : Bytes × InCore} (hr : readRound sb ip off m s = .ok (r, s')) :
    (s₀.Reaches ip (off / BSIZE) ∧ r.2 = ip ∧ s₀.CleanAt [] s') ∨ s₀.Altered sb ip.inum [] s' := by
  obtain ⟨⟨a, ip1⟩, s1, h1, hr⟩ := bind_eq_ok.1 hr
  obtain ⟨bp, s2, h2, hr⟩ := bind_eq_ok.1 hr
  obtain ⟨d, s3, h3, hr⟩ := bind_eq_ok.1 hr
  cases h3
  obtain ⟨_, s4, h4, hr⟩ := bind_eq_ok.1 hr
  cases hr
  rcases h.bmap_cases hv hoff h1 with ⟨hreach, he, hc1⟩ | ⟨i, j, hclear, hm⟩
  · obtain ⟨s5, h5, hc5⟩ := (hc1.bread h2).brelse_head
    rw [h4] at h5
    cases h5
    exact .inl ⟨hreach, (Prod.mk.inj he).2, hc5⟩
  · exact .inr ⟨i, j, hclear, (hm.bread h2).brelse_head h4⟩

/-- **The loop of a read: it reaches every block it looks for, or it has set a bit.** -/
theorem CleanAt.readLoop_cases (h : s₀.CleanAt [] s) {off n room fuel : ℕ} (hfuel : n ≤ fuel)
    (hend : off + n < 2 ^ 32) {r : Option Bytes × InCore}
    (hr : readLoop sb fuel ip off n room s = .ok (r, s')) :
    (∀ bn, Visits off n room bn → s₀.Reaches ip bn) ∨ s₀.Altered sb ip.inum [] s' := by
  induction fuel generalizing s off n room r with
  | zero => exact .inl fun bn hvis => absurd hvis.1 (by omega)
  | succ fuel ih =>
    by_cases hn : n = 0
    · exact .inl fun bn hvis => absurd hvis.1 (by omega)
    have hvis := visits_round off room hn
    obtain ⟨m, hm⟩ : ∃ m, m = min n (BSIZE - off % BSIZE) := ⟨_, rfl⟩
    have hsize : off % BSIZE < BSIZE := Nat.mod_lt _ (by decide)
    have hoff := div_lt_maxfile (by omega : off < 2 ^ 32)
    unfold readLoop at hr
    rw [if_neg hn, ← hm] at hr
    rw [← hm] at hvis
    obtain ⟨⟨bytes, ip1⟩, s1, h1, hrest⟩ := bind_eq_ok.1 hr
    have hi : ip1.inum = ip.inum :=
      (triple_marked_readRound upward_true hv rfl hoff s (h.marked sb ip.inum) _ _ h1).1
    rcases h.readRound_cases hv hoff h1 with ⟨hreach, rfl, hc1⟩ | ⟨i, j, hclear, hmark⟩
    · split_ifs at hrest with hroom
      · refine .inl fun bn hb => ?_
        rcases (hvis bn).1 hb with rfl | ⟨hnot, -⟩
        · exact hreach
        · exact absurd hroom hnot
      · obtain ⟨x, s2, h2, hret⟩ := bind_eq_ok.1 hrest
        cases hret
        rcases ih hc1 (by omega) (by omega) h2 with hall | halt
        · refine .inl fun bn hb => ?_
          rcases (hvis bn).1 hb with rfl | ⟨-, hb⟩
          · exact hreach
          · exact hall bn hb
        · exact .inr halt
    · -- the bit has been set in this round, and the rest of the loop keeps it
      refine .inr ⟨i, j, hclear, ?_⟩
      split_ifs at hrest with hroom
      · cases hrest
        exact hmark
      · obtain ⟨x, s2, h2, hret⟩ := bind_eq_ok.1 hrest
        obtain ⟨-, rfl⟩ := pure_eq_ok.1 hret
        exact triple_marked_readLoop (upward_bit i j) hv fuel hi (by omega) s1 hmark x s2 h2

end Hole

/-! ### The call -/

/-- `ext2fs_readi` returns -1 at once. -/
def ReadRejected (ip : InCore) (off n : ℕ) : Prop := ip.size < off ∨ (off + n) % 2 ^ 32 < off

/-- The number of bytes that it is to read. -/
def readLength (ip : InCore) (off n : ℕ) : ℕ :=
  if ip.size < (off + n) % 2 ^ 32 then ip.size - off else n

/-- Block `bn` of the file is not there: a pointer on its standard path is not set. -/
def Hole (disk : ℕ → Block) (addrs : ℕ → ℕ) (bn : ℕ) : Prop :=
  addrs (standardPath bn).1 = 0 ∨ ¬Mapped disk (addrs (standardPath bn).1) (standardPath bn).2

/-- **Reading does not write**: the call returns, the disk and the memory around the buffers are
unchanged, the cache agrees with the disk, the inode has the same pointers, and the bytes of holes
are zeros. -/
def ReadsOnly (s : Io) (sb : Super) (ip : InCore) (off n room : ℕ) : Prop :=
  ∃ r bytes ip' s', ext2fsReadi sb ip off n room s = .ok ((r, bytes, ip'), s') ∧
    s'.Coherent [] ∅ ∧ s'.disk = s.disk ∧ s'.outside = s.outside ∧ ip'.addrs = ip.addrs ∧
    ∀ k < bytes.length, Hole s.disk ip.addrs ((off + k) / BSIZE) → bytes.getD k 0 = 0

/-- The call fails at once, or every block that it looks for is reached through pointers that are
set, and holds zeros where the file has a hole. -/
def ReadFits (s : Io) (ip : InCore) (off n room : ℕ) : Prop :=
  ReadRejected ip off n ∨
    (∀ bn, Visits off (readLength ip off n) room bn → s.Reaches ip bn) ∧
    (readLength ip off n ≤ room → ∀ k < readLength ip off n,
      Hole s.disk ip.addrs ((off + k) / BSIZE) → (s.fileOf ip).byte (off + k) = 0)

section Call

variable {off n room : ℕ}

theorem readLength_end (hsize : ip.size < 2 ^ 32) (hn : n < 2 ^ 32)
    (hrej : ¬ReadRejected ip off n) : off + readLength ip off n < 2 ^ 32 := by
  unfold ReadRejected at hrej
  unfold readLength
  split_ifs <;> omega

theorem readi_rejected (hrej : ReadRejected ip off n) :
    ext2fsReadi sb ip off n room s = .ok ((-1, [], ip), s) := by
  unfold ReadRejected at hrej
  unfold ext2fsReadi
  rw [if_pos hrej]
  rfl

/-- **`ext2fs_readi` over blocks that it reaches** returns the bytes of the file and changes
nothing. -/
theorem CleanAt.readi_runs (sb : Super) (h : s₀.CleanAt [] s) (hsize : ip.size < 2 ^ 32)
    (hn : n < 2 ^ 32) (hrej : ¬ReadRejected ip off n)
    (hreach : ∀ bn, Visits off (readLength ip off n) room bn → s₀.Reaches ip bn) :
    ∃ s', ext2fsReadi sb ip off n room s = .ok ((if readLength ip off n ≤ room then
            ((readLength ip off n : ℤ), (s₀.fileOf ip).readLoop off (readLength ip off n), ip)
          else (-1, [], ip)), s') ∧ s₀.CleanAt [] s' := by
  obtain ⟨s', hr, hc⟩ := h.readLoop_runs sb le_rfl (readLength_end hsize hn hrej) hreach
  refine ⟨s', ?_, hc⟩
  unfold ReadRejected at hrej
  unfold ext2fsReadi
  rw [if_neg hrej]
  unfold readLength at hr ⊢
  rw [bind_ok hr]
  split_ifs <;> rfl

theorem ReadFits.readsOnly (sb : Super) (h : s.Coherent [] ∅) (hsize : ip.size < 2 ^ 32)
    (hn : n < 2 ^ 32) (hfit : s.ReadFits ip off n room) : s.ReadsOnly sb ip off n room := by
  by_cases hrej : ReadRejected ip off n
  · exact ⟨-1, [], ip, s, readi_rejected hrej, h, rfl, rfl, rfl,
      fun k hk => absurd hk (Nat.not_lt_zero k)⟩
  obtain ⟨hreach, hzero⟩ := hfit.resolve_left hrej
  have hc : s.CleanAt [] s := ⟨⟨h, rfl, rfl⟩, fun x hx => absurd hx not_mem_nil⟩
  obtain ⟨s', hr, hc'⟩ := hc.readi_runs sb hsize hn hrej hreach
  obtain ⟨hcoh, hdisk, hout⟩ := hc'.clean
  split_ifs at hr with hroom
  · refine ⟨_, _, _, s', hr, hcoh, hdisk, hout, rfl, fun k hk hhole => ?_⟩
    rw [File.readLoop_eq, length_map, length_range] at hk
    rw [File.readLoop_eq, getD_eq_getElem?_getD]
    simpa [hk] using hzero hroom k hk hhole
  · exact ⟨_, _, _, s', hr, hcoh, hdisk, hout, rfl, fun k hk => absurd hk (Nat.not_lt_zero k)⟩

theorem ReadsOnly.readFits (h : s.Coherent [] ∅) (hv : BitmapApart sb (s.groupBitmap sb ip.inum))
    (hsize : ip.size < 2 ^ 32) (hn : n < 2 ^ 32) (honly : s.ReadsOnly sb ip off n room) :
    s.ReadFits ip off n room := by
  by_cases hrej : ReadRejected ip off n
  · exact .inl hrej
  have hc : s.CleanAt [] s := ⟨⟨h, rfl, rfl⟩, fun x hx => absurd hx not_mem_nil⟩
  obtain ⟨r, bytes, ip', s', hr, -, hdisk, hout, -, hzero⟩ := honly
  -- nothing has changed, so no bit has been set
  have hreach : ∀ bn, Visits off (readLength ip off n) room bn → s.Reaches ip bn := by
    have hrun := hr
    unfold ReadRejected at hrej
    unfold ext2fsReadi at hrun
    rw [if_neg hrej] at hrun
    obtain ⟨⟨out, ip1⟩, s1, h1, hrest⟩ := bind_eq_ok.1 hrun
    obtain rfl : s1 = s' := by
      cases out <;> exact (pure_eq_ok.1 hrest).2
    rcases hc.readLoop_cases hv le_rfl (readLength_end hsize hn hrej) h1 with hall | halt
    · exact hall
    · rcases halt.ne with hne | hne
      · exact absurd hdisk hne
      · exact absurd hout hne
  refine .inr ⟨hreach, fun hroom k hk hhole => ?_⟩
  obtain ⟨s'', hr', -⟩ := hc.readi_runs sb hsize hn hrej hreach
  rw [hr, if_pos hroom] at hr'
  obtain ⟨he, -⟩ := ok_inj hr'
  obtain ⟨-, he⟩ := Prod.mk.inj he
  cases he
  have hbyte := hzero k (by rwa [File.readLoop_eq, length_map, length_range]) hhole
  rw [File.readLoop_eq, getD_eq_getElem?_getD] at hbyte
  simpa [hk] using hbyte

/-- **When reading does not write.**  From a state in which no buffer is in use, with a bitmap that
is not where the descriptors are, `ext2fs_readi` returns and changes neither the disk nor the
memory around the buffers nor the pointers of the inode, and gives zeros for holes, if and only if
it fails at once, or all the pointers that it goes through are set and it finds zeros where the file
has holes. -/
theorem readi_readsOnly (h : s.Coherent [] ∅) (hv : BitmapApart sb (s.groupBitmap sb ip.inum))
    (hsize : ip.size < 2 ^ 32) (hn : n < 2 ^ 32) :
    s.ReadsOnly sb ip off n room ↔ s.ReadFits ip off n room :=
  ⟨fun honly => honly.readFits h hv hsize hn, fun hfit => hfit.readsOnly sb h hsize hn⟩

theorem bitmapApart_holeIo (size : ℕ) :
    BitmapApart sampleSuper ((holeIo size).groupBitmap sampleSuper 13) := by
  have hscan : sampleSuper.scanBytes ≤ 2 ^ 20 := by decide +kernel
  rw [(holeIo_places size).1]
  refine ⟨by decide, fun i hi j hj => ?_⟩
  omega

/-- A file of one block, which is block 20. -/
def blockInode : InCore := (holeInode 1024).setAddr 0 20

/-- Five bytes of it. -/
theorem readi_readsOnly_mapped : (holeIo 1024).ReadsOnly sampleSuper blockInode 0 5 5 := by
  have hiff : (holeIo 1024).ReadsOnly sampleSuper blockInode 0 5 5 ↔
      (holeIo 1024).ReadFits blockInode 0 5 5 :=
    readi_readsOnly (coherent_binit _ _) (bitmapApart_holeIo 1024) (by decide) (by decide)
  refine hiff.2 (.inr ⟨fun bn hvis => ?_, fun _ k hk hhole => ?_⟩)
  · obtain rfl : bn = 0 := Nat.le_zero.1 hvis.2.2
    exact ⟨by decide, trivial, nodup_nil⟩
  · have h0 : (0 + k) / BSIZE = 0 := Nat.div_eq_of_lt (by simp only [BSIZE]; omega)
    rw [h0] at hhole
    exact absurd hhole (by simp [Hole, standardPath, Mapped, blockInode, InCore.setAddr])

/-- **Reading the hole of a file of 1024 bytes allocates block 16**: a bit of the bitmap is set on
disk, and the inode in memory points to the block. -/
theorem read_allocates : (holeIo 1024).Coherent [] ∅ ∧
    BitmapApart sampleSuper ((holeIo 1024).groupBitmap sampleSuper 13) ∧
    ∃ bytes ip' s', ext2fsReadi sampleSuper (holeInode 1024) 0 1 1 (holeIo 1024) =
        .ok ((1, bytes, ip'), s') ∧
      (holeInode 1024).addrs 0 = 0 ∧ ip'.addrs 0 = 16 ∧
      (s'.disk 8).byte 1 ≠ ((holeIo 1024).disk 8).byte 1 := by
  refine ⟨coherent_binit _ _, bitmapApart_holeIo 1024, ?_⟩
  obtain ⟨⟨r, bytes, ip'⟩, s', hr, hp⟩ := exists_of_returns
    (m := ext2fsReadi sampleSuper (holeInode 1024) 0 1 1) (s := holeIo 1024)
    (p := fun x s' => decide (x.1 = 1 ∧ x.2.2.addrs 0 = 16 ∧ (s'.disk 8).byte 1 = 255))
    (by decide +kernel)
  obtain ⟨hret, haddr, hmark⟩ := of_decide_eq_true hp
  obtain rfl : r = 1 := hret
  refine ⟨bytes, ip', s', hr, rfl, haddr, ?_⟩
  rw [hmark]
  decide

end Call

end Io

end Cinux
