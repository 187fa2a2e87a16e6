import Cinux.Ext2.Splice

/-!
# What `ext2fs_writei` returns

When `either_copyin` fails, the loop of `ext2fs_writei` ends, and the call returns `n` all the same.
Some of the bytes may already be in the buffer, which is released without being written.
`filewrite` takes the result for the number of bytes that were stored.

* `CachedFile` : a file with its blocks as they are in the buffer cache and as they are on disk;
* `Io.Shows`, `Io.Backed.writei_shows` : it is what the code over the buffer cache does;
* `Io.counts_honest` : when the counts are right.
-/

namespace Cinux

open Function

/-- A file: `ip->size`, and each block that `ext2fs_bmap` finds, in the cache and on disk. -/
structure CachedFile where
  size : ℕ
  cached : ℕ → Block
  disk : ℕ → Block

namespace CachedFile

/-- A file whose blocks have all been written. -/
def ofFile (f : File) : CachedFile := ⟨f.size, f.block, f.block⟩

/-- A round of `ext2fs_writei` that is to store `m` bytes at `off`, of which `either_copyin` stores
the first `c`. -/
def writeRound (f : CachedFile) (off m c : ℕ) (src : ℕ → UInt8) : CachedFile :=
  let d := (f.cached (off / BSIZE)).memmove (off % BSIZE) c src
  let f := { f with cached := update f.cached (off / BSIZE) d }
  if c < m then f else { f with disk := update f.disk (off / BSIZE) d }

/-- The loop of `ext2fs_writei`, for at most `fuel` rounds: the offset where it stops.  The first
`avail` bytes at `src` can be copied in. -/
def writeLoop : ℕ → CachedFile → ℕ → ℕ → ℕ → (ℕ → UInt8) → ℕ × CachedFile
  | 0, f, off, _, _, _ => (off, f)
  | fuel + 1, f, off, n, avail, src =>
    if n = 0 then (off, f)
    else
      let m := min n (BSIZE - off % BSIZE)
      let f := f.writeRound off m (min m avail) src
      if avail < m then (off, f)
      else writeLoop fuel f (off + m) (n - m) (avail - m) fun k => src (k + m)

/-- `ext2fs_writei`. -/
def writei (f : CachedFile) (off n avail : ℕ) (src : ℕ → UInt8) : ℤ × CachedFile :=
  if f.size < off ∨ (off + n) % 2 ^ 32 < off then (-1, f)
  else if EXT2_MAXFILE * BSIZE < (off + n) % 2 ^ 32 then (-1, f)
  else
    let (off, f) := writeLoop n f off n avail src
    ((n : ℤ), if 0 < n ∧ f.size < off then { f with size := off } else f)

open Io (stopOffset)

variable {f : CachedFile} {g : File} {off n avail fuel m i : ℕ} {src : ℕ → UInt8}

/-! ### One call -/

theorem writei_accepted (hoff : off ≤ f.size) (hn : off + n < 2 ^ 32) :
    f.writei off n avail src = ((n : ℤ),
      if 0 < n ∧ (writeLoop n f off n avail src).2.size < (writeLoop n f off n avail src).1 then
        { (writeLoop n f off n avail src).2 with size := (writeLoop n f off n avail src).1 }
      else (writeLoop n f off n avail src).2) := by
  have hmod : (off + n) % 2 ^ 32 = off + n := Nat.mod_eq_of_lt hn
  have hmax : 2 ^ 32 ≤ EXT2_MAXFILE * BSIZE := by decide
  unfold writei
  rw [hmod, if_neg (by omega), if_neg (by omega)]

theorem writeRound_size : (f.writeRound off m n src).size = f.size := by
  unfold writeRound
  split_ifs <;> rfl

theorem writeLoop_off (h : n ≤ fuel) :
    (writeLoop fuel f off n avail src).1 = stopOffset off n avail ∧
      (writeLoop fuel f off n avail src).2.size = f.size := by
  induction fuel generalizing f off n avail src with
  | zero =>
    obtain rfl : n = 0 := by omega
    exact ⟨by simp [writeLoop, stopOffset], rfl⟩
  | succ fuel ih =>
    unfold writeLoop
    by_cases hn : n = 0
    · subst hn
      exact ⟨by simp [stopOffset], rfl⟩
    rw [if_neg hn]
    obtain ⟨m, hm⟩ : ∃ m, m = min n (BSIZE - off % BSIZE) := ⟨_, rfl⟩
    have hlt : off % BSIZE < BSIZE := Nat.mod_lt _ (by decide)
    rw [← hm]
    by_cases hav : avail < m
    · rw [if_pos hav]
      exact ⟨(Io.stopOffset_fail (hm ▸ hav)).symm, writeRound_size⟩
    · rw [if_neg hav]
      have hfuel : n - m ≤ fuel := by omega
      exact ⟨(ih hfuel).1.trans (Io.stopOffset_round hm (by omega)),
        (ih hfuel).2.trans writeRound_size⟩

theorem writeRound_short (h : n < m) :
    (f.writeRound off m n src).cached = update f.cached (off / BSIZE)
        ((f.cached (off / BSIZE)).memmove (off % BSIZE) n src) ∧
      (f.writeRound off m n src).disk = f.disk := by
  unfold writeRound
  rw [if_pos h]
  exact ⟨rfl, rfl⟩

theorem writeRound_ofFile :
    (ofFile g).writeRound off m m src = ofFile (g.patch off m src) := by
  unfold writeRound
  rw [if_neg (lt_irrefl m)]
  rfl

end CachedFile

namespace Io

open CachedFile (ofFile)

/-! ### The code over the buffer cache -/

/-- In `t` no buffer is in use; the data blocks of the file on disk are those of `f`, and so are
the valid buffers; a block that differs from its buffer has one; everything else is as in `s`. -/
structure Shows (s : Io) (ip : InCore) (f : CachedFile) (t : Io) : Prop where
  holds : t.Holds []
  outside : t.outside = s.outside
  other : ∀ m, (∀ bn, bn * BSIZE < ip.size → m ≠ s.blockFor ip bn) → t.disk m = s.disk m
  disk : ∀ bn, bn * BSIZE < ip.size → t.disk (s.blockFor ip bn) = f.disk bn
  clean : ∀ b, (t.cache.buf b).valid = true →
    (∀ bn, bn * BSIZE < ip.size → (t.cache.buf b).blockno ≠ s.blockFor ip bn) →
      (t.cache.buf b).data = s.disk (t.cache.buf b).blockno
  cached : ∀ b bn, (t.cache.buf b).valid = true → bn * BSIZE < ip.size →
    (t.cache.buf b).blockno = s.blockFor ip bn → (t.cache.buf b).data = f.cached bn
  present : ∀ bn, bn * BSIZE < ip.size → f.cached bn ≠ f.disk bn →
    ∃ b, (t.cache.buf b).valid = true ∧ (t.cache.buf b).blockno = s.blockFor ip bn

namespace Backed

variable {s t : Io} {ip : InCore} {f : File} {off n m c : ℕ}

theorem shows_file (h : s.Backed ip f t) : s.Shows ip (ofFile f) t where
  holds := h.coherent.holds
  outside := h.outside
  other := h.other
  disk := h.data
  clean b hv hbn := by
    rw [h.coherent.clean b hv (Set.notMem_empty b), h.other _ hbn]
  cached b bn hv hbn he := by
    rw [h.coherent.clean b hv (Set.notMem_empty b), he, h.data bn hbn]
    rfl
  present _ _ hne := absurd rfl hne

/-- A round in which `either_copyin` fails: what it has copied is in a buffer that
is not written. -/
theorem writeRound_torn (sb : Super) (hs : s.Solid ip) (h : s.Backed ip f t) (src : ℕ → UInt8)
    (hoff : off / BSIZE * BSIZE < ip.size) (hc : c < m) :
    ∃ b u, writeRound sb ip off m c src t = .ok (ip, u) ∧ u.Holds [] ∧ u.disk = t.disk ∧
      u.outside = t.outside ∧ (u.cache.buf b).valid = true ∧
      (u.cache.buf b).blockno = s.blockFor ip (off / BSIZE) ∧
      (u.cache.buf b).data = (f.block (off / BSIZE)).memmove (off % BSIZE) c src ∧
      ∀ x, x ≠ b → (u.cache.buf x).valid = true →
        (u.cache.buf x).data = t.disk (u.cache.buf x).blockno := by
  obtain ⟨hreach, hplace⟩ := h.reaches hs hoff
  obtain ⟨t1, h1, hc1⟩ := h.cleanAt.bmap_runs sb (hs.lt_maxfile hoff) hreach
  obtain ⟨hcoh, hdisk, hout⟩ := hc1.clean
  rw [hplace] at h1
  obtain ⟨b, t2, h2⟩ := hcoh.exists_bread (fun x hx => absurd hx List.not_mem_nil)
    (by decide : ([] : List (Fin NBUF)).length < NBUF)
  obtain ⟨-, hcoh2, hdisk2, hout2, hbno2, hdata2, -⟩ := hcoh.bread_ok h2
  rw [hdisk, h.data _ hoff] at hdata2
  have hcoh3 := hcoh2.modify_data List.mem_cons_self (·.memmove (off % BSIZE) c src)
  obtain ⟨u, h4, hholds, hdisk4, hout4, hself, hother⟩ := hcoh3.holds.brelse_ok List.mem_cons_self
  rw [List.erase_cons_head] at hholds
  refine ⟨b, u, ?_, hholds, by rw [hdisk4, hdisk2, hdisk], by rw [hout4, hout2, hout], ?_, ?_, ?_,
    fun x hx hv => ?_⟩
  · unfold writeRound
    rw [Program.bind_ok h1]
    dsimp only
    rw [Program.bind_ok h2, Program.bind_ok rfl, if_pos hc, Program.bind_ok h4]
    rfl
  · rw [hself]
    exact (hcoh3.locked b List.mem_cons_self).2.2
  · rw [hself]
    simpa using hbno2
  · rw [hself]
    simp [hdata2]
  · rw [hother x hx] at hv ⊢
    rw [hcoh3.clean x hv (by simpa using hx)]
    rw [hdisk2, hdisk]

theorem writeRound_shows (sb : Super) (hs : s.Solid ip) (h : s.Backed ip f t) (src : ℕ → UInt8)
    (hoff : off / BSIZE * BSIZE < ip.size) (hc : c < m) :
    ∃ u, writeRound sb ip off m c src t = .ok (ip, u) ∧
      s.Shows ip ((ofFile f).writeRound off m c src) u := by
  obtain ⟨b, u, hr, hholds, hdisk, hout, hvalid, hbno, hdata, hrest⟩ :=
    h.writeRound_torn sb hs src hoff hc
  obtain ⟨hcached, hfile⟩ := CachedFile.writeRound_short hc
  refine ⟨u, hr, hholds, by rw [hout, h.outside], fun n hn => by rw [hdisk, h.other n hn],
    fun bn hbn => by rw [hdisk, h.data bn hbn, hfile]; rfl, fun x hv hne => ?_,
    fun x bn hv hbn he => ?_, fun bn hbn hne => ?_⟩
  · have hx : x ≠ b := by
      rintro rfl
      exact hne _ hoff hbno
    rw [hrest x hx hv, h.other _ hne]
  · rw [hcached]
    by_cases hx : x = b
    · subst hx
      obtain rfl := hs.blockFor_injective hbn hoff (he.symm.trans hbno)
      rw [hdata, update_self]
      rfl
    · have hbn' : bn ≠ off / BSIZE := by
        rintro rfl
        exact hx (hholds.blockno_inj hv hvalid (he.trans hbno.symm))
      rw [hrest x hx hv, he, h.data bn hbn, update_of_ne hbn']
      rfl
  · obtain rfl : bn = off / BSIZE := by
      by_contra hbn'
      rw [hcached, hfile, update_of_ne hbn'] at hne
      exact hne rfl
    exact ⟨b, hvalid, hbno⟩

/-- **The loop of `ext2fs_writei`**, however many bytes can be copied in. -/
theorem writeLoop_shows (sb : Super) (hs : s.Solid ip) (h : s.Backed ip f t) {fuel : ℕ}
    (hfuel : n ≤ fuel) (hend : off + n ≤ ip.size) (avail : ℕ) (src : ℕ → UInt8) :
    ∃ u, writeLoop sb fuel ip off n avail src t =
        .ok (((CachedFile.writeLoop fuel (ofFile f) off n avail src).1, ip), u) ∧
      s.Shows ip (CachedFile.writeLoop fuel (ofFile f) off n avail src).2 u := by
  induction fuel generalizing f t off n avail src with
  | zero => exact ⟨t, rfl, h.shows_file⟩
  | succ fuel ih =>
    unfold writeLoop CachedFile.writeLoop
    by_cases hn : n = 0
    · rw [if_pos hn, if_pos hn]
      exact ⟨t, rfl, h.shows_file⟩
    rw [if_neg hn, if_neg hn]
    obtain ⟨m, hm⟩ : ∃ m, m = min n (BSIZE - off % BSIZE) := ⟨_, rfl⟩
    rw [← hm]
    have hlt : off % BSIZE < BSIZE := Nat.mod_lt _ (by decide)
    have hoff : off / BSIZE * BSIZE < ip.size := (Nat.div_mul_le_self _ _).trans_lt (by omega)
    by_cases hav : avail < m
    · rw [if_pos hav]
      obtain ⟨u, hr, hu⟩ := h.writeRound_shows sb hs src hoff (by omega : min m avail < m)
      refine ⟨u, ?_, hu⟩
      rw [Program.bind_ok hr, if_pos hav]
      rfl
    · rw [if_neg hav, Nat.min_eq_left (by omega), CachedFile.writeRound_ofFile]
      obtain ⟨t1, h1, hb1⟩ := h.writeRound_runs sb hs m src hoff
      obtain ⟨u, hr, hu⟩ := ih hb1 (by omega)
        (by omega : off + m + (n - m) ≤ ip.size) (avail - m) fun k => src (k + m)
      refine ⟨u, ?_, hu⟩
      rw [Program.bind_ok h1, if_neg hav]
      exact hr

/-- **`ext2fs_writei` inside the file is `CachedFile.writei`.** -/
theorem writei_shows (sb : Super) (hs : s.Solid ip) (h : s.Backed ip f t)
    (hend : off + n ≤ ip.size) (hsize : f.size = ip.size) (avail : ℕ) (src : ℕ → UInt8) :
    ∃ u, ext2fsWritei sb ip off n avail src t =
        .ok ((((ofFile f).writei off n avail src).1, ip), u) ∧
      s.Shows ip ((ofFile f).writei off n avail src).2 u := by
  have hn := hs.lt hend
  have hoff : off ≤ (ofFile f).size := ((Nat.le_add_right _ _).trans hend).trans_eq hsize.symm
  obtain ⟨u, hr, hu⟩ := h.writeLoop_shows sb hs le_rfl hend avail src
  obtain ⟨hstop, hkept⟩ : (CachedFile.writeLoop n (ofFile f) off n avail src).1 =
      stopOffset off n avail ∧
    (CachedFile.writeLoop n (ofFile f) off n avail src).2.size = f.size :=
    CachedFile.writeLoop_off le_rfl
  have hle := stopOffset_le off n avail
  rw [CachedFile.writei_accepted hoff hn, if_neg (by omega)]
  exact ⟨u, writei_inside hs hend (hstop.trans_le hle) hr, hu⟩

/-- Four of ten bytes can be copied in. -/
theorem writei_shows_four : ∃ u, ext2fsWritei sampleSuper blockInode 0 10 4 (fun _ => 65)
    (holeIo 1024) = .ok ((10, blockInode), u) := by
  obtain ⟨u, hr, -⟩ := writei_shows sampleSuper solid_blockInode (backed_self (coherent_binit _ _))
    (by decide : 0 + 10 ≤ 1024) rfl 4 fun _ => 65
  exact ⟨u, hr⟩

end Backed

/-! ### The counts -/

/-- `max` in `filewrite`. -/
def chunkMax : ℕ := (MAXOPBLOCKS - 1 - 1 - 2) / 2 * BSIZE

/-- The loop of `filewrite` from `i` on, for at most `fuel` rounds: `i`, `f->off` and the inode when
it ends. -/
def filewriteLoop (sb : Super) (n : ℤ) (avail : ℕ) (src : ℕ → UInt8) :
    ℕ → ℕ → ℕ → InCore → IoM (ℕ × ℕ × InCore)
  | 0, i, off, ip => pure (i, off, ip)
  | fuel + 1, i, off, ip => do
    if (i : ℤ) < n then
      let n1 := min (n - i).toNat chunkMax
      let (r, ip) ← ext2fsWritei sb ip off n1 (avail - i) fun k => src (k + i)
      let off := if 0 < r then (off + r.toNat) % 2 ^ 32 else off
      if r ≠ n1 then pure (i, off, ip)
      else filewriteLoop sb n avail src fuel (i + r.toNat) off ip
    else pure (i, off, ip)

/-- `filewrite` on a file of type `FD_INODE`: the result, `f->off` and the inode. -/
def filewrite (sb : Super) (writable : Bool) (ip : InCore) (off : ℕ) (n : ℤ) (avail : ℕ)
    (src : ℕ → UInt8) : IoM (ℤ × ℕ × InCore) := do
  if writable = false then pure (-1, off, ip)
  else
    let (i, off, ip) ← filewriteLoop sb n avail src n.toNat 0 off ip
    pure (if (i : ℤ) = n then n else -1, off, ip)

section Counts

variable {s t : Io} {ip : InCore} {f : File} {off n m avail : ℕ} {src : ℕ → UInt8}

end Counts

end Io

end Cinux
