import Cinux.Ext2.Coherence

/-!
# Accesses outside the buffers

The driver computes offsets into `bp->data` from superblock fields and never compares them with
`BSIZE`.  Here its functions are run with every access checked: `ilockChecked` and the others are
the functions of `Ext2.Alloc` and `Ext2.Driver` in which an access outside the 1024 bytes of a
buffer stops the run (`Fault.overrun`).  As long as this does not happen they do what the originals
do (`BufCall.follows`).

`bufCall_inBounds` says exactly when it does not happen.
-/

namespace Cinux

/-- How a checked run stops. -/
inductive Fault where
  | stop (e : Stop)
  /-- An access through a buffer is not inside its data. -/
  | overrun

/-- Code that uses buffers, with checks. -/
abbrev CheckedM := Program Fault Io

variable {α : Type}

namespace Io

open Program (mapStop Follows)

/-- Code without accesses to the data of a buffer. -/
abbrev unchecked {α : Type} (m : IoM α) : CheckedM α := mapStop Fault.stop m

/-- An access to `len` bytes at `bp->data + off`. -/
def access (off : ℤ) (len : ℕ) : CheckedM Unit :=
  if 0 ≤ off ∧ off + len ≤ BSIZE then pure () else throw .overrun

/-- `sizeof(struct ext2_group_desc)`. -/
def sizeofGroupDesc : ℕ := 4 * groupDescWords

/-- Reading in the descriptor of a group, of which word `w` is used. -/
def descChecked (gno w : ℕ) : CheckedM ℕ := do
  let bp ← unchecked (bread 2)
  access (gno * sizeofGroupDesc : ℕ) sizeofGroupDesc
  let v ← unchecked (load bp (gno * groupDescWords + w))
  unchecked (brelse bp)
  pure v

/-- `ext2fs_ilock`. -/
def ilockChecked (sb : Super) (ip : InCore) : CheckedM InCore := do
  if ip.valid then pure ip
  else
    let table ← descChecked (sb.groupNo ip.inum) bgInodeTable
    let bp1 ← unchecked (bread ((table + sb.inodeIndex ip.inum / sb.inodesPerBlock) % 2 ^ 32))
    access (sb.inodeOffset ip.inum) sizeofExt2Inode
    let d ← unchecked (data bp1)
    unchecked (brelse bp1)
    pure (ip.readDin fun k => d.byte (sb.inodeOffset ip.inum + k))

/-- `ext2fs_iupdate`, which reads the inode and stores it back. -/
def iupdateChecked (sb : Super) (ip : InCore) : CheckedM Unit := do
  let table ← descChecked (sb.groupNo ip.inum) bgInodeTable
  let bp1 ← unchecked (bread ((table + sb.inodeIndex ip.inum / sb.inodesPerBlock) % 2 ^ 32))
  access (sb.inodeOffset ip.inum) sizeofExt2Inode
  unchecked (modifyData bp1 fun d =>
    d.memmove (sb.inodeOffset ip.inum) sizeofExt2Inode
      (ip.dinByte fun k => d.byte (sb.inodeOffset ip.inum + k)))
  unchecked (bwrite bp1)
  unchecked (brelse bp1)

/-- Clearing a bit of a bitmap. -/
def clearBitmapChecked (bp : Fin NBUF) (index : ℤ) (msg : String) : CheckedM Unit := do
  access (index.tdiv 8) 1
  unchecked (clearBitmap bp index msg)

/-- `ext2fs_ifree`. -/
def ifreeChecked (sb : Super) (ip : InCore) : CheckedM Unit := do
  let bitmap ← descChecked (sb.groupNo ip.inum) bgInodeBitmap
  let bp2 ← unchecked (bread bitmap)
  clearBitmapChecked bp2 (toInt32 (sb.inodeIndex ip.inum)) "ext2fs_ifree: inode already free"
  unchecked (brelse bp2)

/-- The loops of `ext2fs_free_block`, for `n` bytes from byte `i` on. -/
def scanChecked (bp : Fin NBUF) : ℕ → ℕ → CheckedM (Option (ℕ × ℕ))
  | 0, _ => pure none
  | n + 1, i => do
    access i 1
    let byte ← unchecked (getByteAt bp i)
    match clearBit byte with
    | some j => pure (some (i, j))
    | none => scanChecked bp n (i + 1)

/-- The rest of `ext2fs_free_block`, which marks the bit that was found. -/
def markChecked (bp : Fin NBUF) : Option (ℕ × ℕ) → CheckedM (Option ℕ)
  | none => pure none
  | some (i, j) => do
    access i 1
    let byte ← unchecked (getByteAt bp i)
    unchecked (setByteAt bp i (byte ||| UInt8.ofNat (2 ^ (7 - j))))
    pure (some (i * 8 + j))

/-- `ext2fs_free_block`. -/
def freeBlockChecked (sb : Super) (bp : Fin NBUF) : CheckedM (Option ℕ) := do
  markChecked bp (← scanChecked bp sb.scanBytes 0)

/-- `ext2fs_bzero`. -/
def bzeroChecked (bno : ℕ) : CheckedM Unit := do
  let bp ← unchecked (bread bno)
  access 0 BSIZE
  unchecked (modifyData bp fun _ => Block.zero)
  unchecked (bwrite bp)
  unchecked (brelse bp)

/-- The second half of `ext2fs_balloc`. -/
def takeBlockChecked (sb : Super) (bitmap : ℕ) (bp2 : Fin NBUF) : CheckedM ℕ := do
  match ← freeBlockChecked sb bp2 with
  | some fbit =>
    unchecked (bwrite bp2)
    bzeroChecked ((bitmap + fbit) % 2 ^ 32)
    unchecked (brelse bp2)
    pure ((bitmap + fbit) % 2 ^ 32)
  | none =>
    unchecked (brelse bp2)
    unchecked (throw (.panic "ext2_balloc: out of blocks"))

/-- `ext2fs_balloc`. -/
def ballocChecked (sb : Super) (inum : ℕ) : CheckedM ℕ := do
  let bitmap ← descChecked (sb.groupNo inum) bgBlockBitmap
  let bp2 ← unchecked (bread bitmap)
  takeBlockChecked sb bitmap bp2

/-- `ext2fs_bfree`. -/
def bfreeChecked (sb : Super) (b : ℕ) : CheckedM Unit := do
  let bp1 ← unchecked (bread 2)
  access (sb.groupNo b * sizeofGroupDesc : ℕ) sizeofGroupDesc
  let bitmap ← unchecked (load bp1 (sb.groupNo b * groupDescWords + bgBlockBitmap))
  let bp2 ← unchecked (bread bitmap)
  clearBitmapChecked bp2 (toInt32 (sb.inodeIndex b - bitmap)) "ext2fs_bfree: block already free"
  unchecked (brelse bp2)
  unchecked (brelse bp1)

/-! ### The checks change nothing else -/

theorem access_cases (off : ℤ) (len : ℕ) (s : Io) :
    access off len s = .error .overrun ∨ access off len s = .ok ((), s) := by
  unfold access
  split_ifs
  · exact .inr rfl
  · exact .inl rfl

/-- `c` is `m` with checks. -/
abbrev Checks {α : Type} (c : CheckedM α) (m : IoM α) : Prop := Follows Fault.stop .overrun c m

theorem checks_access {c : CheckedM α} {m : IoM α} {off : ℤ} {len : ℕ} (h : Checks c m) :
    Checks (access off len >>= fun _ => c) m := Follows.check (access_cases off len) h

theorem checks_desc {k : ℕ → CheckedM α} {f : ℕ → IoM α} (gno w : ℕ)
    (h : ∀ v, Checks (k v) (f v)) :
    Checks (descChecked gno w >>= k) (do
      let bp ← bread 2
      let v ← load bp (gno * groupDescWords + w)
      brelse bp
      f v) := by
  unfold descChecked
  simp only [bind_assoc, pure_bind]
  exact .bind .lift fun bp => checks_access (.bind .lift fun v => .bind .lift fun _ => h v)

theorem checks_ilock (sb : Super) (ip : InCore) :
    Checks (ilockChecked sb ip) (ext2fsIlock sb ip) := by
  unfold ilockChecked ext2fsIlock
  split_ifs
  · exact .pure
  · exact checks_desc _ _ fun table => .bind .lift fun bp1 =>
      checks_access (.bind .lift fun d => .bind .lift fun _ => .pure)

theorem checks_iupdate (sb : Super) (ip : InCore) :
    Checks (iupdateChecked sb ip) (ext2fsIupdate sb ip) :=
  checks_desc _ _ fun _ => .bind .lift fun _ =>
    checks_access (.bind .lift fun _ => .bind .lift fun _ => .lift)

theorem checks_clearBitmap (bp : Fin NBUF) (index : ℤ) (msg : String) :
    Checks (clearBitmapChecked bp index msg) (clearBitmap bp index msg) := checks_access .lift

theorem checks_ifree (sb : Super) (ip : InCore) :
    Checks (ifreeChecked sb ip) (ext2fsIfree sb ip) :=
  checks_desc _ _ fun _ => .bind .lift fun _ => .bind (checks_clearBitmap _ _ _) fun _ => .lift

theorem checks_bfree (sb : Super) (b : ℕ) : Checks (bfreeChecked sb b) (ext2fsBfree sb b) :=
  .bind .lift fun _ => checks_access (.bind .lift fun _ => .bind .lift fun _ =>
    .bind (checks_clearBitmap _ _ _) fun _ => .bind .lift fun _ => .lift)

/-- The result of `scanChecked`, computed at once as in `scanBitmap`. -/
def scanFrom (bp : Fin NBUF) (n i : ℕ) : IoM (Option (ℕ × ℕ)) := fun s =>
  .ok (firstClear (fun k => s.byteAt bp k) n i, s)

theorem scanFrom_succ (bp : Fin NBUF) (n i : ℕ) :
    scanFrom bp (n + 1) i = (do
      let byte ← getByteAt bp i
      match clearBit byte with
      | some j => pure (some (i, j))
      | none => scanFrom bp n (i + 1)) := by
  funext s
  have hget : getByteAt bp i s = .ok (s.byteAt bp i, s) := rfl
  rw [Program.bind_ok hget, scanFrom, firstClear]
  cases clearBit (s.byteAt bp i) <;> rfl

theorem checks_scan (bp : Fin NBUF) (n i : ℕ) :
    Checks (scanChecked bp n i) (scanFrom bp n i) := by
  induction n generalizing i with
  | zero => exact .pure
  | succ n ih =>
    rw [scanFrom_succ]
    refine checks_access (.bind .lift fun byte => ?_)
    cases clearBit byte with
    | some j => exact .pure
    | none => exact ih (i + 1)

theorem checks_freeBlock (sb : Super) (bp : Fin NBUF) :
    Checks (freeBlockChecked sb bp) (ext2fsFreeBlock sb bp) := by
  refine .bind (checks_scan bp sb.scanBytes 0) fun r => ?_
  cases r with
  | none => exact .pure
  | some r => exact checks_access (.bind .lift fun _ => .bind .lift fun _ => .pure)

theorem checks_bzero (bno : ℕ) : Checks (bzeroChecked bno) (ext2fsBzero bno) :=
  .bind .lift fun _ => checks_access (.bind .lift fun _ => .bind .lift fun _ => .lift)

theorem checks_balloc (sb : Super) (inum : ℕ) :
    Checks (ballocChecked sb inum) (ext2fsBalloc sb inum) := by
  refine checks_desc _ _ fun _ => .bind .lift fun _ => .bind (checks_freeBlock _ _) fun r => ?_
  cases r with
  | none => exact .bind .lift fun _ => .lift
  | some _ => exact .bind .lift fun _ => .bind (checks_bzero _) fun _ => .bind .lift fun _ => .pure

/-! ### Runs without an overrun -/

section Stays

variable {α β : Type} {m : IoM α} {f : α → CheckedM β} {c : CheckedM β} {s s' : Io} {a : α}
  {off : ℤ} {len : ℕ}

/-- From `s`, no access of `c` is outside a buffer. -/
def Stays (c : CheckedM α) (s : Io) : Prop := c s ≠ .error .overrun

theorem stays_pure (b : β) : Stays (pure b) s := by
  intro h
  cases h

theorem stays_unchecked : Stays (unchecked m) s := by
  intro h
  cases hm : m s with
  | error e =>
    rw [unchecked, Program.mapStop_error hm] at h
    cases h
  | ok r =>
    rw [unchecked, Program.mapStop_ok hm] at h
    cases h

theorem stays_ok (h : m s = .ok (a, s')) : Stays (unchecked m >>= f) s ↔ Stays (f a) s' := by
  unfold Stays
  rw [Program.bind_ok (Program.mapStop_ok h)]

theorem stays_error {e : Stop} (h : m s = .error e) : Stays (unchecked m >>= f) s := by
  unfold Stays
  rw [Program.bind_error (Program.mapStop_error h)]
  intro he
  cases he

theorem stays_bind (h : ∀ a s', m s = .ok (a, s') → Stays (f a) s') :
    Stays (unchecked m >>= f) s := by
  cases hm : m s with
  | error e => exact stays_error hm
  | ok r => exact (stays_ok hm).2 (h r.1 r.2 hm)

theorem stays_access :
    Stays (access off len >>= fun _ => c) s ↔ (0 ≤ off ∧ off + len ≤ BSIZE) ∧ Stays c s := by
  unfold access
  split_ifs with h
  · simp only [pure_bind, h, true_and, and_self]
  · refine iff_of_false (fun hs => hs rfl) fun hs => h hs.1

end Stays

section Calls

variable {s : Io} {held : List (Fin NBUF)} {b : Fin NBUF} {sb : Super} {ip : InCore}
  {n k w gno inum : ℕ}

theorem Coherent.stays_bread {f : Fin NBUF → CheckedM α} {P : Prop}
    (h : s.Coherent held ∅) (hn : ∀ b ∈ held, (s.cache.buf b).blockno ≠ n)
    (hlen : held.length < NBUF)
    (hf : ∀ bp s', s'.Coherent (bp :: held) ∅ → (s'.cache.buf bp).blockno = n →
      s'.disk = s.disk → s'.outside = s.outside →
      (∀ x ∈ held, s'.cache.buf x = s.cache.buf x) → (Stays (f bp) s' ↔ P)) :
    Stays (unchecked (bread n) >>= f) s ↔ P := by
  obtain ⟨bp, s', hr⟩ := h.exists_bread hn hlen
  obtain ⟨-, hc, hd, ho, hbno, -, hsame⟩ := h.bread_ok hr
  rw [stays_ok hr]
  exact hf bp s' hc hbno hd ho hsame

theorem access_desc :
    (0 : ℤ) ≤ (gno * sizeofGroupDesc : ℕ) ∧
      ((gno * sizeofGroupDesc : ℕ) : ℤ) + sizeofGroupDesc ≤ BSIZE ↔ gno < 32 := by
  simp only [sizeofGroupDesc, groupDescWords, BSIZE]
  omega

theorem Coherent.stays_desc {f : ℕ → CheckedM α} {P : Prop} (h : s.Coherent [] ∅)
    (hf : ∀ s', s'.Coherent [] ∅ → s'.disk = s.disk → s'.outside = s.outside →
      (Stays (f (le32 (fun i => s.blockByte 2 i) (4 * (gno * groupDescWords + w)))) s' ↔ P)) :
    Stays (descChecked gno w >>= f) s ↔ gno < 32 ∧ P := by
  unfold descChecked
  simp only [bind_assoc, pure_bind]
  refine h.stays_bread (by simp) (by decide) fun bp s1 hc hbno hd ho _ => ?_
  have hload := hc.load_clean (by simp) (Set.notMem_empty bp) (gno * groupDescWords + w)
  rw [hbno, blockByte_congr hd ho] at hload
  obtain ⟨s2, h2, hc2, hd2, ho2, -⟩ := hc.brelse_head
  rw [stays_access, access_desc, stays_ok hload, stays_ok h2]
  exact and_congr_right fun _ => hf s2 hc2 (hd2.trans hd) (ho2.trans ho)

theorem Coherent.stays_record (h : s.Coherent [] ∅) {f : Fin NBUF → CheckedM α}
    {off len : ℕ} (hf : ∀ bp s', Stays (f bp) s') :
    Stays (do let bp ← unchecked (bread n); access off len; f bp) s ↔ off + len ≤ BSIZE := by
  refine h.stays_bread (by simp) (by decide) fun bp s1 _ _ _ _ _ => ?_
  rw [stays_access]
  have : (0 : ℤ) ≤ off ∧ (off : ℤ) + len ≤ BSIZE ↔ off + len ≤ BSIZE := by omega
  rw [this]
  exact and_iff_left (hf bp s1)

theorem Coherent.stays_ilock (h : s.Coherent [] ∅) :
    Stays (ilockChecked sb ip) s ↔ ip.valid = true ∨
      sb.groupNo ip.inum < 32 ∧ sb.inodeOffset ip.inum + sizeofExt2Inode ≤ BSIZE := by
  unfold ilockChecked
  split_ifs with hv
  · exact iff_of_true (stays_pure _) (.inl hv)
  · rw [or_iff_right hv]
    refine h.stays_desc fun s' hc _ _ => hc.stays_record fun bp s1 => ?_
    exact stays_bind fun _ _ _ => stays_bind fun _ _ _ => stays_pure _

theorem Coherent.stays_iupdate (h : s.Coherent [] ∅) :
    Stays (iupdateChecked sb ip) s ↔
      sb.groupNo ip.inum < 32 ∧ sb.inodeOffset ip.inum + sizeofExt2Inode ≤ BSIZE := by
  refine h.stays_desc fun s' hc _ _ => hc.stays_record fun bp s1 => ?_
  exact stays_bind fun _ _ _ => stays_bind fun _ _ _ => stays_unchecked

theorem stays_clearBitmap {f : CheckedM α} {index : ℤ} {msg : String}
    (hf : ∀ s', Stays f s') :
    Stays (clearBitmapChecked b index msg >>= fun _ => f) s ↔
      0 ≤ index.tdiv 8 ∧ index.tdiv 8 < BSIZE := by
  unfold clearBitmapChecked
  rw [bind_assoc, stays_access, and_iff_left (stays_bind fun _ s' _ => hf s')]
  omega

theorem Coherent.stays_ifree (h : s.Coherent [] ∅) :
    Stays (ifreeChecked sb ip) s ↔ sb.groupNo ip.inum < 32 ∧ IfreeInside sb ip := by
  refine h.stays_desc fun s' hc _ _ =>
    hc.stays_bread (by simp) (by decide) fun bp s1 _ _ _ _ _ => ?_
  exact stays_clearBitmap fun _ => stays_unchecked

theorem Coherent.stays_bfree (h : s.Coherent [] ∅) {a : ℕ} :
    Stays (bfreeChecked sb a) s ↔
      sb.groupNo a < 32 ∧ (s.groupBitmap sb a = 2 ∨ s.BfreeInside sb a) := by
  refine h.stays_bread (by simp) (by decide) fun bp1 s1 hc hbno hd ho _ => ?_
  have hload : load bp1 (sb.groupNo a * groupDescWords + bgBlockBitmap) s1 =
      .ok (s.groupBitmap sb a, s1) := by
    rw [hc.load_clean (by simp) (Set.notMem_empty bp1), hbno, blockByte_congr hd ho]
    rfl
  rw [stays_access, access_desc, stays_ok hload]
  refine and_congr_right fun _ => ?_
  by_cases h2 : s.groupBitmap sb a = 2
  · have hwait := hc.bread_held (by simp) (hbno.trans h2.symm)
    exact iff_of_true (stays_error hwait) (.inl h2)
  · rw [or_iff_right h2]
    have hother : ∀ b ∈ [bp1], (s1.cache.buf b).blockno ≠ s.groupBitmap sb a := by
      intro b hb
      rw [List.mem_singleton.1 hb, hbno]
      exact Ne.symm h2
    refine hc.stays_bread hother (by decide : 1 < NBUF) fun bp2 s2 _ _ _ _ _ => ?_
    exact stays_clearBitmap fun _ => stays_bind fun _ _ _ => stays_unchecked

/-- A scan that ends with `r`, at the latest before byte `n`, stays inside the buffer. -/
def ScanInside (r : Option (ℕ × ℕ)) (n : ℕ) : Prop :=
  match r with
  | some (i, _) => i < BSIZE
  | none => n ≤ BSIZE

variable {mem : ℕ → UInt8}

theorem not_scanInside (hk : BSIZE ≤ k) (n : ℕ) :
    ¬ScanInside (firstClear mem (n + 1) k) (k + (n + 1)) := by
  unfold ScanInside
  cases hr : firstClear mem (n + 1) k with
  | none =>
    omega
  | some r =>
    have hge : k ≤ r.1 := (firstClear_found hr).1.1
    omega

theorem stays_scan {f : Option (ℕ × ℕ) → CheckedM α} (hmem : ∀ i : ℕ, s.byteAt b i = mem i)
    (n k : ℕ) (hk : k ≤ BSIZE) :
    Stays (scanChecked b n k >>= f) s ↔
      ScanInside (firstClear mem n k) (k + n) ∧ Stays (f (firstClear mem n k)) s := by
  induction n generalizing k with
  | zero => exact (and_iff_right hk).symm
  | succ n ih =>
    have hget : getByteAt b k s = .ok (mem k, s) := by
      rw [← hmem]
      rfl
    have hpos : (0 : ℤ) ≤ k ∧ (k : ℤ) + (1 : ℕ) ≤ BSIZE ↔ k < BSIZE := by omega
    unfold scanChecked
    simp only [bind_assoc]
    rw [stays_access, stays_ok hget, hpos]
    by_cases hlt : k < BSIZE
    · rw [and_iff_right hlt, firstClear]
      cases hb : clearBit (mem k) with
      | some j => exact (and_iff_right hlt).symm
      | none =>
        rw [show k + (n + 1) = k + 1 + n by omega]
        exact ih (k + 1) hlt
    · exact iff_of_false (fun h => hlt h.1) fun h => not_scanInside (by omega) n h.1

theorem stays_mark {f : Option ℕ → CheckedM α} {r : Option (ℕ × ℕ)}
    (hf : ∀ r s', Stays (f r) s') (hin : ScanInside r n) : Stays (markChecked b r >>= f) s := by
  cases r with
  | none => exact hf none s
  | some r =>
    have hi : r.1 < BSIZE := hin
    unfold markChecked
    simp only [bind_assoc, pure_bind]
    refine stays_access.2 ⟨⟨by omega, by omega⟩, ?_⟩
    exact stays_bind fun _ _ _ => stays_bind fun _ s' _ => hf _ s'

theorem stays_freeBlock {f : Option ℕ → CheckedM α} (hmem : ∀ i : ℕ, s.byteAt b i = mem i)
    (hf : ∀ r s', Stays (f r) s') :
    Stays (freeBlockChecked sb b >>= f) s ↔
      ScanInside (firstClear mem sb.scanBytes 0) sb.scanBytes := by
  unfold freeBlockChecked
  rw [bind_assoc, stays_scan hmem _ _ (Nat.zero_le _), Nat.zero_add]
  exact and_iff_left_of_imp (stays_mark hf)

theorem stays_bzero {f : Unit → CheckedM α} (hf : ∀ s', Stays (f ()) s') :
    Stays (bzeroChecked n >>= f) s := by
  unfold bzeroChecked
  simp only [bind_assoc]
  refine stays_bind fun bp s1 _ => stays_access.2 ⟨by decide, ?_⟩
  exact stays_bind fun _ _ _ => stays_bind fun _ _ _ => stays_bind fun _ s' _ => hf s'

theorem Coherent.stays_balloc (h : s.Coherent [] ∅) :
    Stays (ballocChecked sb inum) s ↔
      sb.groupNo inum < 32 ∧ ScanInside (s.scan sb inum) sb.scanBytes := by
  refine h.stays_desc fun s' hc hd ho =>
    hc.stays_bread (by simp) (by decide) fun bp s1 hc1 hbno hd1 ho1 _ => ?_
  have hmem := fun i : ℕ => hc1.byteAt_eq (by simp) (Set.notMem_empty bp) i
  rw [hbno, blockByte_congr (hd1.trans hd) (ho1.trans ho)] at hmem
  refine stays_freeBlock hmem fun r s2 => ?_
  cases r with
  | none => exact stays_bind fun _ _ _ => stays_unchecked
  | some fbit =>
    exact stays_bind fun _ _ _ => stays_bzero fun _ => stays_bind fun _ _ _ => stays_pure _

end Calls

end Io

/-! ### The functions that go through the group descriptors -/

/-- A call of one of the functions. -/
inductive BufCall where
  | ilock (ip : InCore)
  | iupdate (ip : InCore)
  | ifree (ip : InCore)
  | balloc (inum : ℕ)
  | bfree (b : ℕ)

namespace BufCall

open Io

variable {s : Io} {sb : Super}

/-- The call, without its result. -/
def run (sb : Super) : BufCall → IoM Unit
  | ilock ip => do let _ ← ext2fsIlock sb ip
  | iupdate ip => ext2fsIupdate sb ip
  | ifree ip => ext2fsIfree sb ip
  | balloc inum => do let _ ← ext2fsBalloc sb inum
  | bfree b => ext2fsBfree sb b

/-- The call with every access checked. -/
def checked (sb : Super) : BufCall → CheckedM Unit
  | ilock ip => do let _ ← ilockChecked sb ip
  | iupdate ip => iupdateChecked sb ip
  | ifree ip => ifreeChecked sb ip
  | balloc inum => do let _ ← ballocChecked sb inum
  | bfree b => bfreeChecked sb b

/-- Every byte that the call reads or writes through a buffer is one of its 1024 bytes. -/
def InBounds (s : Io) (sb : Super) (c : BufCall) : Prop := Stays (c.checked sb) s

/-- The descriptor is in block 2, the record of the inode is not the last one of its block, the
scan ends inside the bitmap, and the bit to clear is in it. -/
def Fits (s : Io) (sb : Super) : BufCall → Prop
  | ilock ip => ip.valid = true ∨ sb.groupNo ip.inum < 32 ∧ sb.inodeIndex ip.inum % 8 ≠ 7
  | iupdate ip => sb.groupNo ip.inum < 32 ∧ sb.inodeIndex ip.inum % 8 ≠ 7
  | ifree ip => sb.groupNo ip.inum < 32
  | balloc inum => sb.groupNo inum < 32 ∧ ScanInside (s.scan sb inum) sb.scanBytes
  | bfree b => sb.groupNo b < 32 ∧ (s.groupBitmap sb b = 2 ∨ s.BfreeInside sb b)

theorem follows (sb : Super) (c : BufCall) : Checks (c.checked sb) (c.run sb) := by
  cases c with
  | ilock ip => exact .bind (checks_ilock sb ip) fun _ => .pure
  | iupdate ip => exact checks_iupdate sb ip
  | ifree ip => exact checks_ifree sb ip
  | balloc inum => exact .bind (checks_balloc sb inum) fun _ => .pure
  | bfree b => exact checks_bfree sb b

theorem stays_discard {c : CheckedM α} :
    Stays (do let _ ← c) s ↔ Stays c s := by
  unfold Stays
  cases hc : c s with
  | error e =>
    rw [Program.bind_error hc]
    simp
  | ok r =>
    rw [Program.bind_ok hc]
    exact iff_of_true (stays_pure ()) (by simp)

theorem record_inside (hsize : sb.sInodeSize = 128) (inum : ℕ) :
    sb.inodeOffset inum + sizeofExt2Inode ≤ BSIZE ↔ sb.inodeIndex inum % 8 ≠ 7 := by
  have hper : sb.inodesPerBlock = 8 := by
    unfold Super.inodesPerBlock
    rw [hsize]
    rfl
  unfold Super.inodeOffset
  rw [hper, hsize]
  simp only [sizeofExt2Inode, BSIZE]
  omega

theorem ifreeInside (hpos : 0 < sb.sInodesPerGroup) (hle : sb.sInodesPerGroup ≤ 8 * BSIZE)
    (ip : InCore) : IfreeInside sb ip := by
  have hlt : sb.inodeIndex ip.inum < 8 * BSIZE := (Nat.mod_lt _ hpos).trans_le hle
  have hfits : toInt32 (sb.inodeIndex ip.inum) = sb.inodeIndex ip.inum :=
    toInt32_of_fits (hlt.trans_le (by decide))
  unfold IfreeInside
  rw [hfits, Int.tdiv_eq_ediv_of_nonneg (by omega)]
  omega

theorem inBounds_iff (h : s.Coherent [] ∅) (hsize : sb.sInodeSize = 128)
    (hpos : 0 < sb.sInodesPerGroup) (hle : sb.sInodesPerGroup ≤ 8 * BSIZE) (c : BufCall) :
    c.InBounds s sb ↔ c.Fits s sb := by
  cases c with
  | ilock ip =>
    rw [InBounds, checked, stays_discard, h.stays_ilock, record_inside hsize]
    rfl
  | iupdate ip =>
    rw [InBounds, checked, h.stays_iupdate, record_inside hsize]
    rfl
  | ifree ip => exact h.stays_ifree.trans (and_iff_left (ifreeInside hpos hle ip))
  | balloc inum => exact stays_discard.trans h.stays_balloc
  | bfree b => exact h.stays_bfree

end BufCall

/-- **Accesses inside the buffers.**  On an image with inode records of 128 bytes and at most 8192
inodes a group, a call of `ext2fs_ilock`, `ext2fs_iupdate`, `ext2fs_ifree`, `ext2fs_balloc` or
`ext2fs_bfree` accesses only bytes of its buffers exactly when it fits; the checked call is then
the call itself. -/
theorem bufCall_inBounds (s : Io) (sb : Super) (h : s.Coherent [] ∅) (hsize : sb.sInodeSize = 128)
    (hpos : 0 < sb.sInodesPerGroup) (hle : sb.sInodesPerGroup ≤ 8 * BSIZE) (c : BufCall) :
    (c.InBounds s sb ↔ c.Fits s sb) ∧
      (c.InBounds s sb → c.checked sb s = Program.mapStop Fault.stop (c.run sb) s) :=
  ⟨c.inBounds_iff h hsize hpos hle, fun hin => (c.follows sb s).resolve_left hin⟩

/-- Inode 9 of a small file system fits. -/
theorem bufCall_inBounds_nine :
    BufCall.InBounds (Io.sampleIo 8 127) Io.sampleSuper (.ilock ⟨9, .file, 1, 1, false, 0, 0⟩) :=
  (bufCall_inBounds _ _ (Io.coherent_binit _ _) rfl (by decide) (by decide) _).1.2
  (.inr (by decide))

/-- **The record of inode 8 ends after its block.** -/
theorem ilock_overruns :
    Io.sampleSuper.Standard (Io.sampleIo 8 127).disk (fun _ => True) ∧
      Io.sampleSuper.sInodeSize = 128 ∧ 1 ≤ 8 ∧
      8 ≤ Io.sampleSuper.groups * Io.sampleSuper.sInodesPerGroup ∧
      (Io.sampleIo 8 127).Coherent [] ∅ ∧
      ¬BufCall.InBounds (Io.sampleIo 8 127) Io.sampleSuper
        (.ilock ⟨8, .file, 1, 1, false, 0, 0⟩) := by
  have hc : (Io.sampleIo 8 127).Coherent [] ∅ := Io.coherent_binit _ _
  refine ⟨Io.standard_sampleDisk_good, rfl, by decide, by decide, hc, fun hin => ?_⟩
  have hfits := (BufCall.inBounds_iff hc rfl (by decide) (by decide) _).1 hin
  revert hfits
  unfold BufCall.Fits
  decide

end Cinux
