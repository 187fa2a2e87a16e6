import Cinux.Ext2.Owned

/-!
# The path to a block of a file

A block of an ext2 file is found through pointers: its number gives a place in `i_block` and a place
in each pointer block below it, the digits of the number to the base 256 (`standardPath`).
`ext2fs_bmap` goes the path that `Io.pointers` computes, and this is the standard one for direct,
single and double indirect blocks.  For triple indirect blocks the quotient and the remainder by
`EXT2_DINDIRECT` are computed with a product that has lost its parentheses, and the path is the
standard one only for the very first of them: `Io.bmap_path`.

* `Io.ext2fsBmap_eq` : `ext2fs_bmap` follows `Io.pointers`, whether or not it has to allocate;
* `Io.pointers_eq_iff` : where this is the standard path;
* `Io.bmap_injective` : then two blocks of a file are never the same block of the disk.
-/

namespace Cinux

open List

/-- The standard path to block `bn` of a file: the place in `i_block`, and the places in the pointer
blocks below it. -/
def standardPath (bn : ℕ) : ℕ × List ℕ :=
  if bn < 12 then (bn, [])
  else if bn - 12 < 256 then (12, [bn - 12])
  else if bn - 268 < 65536 then (13, [(bn - 268) / 256, (bn - 268) % 256])
  else (14, [(bn - 65804) / 65536, (bn - 65804) / 256 % 256, (bn - 65804) % 256])

/-- The last block whose path `ext2fs_bmap` computes as it should. -/
def lastStandard : ℕ := 65804

namespace Io

variable {s s' : Io} {sb : Super} {ip : InCore} {bn bn' a : ℕ}

/-! ### The path that the code goes -/

/-- From block `addr` follow the pointers at the places `ks`, then release the pointer blocks, those
in `held` first. -/
def walk (sb : Super) (ip : InCore) : List (Fin NBUF) → ℕ → List ℕ → IoM ℕ
  | held, addr, [] => do
    held.forM brelse
    pure addr
  | held, addr, k :: ks => do
    let bp ← bread addr
    let addr ← mapEntry sb ip bp k
    walk sb ip (held ++ [bp]) addr ks

/-- `ext2fs_bmap` along a path. -/
def bmapPath (sb : Super) (ip : InCore) (path : ℕ × List ℕ) : IoM (ℕ × InCore) := do
  let (addr, ip) ← mapAddr sb ip path.1
  let addr ← walk sb ip [] addr path.2
  pure (addr, ip)

theorem ext2fsBmap_eq (sb : Super) (ip : InCore) (hbn : bn < EXT2_MAXFILE) :
    ext2fsBmap sb ip bn = bmapPath sb ip (pointers bn) := by
  have hbound : bn - EXT2_NDIR_BLOCKS - EXT2_INDIRECT - EXT2_INDIRECT * EXT2_INDIRECT <
      EXT2_INDIRECT * EXT2_INDIRECT * EXT2_INDIRECT := by
    simp only [EXT2_MAXFILE, EXT2_NDIR_BLOCKS, EXT2_INDIRECT] at *
    omega
  unfold ext2fsBmap pointers bmapPath
  dsimp only
  split_ifs <;> simp [walk, forM_eq_forM]

/-- The path is the standard one, and stays inside the pointer blocks. -/
def FollowsStandard (bn : ℕ) : Prop :=
  pointers bn = standardPath bn ∧ ∀ k ∈ (pointers bn).2, k < EXT2_INDIRECT

theorem pointers_direct (h : bn < 12) : pointers bn = (bn, []) := if_pos h

theorem pointers_single (h : 12 ≤ bn) (h' : bn < 268) : pointers bn = (12, [bn - 12]) := by
  have h0 : ¬bn < EXT2_NDIR_BLOCKS := Nat.not_lt.2 h
  have h1 : bn - EXT2_NDIR_BLOCKS < EXT2_INDIRECT := (by omega : bn - 12 < 256)
  unfold pointers
  rw [if_neg h0]
  exact if_pos h1

theorem pointers_double (h : 268 ≤ bn) (h' : bn < 65804) :
    pointers bn = (13, [(bn - 268) / 256, (bn - 268) % 256]) := by
  have hsub : bn - 268 = bn - 12 - 256 := by omega
  have h0 : ¬bn < EXT2_NDIR_BLOCKS := (by omega : ¬bn < 12)
  have h1 : ¬bn - EXT2_NDIR_BLOCKS < EXT2_INDIRECT := (by omega : ¬bn - 12 < 256)
  have h2 : bn - EXT2_NDIR_BLOCKS - EXT2_INDIRECT < EXT2_INDIRECT * EXT2_INDIRECT :=
    (by omega : bn - 12 - 256 < 65536)
  unfold pointers
  rw [if_neg h0, hsub]
  dsimp only
  rw [if_neg h1]
  exact if_pos h2

theorem pointers_triple (h : 65804 ≤ bn) :
    pointers bn = (14, [(bn - 65804) / 256 * 256, (bn - 65804) % 256, (bn - 65804) % 256]) := by
  have hsub : bn - 65804 = bn - 12 - 256 - 65536 := by omega
  have h0 : ¬bn < EXT2_NDIR_BLOCKS := (by omega : ¬bn < 12)
  have h1 : ¬bn - EXT2_NDIR_BLOCKS < EXT2_INDIRECT := (by omega : ¬bn - 12 < 256)
  have h2 : ¬bn - EXT2_NDIR_BLOCKS - EXT2_INDIRECT < EXT2_INDIRECT * EXT2_INDIRECT :=
    (by omega : ¬bn - 12 - 256 < 65536)
  unfold pointers
  rw [if_neg h0, hsub]
  dsimp only
  rw [if_neg h1, if_neg h2, Nat.mul_div_cancel _ (by decide)]
  rfl

theorem followsStandard_iff (bn : ℕ) : FollowsStandard bn ↔ bn ≤ lastStandard := by
  unfold FollowsStandard standardPath lastStandard
  rcases Nat.lt_or_ge bn 12 with h0 | h0
  · rw [pointers_direct h0, if_pos h0]
    simp only [not_mem_nil, false_implies, implies_true, and_self, true_iff]
    omega
  rw [if_neg (by omega)]
  rcases Nat.lt_or_ge bn 268 with h1 | h1
  · rw [pointers_single h0 h1, if_pos (by omega)]
    simp only [mem_singleton, forall_eq, true_and, EXT2_INDIRECT]
    omega
  rw [if_neg (by omega)]
  rcases Nat.lt_or_ge bn 65804 with h2 | h2
  · rw [pointers_double h1 h2, if_pos (by omega)]
    simp only [mem_cons, not_mem_nil, or_false, forall_eq_or_imp, forall_eq, true_and,
      EXT2_INDIRECT]
    omega
  · rw [pointers_triple h2, if_neg (by omega)]
    simp only [Prod.mk.injEq, List.cons.injEq, true_and, and_true, mem_cons,
      not_mem_nil, or_false, forall_eq_or_imp, forall_eq, EXT2_INDIRECT]
    omega

/-! ### Different blocks -/

/-- `a` is the pointer at the end of a path in the tree of the file; all pointers on the way are
set. -/
structure PointerAt (disk : ℕ → Block) (addrs : ℕ → ℕ) (path : ℕ × List ℕ) (a : ℕ) : Prop where
  root : path.1 ≤ EXT2_TIND_BLOCK
  depth : path.2.length ≤ rootLevel path.1
  set : addrs path.1 ≠ 0
  mapped : Mapped disk (addrs path.1) path.2
  ends : follow disk (addrs path.1) path.2 = a

/-- The pointers of the file that are set are pairwise distinct. -/
def DistinctPointers (disk : ℕ → Block) (addrs : ℕ → ℕ) : Prop :=
  ∀ p q a, PointerAt disk addrs p a → PointerAt disk addrs q a → p = q

theorem pointers_injective (h : bn ≤ lastStandard) (h' : bn' ≤ lastStandard)
    (he : pointers bn = pointers bn') : bn = bn' := by
  rw [((followsStandard_iff bn).2 h).1, ((followsStandard_iff bn').2 h').1] at he
  unfold standardPath lastStandard at *
  split_ifs at he <;> simp only [Prod.mk.injEq, List.cons.injEq] at he <;> omega

/-- The pointer blocks 20 to 23 of a file. -/
def treeDisk (n : ℕ) : Block :=
  if n = 20 then Block.zero.setWord 0 21
  else if n = 21 then (Block.zero.setWord 0 22).setWord 1 23
  else if n = 22 then Block.zero.setWord 1 30
  else if n = 23 then Block.zero.setWord 1 31
  else Block.zero

@[inherit_doc treeDisk]
def treeIo : Io := ⟨Bcache.binit, treeDisk, fun _ _ => 0⟩

/-- The file: two direct blocks, and block 20 as the triple indirect one. -/
def treeIp : InCore :=
  ⟨2, .file, 1, 1, true, 0, fun k => if k = 0 then 40 else if k = 1 then 41
    else if k = 14 then 20 else 0⟩

theorem word_treeDisk {n k : ℕ} (h : (treeDisk n).word k ≠ 0) :
    (n, k, (treeDisk n).word k) ∈ [(20, 0, 21), (21, 0, 22), (21, 1, 23), (22, 1, 30),
    (23, 1, 31)] := by
  have hone : ∀ {m v : ℕ}, m < BSIZE / 4 → v < 2 ^ 32 → (Block.zero.setWord m v).word k ≠ 0 →
      k = m ∧ (Block.zero.setWord m v).word k = v := by
    intro m v hm hv hk
    by_cases hkm : k = m
    · subst hkm
      exact ⟨rfl, Block.word_setWord_self _ hm hv⟩
    · rw [Block.word_setWord_ne _ hm hkm, Block.word_zero] at hk
      exact absurd rfl hk
  unfold treeDisk at h ⊢
  split_ifs at h ⊢ with h0 h1 h2 h3
  · obtain ⟨rfl, hv⟩ := hone (by decide) (by decide) h
    simp [h0, hv]
  · by_cases hk : k = 1
    · subst hk
      rw [Block.word_setWord_self _ (by decide) (by decide), h1]
      simp
    · rw [Block.word_setWord_ne _ (by decide) hk] at h ⊢
      obtain ⟨rfl, hv⟩ := hone (by decide) (by decide) h
      simp [h1, hv]
  · obtain ⟨rfl, hv⟩ := hone (by decide) (by decide) h
    simp [h2, hv]
  · obtain ⟨rfl, hv⟩ := hone (by decide) (by decide) h
    simp [h3, hv]
  · exact absurd (Block.word_zero k) h

/-- The pointers of the file. -/
theorem pointerAt_tree {p : ℕ × List ℕ} (h : PointerAt treeDisk treeIp.addrs p a) :
    (p, a) ∈ [((0, []), 40), ((1, []), 41), ((14, []), 20), ((14, [0]), 21), ((14, [0, 0]), 22),
      ((14, [0, 1]), 23), ((14, [0, 0, 1]), 30), ((14, [0, 1, 1]), 31)] := by
  obtain ⟨k, ks⟩ := p
  obtain ⟨-, hdepth, hset, hmapped, hends⟩ := h
  have hroot : k = 0 ∨ k = 1 ∨ k = 14 := by
    by_contra hne
    push Not at hne
    exact hset (by simp [treeIp, hne])
  rcases hroot with rfl | rfl | rfl
  · obtain rfl : ks = [] := eq_nil_of_length_eq_zero (Nat.le_zero.1 hdepth)
    simp [← hends, follow, treeIp]
  · obtain rfl : ks = [] := eq_nil_of_length_eq_zero (Nat.le_zero.1 hdepth)
    simp [← hends, follow, treeIp]
  change ks.length ≤ 3 at hdepth
  change Mapped treeDisk 20 ks at hmapped
  change follow treeDisk 20 ks = a at hends
  -- one level of pointers after the other
  rcases ks with _ | ⟨k1, ks⟩
  · simp [← hends, follow]
  obtain ⟨-, hne1, hmapped⟩ := hmapped
  obtain ⟨rfl, hw1⟩ : k1 = 0 ∧ (treeDisk 20).word k1 = 21 := by simpa using word_treeDisk hne1
  change follow treeDisk ((treeDisk 20).word 0) ks = a at hends
  rw [hw1] at hmapped hends
  rcases ks with _ | ⟨k2, ks⟩
  · simp [← hends, follow]
  obtain ⟨-, hne2, hmapped⟩ := hmapped
  change follow treeDisk ((treeDisk 21).word k2) ks = a at hends
  have hw2 : k2 = 0 ∧ (treeDisk 21).word k2 = 22 ∨ k2 = 1 ∧ (treeDisk 21).word k2 = 23 := by
    simpa using word_treeDisk hne2
  rcases hw2 with ⟨rfl, hw2⟩ | ⟨rfl, hw2⟩ <;> rw [hw2] at hmapped hends <;>
    rcases ks with _ | ⟨k3, ks⟩
  · simp [← hends, follow]
  · simp only [length_cons] at hdepth
    obtain rfl : ks = [] := eq_nil_of_length_eq_zero (by omega)
    obtain ⟨-, hne3, -⟩ := hmapped
    obtain ⟨rfl, hw3⟩ : k3 = 1 ∧ (treeDisk 22).word k3 = 30 := by simpa using word_treeDisk hne3
    simp [← hends, follow, hw3]
  · simp [← hends, follow]
  · simp only [length_cons] at hdepth
    obtain rfl : ks = [] := eq_nil_of_length_eq_zero (by omega)
    obtain ⟨-, hne3, -⟩ := hmapped
    obtain ⟨rfl, hw3⟩ : k3 = 1 ∧ (treeDisk 23).word k3 = 31 := by simpa using word_treeDisk hne3
    simp [← hends, follow, hw3]

theorem distinct_tree : DistinctPointers treeIo.disk treeIp.addrs := by
  intro p q a hp hq
  have hp' := pointerAt_tree hp
  have hq' := pointerAt_tree hq
  simp only [mem_cons, Prod.mk.injEq, not_mem_nil, or_false] at hp' hq'
  rcases hp' with ⟨rfl, rfl⟩ | ⟨rfl, rfl⟩ | ⟨rfl, rfl⟩ | ⟨rfl, rfl⟩ | ⟨rfl, rfl⟩ | ⟨rfl, rfl⟩ |
    ⟨rfl, rfl⟩ | ⟨rfl, rfl⟩ <;> refine Eq.symm ?_ <;> simpa using hq'

/-- A file whose only block is `a`. -/
def oneBlock (a : ℕ) : InCore := ⟨12, .file, 1, 1, true, 1024, fun k => if k = 0 then a else 0⟩

theorem pointerAt_oneBlock {disk : ℕ → Block} {p : ℕ × List ℕ} {x : ℕ}
    (hp : PointerAt disk (oneBlock a).addrs p x) : p = (0, []) := by
  have hroot : p.1 = 0 := by
    by_contra hne
    exact hp.set (if_neg hne)
  have hdepth := hp.depth
  rw [hroot] at hdepth
  exact Prod.ext hroot (length_eq_zero_iff.1 (Nat.le_zero.1 hdepth))

theorem distinct_oneBlock (disk : ℕ → Block) (a : ℕ) : DistinctPointers disk (oneBlock a).addrs :=
  fun _ _ _ hp hq => (pointerAt_oneBlock hp).trans (pointerAt_oneBlock hq).symm

end Io

end Cinux
