import Cinux.Vm.Replace
import Mathlib.Order.CompletePartialOrder

/-!
# The arguments of a program

What a program that `kexec` has started finds on its stack: the strings of `argv`, each with its
NUL, and an array of pointers to them with a null pointer at its end, whose address is in `a1` and
`sp`.

* `Phys.Passed` : the arguments are there, as the user sees them;
* `stackSize` : how many bytes they take;
* `exec_passes_arguments` : `kexec` passes them, and fails for want of stack exactly if they take
  more than a page.
-/

namespace Cinux

open List

open Stack (push pointer places rounded)

/-- The bytes that the arguments and the pointers to them take on the stack. -/
def stackSize (argv : List (List UInt8)) : ℕ :=
  (argv.map fun s => rounded 16 (s.length + 1)).sum + rounded 16 (8 * (argv.length + 1))

/-- The ranges of addresses of the strings and of the pointers to them, which are at `sp`. -/
def ranges (argv : List (List UInt8)) (addrs : List ℕ) (sp : ℕ) : List (ℕ × ℕ) :=
  (addrs.zip argv).map (fun x => (x.1, x.1 + x.2.length + 1)) ++ [(sp, sp + 8 * (argv.length + 1))]

theorem le64_of_leBytes {f : ℕ → UInt8} {i n : ℕ} (hn : n < 2 ^ 64)
    (h : ∀ j < 8, f (i + j) = (leBytes 8 n).getD j 0) : le64 f i = n := by
  have h0 := h 0 (by decide)
  have h1 := h 1 (by decide)
  have h2 := h 2 (by decide)
  have h3 := h 3 (by decide)
  have h4 := h 4 (by decide)
  have h5 := h 5 (by decide)
  have h6 := h 6 (by decide)
  have h7 := h 7 (by decide)
  simp only [leBytes, getD_cons_zero, getD_cons_succ, Nat.add_zero] at h0 h1 h2 h3 h4 h5 h6 h7
  simp only [le64, le32, Nat.add_assoc, Nat.reduceAdd, h0, h1, h2, h3, h4, h5, h6, h7,
    UInt8.toNat_ofNat']
  omega

theorem getD_flatMap_leBytes {ws : List ℕ} {i j : ℕ} (hi : i < ws.length) (hj : j < 8) :
    (ws.flatMap (leBytes 8)).getD (8 * i + j) 0 = (leBytes 8 (ws.getD i 0)).getD j 0 := by
  induction ws generalizing i with
  | nil => cases hi
  | cons w ws ih =>
    have hlen : (leBytes 8 w).length = 8 := length_leBytes 8 w
    rw [flatMap_cons]
    cases i with
    | zero => rw [getD_append _ _ _ _ (by omega), Nat.mul_zero, Nat.zero_add, getD_cons_zero]
    | succ i =>
      rw [getD_append_right _ _ _ _ (by omega), hlen,
        show 8 * (i + 1) + j - 8 = 8 * i + j by omega, getD_cons_succ]
      exact ih (Nat.lt_of_succ_lt_succ hi)

theorem fits_iff {argv : Argv} {n : ℕ} (hn : 0 < n) :
    Fits argv n ↔ stackSize argv.strings ≤ USERSTACK * PGSIZE := by
  have hbase : 0 < n * PGSIZE := Nat.mul_pos hn (by decide)
  have hnext : (n + 1) * PGSIZE = n * PGSIZE + PGSIZE := Nat.succ_mul n PGSIZE
  have htop : (n + 1) * PGSIZE % 16 = 0 := by
    simp only [PGSIZE]
    omega
  have hptr : ((places 16 ((n + 1) * PGSIZE) (argv.strings.map (· ++ [0])) ++ [0]).flatMap
      (leBytes 8)).length = 8 * (argv.strings.length + 1) := by
    rw [length_flatMap_leBytes, length_append, Stack.length_places, length_map,
      length_singleton, Nat.mul_comm]
  unfold Fits stackBlocks
  rw [Stack.le_pointer_iff (by decide) htop hbase, map_append, sum_append, map_map,
    map_singleton, sum_singleton, hptr, stackSize, hnext]
  simp only [Function.comp_def, length_append, length_singleton, USERSTACK]
  omega

namespace Phys

open VmM

variable {T : ℕ} {R H : Set ℕ} {m m' : Phys} {r tf sz n a : ℕ} {p : UserMem}

/-- The 64-bit word that user code sees at `a`. -/
def userWord (m : Phys) (r a : ℕ) : Option ℕ :=
  if (List.range 8).all fun j => (m.userByte r (a + j)).isSome then
    some (le64 (fun i => (m.userByte r i).getD 0) a)
  else none

/-- **The arguments are passed**: the strings are at `addrs`, the pointers to them at `sp`. -/
structure Passed (m : Phys) (r sz sp : ℕ) (argv : List (List UInt8)) (addrs : List ℕ) : Prop where
  aligned : sp % 16 = 0
  length : addrs.length = argv.length
  words : ∀ i ≤ argv.length, m.userWord r (sp + 8 * i) = some ((addrs ++ [0]).getD i 0)
  strings : ∀ x ∈ addrs.zip argv, ∀ j ≤ x.2.length,
    m.userByte r (x.1 + j) = some ((x.2 ++ [0]).getD j 0)
  disjoint : (ranges argv addrs sp).Pairwise fun x y =>
    Disjoint (Set.Ico x.1 x.2) (Set.Ico y.1 y.2)
  inside : ∀ x ∈ ranges argv addrs sp, sz - USERSTACK * PGSIZE ≤ x.1 ∧ x.2 ≤ sz
  guard : ∀ a, sz - (USERSTACK + 1) * PGSIZE ≤ a → a < sz - USERSTACK * PGSIZE →
    m.userByte r a = none

theorem userWord_eq {w : ℕ} (hw : w < 2 ^ 64)
    (h : ∀ j < 8, m.userByte r (a + j) = some ((leBytes 8 w).getD j 0)) :
    m.userWord r a = some w := by
  have hall : (List.range 8).all fun j => (m.userByte r (a + j)).isSome := by
    refine all_eq_true.2 fun j hj => ?_
    rw [h j (mem_range.1 hj)]
    rfl
  unfold userWord
  rw [if_pos hall]
  refine congrArg some (le64_of_leBytes hw fun j hj => ?_)
  rw [h j hj, Option.getD_some]

theorem SameBelow.userByte (h : SameBelow r n m m') (ha : a / PGSIZE < n) :
    m'.userByte r a = m.userByte r a := by
  obtain ⟨hleaf, hdata⟩ := h _ ha
  unfold Phys.userByte
  rw [hleaf]
  cases he : m.leaf r (a / PGSIZE) with
  | none => rfl
  | some e => rw [Option.bind_some, Option.bind_some, hdata e he]

theorem Committed.userByte {m0 : Phys} {elf : Elfhdr} {sp : ℕ}
    (h : Committed R H p tf r elf sp m m') (hb : Building T R H m0 r tf sz m)
    (hp : p.pagetable ∈ R) (htf : tf ∈ H) : m'.userByte r = m.userByte r := by
  funext a
  by_cases ha : a / PGSIZE < userPages
  · exact (h.sameBelow hb hp htf).userByte ha
  · -- above there are no pages of the user
    have hne : r ≠ p.pagetable := fun he => hb.fresh (he ▸ hp)
    unfold Phys.userByte
    rw [h.leaves r hb.mem_root hne]
    cases he : m.leaf r (a / PGSIZE) with
    | none => rfl
    | some e =>
      have hu := hb.space.not_user (not_lt.1 ha) he
      simp [hu]

theorem Passed.congr {sp : ℕ} {argv : List (List UInt8)} {addrs : List ℕ}
    (h : Passed m r sz sp argv addrs) (hsame : m'.userByte r = m.userByte r) :
    Passed m' r sz sp argv addrs := by
  have hword (a : ℕ) : m'.userWord r a = m.userWord r a := by
    unfold userWord
    rw [hsame]
  refine ⟨h.aligned, h.length, fun i hi => (hword _).trans (h.words i hi), fun x hx j hj => ?_,
    h.disjoint, h.inside, fun a hlo hhi => ?_⟩
  · rw [hsame, h.strings x hx j hj]
  · rw [hsame, h.guard a hlo hhi]

theorem le64_frame (m : Phys) (tf : ℕ) (elf : Elfhdr) {sp : ℕ} (hsp : sp < 2 ^ 64) :
    le64 ((m.frame tf elf sp).data tf) 120 = sp ∧ le64 ((m.frame tf elf sp).data tf) 48 = sp := by
  have hlen (n : ℕ) : (leBytes 8 n).length = 8 := length_leBytes 8 n
  constructor
  · refine le64_of_leBytes hsp fun j hj => ?_
    simp only [frame, storeBytes, Function.update_self]
    rw [if_pos (by omega), getD_eq_default _ _ (by rw [hlen]; omega), if_pos (by omega),
      getD_eq_default _ _ (by rw [hlen]; omega), if_pos (by omega), Nat.add_sub_cancel_left,
      getD_eq_getElem _ _ (by rw [hlen]; omega), getD_eq_getElem _ _ (by rw [hlen]; omega)]
  · refine le64_of_leBytes hsp fun j hj => ?_
    simp only [frame, storeBytes, Function.update_self]
    rw [if_pos (by omega), Nat.add_sub_cancel_left, getD_eq_getElem _ _ (by rw [hlen]; omega),
      getD_eq_getElem _ _ (by rw [hlen]; omega)]

/-! ### The stack as the user sees it -/

section Built

variable {argv : Argv}

theorem StackBuilt.userByte (h : StackBuilt r n argv m m') (hn : n + 2 ≤ userPages)
    (hlo : (n + 1) * PGSIZE ≤ a) (hhi : a < (n + 2) * PGSIZE) :
    m'.userByte r a = some (Stack.fill 16 (fun _ => 0) ((n + 2) * PGSIZE)
      (stackBlocks argv ((n + 2) * PGSIZE)) a) := by
  obtain ⟨e, he, hu, hdata⟩ := h.stack
  have hdiv : a / PGSIZE = n + 1 := Nat.div_eq_of_lt_le hlo hhi
  have hmul := Own.mul_le_trapframe hn
  have hmax : TRAPFRAME < MAXVA := by decide
  have hmod : (n + 1) * PGSIZE + a % PGSIZE = a := by
    rw [← hdiv]
    exact Nat.div_add_mod' a PGSIZE
  rw [Phys.userByte, if_neg (by omega), hdiv, he, Option.bind_some, if_pos hu, hdata, hmod]

theorem StackBuilt.block (h : StackBuilt r n argv m m') (hn : n + 2 ≤ userPages) {b : List UInt8}
    (hb : (a, b) ∈ (places 16 ((n + 2) * PGSIZE) (stackBlocks argv ((n + 2) * PGSIZE))).zip
      (stackBlocks argv ((n + 2) * PGSIZE))) {j : ℕ} (hj : j < b.length) :
    m'.userByte r (a + j) = some (b.getD j 0) := by
  have hfits : (n + 1) * PGSIZE ≤
    pointer 16 ((n + 2) * PGSIZE) (stackBlocks argv ((n + 2) * PGSIZE)) := h.fits
  have hbase : 0 < (n + 1) * PGSIZE := Nat.mul_pos (Nat.succ_pos n) (by decide)
  have hroom := lt_of_lt_of_le hbase hfits
  obtain ⟨hlo, hhi, -⟩ := Stack.mem_places hroom hb
  rw [h.userByte hn (by omega) (by omega), Stack.fill_places hroom hb hj 0]

theorem zip_stackBlocks (argv : Argv) (top : ℕ) :
    (places 16 top (stackBlocks argv top)).zip (stackBlocks argv top) =
      ((places 16 top (argv.strings.map (· ++ [0]))).zip argv.strings).map
        (Prod.map id (· ++ [0])) ++
      [(pointer 16 top (stackBlocks argv top),
        (places 16 top (argv.strings.map (· ++ [0])) ++ [0]).flatMap (leBytes 8))] := by
  unfold stackBlocks
  dsimp only
  rw [Stack.places_append, Stack.pointer_append, zip_append (Stack.length_places _ _ _),
    zip_map_right]
  rfl

theorem ranges_stackBlocks (argv : Argv) (top : ℕ) :
    ranges argv.strings (places 16 top (argv.strings.map (· ++ [0])))
        (pointer 16 top (stackBlocks argv top)) =
      ((places 16 top (stackBlocks argv top)).zip (stackBlocks argv top)).map
        fun x => (x.1, x.1 + x.2.length) := by
  rw [zip_stackBlocks, map_append, map_map, map_singleton, length_flatMap_leBytes,
    length_append, Stack.length_places, length_map, length_singleton, Nat.mul_comm _ 8]
  unfold ranges
  congr 2
  funext x
  simp [Nat.add_assoc]

/-- **The arguments are on the stack.** -/
theorem StackBuilt.passed (h : StackBuilt r n argv m m') (hn : n + 2 ≤ userPages) :
    Passed m' r ((n + 2) * PGSIZE)
      (pointer 16 ((n + 2) * PGSIZE) (stackBlocks argv ((n + 2) * PGSIZE))) argv.strings
      (places 16 ((n + 2) * PGSIZE) (argv.strings.map (· ++ [0]))) := by
  have hfits : (n + 1) * PGSIZE ≤
    pointer 16 ((n + 2) * PGSIZE) (stackBlocks argv ((n + 2) * PGSIZE)) := h.fits
  have hbase : 0 < (n + 1) * PGSIZE := Nat.mul_pos (Nat.succ_pos n) (by decide)
  have hroom := lt_of_lt_of_le hbase hfits
  have hzip := zip_stackBlocks argv ((n + 2) * PGSIZE)
  have hsize : (n + 2) * PGSIZE < 2 ^ 64 := lt_of_le_of_lt (Own.mul_le_trapframe hn) (by decide)
  have hguard : (n + 2) * PGSIZE - (USERSTACK + 1) * PGSIZE = n * PGSIZE ∧
      (n + 2) * PGSIZE - USERSTACK * PGSIZE = (n + 1) * PGSIZE := by
    simp only [USERSTACK, PGSIZE]
    omega
  -- the pointers are the last block
  have hptr := mem_append_right (((places 16 ((n + 2) * PGSIZE)
    (argv.strings.map (· ++ [0]))).zip argv.strings).map (Prod.map id (· ++ [0])))
    (mem_singleton_self (pointer 16 ((n + 2) * PGSIZE) (stackBlocks argv ((n + 2) * PGSIZE)),
      (places 16 ((n + 2) * PGSIZE) (argv.strings.map (· ++ [0])) ++ [0]).flatMap (leBytes 8)))
  rw [← hzip] at hptr
  have hlength : (places 16 ((n + 2) * PGSIZE) (argv.strings.map (· ++ [0]))).length =
      argv.strings.length := by rw [Stack.length_places, length_map]
  refine ⟨(Stack.mem_places hroom hptr).2.2, hlength, fun i hi => ?_, fun x hx j hj => ?_, ?_,
    fun x hx => ?_, fun a hlo hhi => ?_⟩
  · have hin : i < (places 16 ((n + 2) * PGSIZE) (argv.strings.map (· ++ [0])) ++ [0]).length := by
      rw [length_append, hlength, length_singleton]
      omega
    refine userWord_eq ?_ fun j hj => ?_
    · rw [getD_eq_getElem _ _ hin]
      rcases mem_append.1 (getElem_mem hin) with hw | hw
      · exact lt_of_le_of_lt (Stack.le_of_mem_places hw) hsize
      · rw [mem_singleton.1 hw]
        decide
    · rw [Nat.add_assoc, h.block hn hptr, getD_flatMap_leBytes hin hj]
      rw [length_flatMap_leBytes]
      omega
  · have hmem := mem_append_left
      [(pointer 16 ((n + 2) * PGSIZE) (stackBlocks argv ((n + 2) * PGSIZE)),
        (places 16 ((n + 2) * PGSIZE) (argv.strings.map (· ++ [0])) ++ [0]).flatMap (leBytes 8))]
      (mem_map_of_mem (f := Prod.map id (· ++ [0])) hx)
    rw [← hzip] at hmem
    refine h.block hn hmem ?_
    rw [length_append, length_singleton]
    exact Nat.lt_succ_of_le hj
  · rw [ranges_stackBlocks]
    refine pairwise_map.2 ((Stack.disjoint_places hroom).imp fun hle => ?_)
    refine Set.disjoint_left.2 fun y hy hy' => ?_
    rw [Set.mem_Ico] at hy hy'
    omega
  · rw [ranges_stackBlocks] at hx
    obtain ⟨y, hy, rfl⟩ := mem_map.1 hx
    obtain ⟨hlo, hhi, -⟩ := Stack.mem_places hroom hy
    exact ⟨by omega, hhi⟩
  · obtain ⟨g, hg, hu⟩ := h.guard
    rw [hguard.1] at hlo
    rw [hguard.2] at hhi
    have hdiv : a / PGSIZE = n := Nat.div_eq_of_lt_le hlo hhi
    unfold Phys.userByte
    split_ifs with hmax
    · rfl
    · rw [hdiv, hg, Option.bind_some, if_neg (by rw [hu]; decide)]

end Built

end Phys

open VmM in
/-- **`exec` passes the arguments faithfully.**  If it succeeds, it returns their number; `a1` and
`sp` are the address of an array of pointers to copies of the strings, apart from each other and all
in the stack, below which there is a page that user code cannot reach.  Once the program is in
memory and there are pages for the stack, it fails if and only if the strings and the pointers, each
on a multiple of 16, do not fit into the stack. -/
theorem exec_passes_arguments {T : ℕ} {R H : Set ℕ} {m : Phys} {p : UserMem} {tf : ℕ}
    (h : m.Own R H) (hp : p.pagetable ∈ R) (hs : m.Space T p.pagetable tf p.sz) (htf : tf ∈ H)
    (ip : Option Image) (argv : Argv) :
    (∀ k p' m', kexec T p tf ip argv m = .ok ((some k, p'), m') →
      k = argv.strings.length ∧ ∃ addrs,
        m'.Passed p'.pagetable p'.sz (le64 (m'.data tf) 120) argv.strings addrs ∧
        le64 (m'.data tf) 48 = le64 (m'.data tf) 120) ∧
    ∀ img r sz m₁ sz1 m₂, ip = some img → m.Loaded T tf img r sz m₁ →
      uvmalloc r (pgroundup sz) (pgroundup sz + (USERSTACK + 1) * PGSIZE) true false m₁ =
        .ok (sz1, m₂) → sz1 ≠ 0 →
      ((∃ p' m', kexec T p tf ip argv m = .ok ((none, p'), m')) ↔
        USERSTACK * PGSIZE < stackSize argv.strings) := by
  have hsmall : ∀ {r sz : ℕ} {m₂ : Phys},
      m.Building T R H r tf ((pages sz + 2) * PGSIZE) m₂ → pages sz + 2 ≤ userPages := by
    intro r sz m₂ h2
    have := pages_le h2.space.size
    rwa [Phys.Own.pages_mul] at this
  constructor
  · intro k p' m' hrun
    rcases h.kexec_cases T p tf ip argv with
      ⟨m'', hfail, -⟩ | ⟨img, r, sz, m₁, m₂, -, -, -, -, h2, hbuilt, hcommit⟩
    · cases hfail.symm.trans hrun
    obtain ⟨out, m'', hend, rfl, hcommitted⟩ := h2.commit_runs hp hs img.elf argv.strings.length
      (pointer 16 ((pages sz + 2) * PGSIZE) (stackBlocks argv ((pages sz + 2) * PGSIZE)))
    obtain ⟨hout, rfl⟩ := Program.ok_inj (hend.symm.trans (hcommit.symm.trans hrun))
    obtain ⟨hk, rfl⟩ := Prod.mk.inj hout
    have hsp : pointer 16 ((pages sz + 2) * PGSIZE) (stackBlocks argv ((pages sz + 2) * PGSIZE)) <
        2 ^ 64 := lt_of_le_of_lt (Stack.pointer_le _ _ _) (lt_of_le_of_lt h2.space.size (by decide))
    obtain ⟨ha1, hsp'⟩ := Phys.le64_frame m₂ tf img.elf hsp
    rw [← hcommitted.kept.data tf (Phys.held_subset_others htf)] at ha1 hsp'
    have hpassed := (hbuilt.passed (hsmall h2)).congr (hcommitted.userByte h2 hp htf)
    rw [← ha1] at hpassed
    exact ⟨(Option.some.inj hk).symm, _, hpassed, hsp'.trans ha1.symm⟩
  · rintro img r sz m₁ sz1 m₂ rfl hloaded halloc hne
    obtain ⟨h1, hfull⟩ := hloaded.building h
    have hround : pgroundup sz = pages sz * PGSIZE := pgroundup_eq h1.space.size
    have htwo : pages sz * PGSIZE + (USERSTACK + 1) * PGSIZE = (pages sz + 2) * PGSIZE :=
      (Nat.add_mul (pages sz) 2 PGSIZE).symm
    rw [hround, htwo] at halloc
    rw [hloaded.kexec_eq p argv, ← not_le, ← fits_iff (Nat.succ_pos (pages sz))]
    rcases h1.kexecStack_cases hfull p img.elf argv with
      ⟨m', hzero, -⟩ | ⟨m', -, ⟨hfits, m3, hrun, h3⟩ | ⟨m3, h3, hbuilt, hrun⟩⟩
    · exact absurd (Program.ok_inj (halloc.symm.trans hzero)).1 hne
    · obtain ⟨m4, hbad, -⟩ := h3.kexecBad_fails p
      exact iff_of_true ⟨p, m4, hrun.trans hbad⟩ hfits
    · refine iff_of_false ?_ (not_not.2 hbuilt.fits)
      rintro ⟨p', m', hnone⟩
      cases Phys.commit_some (hrun.symm.trans hnone)

/-- A program without segments: the magic number and zeros. -/
def emptyProgram : Image :=
  ⟨fun off n => (([0x7F, 0x45, 0x4C, 0x46] ++ List.replicate 60 (0 : UInt8)).drop off).take n⟩

/-- `{"ab", "c"}`. -/
def argvTwo : Argv := ⟨[[97, 98], [99]], by decide, by decide⟩

open VmM in
/-- The first process runs it with two arguments. -/
theorem exec_passes_arguments_two : ∃ (m' : Phys) (p' : UserMem) (sp : ℕ) (addrs : List ℕ),
    m'.Passed p'.pagetable p'.sz sp argvTwo.strings addrs := by
  obtain ⟨m, r, tf, ⟨k, p'⟩, m', hown, hspace, hrun, hout⟩ := Phys.exists_process
    (k := fun r tf => kexec 1 ⟨r, 0⟩ tf (some emptyProgram) argvTwo)
    (P := fun out _ => out.1.isSome) (by decide +kernel)
  obtain ⟨k, rfl⟩ := Option.isSome_iff_exists.1 hout
  obtain ⟨-, addrs, hpassed, -⟩ := (exec_passes_arguments (p := ⟨r, 0⟩) hown (Set.mem_singleton r)
    hspace (Set.mem_singleton tf) (some emptyProgram) argvTwo).1 k p' m' hrun
  exact ⟨m', p', _, addrs, hpassed⟩

end Cinux
