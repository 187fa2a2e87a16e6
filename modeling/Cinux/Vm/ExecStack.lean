import Cinux.System.Stack
import Cinux.Vm.Exec

/-!
# The stack of a new program

The second half of `kexec`: two pages above the program, of which the lower one is closed to user
code, and in the upper one the arguments, from the top down, and below them the array of the
pointers to them.

* `Phys.Pushed` : blocks have been stored on a stack of one page;
* `Phys.Building.kexecArgs_runs` : the loop over the arguments pushes them, if there is room;
* `Phys.StackBuilt` : the stack that `kexec` has built;
* `Phys.Building.kexecStack_cases` : it has built it, or goes to `bad` for want of memory or room.
-/

namespace Cinux

open List

open Stack (push pointer places)

theorem length_leBytes (k n : ℕ) : (leBytes k n).length = k := by
  induction k generalizing n with
  | zero => rfl
  | succ k ih => rw [leBytes, length_cons, ih]

theorem length_flatMap_leBytes (k : ℕ) (l : List ℕ) :
    (l.flatMap (leBytes k)).length = l.length * k := by
  induction l with
  | nil => simp
  | cons n l ih =>
    rw [flatMap_cons, length_append, length_leBytes, ih, length_cons, Nat.succ_mul, Nat.add_comm]

/-- What `kexec` pushes on the stack with top `top`: the arguments and the pointers to them. -/
def stackBlocks (argv : Argv) (top : ℕ) : List (List UInt8) :=
  let args := argv.strings.map (· ++ [0])
  args ++ [(places 16 top args ++ [0]).flatMap (leBytes 8)]

/-- It fits into the stack in virtual page `n`. -/
def Fits (argv : Argv) (n : ℕ) : Prop :=
  n * PGSIZE ≤ pointer 16 ((n + 1) * PGSIZE) (stackBlocks argv ((n + 1) * PGSIZE))

namespace Phys

open Program (Runs)
open VmM

variable {T : ℕ} {R H : Set ℕ} {m0 m m' m'' : Phys} {r tf sz q base sp n : ℕ} {e : Pte}
  {b : List UInt8} {bs : List (List UInt8)}

/-- Blocks have been stored in page `q`, whose addresses begin with `base`, below `sp`. -/
structure Pushed (q base sp : ℕ) (bs : List (List UInt8)) (m m' : Phys) : Prop where
  pt : m'.pt = m.pt
  others : ∀ x ≠ q, m'.data x = m.data x
  page : ∀ j, m'.data q j = Stack.fill 16 (fun x => m.data q (x - base)) sp bs (base + j)

namespace Pushed

theorem nil (q base sp : ℕ) (m : Phys) : Pushed q base sp [] m m :=
  ⟨rfl, fun _ _ => rfl, fun j => congrArg (m.data q) (Nat.add_sub_cancel_left base j).symm⟩

theorem cons (hroom : base ≤ push 16 sp b.length)
    (h : Pushed q base (push 16 sp b.length) bs
      (m.storeBytes q (push 16 sp b.length - base) b) m') :
    Pushed q base sp (b :: bs) m m' := by
  refine ⟨h.pt, fun x hx => (h.others x hx).trans (Function.update_of_ne hx _ _), fun j => ?_⟩
  rw [h.page j, Stack.fill]
  refine Stack.fill_congr ?_ _ _ _
  simp only [storeBytes, Function.update_self, Stack.store, Nat.add_sub_cancel_left]
  by_cases hj : push 16 sp b.length ≤ base + j
  · rw [if_pos hj, if_pos (by omega),
      show j - (push 16 sp b.length - base) = base + j - push 16 sp b.length by omega]
  · rw [if_neg hj, if_neg (by omega)]

theorem append {cs : List (List UInt8)} (h : Pushed q base sp bs m m')
    (h' : Pushed q base (pointer 16 sp bs) cs m' m'') : Pushed q base sp (bs ++ cs) m m'' := by
  refine ⟨h'.pt.trans h.pt, fun x hx => (h'.others x hx).trans (h.others x hx), fun j => ?_⟩
  rw [h'.page j, Stack.fill_append]
  refine Stack.fill_congr ?_ _ _ _
  rw [Nat.add_sub_cancel_left, h.page j]

theorem leaf (h : Pushed q base sp bs m m') (r v : ℕ) : m'.leaf r v = m.leaf r v :=
  entry_congr (fun _ _ _ _ _ => by rw [h.pt]) le_rfl v

end Pushed

namespace Building

theorem copyout_push (h : Building T R H m0 r tf sz m) (p : UserMem) (hn : n < pages sz)
    (he : m.leaf r n = some e) (hu : e.perm.u = true) (hw : e.perm.w = true) (hb : b ≠ [])
    (hroom : n * PGSIZE ≤ push 16 sp b.length) (hsp : sp ≤ (n + 1) * PGSIZE) (hpos : 0 < n) :
    ∃ m', copyout p.pagetable p.sz r (push 16 sp b.length) b m = .ok (true, m') ∧
      Building T R H m0 r tf sz m' ∧ Pushed e.page (n * PGSIZE) sp [b] m m' := by
  have huser := pages_le h.space.size
  have hmul := Own.mul_le_trapframe (show n + 1 ≤ userPages by omega)
  have hmax : TRAPFRAME < MAXVA := by decide
  have hbase : 0 < n * PGSIZE := Nat.mul_pos hpos (by decide)
  have hlen := length_pos_iff.2 hb
  have hend := Stack.push_add_le (lt_of_lt_of_le hbase hroom)
  have hnext : (n + 1) * PGSIZE = n * PGSIZE + PGSIZE := Nat.succ_mul n PGSIZE
  have hdiv : push 16 sp b.length / PGSIZE = n := Nat.div_eq_of_lt_le hroom (by omega)
  have hmod : push 16 sp b.length % PGSIZE = push 16 sp b.length - n * PGSIZE := by
    have := Nat.div_add_mod' (push 16 sp b.length) PGSIZE
    rw [hdiv] at this
    omega
  have hcopy : copyout p.pagetable p.sz r (push 16 sp b.length) b m = .ok (true, _) :=
    Own.copyout_page (hdiv.symm ▸ he) hu hw (show push 16 sp b.length < MAXVA by omega) hb
      (by omega)
  rw [hmod] at hcopy
  exact ⟨_, hcopy, h.storeBytes hn he _ b, .cons hroom (.nil _ _ _ _)⟩

/-- **The loop of `kexec` over the arguments**: they are on the stack, in virtual page `n`, or there
is no room for them. -/
theorem kexecArgs_runs (h : Building T R H m0 r tf sz m) (p : UserMem) (ustack : List ℕ)
    (hn : n < pages sz)
    (he : m.leaf r n = some e) (hu : e.perm.u = true) (hw : e.perm.w = true) (hpos : 0 < n)
    {argv : List (List UInt8)} (hshort : ∀ s ∈ argv, s.length < PGSIZE)
    (hsp : n * PGSIZE ≤ sp) (hsp' : sp ≤ (n + 1) * PGSIZE)
    (hlen : ustack.length + argv.length < MAXARG) :
    Runs (kexecArgs p r (n * PGSIZE) argv sp ustack) m fun out m' =>
      Building T R H m0 r tf sz m' ∧
      ((out = none ∧ pointer 16 sp (argv.map (· ++ [0])) < n * PGSIZE) ∨
        (out = some (pointer 16 sp (argv.map (· ++ [0])),
            ustack ++ places 16 sp (argv.map (· ++ [0]))) ∧
          n * PGSIZE ≤ pointer 16 sp (argv.map (· ++ [0])) ∧
          Pushed e.page (n * PGSIZE) sp (argv.map (· ++ [0])) m m')) := by
  induction argv generalizing sp ustack m with
  | nil =>
    refine .pure ⟨h, .inr ⟨?_, hsp, .nil _ _ _ _⟩⟩
    rw [map_nil, places, append_nil]
    rfl
  | cons s argv ih =>
    have hs := hshort s mem_cons_self
    rw [length_cons] at hlen
    have hbase : PGSIZE ≤ n * PGSIZE := Nat.le_mul_of_pos_left _ hpos
    have hmul := Own.mul_le_trapframe (show n + 1 ≤ userPages by
      have := pages_le h.space.size
      omega)
    have hmax : TRAPFRAME < 2 ^ 64 := by decide
    have hlength : (s ++ [0]).length = s.length + 1 := length_append
    have hsub : addInt sp (-(s.length + 1)) = sp - (s ++ [0]).length := by
      unfold addInt
      omega
    rw [kexecArgs, if_neg (by omega), hsub, map_cons, pointer, places]
    change Runs (if push 16 sp (s ++ [0]).length < n * PGSIZE then pure none else do
      if ← copyout p.pagetable p.sz r (push 16 sp (s ++ [0]).length) (s ++ [0]) then
        kexecArgs p r (n * PGSIZE) argv (push 16 sp (s ++ [0]).length)
          (ustack ++ [push 16 sp (s ++ [0]).length])
      else pure none) m _
    split_ifs with hlow
    · refine .pure ⟨h, .inl ⟨rfl, lt_of_le_of_lt (Stack.pointer_le _ _ _) hlow⟩⟩
    rw [not_lt] at hlow
    obtain ⟨m1, hcopy, h1, hpushed⟩ := h.copyout_push p hn he hu hw (by simp) hlow hsp' hpos
    refine .step hcopy ?_
    have hle := Stack.push_le 16 sp (s ++ [0]).length
    refine (ih h1 _ ((hpushed.leaf r n).trans he) (fun s' hs' => hshort s' (mem_cons_of_mem s hs'))
      hlow (by omega) ?_).conseq fun out m2 h2 => ?_
    · rw [length_append, length_singleton]
      omega
    · obtain ⟨h2, ⟨hout, hlow⟩ | ⟨hout, hroom, hpushed2⟩⟩ := h2
      · exact ⟨h2, .inl ⟨hout, hlow⟩⟩
      · rw [append_assoc, singleton_append] at hout
        exact ⟨h2, .inr ⟨hout, hroom, hpushed.append hpushed2⟩⟩

end Building

/-- **The stack that `kexec` has built** above a program of `n` pages. -/
structure StackBuilt (r n : ℕ) (argv : Argv) (m m' : Phys) : Prop where
  fits : Fits argv (n + 1)
  below : SameBelow r n m m'
  guard : ∃ g, m'.leaf r n = some g ∧ g.perm.u = false
  stack : ∃ e, m'.leaf r (n + 1) = some e ∧ e.perm.u = true ∧ ∀ j, m'.data e.page j =
    Stack.fill 16 (fun _ => 0) ((n + 2) * PGSIZE) (stackBlocks argv ((n + 2) * PGSIZE))
      ((n + 1) * PGSIZE + j)

namespace Building

/-- The pointers to the arguments are on the stack, or there is no room for them. -/
theorem kexecPointers_cases (h : Building T R H m0 r tf sz m) (p : UserMem) (elf : Elfhdr)
    (hn : n < pages sz) (he : m.leaf r n = some e) (hu : e.perm.u = true) (hw : e.perm.w = true)
    (hpos : 0 < n) {ustack : List ℕ} (hlen : ustack.length < MAXARG) (hsp : n * PGSIZE ≤ sp)
    (hsp' : sp ≤ (n + 1) * PGSIZE) {block : List UInt8}
    (hblock : (ustack ++ [0]).flatMap (leBytes 8) = block) :
    (push 16 sp block.length < n * PGSIZE ∧
      kexecPointers p tf r elf (n * PGSIZE) sz sp ustack m = kexecBad p r sz m) ∨
    (n * PGSIZE ≤ push 16 sp block.length ∧ ∃ m', Building T R H m0 r tf sz m' ∧
      Pushed e.page (n * PGSIZE) sp [block] m m' ∧
      kexecPointers p tf r elf (n * PGSIZE) sz sp ustack m =
        commit p tf r elf ustack.length (push 16 sp block.length) sz m') := by
  have hlength : block.length = (ustack.length + 1) * 8 := by
    rw [← hblock, length_flatMap_leBytes, length_append, length_singleton]
  have hbase : PGSIZE ≤ n * PGSIZE := Nat.le_mul_of_pos_left _ hpos
  have hmul := Own.mul_le_trapframe (show n + 1 ≤ userPages by
    have := pages_le h.space.size
    omega)
  have hmax : TRAPFRAME < 2 ^ 64 ∧ MAXARG * 8 < PGSIZE := by decide
  have hsub : addInt sp (-((ustack.length + 1) * 8)) = sp - block.length := by
    unfold addInt
    omega
  unfold kexecPointers
  rw [hsub, hblock]
  change (_ ∧ (if push 16 sp block.length < n * PGSIZE then kexecBad p r sz else do
    if ← copyout p.pagetable p.sz r (push 16 sp block.length) block then
      commit p tf r elf ustack.length (push 16 sp block.length) sz
    else kexecBad p r sz) m = _) ∨ (_ ∧ ∃ m', _ ∧ _ ∧
    (if push 16 sp block.length < n * PGSIZE then kexecBad p r sz else do
      if ← copyout p.pagetable p.sz r (push 16 sp block.length) block then
        commit p tf r elf ustack.length (push 16 sp block.length) sz
      else kexecBad p r sz) m = _)
  split_ifs with hlow
  · exact .inl ⟨hlow, rfl⟩
  rw [not_lt] at hlow
  have hne : block ≠ [] := length_pos_iff.1 (by omega)
  obtain ⟨m', hcopy, h', hpushed⟩ := h.copyout_push p hn he hu hw hne hlow hsp' hpos
  exact .inr ⟨hlow, m', h', hpushed, Program.bind_ok hcopy⟩

/-- **`kexec` from the stack on**: it goes to `bad`, without memory or without room, or builds the
stack. -/
theorem kexecStack_cases (h : Building T R H m0 r tf sz m) (hfull : Full m r sz) (p : UserMem)
    (elf : Elfhdr) (argv : Argv) :
    (∃ m', uvmalloc r (pages sz * PGSIZE) ((pages sz + 2) * PGSIZE) true false m = .ok (0, m') ∧
      kexecStack p tf r elf argv sz m = kexecBad p r (pages sz * PGSIZE) m' ∧
      Building T R H m0 r tf (pages sz * PGSIZE) m') ∨
    ∃ m1, uvmalloc r (pages sz * PGSIZE) ((pages sz + 2) * PGSIZE) true false m =
        .ok ((pages sz + 2) * PGSIZE, m1) ∧
      ((¬Fits argv (pages sz + 1) ∧ ∃ m',
        kexecStack p tf r elf argv sz m = kexecBad p r ((pages sz + 2) * PGSIZE) m' ∧
        Building T R H m0 r tf ((pages sz + 2) * PGSIZE) m') ∨
      ∃ m', Building T R H m0 r tf ((pages sz + 2) * PGSIZE) m' ∧
        StackBuilt r (pages sz) argv m m' ∧
        kexecStack p tf r elf argv sz m = commit p tf r elf argv.strings.length
          (pointer 16 ((pages sz + 2) * PGSIZE) (stackBlocks argv ((pages sz + 2) * PGSIZE)))
          ((pages sz + 2) * PGSIZE) m') := by
  have hround : pgroundup sz = pages sz * PGSIZE := pgroundup_eq h.space.size
  have hpages := pages_le h.space.size
  have hle : sz ≤ pages sz * PGSIZE := by
    simp only [pages, PGSIZE]
    omega
  have hsize : pages sz * PGSIZE ≤ TRAPFRAME := Own.mul_le_trapframe hpages
  have hstay : Only (insert r R) r 0 (pages (pages sz * PGSIZE)) m m := fun _ _ _ _ => rfl
  have h0 : Building T R H m0 r tf (pages sz * PGSIZE) m := h.only h.own hstay (.refl H m) hle hsize
  have hfull0 : Full m r (pages sz * PGSIZE) := by
    intro v hv
    rw [Own.pages_mul] at hv
    exact hfull v hv
  generalize pages sz = n at *
  have htwo : n * PGSIZE + (USERSTACK + 1) * PGSIZE = (n + 2) * PGSIZE :=
    (Nat.add_mul n 2 PGSIZE).symm
  have hguard : (n + 2) * PGSIZE - (USERSTACK + 1) * PGSIZE = n * PGSIZE := by omega
  have hbase : (n + 2) * PGSIZE - USERSTACK * PGSIZE = (n + 1) * PGSIZE := by
    simp only [USERSTACK, PGSIZE]
    omega
  have hpos : 0 < PGSIZE := by decide
  unfold kexecStack
  rw [hround]
  dsimp only
  rw [htwo]
  obtain ⟨sz1, m1, halloc, hout⟩ := h0.uvmalloc_runs hfull0 ((n + 2) * PGSIZE) true false
  rw [Program.bind_ok halloc]
  obtain ⟨rfl, h1, -⟩ | ⟨hmax, h1, hfull1, hfills, c, htakes⟩ := hout
  · exact .inl ⟨m1, halloc, rfl, h1⟩
  obtain rfl : sz1 = (n + 2) * PGSIZE := hmax.trans
    (max_eq_right (Nat.mul_le_mul_right _ (by omega)))
  refine .inr ⟨m1, halloc, ?_⟩
  rw [if_neg (Nat.mul_pos (by omega) hpos).ne', hguard, hbase]
  have hbelow := h0.sameBelow_fills hfills htakes
  rw [Own.pages_mul] at hbelow hfills
  rw [Own.pages_mul] at hfills
  -- the guard page
  obtain ⟨g, hg, -⟩ := hfills.zeros n le_rfl (by omega)
  have hdiv : n * PGSIZE / PGSIZE = n := Nat.mul_div_cancel _ hpos
  obtain ⟨⟨⟩, m2, hclear, hown2, hkept2, hdata2, hsets⟩ := h1.own.uvmclear_runs h1.mem_root
    (show n * PGSIZE < MAXVA from lt_of_le_of_lt hsize (by decide)) (by rw [hdiv]; exact hg)
  rw [hdiv] at hsets
  rw [Program.bind_ok hclear]
  have h2 := h1.only hown2 (hsets.only (Nat.zero_le n) (by rw [Own.pages_mul]; omega)) hkept2 le_rfl
    h1.space.size
  have hsets' (v : ℕ) (hv : v ≠ n) : m2.leaf r v = m1.leaf r v := by
    rw [hsets r h1.mem_root, if_neg fun he => hv he.2]
  -- the stack above it
  obtain ⟨q, hq, hzero⟩ := hfills.zeros (n + 1) (by omega) (by omega)
  have he := (hsets' (n + 1) (by omega)).trans hq
  have hin : n + 1 < pages ((n + 2) * PGSIZE) := by
    rw [Own.pages_mul]
    omega
  obtain ⟨out, m3, hargs, h3, hout⟩ := h2.kexecArgs_runs p [] hin he rfl rfl (by omega) argv.short
    (Nat.mul_le_mul_right PGSIZE (Nat.le_succ (n + 1))) le_rfl
    (by rw [length_nil, Nat.zero_add]; exact argv.few)
  rw [Program.bind_ok hargs]
  generalize hargs : argv.strings.map (· ++ [0]) = args at hout
  have hlength : (places 16 ((n + 2) * PGSIZE) args).length = argv.strings.length := by
    rw [Stack.length_places, ← hargs, length_map]
  generalize hblock : (places 16 ((n + 2) * PGSIZE) args ++ [0]).flatMap (leBytes 8) = block
  have hblocks : stackBlocks argv ((n + 2) * PGSIZE) = args ++ [block] := by
    rw [← hblock, ← hargs]
    rfl
  have hlast : pointer 16 ((n + 2) * PGSIZE) (args ++ [block]) =
      push 16 (pointer 16 ((n + 2) * PGSIZE) args) block.length := Stack.pointer_append _ _ _ _
  have hfits : Fits argv (n + 1) ↔
      (n + 1) * PGSIZE ≤ push 16 (pointer 16 ((n + 2) * PGSIZE) args) block.length := by
    rw [← hlast, ← hblocks]
    rfl
  obtain ⟨rfl, hlow⟩ | ⟨rfl, hroom, hpushed⟩ := hout
  · refine .inl ⟨fun hroom => ?_, m3, rfl, h3⟩
    exact not_le.2 hlow ((hfits.1 hroom).trans (Stack.push_le _ _ _))
  rw [nil_append]
  dsimp only
  rcases h3.kexecPointers_cases p elf hin ((hpushed.leaf r (n + 1)).trans he) rfl rfl (by omega)
    (by rw [hlength]; exact argv.few) hroom (Stack.pointer_le _ _ _) hblock with
    ⟨hlow, hrun⟩ | ⟨hroom', m4, h4, hpushed4, hrun⟩
  · exact .inl ⟨fun hroom' => not_le.2 hlow (hfits.1 hroom'), m3, hrun, h3⟩
  rw [hlength, ← hlast, ← hblocks] at hrun
  have hall := hpushed.append hpushed4
  have hclosed := (hsets r h1.mem_root n).trans (if_pos ⟨rfl, rfl⟩)
  refine .inr ⟨m4, h4, ⟨hfits.2 hroom', fun v hv => ⟨?_, fun e' he' => ?_⟩,
    ⟨_, (hall.leaf r n).trans hclosed, rfl⟩,
    ⟨_, (hall.leaf r (n + 1)).trans he, rfl, fun j => ?_⟩⟩, hrun⟩
  · rw [hall.leaf, hsets' v hv.ne, (hbelow v hv).1]
  · -- the program is in other pages
    have hv' : v < userPages ∧ n + 1 < userPages := by
      have := pages_le h2.space.size
      omega
    have he2 := (hsets' v hv.ne).trans ((hbelow v hv).1.trans he')
    have hne : e'.page ≠ q := fun hpage => by
      have := h2.own.leaf_inj h2.mem_root hv'.2 he hv'.1 he2 hpage
      omega
    rw [hall.others _ hne, hdata2, (hbelow v hv).2 e' he']
  · rw [hall.page j, hblocks]
    refine Stack.fill_congr ?_ _ _ _
    rw [hdata2]
    exact hzero _

end Building

end Phys

end Cinux
