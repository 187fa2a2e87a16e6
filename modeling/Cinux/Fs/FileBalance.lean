import Cinux.Fs.Balance

/-!
# The balance of files and pipes

The functions of `file.c` and `pipe.c` on the ledger.  A page holds a pipe for as long as one of its
ends is open: `PipesOk.make`, `PipesOk.close` and `PipesOk.closeLast` are the three changes.
`fileclose` and `filedup` are only in balance for a file that is open, which is why both check it.
-/

namespace Cinux

open Function Ledger

open Program

namespace Kern

variable {D : Type} {R S : ProcFact} {α β : Type} {x y : Ledger} {s : Kern D} (V : Volume D)

/-! ### Files -/

theorem moves_beginOp : Moves R (beginOp : KernM D Unit) fun _ => one .op := by
  refine fun x s h => ⟨fun u s' hr => ?_, fun e he => ?_⟩
  · unfold beginOp at hr
    split_ifs at hr
    cases hr
    have := h.setOutstanding 1
    rwa [one_zsmul] at this
  · unfold beginOp at he
    split_ifs at he
    cases he
    simp [Stop.Expected]

theorem moves_endOp : Moves R (endOp : KernM D Unit) fun _ => -one .op := by
  refine moves_of_ok (fun _ => rfl) fun x s h => ?_
  have := h.setOutstanding (-1)
  rwa [neg_one_zsmul] at this

variable {n : ℕ}

namespace PipesOk

variable {ftable : Fin NFILE → OpenFile} {pipe : ℕ → Option PipeEnds} {l : List ℕ}
  {made freed : ℕ → ℕ} {f : Fin NFILE} {z : OpenFile}

theorem of_ends {ftable' : Fin NFILE → OpenFile} (h : PipesOk ftable pipe l made freed)
    (hends : ∀ g n w, (ftable' g).IsEnd n w ↔ (ftable g).IsEnd n w) :
    PipesOk ftable' pipe l made freed := by
  refine ⟨fun g n w hg => ?_, fun n e he w => ?_, fun g g' n w hg hg' => ?_, h.held, h.nodup,
    h.apart, h.count⟩
  · exact h.holds g n w ((hends g n w).1 hg)
  · rw [h.ends n e he w]
    exact exists_congr fun g => (hends g n w).symm
  · exact h.unique g g' n w ((hends g n w).1 hg) ((hends g' n w).1 hg')

theorem setFile (h : PipesOk ftable pipe l made freed)
    (hz : ∀ n w, z.IsEnd n w ↔ (ftable f).IsEnd n w) :
    PipesOk (update ftable f z) pipe l made freed := by
  refine h.of_ends fun g n w => ?_
  by_cases hg : g = f
  · subst hg
    rw [update_self]
    exact hz n w
  · rw [update_of_ne hg]

theorem isOpen_close (e : PipeEnds) (w w' : Bool) :
    (PipeEnds.close e w).isOpen w' = (if w' = w then false else e.isOpen w') := by
  cases w <;> cases w' <;> rfl

theorem isEnd_closed {w : Bool} (h : PipesOk ftable pipe l made freed)
    (hf : (ftable f).IsEnd n w) (hz : z.type = .none) (g : Fin NFILE) (n' : ℕ) (w' : Bool) :
    (update ftable f z g).IsEnd n' w' ↔ (ftable g).IsEnd n' w' ∧ ¬ (n' = n ∧ w' = w) := by
  by_cases hg : g = f
  · subst hg
    constructor
    · intro hz'
      exact absurd hz'.2.1 (by simp [hz])
    · rintro ⟨hg', hne⟩
      exact absurd ⟨hg'.2.2.1.symm.trans hf.2.2.1, hg'.2.2.2.symm.trans hf.2.2.2⟩ hne
  · rw [update_of_ne hg]
    constructor
    · intro hg'
      refine ⟨hg', ?_⟩
      rintro ⟨rfl, rfl⟩
      exact hg (h.unique g f n' w' hg' hf)
    · exact fun hg' => hg'.1

/-- One end is closed, and the other is still open. -/
theorem close {w : Bool} {e : PipeEnds} (h : PipesOk ftable pipe l made freed)
    (hf : (ftable f).IsEnd n w) (hz : z.type = .none) (he : pipe n = some e)
    (hopen : ∃ w', (PipeEnds.close e w).isOpen w' = true) :
    PipesOk (update ftable f z) (update pipe n (some (PipeEnds.close e w))) l made
      freed := by
  have hends := h.isEnd_closed hf hz
  have hsome : ∀ n', update pipe n (some (PipeEnds.close e w)) n' = none ↔ pipe n' = none := by
    intro n'
    by_cases hn : n' = n
    · subst hn
      simp [he]
    · rw [update_of_ne hn]
  refine ⟨fun g n' w' hg => ?_, fun n' e' he' w' => ?_, fun g g' n' w' hg hg' => ?_,
    fun n' e' he' => ?_, h.nodup, fun n' hn' => (hsome n').2 (h.apart n' hn'), fun n' => ?_⟩
  · rw [Ne, hsome]
    exact h.holds g n' w' ((hends g n' w').1 hg).1
  · simp only [hends]
    by_cases hn : n' = n
    · subst hn
      rw [update_self] at he'
      cases he'
      rw [isOpen_close]
      by_cases hw : w' = w
      · simp [hw]
      · simpa [hw] using h.ends n' e he w'
    · rw [update_of_ne hn] at he'
      simpa [hn] using h.ends n' e' he' w'
  · exact h.unique g g' n' w' ((hends g n' w').1 hg).1 ((hends g' n' w').1 hg').1
  · by_cases hn : n' = n
    · subst hn
      rw [update_self] at he'
      cases he'
      exact hopen
    · rw [update_of_ne hn] at he'
      exact h.held n' e' he'
  · rw [h.count n']
    simp only [hsome]

/-- **The last end is closed**, and the page is given back. -/
theorem closeLast {w : Bool} {e : PipeEnds} (h : PipesOk ftable pipe l made freed)
    (hf : (ftable f).IsEnd n w) (hz : z.type = .none) (he : pipe n = some e)
    (hopen : ∀ w', (PipeEnds.close e w).isOpen w' = false) :
    PipesOk (update ftable f z) (update pipe n none) (n :: l) made
      (update freed n (freed n + 1)) := by
  have hends := h.isEnd_closed hf hz
  -- no other file is an end of this pipe
  have hother : ∀ g w', (update ftable f z g).IsEnd n w' → False := by
    intro g w' hg
    obtain ⟨hg, hne⟩ := (hends g n w').1 hg
    have hw : w' ≠ w := fun hw => hne ⟨rfl, hw⟩
    have hw' := hopen w'
    rw [isOpen_close, if_neg hw] at hw'
    have := (h.ends n e he w').2 ⟨g, hg⟩
    simp [hw'] at this
  refine ⟨fun g n' w' hg => ?_, fun n' e' he' w' => ?_, fun g g' n' w' hg hg' => ?_,
    fun n' e' he' => ?_, ?_, fun n' hn' => ?_, fun n' => ?_⟩
  · have hn : n' ≠ n := by
      rintro rfl
      exact hother g w' hg
    rw [update_of_ne hn]
    exact h.holds g n' w' ((hends g n' w').1 hg).1
  · have hn : n' ≠ n := by
      rintro rfl
      simp at he'
    rw [update_of_ne hn] at he'
    simpa [hends, hn] using h.ends n' e' he' w'
  · exact h.unique g g' n' w' ((hends g n' w').1 hg).1 ((hends g' n' w').1 hg').1
  · have hn : n' ≠ n := by
      rintro rfl
      simp at he'
    rw [update_of_ne hn] at he'
    exact h.held n' e' he'
  · refine List.nodup_cons.2 ⟨fun hn => ?_, h.nodup⟩
    simp [h.apart n hn] at he
  · by_cases hn : n' = n
    · rw [hn, update_self]
    · rw [update_of_ne hn]
      exact h.apart n' ((List.mem_cons.1 hn').resolve_left hn)
  · have hcount := h.count n'
    by_cases hn : n' = n
    · subst hn
      simpa [he] using hcount
    · rw [update_of_ne hn, update_of_ne hn]
      exact hcount

/-- A page becomes a pipe with the ends `f` and `g`. -/
theorem make {g : Fin NFILE} {z' : OpenFile} (h : PipesOk ftable pipe l made freed)
    (hfg : f ≠ g) (hf : (ftable f).type = .none) (hg : (ftable g).type = .none)
    (hz : z.IsEnd n false) (hz' : z'.IsEnd n true) (hn : pipe n = none) (hl : n ∉ l) :
    PipesOk (update (update ftable f z) g z')
      (update pipe n (some ⟨true, true⟩)) l (update made n (made n + 1)) freed := by
  have hends : ∀ k n' w, (update (update ftable f z) g z' k).IsEnd n' w ↔
      k = f ∧ n' = n ∧ w = false ∨ k = g ∧ n' = n ∧ w = true ∨ (ftable k).IsEnd n' w := by
    intro k n' w
    have hnot : ∀ k, (ftable k).type = .none → ¬ (ftable k).IsEnd n' w := by
      intro k hk
      exact OpenFile.not_isEnd (by simp [hk]) n' w
    by_cases hkg : k = g
    · subst hkg
      rw [update_self, hz'.isEnd_iff]
      simp [hfg.symm, hnot k hg]
    · by_cases hkf : k = f
      · subst hkf
        rw [update_of_ne hkg, update_self, hz.isEnd_iff]
        simp [hfg, hnot k hf]
      · simp [hkg, hkf]
  have hnone : ∀ k w, ¬ (ftable k).IsEnd n w := fun k w hk => h.holds k n w hk hn
  refine ⟨fun k n' w hk => ?_, fun n' e he w => ?_, fun k k' n' w hk hk' => ?_, fun n' e he => ?_,
    h.nodup, fun n' hn' => ?_, fun n' => ?_⟩
  · by_cases hnn : n' = n
    · rw [hnn, update_self]
      simp
    · rw [update_of_ne hnn]
      simp only [hends, hnn, false_and, and_false, false_or] at hk
      exact h.holds k n' w hk
  · simp only [hends]
    by_cases hnn : n' = n
    · subst hnn
      rw [update_self] at he
      cases he
      cases w <;> simp [PipeEnds.isOpen, hnone]
    · rw [update_of_ne hnn] at he
      simpa [hnn] using h.ends n' e he w
  · simp only [hends] at hk hk'
    by_cases hnn : n' = n
    · subst hnn
      cases w
      · simp only [hnone, and_true, and_false, or_false, reduceCtorEq] at hk hk'
        rw [hk, hk']
      · simp only [hnone, and_true, and_false, or_false, false_or, reduceCtorEq] at hk hk'
        rw [hk, hk']
    · simp only [hnn, false_and, and_false, false_or] at hk hk'
      exact h.unique k k' n' w hk hk'
  · by_cases hnn : n' = n
    · subst hnn
      rw [update_self] at he
      cases he
      exact ⟨true, rfl⟩
    · rw [update_of_ne hnn] at he
      exact h.held n' e he
  · have hnn : n' ≠ n := by
      rintro rfl
      exact hl hn'
    rw [update_of_ne hnn]
    exact h.apart n' hn'
  · have hcount := h.count n'
    by_cases hnn : n' = n
    · subst hnn
      simp only [hn, update_self] at hcount ⊢
      simp [hcount]
    · rw [update_of_ne hnn, update_of_ne hnn]
      exact hcount

end PipesOk

/-- The file is open, and is not used for anything yet. -/
def Fresh (f : Fin NFILE) (ftable : Fin NFILE → OpenFile) : Prop :=
  (ftable f).ref = 1 ∧ (ftable f).type = .none

theorem filealloc_cases (s : Kern D) :
    filealloc s = .ok (none, s) ∨ ∃ f, (s.ftable f).ref = 0 ∧ filealloc s = .ok (some f, { s with
        ftable := update s.ftable f { s.ftable f with ref := 1 } }) := by
  cases hf : (List.finRange NFILE).find? fun f => (s.ftable f).ref = 0 with
  | none =>
    left
    simp only [filealloc, bind_ok (m := get) rfl]
    rw [hf]
    rfl
  | some f =>
    right
    refine ⟨f, by simpa using List.find?_some hf, ?_⟩
    simp only [filealloc, bind_ok (m := get) rfl]
    rw [hf]
    rfl

theorem fdalloc_cases (p : Fin NPROC) (f : Fin NFILE) (s : Kern D) :
    fdalloc p f s = .ok (none, s) ∨ ∃ fd, s.ofile (p, fd) = none ∧
      fdalloc p f s = .ok (some fd, { s with
        ofile := update s.ofile (p, fd) (some f) }) := by
  cases hfd : (List.finRange NOFILE).find? fun fd => s.ofile (p, fd) = none with
  | none =>
    left
    simp only [fdalloc, bind_ok (m := get) rfl]
    rw [hfd]
    rfl
  | some fd =>
    right
    refine ⟨fd, by simpa using List.find?_some hfd, ?_⟩
    simp only [fdalloc, bind_ok (m := get) rfl]
    rw [hfd]
    rfl

variable {F : (Fin NFILE → OpenFile) → Prop}

theorem guarded_filealloc (hF : ∀ ftable f z, F ftable → (ftable f).ref = 0 →
    F (update ftable f z)) :
    Guarded Stop.Expected (fun s : Kern D => F s.ftable ∧ Bal R x s) filealloc fun r s =>
      match r with
      | none => F s.ftable ∧ Bal R x s
      | some f => (∃ ftable, F ftable ∧ (ftable f).ref = 0) ∧ F s.ftable ∧ Fresh f s.ftable ∧
          Bal R (x + file f) s := by
  refine Guarded.of_ok fun s ⟨hs, h⟩ => ?_
  obtain hn | ⟨f, h0, hf⟩ := filealloc_cases s
  · exact ⟨_, _, hn, hs, h⟩
  have htype := h.idle f h0
  refine ⟨_, _, hf, ⟨s.ftable, hs, h0⟩, hF _ _ _ hs h0, ?_, ?_⟩
  · simp [Fresh, htype]
  · have hpipes := h.pipes.setFile (f := f) (z := { s.ftable f with ref := 1 }) fun n w =>
      iff_of_false (OpenFile.not_isEnd (by simp [htype]) n w)
        (OpenFile.not_isEnd (by simp [htype]) n w)
    have := h.setFile (by simp) hpipes
    simpa [h0, OpenFile.inode, htype] using this

variable {f : Fin NFILE}

theorem guarded_fdalloc {p : Fin NPROC} {S : Fin NOFILE → ProcFact}
    (hR : ∀ fd st o c, R st o c → o (p, fd) = none → S fd st (update o (p, fd) (some f)) c) :
    Guarded Stop.Expected (fun s : Kern D => F s.ftable ∧ Bal R x s) (fdalloc p f)
      fun r s => F s.ftable ∧ match r with
        | none => Bal R x s
        | some fd => Bal (S fd) (x - file f) s := by
  refine Guarded.of_ok fun s ⟨hs, h⟩ => ?_
  obtain hn | ⟨fd, h0, hf⟩ := fdalloc_cases p f s
  · exact ⟨_, _, hn, hs, h⟩
  refine ⟨_, _, hf, hs, ?_⟩
  have := h.setOfile fd (hR fd _ _ _ h.procs h0)
  rw [h0] at this
  simpa [fileOf, sub_eq_add_neg] using this

theorem guarded_clearFd {p : Fin NPROC} {fd : Fin NOFILE} (hf : ∀ st o c, R st o c →
    o (p, fd) = some f)
    (hR : ∀ st o c, R st o c → S st (update o (p, fd) none) c) :
    Guarded Stop.Expected (Bal R x) (setFd p fd none : KernM D Unit)
      fun _ => Bal S (x + file f) := by
  refine Guarded.of_ok fun s h => ⟨_, _, rfl, ?_⟩
  have := h.setOfile fd (hR _ _ _ h.procs)
  rw [hf _ _ _ h.procs] at this
  simpa [fileOf] using this

theorem guarded_filedup :
    Guarded Stop.Expected (fun s : Kern D => 0 < (s.ftable f).ref ∧ Bal R x s) (filedup f)
      fun _ => Bal R (x + file f) := by
  refine Guarded.of_ok fun s ⟨hs, h⟩ => ?_
  have hrun : filedup f s = .ok ((), { s with
      ftable := update s.ftable f { s.ftable f with ref := (s.ftable f).ref + 1 } }) := by
    rw [filedup, bind_ok rfl, if_neg (by omega)]
    rfl
  refine ⟨_, _, hrun, ?_⟩
  have hpipes := h.pipes.setFile (f := f)
    (z := { s.ftable f with ref := (s.ftable f).ref + 1 }) fun n w => by
      simp [OpenFile.IsEnd, hs]
  have := h.setFile (by simp) hpipes
  simpa [OpenFile.inode, hs] using this

theorem Bal.closeFile {pipe : ℕ → Option PipeEnds} {l : List ℕ}
    {made freed : ℕ → ℕ} (h : Bal R x s) (href : (s.ftable f).ref = 1)
    (hpipes : PipesOk (update s.ftable f { s.ftable f with ref := 0, type := .none }) pipe l
      made freed) :
    Bal R (x - file f + refOf (s.ftable f).inode)
      { s with
        ftable := update s.ftable f { s.ftable f with ref := 0, type := .none }
        pipe := pipe, freelist := l, made := made, freed := freed } := by
  have hbal := h.setFile (fun _ => rfl) hpipes
  have hinode : ({ s.ftable f with ref := 0, type := .none } : OpenFile).inode = none :=
    OpenFile.inode_of_type (by simp) (by simp)
  have hx : x + (((0 : ℕ) : ℤ) - (s.ftable f).ref) • file f +
      (refOf (s.ftable f).inode - refOf none) =
      x - file f + refOf (s.ftable f).inode := by
    simp [href, refOf, sub_eq_add_neg]
  rw [hinode, hx] at hbal
  exact hbal

/-- Closing the last reference to an end of a pipe. -/
theorem guarded_closeEnd {w : Bool} :
    Guarded Stop.Expected
      (fun s : Kern D => (s.ftable f).IsEnd n w ∧ (s.ftable f).ref = 1 ∧ Bal R x s)
      (do
        modifyFile f fun z => { z with ref := 0, type := .none }
        pipeclose n w)
      fun _ => Bal R (x - file f) := by
  refine Guarded.of_ok fun s ⟨hend, href, h⟩ => ?_
  rw [bind_ok rfl]
  obtain ⟨e, he⟩ := Option.ne_none_iff_exists'.1 (h.pipes.holds f n w hend)
  have hinode : x - file f + refOf (s.ftable f).inode = x - file f := by
    rw [OpenFile.inode_of_type (by simp [hend.2.1]) (by simp [hend.2.1])]
    exact add_zero _
  simp only [pipeclose, he]
  by_cases hclosed : (PipeEnds.close e w).readopen = false ∧ (PipeEnds.close e w).writeopen = false
  · rw [if_pos hclosed]
    have hopen : ∀ w', (PipeEnds.close e w).isOpen w' = false := by
      intro w'
      cases w' <;> simp [PipeEnds.isOpen, hclosed]
    exact ⟨_, _, rfl, hinode ▸ h.closeFile href (h.pipes.closeLast hend rfl he hopen)⟩
  · rw [if_neg hclosed]
    have hopen : ∃ w', (PipeEnds.close e w).isOpen w' = true := by
      by_contra hno
      have hoff := fun w' => Bool.eq_false_iff.2 (not_exists.1 hno w')
      exact hclosed ⟨hoff false, hoff true⟩
    exact ⟨_, _, rfl, hinode ▸ h.closeFile href (h.pipes.close hend rfl he hopen)⟩

theorem guarded_closeOther {z : OpenFile} (hz : z.type ≠ .pipe) :
    Guarded Stop.Expected (fun s : Kern D => s.ftable f = z ∧ z.ref = 1 ∧ Bal R x s)
      (modifyFile f fun z => { z with ref := 0, type := .none })
      fun _ => Bal R (x - file f + refOf z.inode) := by
  refine Guarded.of_ok fun s ⟨hs, href, h⟩ => ⟨_, _, rfl, ?_⟩
  subst hs
  exact h.closeFile href <| h.pipes.setFile fun n w =>
    iff_of_false (OpenFile.not_isEnd (by simp) n w) (OpenFile.not_isEnd hz n w)

theorem guarded_closeShared :
    Guarded Stop.Expected (fun s : Kern D => 0 < (s.ftable f).ref - 1 ∧ Bal R x s)
      (modifyFile f fun z => { z with ref := z.ref - 1 }) fun _ => Bal R (x - file f) := by
  refine Guarded.of_ok fun s ⟨hs, h⟩ => ⟨_, _, rfl, ?_⟩
  have hpos : 0 < (s.ftable f).ref := by omega
  have hpipes := h.pipes.setFile (f := f) (z := { s.ftable f with ref := (s.ftable f).ref - 1 })
    fun n w => by simp [OpenFile.IsEnd, hs, hpos]
  have hz : (s.ftable f).ref - 1 = 0 → (s.ftable f).type = .none := by omega
  have := h.setFile hz hpipes
  have hcast : (((s.ftable f).ref - 1 : ℕ) : ℤ) - (s.ftable f).ref = -1 := by omega
  simpa [OpenFile.inode, hs, hpos, sub_eq_add_neg] using this

theorem guarded_closeInode {z : OpenFile} (hz : z.inode = z.ip) :
    Guarded Stop.Expected (Bal R (x + refOf z.inode))
      (match z.ip with
        | none => kerneltrap
        | some ip => do
          beginOp
          iput V ip
          endOp : KernM D Unit)
      fun _ => Bal R x := by
  rw [hz]
  cases z.ip with
  | none => exact .throw (by simp [Stop.Expected])
  | some ip =>
    have hmoves : Moves R (do
        beginOp
        iput V ip
        endOp) fun _ => -ref ip :=
      .bind moves_beginOp fun _ =>
        .bind (moves_iput V ip) fun _ => moves_endOp.congr fun _ => by abel
    refine (hmoves _).conseq (fun _ h => h) fun _ s h => ?_
    exact (add_neg_cancel_right x (ref ip)) ▸ h

/-- **`fileclose`** of an open file gives back one reference. -/
theorem guarded_fileclose :
    Guarded Stop.Expected (fun s : Kern D => 0 < (s.ftable f).ref ∧ Bal R x s) (fileclose V f)
      fun _ => Bal R (x - file f) := by
  refine Guarded.look (fun _ => rfl) fun t => ?_
  by_cases hpos : (t.ftable f).ref < 1
  · rintro s ⟨rfl, hs, -⟩
    omega
  simp only [if_neg hpos]
  by_cases hshared : 0 < (t.ftable f).ref - 1
  · simp only [if_pos hshared]
    refine guarded_closeShared.pre ?_
    rintro s ⟨rfl, -, h⟩
    exact ⟨hshared, h⟩
  simp only [if_neg hshared]
  have hone : (t.ftable f).ref = 1 := by omega
  have hclose := fun h : (t.ftable f).type ≠ .pipe =>
    (guarded_closeOther h).pre
      (P := fun s => s = t ∧ 0 < (s.ftable f).ref ∧ Bal R x s)
      fun s hs => ⟨congrArg (fun s => s.ftable f) hs.1, hone, hs.2.2⟩
  cases htype : (t.ftable f).type with
  | pipe =>
    refine guarded_closeEnd.pre ?_
    rintro s ⟨rfl, hs, h⟩
    exact ⟨⟨hs, htype, rfl, rfl⟩, hone, h⟩
  | none =>
    refine .bind (hclose (by simp [htype])) fun _ => .pure fun s h => ?_
    rw [OpenFile.inode_of_type (by simp [htype]) (by simp [htype])] at h
    exact (add_zero (x - file f)) ▸ h
  | inode =>
    refine .bind (hclose (by simp [htype])) fun _ => guarded_closeInode V ?_
    simp [OpenFile.inode, hone, htype]
  | device =>
    refine .bind (hclose (by simp [htype])) fun _ => guarded_closeInode V ?_
    simp [OpenFile.inode, hone, htype]

theorem Moves.guarded {m : KernM D α} {δ : α → Ledger} {z : α → Ledger} (h : Moves R m δ)
    (hz : ∀ a, x + δ a = z a) : Guarded Stop.Expected (Bal R x) m fun a => Bal R (z a) :=
  (h x).conseq (fun _ hs => hs) fun a _ hs => hz a ▸ hs

theorem Bal.ref_pos (h : Bal R x s) (hx : 0 < x (.file f)) :
    0 < (s.ftable f).ref := by
  have := h.files f
  omega

theorem guarded_fileclose_held (hx : 0 < x (.file f)) :
    Guarded Stop.Expected (Bal R x) (fileclose V f) fun _ => Bal R (x - file f) :=
  (guarded_fileclose V).pre fun _ h => ⟨h.ref_pos hx, h⟩

theorem file_pos (f g : Fin NFILE) : 0 < (file f + file g) (.file f) := by
  simp only [Pi.add_apply, file, one_apply, if_true]
  split_ifs <;> omega

theorem file_self_pos (f : Fin NFILE) : 0 < file f (.file f) := by
  simp [file, one_apply]

variable {f g : Fin NFILE}

theorem guarded_closeBoth (r : α) :
    Guarded Stop.Expected (Bal R (file f + file g))
      (do
        fileclose V f
        fileclose V g
        pure r)
      fun a s => a = r ∧ Bal R 0 s := by
  refine .bind (guarded_fileclose_held V (file_pos f g)) fun _ => ?_
  rw [add_sub_cancel_left]
  refine .bind (guarded_fileclose_held V (file_self_pos g)) fun _ => .pure fun s h => ⟨rfl, ?_⟩
  rwa [sub_self] at h

variable {ftable : Fin NFILE → OpenFile}

theorem Bal.setFiles {pipe : ℕ → Option PipeEnds} {l : List ℕ}
    {made freed : ℕ → ℕ} (h : Bal R x s)
    (hsame : ∀ f, ftable f = s.ftable f ∨ (ftable f).ref = (s.ftable f).ref ∧ 0 < (ftable f).ref ∧
      (ftable f).inode = (s.ftable f).inode)
    (hpipes : PipesOk ftable pipe l made freed) :
    Bal R x { s with
      ftable := ftable, pipe := pipe, freelist := l, made := made, freed := freed } := by
  have hinode : fileInode ftable = fileInode s.ftable := by
    funext f
    obtain hf | ⟨-, -, hf⟩ := hsame f
    · exact congrArg OpenFile.inode hf
    · exact hf
  refine ⟨fun i => ?_, h.locks, fun f => ?_, h.ops, fun f h0 => ?_, hpipes, h.sb, h.procs⟩
  · simp only [hinode]
    exact h.refs i
  · obtain hf | ⟨hf, -, -⟩ := hsame f
    · simp only [hf]
      exact h.files f
    · simp only [hf]
      exact h.files f
  · obtain hf | ⟨-, hpos, -⟩ := hsame f
    · simp only [hf] at h0 ⊢
      exact h.idle f h0
    · exact absurd h0 hpos.ne'

/-- A page that is not free becomes a pipe. -/
theorem guarded_pipeinit (hfg : f ≠ g) :
    Guarded Stop.Expected (fun s : Kern D => (Fresh f s.ftable ∧ Fresh g s.ftable) ∧
        (s.pipe n = none ∧ n ∉ s.freelist) ∧ Bal R x s)
      (pipeinit n f g) fun _ => Bal R x := by
  refine Guarded.of_ok fun s ⟨⟨hf, hg⟩, ⟨hn, hl⟩, h⟩ => ?_
  set zf : OpenFile :=
    { s.ftable f with type := .pipe, readable := true, writable := false, pipe := n } with hzf
  set zg : OpenFile :=
    { s.ftable g with type := .pipe, readable := false, writable := true, pipe := n } with hzg
  have hrun : pipeinit n f g s = .ok ((), { s with
      pipe := update s.pipe n (some ⟨true, true⟩)
      made := update s.made n (s.made n + 1)
      ftable := update (update s.ftable f zf) g zg }) := by
    have hg' : update s.ftable f zf g = s.ftable g := update_of_ne hfg.symm _ _
    rw [hzg, ← hg']
    rfl
  have hfresh : ∀ (k : Fin NFILE) (z : OpenFile), Fresh k s.ftable → z.type = .pipe →
      z.ref = (s.ftable k).ref →
      z.ref = (s.ftable k).ref ∧ 0 < z.ref ∧ z.inode = (s.ftable k).inode := by
    intro k z hk ht hr
    refine ⟨hr, by rw [hr, hk.1]; exact Nat.one_pos, ?_⟩
    rw [OpenFile.inode_of_type (by simp [ht]) (by simp [ht]),
      OpenFile.inode_of_type (by simp [hk.2]) (by simp [hk.2])]
  refine ⟨_, _, hrun, h.setFiles (fun k => ?_) ?_⟩
  · by_cases hkg : k = g
    · subst hkg
      rw [update_self]
      exact .inr (hfresh k zg hg rfl rfl)
    · rw [update_of_ne hkg]
      by_cases hkf : k = f
      · subst hkf
        rw [update_self]
        exact .inr (hfresh k zf hf rfl rfl)
      · rw [update_of_ne hkf]
        exact .inl rfl
  · exact h.pipes.make hfg hf.2 hg.2 ⟨by simp [hzf, hf.1], rfl, rfl, rfl⟩
      ⟨by simp [hzg, hg.1], rfl, rfl, rfl⟩ hn hl

theorem fresh_update {z : OpenFile}
    (hf : Fresh f ftable) (hg : (ftable g).ref = 0) :
    f ≠ g ∧ Fresh f (update ftable g z) := by
  have hne : f ≠ g := by
    rintro rfl
    simp [hf.1] at hg
  refine ⟨hne, ?_⟩
  unfold Fresh
  rw [update_of_ne hne]
  exact hf

theorem guarded_kalloc :
    Guarded Stop.Expected (fun s : Kern D => F s.ftable ∧ Bal R x s) kalloc fun r s =>
      match r with
      | none => F s.ftable ∧ Bal R x s
      | some n => F s.ftable ∧ (s.pipe n = none ∧ n ∉ s.freelist) ∧ Bal R x s := by
  refine Guarded.of_ok fun s ⟨hs, h⟩ => ?_
  cases hl : s.freelist with
  | nil => exact ⟨none, s, by simp [kalloc, hl], hs, h⟩
  | cons n l =>
    have hpipes := h.pipes
    rw [hl] at hpipes
    have hnodup := List.nodup_cons.1 hpipes.nodup
    refine ⟨some n, { s with freelist := l }, by simp [kalloc, hl], hs,
      ⟨hpipes.apart n List.mem_cons_self, hnodup.1⟩, { h with pipes := ?_ }⟩
    exact { hpipes with
      nodup := hnodup.2, apart := fun n' hn' => hpipes.apart n' (List.mem_cons_of_mem n hn') }

/-- **`pipealloc`** returns two new files, or nothing. -/
theorem guarded_pipealloc :
    Guarded Stop.Expected (Bal R 0) (pipealloc V) fun r =>
      Bal R (r.elim 0 fun q => file q.1 + file q.2) := by
  refine .bind ((guarded_filealloc (F := fun _ => True) fun _ _ _ _ _ => trivial).pre
    fun s h => ⟨trivial, h⟩) fun r => ?_
  cases r with
  | none => exact .pure fun s h => h.2
  | some f =>
    refine .bind ((guarded_filealloc (R := R) (F := Fresh f) (x := file f)
      fun ft g z hf hg => (fresh_update hf hg).2).pre ?_) fun r => ?_
    · rintro s ⟨-, -, hf, h⟩
      rw [zero_add] at h
      exact ⟨hf, h⟩
    cases r with
    | none =>
      refine .bind ((guarded_fileclose_held V (file_self_pos f)).pre fun s h => h.2)
        fun _ => .pure fun s h => ?_
      rwa [sub_self] at h
    | some g =>
      refine .pull fun ⟨ft, hft, hg⟩ => ?_
      have hne := (fresh_update (z := ft g) hft hg).1
      refine .bind ((guarded_kalloc (F := fun ft => Fresh f ft ∧ Fresh g ft)).pre
        fun s h => ⟨⟨h.1, h.2.1⟩, h.2.2⟩) fun r => ?_
      cases r with
      | none =>
        refine (guarded_closeBoth V none).conseq (fun s h => h.2) fun r s h => ?_
        rw [h.1]
        exact h.2
      | some n => exact .bind (guarded_pipeinit hne) fun _ => .pure fun s h => h

end Kern

end Cinux
