import Cinux.Proc.Recycle

/-!
# Process ids

`allocpid` hands out the numbers of a counter of type `int` that is never checked.  As long as it
has not passed the largest `int`, no two processes have the same pid, all pids are positive, and a
pid never comes back: `kkill` of a pid that `kfork` has returned finds that child or nothing.  (The
exception is pid 0, which is that of every unused slot.)  Then the counter goes on with negative
numbers, comes to -1, which is also what `kfork` returns when it fails, and after 2^32 allocations
to the pid of `init`.

* `Procs.Step.pidStep` : what a section does to the pids;
* `Procs.pids_identify` : every run in which `allocpid` finds a positive number;
* `Procs.pids_repeat` : a run in which it does not.
-/

namespace Cinux

/-- A section in which `allocpid` is called. -/
def ProcAct.allocates : ProcAct → Bool
  | .forkFail _ _ => true
  | .fork _ _ => true
  | _ => false

namespace ProcTable

variable {t t' : ProcTable} {p : Fin NPROC}

theorem reparent_nextpid (t : ProcTable) (p : Fin NPROC) : (t.reparent p).nextpid = t.nextpid := by
  have hone : ∀ (t : ProcTable) (pp : Fin NPROC), (reparentOne p t pp).nextpid = t.nextpid := by
    intro t pp
    unfold reparentOne
    split_ifs <;> rfl
  unfold reparent
  induction List.finRange NPROC generalizing t with
  | nil => rfl
  | cons pp l ih => rw [List.foldl_cons, ih, hone]

theorem kexit_nextpid {status : ℤ} (h : t.kexit p status = some t') : t'.nextpid = t.nextpid := by
  simp only [kexit] at h
  split_ifs at h
  cases h
  simp only [modify, wakeup, reparent_nextpid]

end ProcTable

namespace Procs

variable {s s₁ s' : Procs} {a : ProcAct} {p q i np : Fin NPROC}

/-! ### What a section does to the pids -/

/-- Slot `i` is in use. -/
def Used (s : Procs) (i : Fin NPROC) : Prop := (s.table.proc i).state ≠ .unused

/-- Slot `i` has the same process. -/
def SameId (s s' : Procs) (i : Fin NPROC) : Prop :=
  (s'.table.proc i).pid = (s.table.proc i).pid ∧ (s'.Used i ↔ s.Used i)

/-- Slot `i` has no process. -/
def Vacant (s : Procs) (i : Fin NPROC) : Prop := ¬s.Used i ∧ (s.table.proc i).pid = 0

/-- What a section does to the pids. -/
inductive PidStep (s : Procs) (a : ProcAct) (s' : Procs) : Prop
  /-- `kfork` takes a slot and the next pid, -/
  | take {p np : Fin NPROC} : a = .fork p np → ¬s.Used np → s'.Used np →
      (s'.table.proc np).pid = s.table.nextpid →
      s'.table.nextpid = toInt32 (s.table.nextpid + 1) → (∀ i, i ≠ np → SameId s s' i) →
      PidStep s a s'
  /-- or gives the slot back, -/
  | burn {np : Fin NPROC} : a.allocates = true → (∀ i, a.reaps i = false) → ¬s.Used np →
      s'.Vacant np → s'.table.nextpid = toInt32 (s.table.nextpid + 1) →
      (∀ i, i ≠ np → SameId s s' i) → PidStep s a s'
  /-- `kwait` frees a slot, -/
  | free {pp : Fin NPROC} : a.reaps pp = true → (∀ i, i ≠ pp → a.reaps i = false) →
      s'.Vacant pp → s'.table.nextpid = s.table.nextpid → (∀ i, i ≠ pp → SameId s s' i) →
      PidStep s a s'
  /-- and all else leaves them alone. -/
  | keep : (∀ i, a.reaps i = false) → s'.table.nextpid = s.table.nextpid →
      (∀ i, SameId s s' i) → PidStep s a s'

theorem sameId_modify {f : Proc → Proc} {pc : Fin NPROC → Pc}
    (hpid : (f (s.table.proc i)).pid = (s.table.proc i).pid)
    (hstate : (f (s.table.proc i)).state ≠ .unused ↔ (s.table.proc i).state ≠ .unused)
    (j : Fin NPROC) : SameId s ⟨s.table.modify i f, pc⟩ j := by
  unfold SameId Used
  rw [ProcTable.modify_proc]
  split_ifs with hj
  · subst hj
    exact ⟨hpid, hstate⟩
  · exact ⟨rfl, Iff.rfl⟩

theorem Step.pidStep (h : s.Inv) (hst : Step s a s') : PidStep s a s' := by
  cases hst with
  | @forkFail p np hp hn =>
    refine @PidStep.burn _ _ _ np rfl (fun _ => rfl) (by simp [Used, hn]) ?_ rfl fun i hi => ?_
    · simp [Vacant, Used, ProcTable.modify_proc, Proc.freeproc]
    · simp [SameId, Used, ProcTable.modify_proc, ProcTable.allocproc_proc, hi]
  | @fork p np hp hn =>
    refine .take rfl (by simp [Used, hn]) ?_ ?_ rfl fun i hi => ?_
    · simp [Used, ProcTable.allocproc_proc]
    · simp [ProcTable.allocproc_proc]
    · simp [SameId, Used, ProcTable.allocproc_proc, hi]
  | adopt hp => exact .keep (fun _ => rfl) rfl (sameId_modify rfl Iff.rfl)
  | @start p np hp =>
    have hused := h.child p np (by rw [hp.2]; rfl)
    exact .keep (fun _ => rfl) rfl (sameId_modify rfl (by simp [hused]))
  | @kexit p status t hp hlock ht =>
    have he := ProcTable.exited_of_kexit ht
    refine .keep (fun _ => rfl) (ProcTable.kexit_nextpid ht) fun i => ?_
    by_cases hi : i = p
    · subst hi
      simp [SameId, Used, he.self, Proc.adopt, hp.1]
    · rcases he.other i hi with hw | ⟨hw, hw'⟩
      · simp [SameId, Used, hw, Proc.adopt]
      · have hsleep : (s.table.proc i).state = .sleeping := hw
        simp [SameId, Used, hw', Proc.adopt, hsleep]
  | wait hp => exact .keep (fun _ => rfl) rfl fun i => ⟨rfl, Iff.rfl⟩
  | @kwait p addr copyout r t hp hw =>
    rcases ProcTable.kwait_cases hw with ⟨pp, rfl, -, -, rfl⟩ | ⟨hr, rfl⟩ | ⟨rfl, rfl, -⟩
    · refine @PidStep.free _ _ _ pp (by simp [ProcAct.reaps])
        (fun i hi => by simp [ProcAct.reaps, Ne.symm hi]) ?_ rfl fun i hi => ?_
      · simp [Vacant, Used, ProcTable.modify_proc, Proc.freeproc]
      · simp [SameId, Used, ProcTable.modify_proc, hi]
    · refine .keep (fun i => ?_) rfl fun i => ⟨rfl, Iff.rfl⟩
      rcases hr with rfl | rfl <;> rfl
    · exact .keep (fun _ => rfl) rfl fun i => ⟨rfl, Iff.rfl⟩
  | sleep hp => exact .keep (fun _ => rfl) rfl (sameId_modify rfl (by simp [hp.1]))
  | swtch hp => exact .keep (fun _ => rfl) rfl (sameId_modify rfl (by simp [hp]))
  | yield hp => exact .keep (fun _ => rfl) rfl (sameId_modify rfl (by simp [hp]))
  | sleepOn hp => exact .keep (fun _ => rfl) rfl (sameId_modify rfl (by simp [hp.1]))
  | wakeup hp => exact .keep (fun _ => rfl) rfl (sameId_modify rfl (by simp [hp.1]))
  | @kkill p pid i hp hpid hlock =>
    refine .keep (fun _ => rfl) rfl (sameId_modify rfl ?_)
    unfold Proc.kill
    split_ifs with hs <;> simp [hs]
  | setkilled hp => exact .keep (fun _ => rfl) rfl (sameId_modify rfl Iff.rfl)

theorem Step.used_of_fork (hst : Step s (.fork p np) s') : s'.Used np := by
  cases hst with
  | fork => simp [Used, ProcTable.allocproc_proc]

/-! ### Runs in which pids are left -/

/-- `allocpid` finds a positive number, and `kkill` is not asked for pid 0. -/
def PidsLeft (s : Procs) (a : ProcAct) (_ : Procs) : Prop :=
  (a.allocates = true → 0 < s.table.nextpid) ∧ ∀ q i, a ≠ .kkill q 0 i

/-- Pids and the counter. -/
structure PidInv (s : Procs) : Prop where
  range : s.table.nextpid < 2 ^ 31
  vacant : ∀ i, ¬s.Used i → (s.table.proc i).pid = 0
  pos : ∀ i, s.Used i → 0 < (s.table.proc i).pid
  /-- Until the counter overflows it is above all pids. -/
  below : 0 < s.table.nextpid → ∀ i, s.Used i → (s.table.proc i).pid < s.table.nextpid
  inj : ∀ i j, s.Used i → s.Used j → (s.table.proc i).pid = (s.table.proc j).pid → i = j

variable {n : ℤ}

theorem toInt32_succ (h : 0 < n) (h' : n < 2 ^ 31) :
    toInt32 (n + 1) < 2 ^ 31 ∧ (0 < toInt32 (n + 1) → toInt32 (n + 1) = n + 1) := by
  have hlt := Int.bmod_lt (x := n + 1) (m := 2 ^ 32) (by decide)
  unfold toInt32
  refine ⟨by omega, fun hpos => ?_⟩
  rcases (by omega : n + 1 < 2 ^ 31 ∨ n + 1 = 2 ^ 31) with hsmall | hbig
  · rw [Int.bmod_eq_of_le] <;> omega
  · rw [hbig] at hpos
    exact absurd hpos (by decide)

theorem boot_used (hi : boot.Used i) : i = initproc := by
  by_contra hne
  exact hi (by
    simp [boot, ProcTable.userinit, ProcTable.modify_proc, ProcTable.allocproc_proc, hne,
      ProcTable.blank])

theorem pidInv_boot : boot.PidInv := by
  refine ⟨by decide, fun i hi => ?_, fun i hi => ?_, fun _ i hi => ?_, fun i j hi hj _ => ?_⟩
  · have hne : i ≠ initproc := by
      rintro rfl
      exact hi (by unfold Used; decide)
    simp [boot, ProcTable.userinit, ProcTable.modify_proc, ProcTable.allocproc_proc, hne,
      ProcTable.blank]
  · rw [boot_used hi]
    decide
  · rw [boot_used hi]
    decide
  · rw [boot_used hi, boot_used hj]

theorem PidInv.shrink (h : s.PidInv) (hrange : s'.table.nextpid < 2 ^ 31)
    (hnext : 0 < s'.table.nextpid → 0 < s.table.nextpid ∧ s.table.nextpid ≤ s'.table.nextpid)
    (hsame : ∀ i, s'.Vacant i ∨ SameId s s' i) : s'.PidInv := by
  have hused : ∀ i, s'.Used i → s.Used i ∧ (s'.table.proc i).pid = (s.table.proc i).pid := by
    intro i hu
    rcases hsame i with hv | hs
    · exact absurd hu hv.1
    · exact ⟨hs.2.1 hu, hs.1⟩
  refine ⟨hrange, fun i hu => ?_, fun i hu => ?_, fun hpos i hu => ?_, fun i j hu hu' he => ?_⟩
  · rcases hsame i with hv | hs
    · exact hv.2
    · rw [hs.1]
      exact h.vacant i fun hu' => hu (hs.2.2 hu')
  · rw [(hused i hu).2]
    exact h.pos i (hused i hu).1
  · rw [(hused i hu).2]
    obtain ⟨hpos', hle⟩ := hnext hpos
    exact (h.below hpos' i (hused i hu).1).trans_le hle
  · rw [(hused i hu).2, (hused j hu').2] at he
    exact h.inj i j (hused i hu).1 (hused j hu').1 he

/-- A slot gets the next pid, which no process has. -/
theorem PidInv.take (h : s.PidInv) (hpos : 0 < s.table.nextpid)
    (hn : s'.Used np) (hpid : (s'.table.proc np).pid = s.table.nextpid)
    (hnext : s'.table.nextpid = toInt32 (s.table.nextpid + 1))
    (hsame : ∀ i, i ≠ np → SameId s s' i) : s'.PidInv := by
  obtain ⟨hrange, hsucc⟩ := toInt32_succ hpos h.range
  rw [← hnext] at hrange hsucc
  have hlt : ∀ i, i ≠ np → s'.Used i → (s'.table.proc i).pid < s.table.nextpid ∧ s.Used i := by
    intro i hin hu
    have hu' := (hsame i hin).2.1 hu
    rw [(hsame i hin).1]
    exact ⟨h.below hpos i hu', hu'⟩
  refine ⟨hrange, fun i hu => ?_, fun i hu => ?_, fun hpos' i hu => ?_, fun i j hu hu' he => ?_⟩
  · have hin : i ≠ np := fun e => hu (e ▸ hn)
    rw [(hsame i hin).1]
    exact h.vacant i fun hu' => hu ((hsame i hin).2.2 hu')
  · by_cases hin : i = np
    · rw [hin, hpid]
      exact hpos
    · rw [(hsame i hin).1]
      exact h.pos i ((hsame i hin).2.1 hu)
  · by_cases hin : i = np
    · rw [hin, hpid]
      omega
    · have := (hlt i hin hu).1
      omega
  · by_cases hin : i = np <;> by_cases hjn : j = np
    · rw [hin, hjn]
    · rw [hin, hpid] at he
      exact absurd he.symm (hlt j hjn hu').1.ne
    · rw [hjn, hpid] at he
      exact absurd he (hlt i hin hu).1.ne
    · rw [(hsame i hin).1, (hsame j hjn).1] at he
      exact h.inj i j (hlt i hin hu).2 (hlt j hjn hu').2 he

theorem PidInv.step (h : s.PidInv) (hi : s.Inv) (hleft : PidsLeft s a s') (hst : Step s a s') :
    s'.PidInv := by
  cases hst.pidStep hi with
  | take ha hn hn' hpid hnext hsame =>
    exact h.take (hleft.1 (by rw [ha]; rfl)) hn' hpid hnext hsame
  | @burn np ha _ hn hn' hnext hsame =>
    have hpos := hleft.1 ha
    obtain ⟨hrange, hsucc⟩ := toInt32_succ hpos h.range
    rw [← hnext] at hrange hsucc
    refine h.shrink hrange (fun hpos' => ⟨hpos, ?_⟩) fun i => ?_
    · omega
    · by_cases hin : i = np
      · exact .inl (hin ▸ hn')
      · exact .inr (hsame i hin)
  | @free pp _ _ hn hnext hsame =>
    refine h.shrink (hnext ▸ h.range) (fun hpos => ⟨hnext ▸ hpos, hnext.ge⟩) fun i => ?_
    by_cases hin : i = pp
    · exact .inl (hin ▸ hn)
    · exact .inr (hsame i hin)
  | keep _ hnext hsame =>
    exact h.shrink (hnext ▸ h.range) (fun hpos => ⟨hnext ▸ hpos, hnext.ge⟩) fun i => .inr (hsame i)

theorem pidInv_of_reachable (hs : (procs.restrict PidsLeft).Reachable s) : s.Inv ∧ s.PidInv := by
  refine hs.invariant (I := fun s => s.Inv ∧ s.PidInv) ?_ ?_
  · rintro s rfl
    exact ⟨inv_boot, pidInv_boot⟩
  · rintro s a s' ⟨hi, hp⟩ ⟨hleft, hst⟩
    exact ⟨hi.step hst, hp.step hi hleft hst⟩

/-! ### A pid and its process -/

/-- Pid `n` is that of the process in slot `np`, or of no process any more if that slot has been
reaped since; either way `allocpid` does not hand it out again. -/
structure Tracks (n : ℤ) (np : Fin NPROC) (reaped : Bool) (s : Procs) : Prop where
  past : 0 < s.table.nextpid → n < s.table.nextpid
  live : reaped = false → s.Used np ∧ (s.table.proc np).pid = n
  gone : reaped = true → ∀ i, s.Used i → (s.table.proc i).pid ≠ n

variable {r : Bool}

theorem Tracks.move (h : Tracks n np r s)
    (hpast : 0 < s'.table.nextpid → n < s'.table.nextpid) (hnp : r = false → SameId s s' np)
    (hother : ∀ i, s'.Used i → SameId s s' i ∨ (s'.table.proc i).pid ≠ n) : Tracks n np r s' := by
  refine ⟨hpast, fun hr => ?_, fun hr i hu => ?_⟩
  · obtain ⟨hu, hn⟩ := h.live hr
    exact ⟨(hnp hr).2.2 hu, (hnp hr).1.trans hn⟩
  · rcases hother i hu with hs | hne
    · rw [hs.1]
      exact h.gone hr i (hs.2.1 hu)
    · exact hne

theorem Tracks.reap (h : Tracks n np r s) (hp : s.PidInv)
    (hpast : 0 < s'.table.nextpid → n < s'.table.nextpid) (hv : s'.Vacant np)
    (hsame : ∀ i, i ≠ np → SameId s s' i) : Tracks n np true s' := by
  refine ⟨hpast, fun hr => absurd hr (by decide), fun _ i hu => ?_⟩
  have hin : i ≠ np := fun e => hv.1 (e ▸ hu)
  have hu' := (hsame i hin).2.1 hu
  rw [(hsame i hin).1]
  cases r with
  | false =>
    obtain ⟨hunp, hn⟩ := h.live rfl
    exact fun he => hin (hp.inj i np hu' hunp (he.trans hn.symm))
  | true => exact h.gone rfl i hu'

theorem Tracks.past_succ (h : Tracks n np r s) (hp : s.PidInv)
    (hpos : 0 < s.table.nextpid) (hnext : s'.table.nextpid = toInt32 (s.table.nextpid + 1))
    (hpos' : 0 < s'.table.nextpid) : n < s'.table.nextpid := by
  have hlt := h.past hpos
  rw [hnext] at hpos' ⊢
  rw [(toInt32_succ hpos hp.range).2 hpos']
  omega

theorem Tracks.step (h : Tracks n np r s) (hp : s.PidInv) (hi : s.Inv)
    (hleft : PidsLeft s a s') (hst : Step s a s') : Tracks n np (r || a.reaps np) s' := by
  -- The slot that `kfork` takes is not `np` as long as `np` is in use.
  have hne : ∀ {j}, ¬s.Used j → r = false → np ≠ j := by
    rintro j hj hr rfl
    exact hj (h.live hr).1
  cases hst.pidStep hi with
  | @take p np' ha hn _ hpid hnext hsame =>
    have hpos : 0 < s.table.nextpid := hleft.1 (by rw [ha]; rfl)
    rw [show a.reaps np = false by rw [ha]; rfl, Bool.or_false]
    refine h.move (h.past_succ hp hpos hnext) (fun hr => hsame np (hne hn hr)) fun i _ => ?_
    by_cases hin : i = np'
    · rw [hin, hpid]
      exact .inr (h.past hpos).ne'
    · exact .inl (hsame i hin)
  | burn ha hr hn hv hnext hsame =>
    rw [hr np, Bool.or_false]
    exact h.move (h.past_succ hp (hleft.1 ha) hnext) (fun hr => hsame np (hne hn hr))
      fun i hu => .inl (hsame i fun e => hv.1 (e ▸ hu))
  | @free pp hr hother hv hnext hsame =>
    have hpast : 0 < s'.table.nextpid → n < s'.table.nextpid := hnext ▸ h.past
    by_cases hpp : np = pp
    · subst hpp
      rw [hr, Bool.or_true]
      exact h.reap hp hpast hv hsame
    · rw [hother np hpp, Bool.or_false]
      exact h.move hpast (fun _ => hsame np hpp) fun i hu => .inl (hsame i fun e => hv.1 (e ▸ hu))
  | keep hr hnext hsame =>
    rw [hr np, Bool.or_false]
    exact h.move (hnext ▸ h.past) (fun _ => hsame np) fun i _ => .inl (hsame i)

variable {tr : List ProcAct}

theorem Tracks.path (h : Tracks n np r s) (hi : s.Inv)
    (hp : s.PidInv) (hpath : (procs.restrict PidsLeft).Path s tr s') :
    s'.Inv ∧ s'.PidInv ∧ Tracks n np (r || tr.any (·.reaps np)) s' := by
  induction hpath generalizing r with
  | nil => simpa using ⟨hi, hp, h⟩
  | cons hst _ ih =>
    obtain ⟨hleft, hst⟩ := hst
    have := ih (h.step hp hi hleft hst) (hi.step hst) (hp.step hi hleft hst)
    simpa only [List.any_cons, Bool.or_assoc] using this

/-- The pid `n` of slot `i` is the one that `kfork` returned in the run `tr` for the process that is
there now, or that of `init`. -/
def Returned (tr : List ProcAct) (n : ℤ) (i : Fin NPROC) : Prop :=
  (i = initproc ∧ n = 1) ∨
    ∃ tr₁ p tr₂ s₀, tr = tr₁ ++ .fork p i :: tr₂ ∧ (procs.restrict PidsLeft).Trace tr₁ s₀ ∧
      s₀.table.nextpid = n ∧ ∀ a ∈ tr₂, a.reaps i = false

theorem Returned.next (h : Returned tr n i) (ha : a.reaps i = false) :
    Returned (tr ++ [a]) n i := by
  rcases h with hinit | ⟨tr1, p, tr2, s0, rfl, ht, hn, hr⟩
  · exact .inl hinit
  · refine .inr ⟨tr1, p, tr2 ++ [a], s0, by simp, ht, hn, fun b hb => ?_⟩
    rcases List.mem_append.1 hb with hb | hb
    · exact hr b hb
    · rwa [List.mem_singleton.1 hb]

theorem returned (ht : (procs.restrict PidsLeft).Trace tr s) :
    ∀ i, s.Used i → Returned tr (s.table.proc i).pid i := by
  refine ht.invariant (I := fun tr s => ∀ i, s.Used i → Returned tr (s.table.proc i).pid i) ?_ ?_
  · rintro s rfl i hu
    have hi := boot_used hu
    exact .inl ⟨hi, by rw [hi]; decide⟩
  · intro tr s a s' ht ih hst i hu
    -- A slot that keeps its process was not reaped.
    have hold : SameId s s' i → a.reaps i = false →
        Returned (tr ++ [a]) (s'.table.proc i).pid i := by
      intro hs hr
      rw [hs.1]
      exact (ih i (hs.2.1 hu)).next hr
    cases hst.2.pidStep (pidInv_of_reachable ht.reachable).1 with
    | @take p np ha _ _ hpid _ hsame =>
      by_cases hin : i = np
      · subst hin ha
        exact .inr ⟨tr, p, [], s, rfl, ht, hpid.symm, by simp⟩
      · exact hold (hsame i hin) (by rw [ha]; rfl)
    | burn _ hr _ hv _ hsame => exact hold (hsame i fun e => hv.1 (e ▸ hu)) (hr i)
    | @free pp _ hr hv _ hsame =>
      have hin : i ≠ pp := fun e => hv.1 (e ▸ hu)
      exact hold (hsame i hin) (hr i hin)
    | keep hr _ hsame => exact hold (hsame i) (hr i)

/-- Only `init` is there; it runs, and the next pid is `pid`. -/
def initAlone (pid : ℤ) : Procs where
  table :=
    { boot.table.modify initproc fun x => { x with chan := none, state := .running } with
      nextpid := pid }
  pc := fun _ => .user

theorem initAlone_trace :
    (procs.restrict PidsLeft).Trace [.swtch initproc] (initAlone 2) := by
  have h : (procs.restrict PidsLeft).Trace [] boot := .start rfl
  have h1 := h.next (show (procs.restrict PidsLeft).step boot (.swtch initproc) _ from
    ⟨⟨by simp [ProcAct.allocates], by simp⟩, .swtch rfl⟩)
  have he : Function.update boot.pc initproc (boot.pc initproc).resume = fun _ => Pc.user :=
    Function.update_eq_self (f := boot.pc) initproc
  rwa [he] at h1

/-- **Process ids identify processes** in every run in which `allocpid` never finds its counter
overflown and `kkill` is not asked for pid 0: processes have distinct and positive pids; the pid
that `kfork` returns is not -1, and a `kkill` of it later in the run finds the child, which nobody
has reaped; and whatever `kkill` finds is a process that its argument was returned for. -/
theorem pids_identify {tr : List ProcAct} (ht : (procs.restrict PidsLeft).Trace tr s) :
    (∀ i j, s.Used i → s.Used j → i ≠ j → (s.table.proc i).pid ≠ (s.table.proc j).pid) ∧
    (∀ i, s.Used i → 0 < (s.table.proc i).pid) ∧
    (∀ p np s₁, (procs.restrict PidsLeft).step s (.fork p np) s₁ →
      (s₁.table.proc np).pid ≠ -1 ∧
      ∀ tr' s₂, (procs.restrict PidsLeft).Path s₁ tr' s₂ →
        ∀ q i s₃, (procs.restrict PidsLeft).step s₂ (.kkill q (s₁.table.proc np).pid i) s₃ →
          i = np ∧ s₂.Used np ∧ ∀ a ∈ tr', a.reaps np = false) ∧
    (∀ q n i s', (procs.restrict PidsLeft).step s (.kkill q n i) s' →
      s.Used i ∧ Returned tr n i) := by
  obtain ⟨hi, hp⟩ := pidInv_of_reachable ht.reachable
  -- With another argument than 0, `kkill` finds no unused slot.
  have hkill : ∀ {s q n i s'}, PidInv s → (procs.restrict PidsLeft).step s (.kkill q n i) s' →
      s.Used i ∧ (s.table.proc i).pid = n := by
    rintro s q n i s' hp ⟨hleft, hst⟩
    have hst : Step s (.kkill q n i) s' := hst
    cases hst with
    | kkill _ hpid _ =>
      refine ⟨fun hu => hleft.2 q i ?_, hpid⟩
      rw [← hpid, hp.vacant i fun hu' => hu' hu]
  refine ⟨fun i j hu hu' hne he => hne (hp.inj i j hu hu' he), hp.pos, ?_, ?_⟩
  · rintro p np s₁ ⟨hleft, hst⟩
    have hp1 := hp.step hi hleft hst
    have hu := hst.used_of_fork
    have hpos := hp1.pos np hu
    have htrack : Tracks (s₁.table.proc np).pid np false s₁ :=
      ⟨fun h => hp1.below h np hu, fun _ => ⟨hu, rfl⟩, fun h => absurd h (by decide)⟩
    refine ⟨by omega, fun tr' s₂ hpath q i s₃ hk => ?_⟩
    obtain ⟨-, hp2, htrack⟩ := htrack.path (hi.step hst) hp1 hpath
    obtain ⟨hu, hn⟩ := hkill hp2 hk
    cases hr : tr'.any (·.reaps np) with
    | true => exact absurd hn (htrack.gone hr i hu)
    | false =>
      obtain ⟨hunp, hnp⟩ := htrack.live hr
      exact ⟨hp2.inj i np hu hunp (hn.trans hnp.symm), hunp, by simpa using hr⟩
  · intro q n i s' hk
    obtain ⟨hu, rfl⟩ := hkill hp hk
    exact ⟨hu, returned ht i hu⟩

/-- `init` forks; from then on only that child is found by a `kkill` of its pid. -/
theorem pids_identify_fork : ∃ s₁ : Procs, Step (initAlone 2) (.fork initproc Slots.slotOne) s₁ ∧
    (s₁.table.proc Slots.slotOne).pid = 2 ∧
    ∀ tr s₂, (procs.restrict PidsLeft).Path s₁ tr s₂ → ∀ q i s₃,
      (procs.restrict PidsLeft).step s₂ (.kkill q 2 i) s₃ → i = Slots.slotOne := by
  obtain ⟨-, -, hfork, -⟩ := pids_identify initAlone_trace
  have hst := @Step.fork (initAlone 2) initproc Slots.slotOne ⟨rfl, rfl⟩ rfl
  obtain ⟨-, hkill⟩ := hfork initproc Slots.slotOne _ ⟨⟨fun _ => by decide, by simp⟩, hst⟩
  exact ⟨_, hst, rfl, fun tr s₂ hpath q i s₃ hk => (hkill tr s₂ hpath q i s₃ hk).1⟩

theorem initAlone_forkFail (pid : ℤ) :
    Step (initAlone pid) (.forkFail initproc Slots.slotOne) (initAlone (toInt32 (pid + 1))) := by
  have hst := @Step.forkFail (initAlone pid) initproc Slots.slotOne ⟨rfl, rfl⟩ rfl
  have hproc : (((initAlone pid).table.allocproc Slots.slotOne).modify Slots.slotOne
      Proc.freeproc).proc = (initAlone pid).table.proc := by
    funext i
    rw [ProcTable.modify_proc]
    split_ifs with hi
    · subst hi
      rfl
    · rw [ProcTable.allocproc_proc, if_neg hi]
  have htable : ((initAlone pid).table.allocproc Slots.slotOne).modify Slots.slotOne
      Proc.freeproc = (initAlone (toInt32 (pid + 1))).table :=
    congrArg (ProcTable.mk · (toInt32 (pid + 1))) hproc
  rw [htable] at hst
  exact hst

theorem initAlone_failed (n : ℕ) : procs.Reachable (initAlone (toInt32 (2 + n))) := by
  have hstep : ∀ n : ℕ, procs.step (initAlone (toInt32 (2 + n)))
      (.forkFail initproc Slots.slotOne) (initAlone (toInt32 (2 + (n + 1 : ℕ)))) := by
    intro n
    have hpid : toInt32 (2 + (n + 1 : ℕ)) = toInt32 (toInt32 (2 + n) + 1) := by
      unfold toInt32
      rw [Int.bmod_add_bmod]
      push_cast
      ring_nf
    rw [hpid]
    exact initAlone_forkFail _
  have htr := initAlone_trace.of_restrict
  exact (htr.replicate (f := fun n : ℕ => initAlone (toInt32 (2 + n))) hstep n).reachable

theorem initAlone_fork (pid : ℤ) (h : procs.Reachable (initAlone pid)) :
    ∃ s, procs.Reachable s ∧ s.Used initproc ∧ (s.table.proc initproc).pid = 1 ∧
      s.Used Slots.slotOne ∧ (s.table.proc Slots.slotOne).pid = pid := by
  have hst := @Step.fork (initAlone pid) initproc Slots.slotOne ⟨rfl, rfl⟩ rfl
  exact ⟨_, h.next hst, (by decide : ((initAlone 0).table.proc initproc).state ≠ .unused), rfl,
    hst.used_of_fork, rfl⟩

/-- After enough forks that fail a child gets the pid of `init`, or -1, which is what `kfork`
returns when it fails; and `kkill(0)` kills a process that is yet to be forked. -/
theorem pids_repeat :
    (∃ s, procs.Reachable s ∧ s.Used initproc ∧ s.Used Slots.slotOne ∧
      (s.table.proc initproc).pid = (s.table.proc Slots.slotOne).pid) ∧
    (∃ s, procs.Reachable s ∧ s.Used Slots.slotOne ∧ (s.table.proc Slots.slotOne).pid = -1) ∧
    (∃ s s₁ s₂, procs.Reachable s ∧ Step s (.kkill initproc 0 Slots.slotOne) s₁ ∧
      Step s₁ (.fork initproc Slots.slotOne) s₂ ∧ (s₂.table.proc Slots.slotOne).pid = 2 ∧
      (s₂.table.proc Slots.slotOne).killed = true) := by
  refine ⟨?_, ?_, ?_⟩
  · obtain ⟨s, hs, hu, hinit, hu', hone⟩ := initAlone_fork _ (initAlone_failed (2 ^ 32 - 1))
    exact ⟨s, hs, hu, hu', by rw [hinit, hone]; decide⟩
  · obtain ⟨s, hs, -, -, hu', hone⟩ := initAlone_fork _ (initAlone_failed (2 ^ 32 - 3))
    exact ⟨s, hs, hu', by rw [hone]; decide⟩
  · have hkill := @Step.kkill (initAlone 2) initproc 0 Slots.slotOne ⟨rfl, rfl⟩ rfl (by
      rintro ⟨addr, ha⟩
      exact absurd ha (by simp [initAlone]))
    exact ⟨_, _, _, initAlone_trace.of_restrict.reachable, hkill, .fork ⟨rfl, rfl⟩ rfl, rfl, rfl⟩

end Procs

end Cinux
