import Cinux.Proc.Sleep

/-!
# No wakeup is lost

The rule for showing that no process sleeps past its wakeup, and what it gives for the calling
convention of `sleep` and `wakeup`.

A `Duty` says when a process that waits on a channel is *due* to be woken, and at which points
of the code the holder of `lk` still *owes* a `wakeup` on a channel.  Its fields are conditions on
single instructions of the client.  `Duty.inv_of_reachable` then says of every run: a process that
waits and is due will be visited by a `wakeup` that the holder of `lk` is in or owes.  In particular
nobody who waits is due while `lk` is free (`Duty.Inv.not_due`).

The heart of the matter is the lock of the process: `sleep` holds it from before it gives up `lk`
until the process is asleep, so a `wakeup` that comes after finds it asleep.
-/

namespace Cinux

open Function Sched

namespace Sched

variable {σ β κ : Type} {cl : Client σ β} {s s' : Sched cl κ} {i j p : Fin NPROC} {h : κ}
  {th k : Thread cl.Pc} {chan : Chan}

/-- Process `p` has given up `lk` in `sleep(chan, lk)` and was not made runnable since. -/
def Waits (s : Sched cl κ) (p : Fin NPROC) (chan : Chan) : Prop :=
  (∃ k, s.thread p = .sleepReleased chan k) ∨
    (∃ k, s.thread p = .off (.sleep chan k)) ∧ (s.proc p).state = .sleeping

theorem Inv.waits (hI : s.Inv) (hs : (s.proc p).SleepsOn (some chan)) : s.Waits p chan := by
  have hst := hI.status p
  cases hth : s.thread p with
  | off r =>
    rw [hth] at hst
    cases r with
    | sleep chan' k =>
      rcases hst with ⟨-, hc⟩ | hc
      · rw [hs.2] at hc
        cases hc
        exact .inr ⟨⟨k, hth⟩, hs.1⟩
      · exact absurd (hs.1.symm.trans hc) (by simp)
    | yield x => rcases hst with hc | hc <;> exact absurd (hs.1.symm.trans hc) (by simp)
  | _ =>
    rw [hth] at hst
    exact absurd (hs.1.symm.trans hst) (by simp)

theorem Inv.holder_unique (hI : s.Inv) {h' : κ} {th' : Thread cl.Pc} (hr : s.Runs h i th)
    (hl : th.locks cl.holds i .lk = true) (hr' : s.Runs h' j th')
    (hl' : th'.locks cl.holds j .lk = true) : h' = h ∧ j = i ∧ th' = th := by
  have e : s.lock .lk = some h := (hI.owner h .lk).2 (by rw [hr.owns]; exact hl)
  have e' : s.lock .lk = some h' := (hI.owner h' .lk).2 (by rw [hr'.owns]; exact hl')
  obtain rfl : h' = h := by
    rw [e] at e'
    exact (Option.some.inj e').symm
  obtain ⟨⟨t, ht⟩, rfl⟩ := hr
  obtain ⟨⟨t', ht'⟩, rfl⟩ := hr'
  rw [ht] at ht'
  cases ht'
  exact ⟨rfl, rfl, rfl⟩

end Sched

/-- When waiting processes are due to be woken, and who owes them a `wakeup`. -/
structure Duty {σ β : Type} (cl : Client σ β) where
  /-- A process that waits on the channel should be woken. -/
  due : Rounds → σ → Fin NPROC → Chan → Prop
  /-- What stays true of a process as long as it waits on the channel. -/
  settled : Rounds → Fin NPROC → Chan → Prop
  /-- At this point, with `lk` held, a `wakeup` on the channel is still to come. -/
  owes : Fin NPROC → cl.Pc → Chan → Prop
  /-- What is known at this point, with `lk` held. -/
  assert : Fin NPROC → cl.Pc → Rounds → σ → Prop

namespace Duty

variable {σ β κ : Type} {cl : Client σ β} (D : Duty cl)

/-- The conditions on one instruction, at point `pc` of process `i`. -/
def CodeOk (i : Fin NPROC) (pc : cl.Pc) : Instr σ β cl.Pc → Prop
  | .ret => True
  | .acquire k => ∀ r m, D.assert i k r m
  | .release _ => True
  | .sleep chan k =>
    (∀ c, ¬ D.owes i pc c) ∧
      (∀ r m, D.assert i pc r m → ¬ D.due r m i chan ∧ D.settled r i chan) ∧
      ∀ r m, D.assert i k r m
  | .wakeup chan k =>
    (∀ c, D.owes i pc c → c = chan ∨ D.owes i k c) ∧ ∀ r m, D.assert i pc r m →
      D.assert i k (r.signal chan) m
  | .killed k =>
    ∀ b, (∀ c, D.owes i pc c → D.owes i (k b) c) ∧
      ∀ r m, D.assert i pc r m → D.assert i (k b) r m
  | .kkill _ _ => True
  | .test b k =>
    ∀ r m, D.assert i pc r m →
      D.assert i (k (b m)) (r.test i) m ∧
        ∀ c, D.owes i pc c → D.owes i (k (b m)) c
  | .act f =>
    ∀ b r m, D.assert i pc r m →
      D.assert i (f b m).2 r (f b m).1 ∧
        ∀ p c, D.due r (f b m).1 p c → (D.due r m p c → D.owes i pc c) → D.owes i (f b m).2 c

/-- The duty fits the code, and nobody becomes due by the mere numbering of the sections, except
by a call of `wakeup` on the channel itself. -/
structure Fits : Prop where
  code : ∀ i pc, D.CodeOk i pc (cl.code i pc)
  due_enter : ∀ r m p c, D.due r.enter m p c → D.due r m p c
  due_test : ∀ r m p c i, D.due (r.test i) m p c → D.due r m p c
  due_signal : ∀ r m p c chan, D.due (r.signal chan) m p c → D.due r m p c ∨ c = chan
  settled_enter : ∀ r m p c, ¬ D.due r m p c → D.settled r.enter p c
  settled_test : ∀ r p c i, p ≠ i → D.settled r p c → D.settled (r.test i) p c
  settled_signal : ∀ r p c chan, D.settled r p c → D.settled (r.signal chan) p c

/-- What is known where a thread stands that holds `lk`. -/
def Holds (i : Fin NPROC) (r : Rounds) (m : σ) : Thread cl.Pc → Prop
  | .exec pc => D.assert i pc r m
  | .sleepLocked chan _ => ¬ D.due r m i chan ∧ D.settled r i chan
  | .wake _ _ k => D.assert i k r m
  | .waking _ _ _ k => D.assert i k r m
  | .query k => ∀ b, D.assert i (k b) r m
  | _ => True

/-- The thread of process `i`, which holds `lk`, is in a `wakeup` on `c` that has still to visit
`p`, or owes one. -/
def Covers (i : Fin NPROC) (c : Chan) (p : Fin NPROC) : Thread cl.Pc → Prop
  | .exec pc => D.owes i pc c
  | .wake chan todo k => D.owes i k c ∨ chan = c ∧ p ∈ todo
  | .waking chan j todo k => D.owes i k c ∨ chan = c ∧ (p = j ∨ p ∈ todo)
  | .query k => ∀ b, D.owes i (k b) c
  | _ => False

/-- `sleep` returns to a point where nothing needs to be known. -/
def Resumes (i : Fin NPROC) : Thread cl.Pc → Prop
  | .sleepLocked _ k => ∀ r m, D.assert i k r m
  | .sleepReleased _ k => ∀ r m, D.assert i k r m
  | .off (.sleep _ k) => ∀ r m, D.assert i k r m
  | .back (.sleep _ k) => ∀ r m, D.assert i k r m
  | .relock k => ∀ r m, D.assert i k r m
  | .yielding (.relock k) => ∀ r m, D.assert i k r m
  | .off (.yield (.relock k)) => ∀ r m, D.assert i k r m
  | .back (.yield (.relock k)) => ∀ r m, D.assert i k r m
  | _ => True

/-- A step that gives up `lk` while a `wakeup` is owed finds nobody who is due. -/
def Pays (s : Sched cl κ) (l : SchedAct cl.Pc κ) (_ : Sched cl κ) : Prop :=
  ∀ h i pc k, l = .thread h i (.exec pc) → cl.code i pc = .release k →
    ∀ p c, D.owes i pc c → s.Waits p c → ¬ D.due s.rounds s.mem p c

/-- The invariant behind the rule. -/
structure Inv (s : Sched cl κ) : Prop where
  asserted : ∀ {h i th}, s.Runs h i th → th.locks cl.holds i .lk = true →
    D.Holds i s.rounds s.mem th
  covered : ∀ p c, s.Waits p c → D.due s.rounds s.mem p c →
    ∃ h i th, s.Runs h i th ∧ th.locks cl.holds i .lk = true ∧ D.Covers i c p th
  settled : ∀ p c, s.Waits p c → D.settled s.rounds p c
  resumes : ∀ i, D.Resumes i (s.thread i)

variable {D} {s s' : Sched cl κ} {i j p : Fin NPROC} {h : κ} {th k : Thread cl.Pc} {chan : Chan}

theorem Inv.frame (hD : D.Inv s) (hmem : s'.mem = s.mem) (hrounds : s'.rounds = s.rounds)
    (hruns : ∀ h i th, th.locks cl.holds i .lk = true → (s'.Runs h i th ↔ s.Runs h i th))
    (hwaits : ∀ p c, s'.Waits p c → s.Waits p c) (hres : ∀ i, D.Resumes i (s'.thread i)) :
    D.Inv s' := by
  refine ⟨fun {h i th} hr hl => ?_, fun p c hw hdue => ?_, fun p c hw => ?_, hres⟩
  · rw [hmem, hrounds]
    exact hD.asserted ((hruns h i th hl).1 hr) hl
  · rw [hmem, hrounds] at hdue
    obtain ⟨h, i, th, hr, hl, hc⟩ := hD.covered p c (hwaits p c hw) hdue
    exact ⟨h, i, th, (hruns h i th hl).2 hr, hl, hc⟩
  · rw [hrounds]
    exact hD.settled p c (hwaits p c hw)

/-- Steps of the thread that holds `lk`, and keeps it. -/
theorem Inv.hold (hD : D.Inv s) (hI : s.Inv) (hr : s.Runs h i th)
    (hl : th.locks cl.holds i .lk = true) (hhart : s'.hart = s.hart)
    (hthread : s'.thread = update s.thread i k) (hlk : k.locks cl.holds i .lk = true)
    (hwaits : ∀ p c, s'.Waits p c → s.Waits p c) (hhold : D.Holds i s'.rounds s'.mem k)
    (hcover : ∀ p c, s'.Waits p c → D.due s'.rounds s'.mem p c →
      (D.due s.rounds s.mem p c → D.Covers i c p th) → D.Covers i c p k)
    (hset : ∀ p c, s'.Waits p c → D.settled s.rounds p c → D.settled s'.rounds p c)
    (hres : D.Resumes i k) : D.Inv s' := by
  have hrk : s'.Runs h i k := by
    obtain ⟨⟨t, ht⟩, -⟩ := hr
    exact ⟨⟨t, hhart ▸ ht⟩, by rw [hthread, update_self]⟩
  refine ⟨fun {h' i' th'} hr' hl' => ?_, fun p c hw hdue => ?_,
    fun p c hw => hset p c hw (hD.settled p c (hwaits p c hw)), fun i' => ?_⟩
  · by_cases e : i' = i
    · subst e
      obtain rfl : th' = k := by rw [← hr'.2, hthread, update_self]
      exact hhold
    · obtain ⟨⟨t, ht⟩, hth⟩ := hr'
      rw [hhart] at ht
      rw [hthread, update_of_ne e] at hth
      exact absurd (hI.holder_unique hr hl ⟨⟨t, ht⟩, hth⟩ hl').2.1 e
  · refine ⟨h, i, k, hrk, hlk, hcover p c hw hdue fun hdue' => ?_⟩
    obtain ⟨h', i', th', hr', hl', hc⟩ := hD.covered p c (hwaits p c hw) hdue'
    obtain ⟨rfl, rfl, rfl⟩ := hI.holder_unique hr hl hr' hl'
    exact hc
  · rw [hthread]
    by_cases e : i' = i
    · subst e; rwa [update_self]
    · rw [update_of_ne e]; exact hD.resumes i'

theorem Inv.bystander (hD : D.Inv s) (hr : s.Runs h i th)
    (hl : th.locks cl.holds i .lk = false) (hhart : s'.hart = s.hart)
    (hthread : s'.thread = update s.thread i k) (hlk : k.locks cl.holds i .lk = false)
    (hmem : s'.mem = s.mem) (hrounds : s'.rounds = s.rounds)
    (hwaits : ∀ p c, s'.Waits p c → s.Waits p c) (hres : D.Resumes i k) : D.Inv s' := by
  refine hD.frame hmem hrounds (fun h' i' th' hl' => ?_) hwaits fun i' => ?_
  · unfold Sched.Runs
    rw [hhart, hthread]
    by_cases e : i' = i
    · subst e
      rw [update_self, hr.2]
      constructor
      · rintro ⟨-, rfl⟩
        rw [hlk] at hl'
        cases hl'
      · rintro ⟨-, rfl⟩
        rw [hl] at hl'
        cases hl'
    · rw [update_of_ne e]
  · rw [hthread]
    by_cases e : i' = i
    · subst e; rwa [update_self]
    · rw [update_of_ne e]; exact hD.resumes i'

/-! ### The listing and the duty -/

variable (D) in
/-- The thread goes on from `th` to `k`, serving everybody it covers but those in `served`. -/
def Serves (i : Fin NPROC) (th k : Thread cl.Pc) (served : Fin NPROC → Chan → Prop) : Prop :=
  (∀ c k', k ≠ .sleepReleased c k') ∧ D.Resumes i k ∧
    (th.locks cl.holds i .lk = true →
      (∀ r m, D.Holds i r m th → D.Holds i r m k) ∧
        ∀ p c, p ≠ i → D.Covers i c p th → ¬ served p c → D.Covers i c p k)

/-- A step inside the loops serves nobody; a process whose turn it is not is not forgotten. -/
theorem serves_goto (hm : cl.micro i th = .goto k) :
    D.Serves i th k fun _ _ => False := by
  revert hm
  fun_cases Client.micro cl i th <;> intro hm <;> cases hm
  · rename_i pc pid k' hc
    have hd := cl.disciplined i pc
    rw [hc] at hd
    refine ⟨by simp, trivial, fun hl => ?_⟩
    rw [show Thread.locks cl.holds i (.exec pc) .lk = cl.holds pc from rfl, hd.1] at hl
    cases hl
  · refine ⟨by simp, trivial, fun _ => ⟨fun r m hH => hH, fun p c _ hc _ => ?_⟩⟩
    rcases hc with hc | ⟨-, hc⟩
    · exact hc
    · cases hc
  · refine ⟨by simp, trivial, fun _ => ⟨fun r m hH => hH, fun p c hp hc _ => ?_⟩⟩
    rcases hc with hc | ⟨rfl, hc⟩
    · exact .inl hc
    · exact .inr ⟨rfl, (List.mem_cons.1 hc).resolve_left hp⟩
  · exact ⟨by simp, trivial, fun hl => by cases hl⟩

theorem serves_lock (hF : D.Fits) (hm : cl.micro i th = .lock j k) :
    D.Serves i th k fun _ _ => False := by
  revert hm
  fun_cases Client.micro cl i th <;> intro hm <;> cases hm
  · rename_i pc chan k' hc
    have hcode := hF.code i pc
    rw [hc] at hcode
    exact ⟨by simp, hcode.2.2, fun _ => ⟨hcode.2.1, fun p c _ ho _ => hcode.1 c ho⟩⟩
  · rename_i pc k' hc
    have hcode := hF.code i pc
    rw [hc] at hcode
    exact ⟨by simp, trivial, fun _ => ⟨fun r m hH b => (hcode b).2 r m hH,
      fun p c _ ho _ b => (hcode b).1 c ho⟩⟩
  · refine ⟨by simp, trivial, fun _ => ⟨fun r m hH => hH, fun p c _ hc _ => ?_⟩⟩
    rcases hc with hc | ⟨rfl, hc⟩
    · exact .inl hc
    · exact .inr ⟨rfl, List.mem_cons.1 hc⟩
  · exact ⟨by simp, trivial, fun hl => by cases hl⟩

variable {f : Proc → Proc}

/-- Giving up the lock of slot `j` after a visit of `wakeup`: `j` does not sleep on the channel
any more. -/
theorem serves_unlock (hres : D.Resumes i th) {k : Proc → Thread cl.Pc}
    (hm : cl.micro i th = .unlock j f k) (q : Proc) :
    D.Serves i th (k q) fun p c => p = j ∧ ∀ x, ¬ (f x).SleepsOn (some c) := by
  revert hm
  fun_cases Client.micro cl i th <;> intro hm <;> cases hm
  · exact ⟨by simp, hres, fun hl => by cases hl⟩
  · rename_i x
    refine ⟨?_, ?_, fun hl => by cases hl⟩
    · cases x <;> simp [Spot.thread]
    · cases x <;> exact hres
  · refine ⟨by simp, trivial, fun _ => ⟨fun r m hH => hH, fun p c _ hc hns => ?_⟩⟩
    rcases hc with hc | ⟨rfl, rfl | hc⟩
    · exact .inl hc
    · exact absurd ⟨rfl, fun x => Proc.not_sleepsOn_rouse x _⟩ hns
    · exact .inr ⟨rfl, hc⟩
  · exact ⟨by simp, trivial, fun _ => ⟨fun r m hH => hH _, fun p c _ hc _ => hc _⟩⟩
  · dsimp only
    split_ifs
    · exact ⟨by simp, trivial, fun hl => by cases hl⟩
    · exact ⟨by simp, trivial, fun hl => by cases hl⟩

theorem assert_of_acquire (hF : D.Fits) (hres : D.Resumes i th)
    (hm : cl.micro i th = .acquire k) : ∃ pc, k = .exec pc ∧ ∀ r m, D.assert i pc r m := by
  revert hm
  fun_cases Client.micro cl i th <;> intro hm <;> cases hm
  · rename_i pc k' hc
    have hcode := hF.code i pc
    rw [hc] at hcode
    exact ⟨_, rfl, hcode⟩
  · exact ⟨_, rfl, hres⟩

theorem release_cases (hm : cl.micro i th = .release k) :
    (∃ pc pc', th = .exec pc ∧ cl.code i pc = .release pc' ∧ k = .exec pc') ∨
      ∃ c k', th = .sleepLocked c k' ∧ k = .sleepReleased c k' := by
  revert hm
  fun_cases Client.micro cl i th <;> intro hm <;> cases hm
  · exact .inl ⟨_, _, rfl, ‹_›, rfl⟩
  · exact .inr ⟨_, _, rfl, rfl⟩

variable {r : Resume cl.Pc}

theorem swtch_cases (hm : cl.micro i th = .swtch f r) :
    (∃ c k, th = .sleepReleased c k ∧ r = .sleep c k) ∨ ∃ x, th = .yielding x ∧ r = .yield x := by
  revert hm
  fun_cases Client.micro cl i th <;> intro hm <;> cases hm
  · exact .inl ⟨_, _, rfl, rfl⟩
  · exact .inr ⟨_, rfl, rfl⟩

theorem waits_of_move {c : Chan} (hw : s'.Waits p c)
    (hthread : s'.thread = update s.thread i k)
    (hk : ∀ c k', k ≠ .sleepReleased c k') (hoff : k.isOff = false)
    (hproc : ∀ p, (s'.proc p).state = .sleeping → (s.proc p).state = .sleeping) :
    s.Waits p c ∧ p ≠ i := by
  have hne : p ≠ i := by
    rintro rfl
    unfold Sched.Waits at hw
    rw [hthread, update_self] at hw
    rcases hw with ⟨k', e⟩ | ⟨⟨k', e⟩, -⟩
    · exact hk _ _ e
    · rw [e] at hoff
      cases hoff
  refine ⟨?_, hne⟩
  unfold Sched.Waits at hw
  rw [hthread, update_of_ne hne] at hw
  exact hw.imp_right fun ⟨e, hst⟩ => ⟨e, hproc p hst⟩

theorem Inv.serve (hD : D.Inv s) (hI : s.Inv) (hr : s.Runs h i th) {ls : SpinLock → Bool}
    (hland : k.Lands cl.holds i ls) (hls : ls .lk = th.locks cl.holds i .lk)
    {served : Fin NPROC → Chan → Prop} (hserve : D.Serves i th k served)
    (hhart : s'.hart = s.hart) (hthread : s'.thread = update s.thread i k)
    (hmem : s'.mem = s.mem) (hrounds : s'.rounds = s.rounds)
    (hproc : ∀ p, (s'.proc p).state = .sleeping → (s.proc p).state = .sleeping)
    (hserved : ∀ p c, p ≠ i → s'.Waits p c → ¬ served p c) : D.Inv s' := by
  obtain ⟨hawake, hres, hhold⟩ := hserve
  obtain ⟨hoff, -, rfl⟩ := hland
  have hwaits : ∀ p c, s'.Waits p c → s.Waits p c ∧ p ≠ i := fun p c hw =>
    waits_of_move hw hthread hawake hoff hproc
  cases hl : th.locks cl.holds i .lk with
  | false =>
    exact hD.bystander hr hl hhart hthread (hls.trans hl) hmem hrounds
      (fun p c hw => (hwaits p c hw).1) hres
  | true =>
    obtain ⟨hH, hC⟩ := hhold hl
    refine hD.hold hI hr hl hhart hthread (hls.trans hl) (fun p c hw => (hwaits p c hw).1) ?_ ?_
      (fun p c _ hset => hrounds ▸ hset) hres
    · rw [hmem, hrounds]
      exact hH _ _ (hD.asserted hr hl)
    · intro p c hw hdue hcov
      rw [hmem, hrounds] at hdue
      have hne := (hwaits p c hw).2
      exact hC p c hne (hcov hdue) (hserved p c hne hw)

theorem not_waits_of_visited (hI : s.Inv) (hI' : s'.Inv) (hr : s.Runs h i th)
    (hheld : th.locks cl.holds i (.proc j) = true) (hne : j ≠ i)
    (hthread : s'.thread j = s.thread j) {c : Chan}
    (hns : ¬ (s'.proc j).SleepsOn (some c)) : ¬ s'.Waits j c := by
  rintro (⟨k, e⟩ | ⟨⟨k, e⟩, hst⟩)
  · -- a process on its way to sleep holds its own lock
    rw [hthread] at e
    obtain ⟨h', t, hrun⟩ := (hI.placed j).1 (by rw [e]; rfl)
    have hown' : s.lock (.proc j) = some h' := (hI.owner h' _).2 (by
      simp [owns, hrun, e, Thread.locks])
    have hown : s.lock (.proc j) = some h := (hI.owner h _).2 (by rw [hr.owns]; exact hheld)
    obtain rfl : h = h' := by
      rw [hown] at hown'
      exact Option.some.inj hown'
    obtain ⟨⟨t', ht'⟩, -⟩ := hr
    rw [hrun] at ht'
    cases ht'
    exact hne rfl
  · have hstatus := hI'.status j
    rw [e] at hstatus
    rcases hstatus with hc | hc
    · exact hns hc
    · rw [hst] at hc
      cases hc

theorem Inv.not_due (hD : D.Inv s) (hI : s.Inv) (hfree : s.lock .lk = none) {c : Chan}
    (hw : s.Waits p c) : ¬ D.due s.rounds s.mem p c := by
  intro hdue
  obtain ⟨h, i, th, hr, hl, -⟩ := hD.covered p c hw hdue
  have := (hI.owner h .lk).2 (by rw [hr.owns]; exact hl)
  rw [hfree] at this
  cases this

theorem Inv.freed (hD : D.Inv s) (hI' : s'.Inv) (hfree : s'.lock .lk = none)
    (hthread : s'.thread = update s.thread i k) (hres : D.Resumes i k)
    (hdue : ∀ p c, s'.Waits p c → ¬ D.due s'.rounds s'.mem p c ∧ D.settled s'.rounds p c) :
    D.Inv s' := by
  refine ⟨fun {h i th} hr hl => ?_, fun p c hw hd => absurd hd (hdue p c hw).1,
    fun p c hw => (hdue p c hw).2, fun i' => ?_⟩
  · have := (hI'.owner h .lk).2 (by rw [hr.owns]; exact hl)
    rw [hfree] at this
    cases this
  · rw [hthread]
    by_cases e : i' = i
    · subst e; rwa [update_self]
    · rw [update_of_ne e]; exact hD.resumes i'

theorem Inv.boot (D : Duty cl) (hb : s.Boot) : D.Inv s := by
  have hthread : ∀ i, ∃ pc, s.thread i = .off (.yield (.exec pc)) := fun i =>
    let ⟨pc, e, _⟩ := hb.thread i
    ⟨pc, e⟩
  have hwaits : ∀ p c, ¬ s.Waits p c := by
    intro p c hw
    obtain ⟨pc, e⟩ := hthread p
    rcases hw with ⟨k, e'⟩ | ⟨⟨k, e'⟩, -⟩ <;> rw [e] at e' <;> cases e'
  refine ⟨fun {h i th} hr _ => ?_, fun p c hw => absurd hw (hwaits p c),
    fun p c hw => absurd hw (hwaits p c), fun i => ?_⟩
  · obtain ⟨⟨t, ht⟩, -⟩ := hr
    rw [hb.hart] at ht
    cases ht
  · obtain ⟨pc, e⟩ := hthread i
    rw [e]
    trivial

variable [DecidableEq κ]

theorem Inv.acquire (hF : D.Fits) (hD : D.Inv s) (hI : s.Inv) (hr : s.Runs h i th)
    (hm : cl.micro i th = .acquire k) (hfree : s.lock .lk = none) :
    D.Inv { (s.goto i k).setLock .lk (some h) with rounds := s.rounds.enter } := by
  have hI' := hI.step (.acquire hr hm hfree)
  obtain ⟨pc, rfl, hassert⟩ := assert_of_acquire hF (hr.2 ▸ hD.resumes i) hm
  obtain ⟨-, -, hland⟩ := hr.keeps hI hm
  have hlk : (Thread.exec pc).locks cl.holds i .lk = true := by rw [hland, update_self]
  have hrk : Sched.Runs { (s.goto i (.exec pc)).setLock .lk (some h) with
      rounds := s.rounds.enter } h i (.exec pc) := by
    obtain ⟨⟨t, ht⟩, -⟩ := hr
    exact ⟨⟨t, ht⟩, update_self ..⟩
  have hnot : ∀ p c, Sched.Waits { (s.goto i (.exec pc)).setLock .lk (some h) with
      rounds := s.rounds.enter } p c → ¬ D.due s.rounds s.mem p c := fun p c hw =>
    hD.not_due hI hfree (waits_of_move hw rfl (by simp) rfl fun _ hst => hst).1
  refine ⟨fun {h' i' th'} hr' hl' => ?_, fun p c hw hdue => ?_,
    fun p c hw => hF.settled_enter _ _ _ _ (hnot p c hw), fun i' => ?_⟩
  · obtain ⟨-, rfl, rfl⟩ := hI'.holder_unique hrk hlk hr' hl'
    exact hassert _ _
  · exact absurd (hF.due_enter _ _ _ _ hdue) (hnot p c hw)
  · change D.Resumes i' (update s.thread i (.exec pc) i')
    by_cases e : i' = i
    · subst e; rw [update_self]; trivial
    · rw [update_of_ne e]; exact hD.resumes i'

/-- `release(lk)`: by the client when it has paid its duty, and in `sleep`. -/
theorem Inv.release (hD : D.Inv s) (hI : s.Inv) (hr : s.Runs h i th)
    (hm : cl.micro i th = .release k)
    (hpay : D.Pays s (.thread h i th) ((s.goto i k).setLock .lk none)) :
    D.Inv ((s.goto i k).setLock .lk none) := by
  have hI' := hI.step (.release hr hm)
  have hheld : th.locks cl.holds i .lk = true := (hr.keeps hI hm).1
  have hcov : ∀ p c, s.Waits p c → D.due s.rounds s.mem p c → D.Covers i c p th := by
    intro p c hw hdue
    obtain ⟨h', i', th', hr', hl', hc⟩ := hD.covered p c hw hdue
    obtain ⟨rfl, rfl, rfl⟩ := hI.holder_unique hr hheld hr' hl'
    exact hc
  have hres := hr.2 ▸ hD.resumes i
  rcases release_cases hm with ⟨pc, pc', rfl, hcode, rfl⟩ | ⟨c', k', rfl, rfl⟩
  · refine hD.freed hI' (by simp [setLock]) rfl trivial fun p c hw => ?_
    have hw' := (waits_of_move hw rfl (by simp) rfl fun _ hst => hst).1
    exact ⟨fun hdue => hpay h i pc pc' rfl hcode p c (hcov p c hw' hdue) hw' hdue,
      hD.settled p c hw'⟩
  · refine hD.freed hI' (by simp [setLock]) rfl hres fun p c hw => ?_
    by_cases e : p = i
    · -- the process that goes to sleep has just found that it is not due
      subst e
      have hc : c = c' := by
        simp only [Sched.Waits, setLock, goto, update_self] at hw
        rcases hw with ⟨k, e⟩ | ⟨⟨k, e⟩, -⟩ <;> cases e
        rfl
      subst hc
      exact hD.asserted hr hheld
    · have hw' : s.Waits p c := by
        simpa only [Sched.Waits, setLock, goto, update_of_ne e] using hw
      exact ⟨hcov p c hw', hD.settled p c hw'⟩

/-- `swtch`: a process on its way to sleep has given up `lk` before. -/
theorem Inv.swtch (hD : D.Inv s) (hI : s.Inv) (hr : s.Runs h i th) {todo : List (Fin NPROC)}
    (hm : cl.micro i th = .swtch f r)
    (hh : s.hart h = .run i todo) :
    D.Inv (((s.assign i f).goto i (.off r)).setHart h (.drop i todo)) := by
  have hnolk : th.locks cl.holds i .lk = false := by
    rw [(hr.keeps hI hm).2]
    rfl
  have hres := hr.2 ▸ hD.resumes i
  refine hD.frame rfl rfl (fun h' i' th' hl' => ?_) (fun p c hw => ?_) fun i' => ?_
  · simp only [Sched.Runs, setHart, goto, assign]
    by_cases e : i' = i
    · subst e
      rw [update_self, hr.2]
      constructor
      · rintro ⟨-, rfl⟩
        cases hl'
      · rintro ⟨-, rfl⟩
        rw [hnolk] at hl'
        cases hl'
    · rw [update_of_ne e]
      refine and_congr_left fun _ => exists_congr fun t => ?_
      by_cases eh : h' = h
      · subst eh
        rw [update_self, hh]
        constructor
        · intro hc; cases hc
        · intro hc; cases hc; exact absurd rfl e
      · rw [update_of_ne eh]
  · simp only [Sched.Waits, setHart, goto, assign] at hw
    by_cases e : p = i
    · subst e
      rw [update_self] at hw
      rcases hw with ⟨k, e⟩ | ⟨⟨k, e⟩, -⟩
      · cases e
      · cases e
        rcases swtch_cases hm with ⟨c', k', rfl, hr'⟩ | ⟨x, -, hr'⟩ <;> cases hr'
        exact .inl ⟨_, hr.2⟩
    · simpa only [Sched.Waits, update_of_ne e] using hw
  · simp only [setHart, goto, assign]
    by_cases e : i' = i
    · subst e
      rw [update_self]
      rcases swtch_cases hm with ⟨c', k', rfl, rfl⟩ | ⟨x, rfl, rfl⟩
      · exact hres
      · cases x <;> exact hres
    · rw [update_of_ne e]; exact hD.resumes i'

theorem Inv.hart_move (hD : D.Inv s) {x : Hart} (hx : ∀ i t, x ≠ .run i t)
    (hh : ∀ i t, s.hart h ≠ .run i t) (hhart : s'.hart = update s.hart h x)
    (hthread : s'.thread = s.thread) (hproc : s'.proc = s.proc) (hmem : s'.mem = s.mem)
    (hrounds : s'.rounds = s.rounds) : D.Inv s' := by
  refine hD.frame hmem hrounds (fun h' i th hl => ?_) (fun p c hw => ?_) fun i => ?_
  · unfold Sched.Runs
    rw [hhart, hthread]
    refine and_congr_left fun _ => exists_congr fun t => ?_
    by_cases eh : h' = h
    · subst eh
      rw [update_self]
      exact ⟨fun hc => absurd hc (hx _ _), fun hc => absurd hc (hh _ _)⟩
    · rw [update_of_ne eh]
  · unfold Sched.Waits at hw ⊢
    rwa [hthread, hproc] at hw
  · rw [hthread]
    exact hD.resumes i

/-- The scheduler puts a process on its hart. -/
theorem Inv.dispatch (hD : D.Inv s) {todo : List (Fin NPROC)} (hh : s.hart h = .look j todo)
    (hoff : s.thread j = .off r) :
    D.Inv (((s.assign j fun p => { p with state := .running }).goto j (.back r)).setHart h
      (.run j todo)) := by
  refine hD.frame rfl rfl (fun h' i th hl => ?_) (fun p c hw => ?_) fun i => ?_
  · simp only [Sched.Runs, setHart, goto, assign]
    by_cases e : i = j
    · subst e
      rw [update_self, hoff]
      constructor
      · rintro ⟨-, rfl⟩
        cases hl
      · rintro ⟨-, rfl⟩
        cases hl
    · rw [update_of_ne e]
      refine and_congr_left fun _ => exists_congr fun t => ?_
      by_cases eh : h' = h
      · subst eh
        rw [update_self, hh]
        constructor
        · intro hc; cases hc; exact absurd rfl e
        · intro hc; cases hc
      · rw [update_of_ne eh]
  · simp only [Sched.Waits, setHart, goto, assign] at hw
    by_cases e : p = j
    · subst e
      rw [update_self] at hw
      rcases hw with ⟨k, e⟩ | ⟨⟨k, e⟩, -⟩ <;> cases e
    · simpa only [Sched.Waits, update_of_ne e] using hw
  · simp only [setHart, goto, assign]
    by_cases e : i = j
    · subst e
      have := hD.resumes i
      rw [hoff] at this
      rw [update_self]
      cases r with
      | sleep => exact this
      | yield x => cases x <;> exact this
    · rw [update_of_ne e]; exact hD.resumes i

/-- **One step keeps the duty.** -/
theorem Inv.step (hF : D.Fits) {l : SchedAct cl.Pc κ} (hD : D.Inv s) (hI : s.Inv)
    (hpay : D.Pays s l s') (hst : Sched.Step s l s') : D.Inv s' := by
  have hI' := hI.step hst
  cases hst with
  | @call h i pc pc' hr hret hentry =>
    have hd := cl.disciplined i pc
    rw [hret] at hd
    exact hD.bystander hr hd rfl rfl (cl.entry_holds pc' hentry) rfl rfl
      (fun p c hw => (waits_of_move hw rfl (by simp) rfl fun _ hst => hst).1) trivial
  | goto hr hm =>
    exact hD.serve hI hr (hr.keeps hI hm) rfl (serves_goto hm) rfl rfl rfl rfl (fun _ hst => hst)
      fun _ _ _ _ => id
  | @test h i th b k hr hm =>
    obtain ⟨pc, rfl, hcode⟩ := cl.micro_test hm
    have hok := hF.code i pc
    have hd := cl.disciplined i pc
    rw [hcode] at hok hd
    obtain ⟨hassert, howes⟩ := hok _ _ (hD.asserted hr hd.1)
    have hwaits : ∀ p c, Sched.Waits { s.goto i (.exec (k (b s.mem))) with
        rounds := s.rounds.test i } p c → s.Waits p c ∧ p ≠ i := fun p c hw =>
      waits_of_move hw rfl (by simp) rfl fun _ hst => hst
    exact hD.hold hI hr hd.1 rfl rfl (hd.2 _) (fun p c hw => (hwaits p c hw).1) hassert
      (fun p c _ hdue hcov => howes c (hcov (hF.due_test _ _ _ _ _ hdue)))
      (fun p c hw => hF.settled_test _ _ _ _ (hwaits p c hw).2) trivial
  | @signal h i th chan k hr hm =>
    obtain ⟨pc, rfl, hcode⟩ := cl.micro_signal hm
    have hok := hF.code i pc
    have hd := cl.disciplined i pc
    rw [hcode] at hok hd
    refine hD.hold hI hr hd.1 rfl rfl rfl (fun p c hw => ?_)
      (hok.2 _ _ (hD.asserted hr hd.1)) (fun p c _ hdue hcov => ?_)
      (fun p c _ => hF.settled_signal _ _ _ _) trivial
    · exact (waits_of_move hw rfl (by simp) rfl fun _ hst => hst).1
    · rcases hF.due_signal _ _ _ _ _ hdue with hdue | rfl
      · rcases hok.1 c (hcov hdue) with rfl | ho
        · exact .inr ⟨rfl, List.mem_finRange p⟩
        · exact .inl ho
      · exact .inr ⟨rfl, List.mem_finRange p⟩
  | @act h i th f b hr hm =>
    obtain ⟨pc, rfl, hcode⟩ := cl.micro_act hm
    have hok := hF.code i pc
    have hd := cl.disciplined i pc
    rw [hcode] at hok hd
    obtain ⟨hassert, howes⟩ := hok b _ _ (hD.asserted hr hd.1)
    refine hD.hold hI hr hd.1 rfl rfl (hd.2 _ _) (fun p c hw => ?_) hassert
      (fun p c _ hdue hcov => howes p c hdue hcov) (fun _ _ _ hset => hset) trivial
    exact (waits_of_move hw rfl (by simp) rfl fun _ hst => hst).1
  | acquire hr hm hfree => exact hD.acquire hF hI hr hm hfree
  | release hr hm => exact hD.release hI hr hm hpay
  | lock hr hm hfree =>
    exact hD.serve hI hr (hr.keeps hI hm) (update_of_ne (by simp) ..)
      (serves_lock hF hm) rfl rfl rfl rfl (fun _ hst => hst) fun _ _ _ _ => id
  | @unlock h i th j f k hr hm =>
    obtain ⟨hheld, hland⟩ := hr.keeps hI hm
    refine hD.serve hI hr (hland _) (update_of_ne (by simp) ..)
      (serves_unlock (hr.2 ▸ hD.resumes i) hm _) rfl rfl rfl rfl (fun p hst => ?_) ?_
    · change (update s.proc j (f (s.proc j)) p).state = _ at hst
      by_cases e : p = j
      · subst e
        rw [update_self] at hst
        rcases (cl.micro_unlock hm (s.proc p)).1 with e | ⟨-, e⟩
        · exact e ▸ hst
        · rw [e] at hst; cases hst
      · rwa [update_of_ne e] at hst
    · rintro p c hne hw ⟨rfl, hns⟩
      refine not_waits_of_visited hI hI' hr hheld hne (update_of_ne hne ..) ?_ hw
      simpa only [setLock, goto, assign, update_self] using hns _
  | swtch hr hm hh => exact hD.swtch hI hr hm hh
  | @timer h i x hr hno hfree =>
    have hres := hr.2 ▸ hD.resumes i
    refine hD.bystander hr ?_ rfl rfl rfl rfl rfl
      (fun p c hw => (waits_of_move hw rfl (by simp) rfl fun _ hst => hst).1) ?_
    · cases x <;> first | exact hno | rfl
    · cases x <;> exact hres
  | pass hh => exact hD.hart_move (by simp) (by simp [hh]) rfl rfl rfl rfl rfl
  | visit hh hfree => exact hD.hart_move (by simp) (by simp [hh]) rfl rfl rfl rfl rfl
  | skip hh hne => exact hD.hart_move (by simp) (by simp [hh]) rfl rfl rfl rfl rfl
  | dispatch hh hrunnable hoff => exact hD.dispatch hh hoff
  | leave hh => exact hD.hart_move (by simp) (by simp [hh]) rfl rfl rfl rfl rfl

/-- **The rule**: in every run in which no duty is left unpaid, a process that waits and is due
is covered by the holder of `lk`. -/
theorem inv_of_reachable (hF : D.Fits) {start : σ → Prop}
    (hs : ((machine cl κ start).restrict D.Pays).Reachable s) : s.Inv ∧ D.Inv s := by
  refine hs.invariant (I := fun s => s.Inv ∧ D.Inv s) ?_ ?_
  · rintro s ⟨hb, -⟩
    exact ⟨hb.inv, .boot D hb⟩
  · rintro s l s' ⟨hI, hD⟩ ⟨hpay, hst⟩
    exact ⟨hI.step hst, hD.step hF hI hpay hst⟩

end Duty

/-! ### The calling convention -/

/-- The calling convention of `sleep`: within one critical section of `lk` the process has tested
its condition before.  `tested` marks the points where it has. -/
def Instr.Convention {σ β Pc : Type} (tested : Pc → Bool) (here : Bool) : Instr σ β Pc → Prop
  | .acquire k => tested k = false
  | .sleep _ k => here = true ∧ tested k = false
  | .wakeup _ k => tested k = true → here = true
  | .killed k => ∀ b, tested (k b) = true → here = true
  | .act f => ∀ b m, tested (f b m).2 = true → here = true
  | _ => True

/-- A client all of whose code follows the convention. -/
structure Client.Follows {σ β : Type} (cl : Client σ β) (tested : cl.Pc → Bool) : Prop where
  code : ∀ i pc, (cl.code i pc).Convention tested (tested pc)

namespace Sched

variable {σ β κ : Type} {cl : Client σ β} {s s' : Sched cl κ}

/-- The last completed critical section in which `wakeup(chan)` was called: while `lk` is held,
the current section is not complete. -/
def lastWakeup (s : Sched cl κ) (chan : Chan) : ℕ :=
  if s.lock .lk = none then s.rounds.signalled chan else s.rounds.earlier chan

/-- A process is due when `wakeup` was called in a section after its test. -/
def laterWakeup (cl : Client σ β) (tested : cl.Pc → Bool) : Duty cl where
  due r _ p c := r.tested p < r.signalled c
  settled r p c := r.earlier c ≤ r.tested p
  owes _ _ _ := False
  assert i pc r _ := tested pc = true → r.tested i = r.round

theorem laterWakeup_fits {tested : cl.Pc → Bool} (hcl : cl.Follows tested) :
    (laterWakeup cl tested).Fits where
  code i pc := by
    have hc := hcl.code i pc
    cases hcode : cl.code i pc <;> rw [hcode] at hc
    case acquire k =>
      intro r m ht
      rw [show tested k = false from hc] at ht
      cases ht
    case sleep chan k =>
      refine ⟨fun _ => id, fun r m hassert => ?_, fun r m ht => ?_⟩
      · have e := hassert hc.1
        have h1 := r.signalled_le chan
        have h2 := r.earlier_le chan
        simp only [laterWakeup]
        omega
      · rw [hc.2] at ht
        cases ht
    case wakeup chan k =>
      exact ⟨fun _ => False.elim, fun r m hassert ht => hassert (hc ht)⟩
    case killed k =>
      exact fun b => ⟨fun _ => id, fun r m hassert ht => hassert (hc b ht)⟩
    case test b k =>
      exact fun r m _ => ⟨fun _ => update_self .., fun _ => id⟩
    case act f =>
      exact fun b r m hassert => ⟨fun ht => hassert (hc b m ht), fun p c hdue hno => hno hdue⟩
    all_goals trivial
  due_enter _ _ _ _ hdue := hdue
  due_test r m p c i hdue := by
    simp only [laterWakeup, Rounds.test, update_apply] at hdue ⊢
    split_ifs at hdue
    · exact absurd hdue (r.signalled_le c).not_gt
    · exact hdue
  due_signal r m p c chan hdue := by
    simp only [laterWakeup, Rounds.signal, update_apply] at hdue ⊢
    split_ifs at hdue with e
    · exact .inr e
    · exact .inl hdue
  settled_enter _ _ _ _ hdue := Nat.le_of_not_lt hdue
  settled_test r p c i hne hset := by
    simpa only [laterWakeup, Rounds.test, update_of_ne hne] using hset
  settled_signal _ _ _ _ hset := hset

variable [DecidableEq κ]

theorem reachable_restrict {tested : cl.Pc → Bool} {start : σ → Prop}
    (hs : (machine cl κ start).Reachable s) :
    ((machine cl κ start).restrict (laterWakeup cl tested).Pays).Reachable s := by
  obtain ⟨tr, htr⟩ := hs
  induction htr with
  | start hs => exact .start hs
  | next _ hst ih =>
    refine ih.next ⟨?_, hst⟩
    rintro h i pc k - - p c ho
    exact ho.elim

theorem step_relock {h : κ} {i : Fin NPROC} {k : cl.Pc}
    (hst : Step s (.thread h i (.relock k)) s') :
    s'.Runs h i (.exec k) ∧ s'.lock .lk = some h := by
  cases hst with
  | acquire hr hm hfree =>
    cases (Micro.acquire.inj hm)
    obtain ⟨⟨t, ht⟩, -⟩ := hr
    exact ⟨⟨⟨t, ht⟩, by simp [goto, setLock]⟩, by simp [setLock]⟩
  | goto _ hm => cases hm
  | test _ hm => cases hm
  | signal _ hm => cases hm
  | act _ _ hm => cases hm
  | release _ hm => cases hm
  | lock _ hm _ => cases hm
  | unlock _ hm => cases hm
  | swtch _ hm _ => cases hm

end Sched

/-! ### Sleep locks -/

/-- `struct sleeplock`. -/
structure Sleeplock where
  locked : ℕ
  pid : ℤ

/-- The points of `sleeplock.c`. -/
inductive SleeplockPc where
  | user
  | acquiresleep
  | acquireLoop
  | acquireSleep
  | acquireTake
  | releasesleep
  | releaseClear
  | releaseWakeup
  | holdingsleep
  | holdingRead
  | leave
  | kill (pid : ℤ)
  deriving DecidableEq

/-- `acquiresleep`, `releasesleep` and `holdingsleep` of the sleep lock at address `lk`, and
`kkill`; what an action learns is `myproc()->pid`. -/
def sleeplock (lk : Chan) : Client Sleeplock ℤ where
  Pc := SleeplockPc
  code _
    | .user => .ret
    | .acquiresleep => .acquire .acquireLoop
    | .acquireLoop =>
      .test (fun m => m.locked ≠ 0) fun b => if b then .acquireSleep else .acquireTake
    | .acquireSleep => .sleep lk .acquireLoop
    | .acquireTake => .act fun pid _ => (⟨1, pid⟩, .leave)
    | .releasesleep => .acquire .releaseClear
    | .releaseClear => .act fun _ _ => (⟨0, 0⟩, .releaseWakeup)
    | .releaseWakeup => .wakeup lk .leave
    | .holdingsleep => .acquire .holdingRead
    | .holdingRead => .act fun _ m => (m, .leave)
    | .leave => .release .user
    | .kill pid => .kkill pid fun _ => .user
  entry pc := pc = .acquiresleep ∨ pc = .releasesleep ∨ pc = .holdingsleep ∨ ∃ pid, pc = .kill pid
  holds
    | .user | .acquiresleep | .releasesleep | .holdingsleep | .kill _ => false
    | _ => true
  entry_holds := by rintro pc (rfl | rfl | rfl | ⟨pid, rfl⟩) <;> rfl
  disciplined i pc := by
    cases pc <;> simp [Instr.Disciplined]

namespace Sleeplock

/-- `acquiresleep` has found the lock taken. -/
def tested : SleeplockPc → Bool
  | .acquireSleep => true
  | _ => false

theorem follows (lk : Chan) : (sleeplock lk).Follows tested :=
  ⟨fun i pc => by cases pc <;> simp [sleeplock, tested, Instr.Convention]⟩

/-- Two harts and two processes, with the sleep lock free. -/
def booted (lk : Chan) : Sched (sleeplock lk) Bool where
  mem := ⟨0, 0⟩
  lock _ := none
  proc i := { ProcTable.blank with state := if i.val < 2 then .runnable else .unused }
  thread _ := .off (.yield (.exec SleeplockPc.user))
  hart _ := .scan []
  rounds := .start

theorem init_booted (lk : Chan) : (machine (sleeplock lk) Bool fun _ => True).init (booted lk) :=
  ⟨⟨fun _ => rfl, fun _ => rfl, fun i => by simp only [booted]; split_ifs <;> simp,
    fun _ => ⟨SleeplockPc.user, rfl, rfl⟩, rfl⟩, trivial⟩

/-- The first process takes the lock, the second goes to sleep on it; the first releases it, which
wakes up the second, and it goes to sleep itself after the second has taken the lock. -/
def handOver : List (Move (sleeplock (.other 0)) Bool) :=
  .flatten [.replicate 4 (.go true), [.call true SleeplockPc.acquiresleep (.inl rfl), .go true,
      .go true, .input true 1, .go true],
    .replicate 6 (.go false), [.call false SleeplockPc.acquiresleep (.inl rfl)],
    .replicate 6 (.go false),
    [.call true SleeplockPc.releasesleep (.inr (.inl rfl)), .go true, .input true 1],
    .replicate 130 (.go true), .replicate 132 (.go false), [.input false 2, .go false],
    [.call true SleeplockPc.acquiresleep (.inl rfl)], .replicate 5 (.go true)]

theorem reachable_asleep : ∃ s : Sched (sleeplock (.other 0)) Bool,
    (machine (sleeplock (.other 0)) Bool fun _ => True).Reachable s ∧
      (s.proc initproc).SleepsOn (some (.other 0)) ∧ s.lock .lk = none ∧
      0 < s.rounds.signalled (.other 0) :=
  Machine.Reachable.play (.start (init_booted _)) next handOver (by decide +kernel)

end Sleeplock

namespace Sched

variable {σ β κ : Type} {cl : Client σ β} {s : Sched cl κ} [DecidableEq κ]

/-- **No wakeup is lost.**  For every client that follows the calling convention, every number of
harts and every interleaving: a process that is asleep on a channel has tested its condition in
no earlier section than the last completed one that called `wakeup` on the channel; and `sleep`
returns with `lk` held by the hart of its caller. -/
theorem wakeup_not_lost {tested : cl.Pc → Bool} (hcl : cl.Follows tested) {start : σ → Prop}
    (hs : (machine cl κ start).Reachable s) :
    (∀ p chan, (s.proc p).SleepsOn (some chan) → s.lastWakeup chan ≤ s.rounds.tested p) ∧
      ∀ h i k s', Step s (.thread h i (.relock k)) s' →
        s'.Runs h i (.exec k) ∧ s'.lock .lk = some h := by
  obtain ⟨hI, hD⟩ := Duty.inv_of_reachable (laterWakeup_fits hcl) (reachable_restrict hs)
  refine ⟨fun p chan hsl => ?_, fun h i k s' hst => ?_⟩
  · have hw := hI.waits hsl
    unfold lastWakeup
    split_ifs with hfree
    · exact Nat.le_of_not_lt (hD.not_due hI hfree hw)
    · exact hD.settled p chan hw
  · exact step_relock hst

/-- A process asleep in `acquiresleep`, after a `wakeup` that was not for it. -/
theorem wakeup_not_lost_acquiresleep :
    ∃ s : Sched (sleeplock (.other 0)) Bool,
      (s.proc initproc).SleepsOn (some (.other 0)) ∧ 0 < s.rounds.signalled (.other 0) ∧
        s.lastWakeup (.other 0) ≤ s.rounds.tested initproc := by
  obtain ⟨s, hs, hsleep, -, hpos⟩ := Sleeplock.reachable_asleep
  exact ⟨s, hsleep, hpos, (wakeup_not_lost (Sleeplock.follows _) hs).1 initproc _ hsleep⟩

/-- **A process runs on one hart.**  For every client and every number of harts, in every run: a
process is `RUNNING` exactly if exactly one hart runs it. -/
theorem running_once {start : σ → Prop} (hs : (machine cl κ start).Reachable s) (i : Fin NPROC) :
    (s.proc i).state = .running ↔ ∃! h, ∃ todo, s.hart h = .run i todo := by
  have hI : s.Inv := by
    refine hs.invariant ?_ fun _ _ _ hI hst => hI.step hst
    rintro _ ⟨hb, -⟩
    exact hb.inv
  have hstatus := hI.status i
  constructor
  · intro hrun
    have hon : (s.thread i).isOff = false := by
      cases hth : s.thread i with
      | off r =>
        rw [hth] at hstatus
        cases r <;> simp [Proc.Status, hrun] at hstatus
      | _ => rfl
    obtain ⟨h, t, ht⟩ := (hI.placed i).1 hon
    refine ⟨h, ⟨t, ht⟩, ?_⟩
    rintro h' ⟨t', ht'⟩
    exact hI.single ht' ht
  · rintro ⟨h, ⟨t, ht⟩, -⟩
    exact (Proc.status_running ((hI.placed i).2 ⟨h, t, ht⟩)).1 hstatus

/-- A process that sleeps is on no hart. -/
theorem running_once_asleep : ∃ s : Sched (sleeplock (.other 0)) Bool,
    (s.proc initproc).SleepsOn (some (.other 0)) ∧
      ¬∃! h, ∃ todo, s.hart h = .run initproc todo := by
  obtain ⟨s, hs, hsleep, -⟩ := Sleeplock.reachable_asleep
  refine ⟨s, hsleep, fun hrun => ?_⟩
  cases hsleep.1.symm.trans ((running_once hs initproc).2 hrun)

end Sched

namespace Sleeplock

variable {lk : Chan} {κ : Type} [DecidableEq κ] {s : Sched (sleeplock lk) κ}
    {start : Sleeplock → Prop}

/-- Who waits for the lock is due when it is free, and `releasesleep` owes the `wakeup`. -/
def duty (lk : Chan) : Duty (sleeplock lk) where
  due _ m _ c := c = lk ∧ m.locked = 0
  settled _ _ _ := True
  owes _ pc c := pc = SleeplockPc.releaseWakeup ∧ c = lk
  assert _ pc _ m := (pc = SleeplockPc.acquireSleep → m.locked ≠ 0) ∧
    (pc = SleeplockPc.acquireTake → m.locked = 0)

theorem duty_fits (lk : Chan) : (duty lk).Fits where
  code i pc := by
    cases pc <;> simp only [sleeplock, Duty.CodeOk, duty]
    case acquireLoop =>
      intro _ m _
      by_cases h0 : m.locked = 0 <;> simp [h0]
    all_goals simp
  due_enter _ _ _ _ := id
  due_test _ _ _ _ _ := id
  due_signal _ _ _ _ _ := .inl
  settled_enter _ _ _ _ _ := trivial
  settled_test _ _ _ _ _ _ := trivial
  settled_signal _ _ _ _ _ := trivial

theorem reachable_pays (hs : (machine (sleeplock lk) κ start).Reachable s) :
    ((machine (sleeplock lk) κ start).restrict (duty lk).Pays).Reachable s := by
  refine hs.invariant (fun _ h => .start h) fun s l s' ih hst => ih.next ⟨?_, hst⟩
  rintro h i pc k - hcode p c ⟨rfl, -⟩
  cases hcode

/-- **Sleep locks exclude and are handed on.**  In every run of any number of processes and harts:
`acquiresleep` takes the lock only when it is free; and while `lk->lk` is free, nobody sleeps in
`acquiresleep` on a lock that is free. -/
theorem sleeplock_excludes (hs : (machine (sleeplock lk) κ start).Reachable s) :
    (∀ h i, s.Runs h i (.exec SleeplockPc.acquireTake) → s.mem.locked = 0) ∧
      (s.lock .lk = none → ∀ p, (s.proc p).SleepsOn (some lk) → s.mem.locked ≠ 0) := by
  obtain ⟨hI, hD⟩ := Duty.inv_of_reachable (duty_fits lk) (reachable_pays hs)
  refine ⟨fun h i hr => (hD.asserted hr rfl).2 rfl, fun hfree p hsl h0 => ?_⟩
  exact hD.not_due hI hfree (hI.waits hsl) ⟨rfl, h0⟩

/-- A process asleep on a lock that is taken, and was handed on before. -/
theorem sleeplock_excludes_asleep : ∃ s : Sched (sleeplock (.other 0)) Bool,
    (s.proc initproc).SleepsOn (some (.other 0)) ∧ s.mem.locked ≠ 0 := by
  obtain ⟨s, hs, hsleep, hfree, -⟩ := reachable_asleep
  exact ⟨s, hsleep, (sleeplock_excludes hs).2 hfree initproc hsleep⟩

end Sleeplock

end Cinux
