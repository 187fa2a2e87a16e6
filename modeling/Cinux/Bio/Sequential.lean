import Cinux.Bio.Sharing

/-!
# Sequential processes

The kernel runs at most `NPROC` processes, and each of them does one thing at a time: while it
waits in `acquiresleep`, or is between the two halves of `brelse`, it does not start or end
another use.  Then a buffer has at most one holder and at most `NPROC` other uses, and its
reference count cannot wrap.
-/

namespace Cinux.Sharing

open List Bcache

/-- Process `p` is neither waiting for a buffer nor on its way out of one. -/
def Idle (s : Sharing) (p : ℕ) : Prop := ∀ u ∈ s.uses, u.pid = p → u.phase = .holding

/-- When a process of the kernel takes a step. -/
def Turn (s : Sharing) : BioAct → Prop
  | .bget p _ _ => p < NPROC ∧ s.Idle p
  | .releasesleep p _ => s.Idle p
  | _ => True

/-- The uses that do not hold the buffer. -/
def transient (us : List Use) : List Use := us.filter (·.phase ≠ .holding)

/-- The number of uses that hold buffer `b`. -/
def holders (us : List Use) (b : Fin NBUF) : ℕ :=
  us.countP fun u => u.buf = b ∧ u.phase = .holding

/-- The uses of sequential processes. -/
structure Sequential (s : Sharing) : Prop where
  pid : ∀ u ∈ s.uses, u.pid < NPROC
  /-- A process is in at most one use that it does not hold. -/
  single : ((transient s.uses).map Use.pid).Nodup
  /-- A buffer has at most one holder, and none if its lock is free. -/
  held : ∀ b, holders s.uses b ≤ if (s.cache.buf b).lock = none then 0 else 1

variable {s s' : Sharing} {p : ℕ} {b : Fin NBUF}

theorem sequential_boot : boot.Sequential where
  pid u hu := by simp [boot] at hu
  single := by simp [boot, transient]
  held b := by simp [boot, holders]

theorem countP_le_held (us : List Use) (b : Fin NBUF) :
    us.countP (fun u => u.buf = b) ≤ holders us b + (transient us).length := by
  induction us with
  | nil => simp
  | cons u us ih =>
    simp only [countP_cons, holders, transient, filter_cons] at ih ⊢
    by_cases hb : u.buf = b <;> by_cases hp : u.phase = .holding <;> simp [hb, hp] at ih ⊢ <;>
      omega

/-- **Sequential processes fit the reference count.** -/
theorem Sequential.fits (h : s.Sequential) (hp : ∀ b, s.pins b ≤ 1) : s.Fits := by
  intro b
  have htrans : (transient s.uses).length ≤ NPROC := by
    have hsub : (transient s.uses).map Use.pid ⊆ List.range NPROC := by
      intro q hq
      obtain ⟨u, hu, rfl⟩ := mem_map.1 hq
      exact mem_range.2 (h.pid u (mem_of_mem_filter hu))
    simpa using (subperm_of_subset h.single hsub).length_le
  have hheld : holders s.uses b ≤ 1 := (h.held b).trans (by split_ifs <;> omega)
  have hsplit : s.users b ≤ _ := countP_le_held s.uses b
  have hpins := hp b
  unfold NPROC at htrans
  omega

theorem single_replace {us : List Use} {u u' : Use} (hs : ((transient us).map Use.pid).Nodup)
    (hpid : u'.pid = u.pid) (hidle : ∀ v ∈ us.erase u, v.pid = u.pid → v.phase = .holding) :
    ((transient (replace us u u')).map Use.pid).Nodup := by
  have hsub : ((transient (us.erase u)).map Use.pid).Nodup :=
    hs.sublist ((erase_sublist.filter _).map _)
  unfold replace transient at *
  rw [filter_cons]
  split_ifs with hph
  · rw [map_cons, nodup_cons]
    refine ⟨fun hm => ?_, hsub⟩
    obtain ⟨v, hv, hve⟩ := mem_map.1 hm
    have hv' := hidle v (mem_of_mem_filter hv) (hve.trans hpid)
    simpa [hv'] using (mem_filter.1 hv).2
  · exact hsub

theorem pid_replace {us : List Use} {u u' : Use} (h : ∀ v ∈ us, v.pid < NPROC) (hu : u ∈ us)
    (hpid : u'.pid = u.pid) : ∀ v ∈ replace us u u', v.pid < NPROC := by
  intro v hv
  rcases mem_cons.1 hv with rfl | hv
  · rw [hpid]; exact h u hu
  · exact h v (mem_of_mem_erase hv)

theorem holders_replace {us : List Use} {u u' : Use} (hu : u ∈ us) (b : Fin NBUF) :
    holders (replace us u u') b + (if u.buf = b ∧ u.phase = .holding then 1 else 0) =
      holders us b + (if u'.buf = b ∧ u'.phase = .holding then 1 else 0) := by
  have := (perm_cons_erase hu).countP_eq fun v => decide (v.buf = b ∧ v.phase = .holding)
  simp only [countP_cons, decide_eq_true_eq] at this
  simp only [holders, replace, countP_cons, decide_eq_true_eq]
  omega

theorem Sequential.idle_erase (h : s.Sequential) {u : Use} (hu : u ∈ s.uses)
    (hp : u.phase ≠ .holding) : ∀ v ∈ s.uses.erase u, v.pid = u.pid → v.phase = .holding := by
  intro v hv hpid
  by_contra hph
  have hperm : (transient s.uses).Perm (u :: transient (s.uses.erase u)) := by
    have := (perm_cons_erase hu).filter (·.phase ≠ .holding)
    rwa [filter_cons_of_pos (by simpa using hp)] at this
  have hnd := (hperm.map Use.pid).nodup_iff.1 h.single
  rw [map_cons, nodup_cons] at hnd
  exact hnd.1 (mem_map.2 ⟨v, mem_filter.2 ⟨hv, by simpa using hph⟩, hpid⟩)

variable {a : BioAct}

/-- Every step of sequential processes leaves them sequential. -/
theorem Sequential.step (h : s.Sequential) (hi : s.Inv) (hst : Step s a s')
    (ht : s.Turn a) : s'.Sequential := by
  obtain ⟨l, hl⟩ := hi.wf
  cases hst with
  | @bget p dev blockno b c hg =>
    obtain ⟨hpid, hidle⟩ := ht
    refine ⟨forall_mem_cons.2 ⟨hpid, h.pid⟩, ?_, fun x => ?_⟩
    · simp only [transient, filter_cons]
      rw [if_pos (by simp), map_cons, nodup_cons]
      refine ⟨fun hm => ?_, h.single⟩
      obtain ⟨v, hv, hve⟩ := mem_map.1 hm
      have := hidle v (mem_of_mem_filter hv) hve
      simpa [this] using (mem_filter.1 hv).2
    · have hlock : (c.buf x).lock = (s.cache.buf x).lock := by
        obtain ⟨_, _, -, -, -, rfl⟩ | ⟨-, -, rfl⟩ := hl.order.bget_cases hg <;>
        · by_cases hx : x = b
          · subst hx; simp
          · rw [modify_ne _ hx]
      have := h.held x
      simpa [holders, countP_cons, hlock] using this
  | @acquiresleep p b hu hfree =>
    refine ⟨pid_replace h.pid hu rfl, single_replace h.single rfl (h.idle_erase hu (by simp)),
      fun x => ?_⟩
    dsimp only
    have hcount := @holders_replace _ _ ⟨p, b, .holding⟩ hu x
    have hx := h.held x
    rw [if_neg (by simp)] at hcount
    by_cases hxb : x = b
    · subst hxb
      rw [if_pos hfree] at hx
      rw [if_pos ⟨rfl, rfl⟩] at hcount
      rw [modify_self, if_neg (by simp)]
      omega
    · rw [if_neg (fun he => hxb he.1.symm)] at hcount
      rw [modify_ne _ hxb]
      omega
  | @fill p b d hu hv =>
    refine ⟨h.pid, h.single, fun x => ?_⟩
    have hlock : ((s.cache.modify b fun y => { y with data := d, valid := true }).buf x).lock =
        (s.cache.buf x).lock := by
      by_cases hx : x = b
      · subst hx; simp
      · rw [modify_ne _ hx]
    simpa [hlock] using h.held x
  | @releasesleep p b hu hlock =>
    refine ⟨pid_replace h.pid hu rfl, single_replace h.single rfl
      (fun v hv => ht v (mem_of_mem_erase hv)), fun x => ?_⟩
    dsimp only
    have hcount := @holders_replace _ _ ⟨p, b, .releasing⟩ hu x
    have hx := h.held x
    rw [if_neg (c := _ ∧ Phase.releasing = _) (by simp)] at hcount
    by_cases hxb : x = b
    · subst hxb
      rw [if_neg (by simp [hlock])] at hx
      rw [if_pos ⟨rfl, rfl⟩] at hcount
      rw [modify_self, if_pos rfl]
      omega
    · rw [if_neg (fun he => hxb he.1.symm)] at hcount
      rw [modify_ne _ hxb]
      omega
  | @brelse p b hu =>
    refine ⟨fun u hu => h.pid u (mem_of_mem_erase hu),
      h.single.sublist ((erase_sublist.filter _).map _), fun x => ?_⟩
    have hlock : ((s.cache.brelse b).buf x).lock = (s.cache.buf x).lock := by
      by_cases hx : x = b
      · subst hx; rw [brelse_buf_self]
      · rw [brelse_buf_ne hx]
    simp only [hlock]
    exact (erase_sublist.countP_le).trans (h.held x)
  | @bpin p b hu =>
    refine ⟨h.pid, h.single, fun x => ?_⟩
    have hlock : ((s.cache.bpin b).buf x).lock = (s.cache.buf x).lock := by
      by_cases hx : x = b
      · subst hx; rw [bpin, modify_self]
      · rw [bpin, modify_ne _ hx]
    simp only [hlock]
    exact h.held x
  | @bunpin b hp =>
    refine ⟨h.pid, h.single, fun x => ?_⟩
    have hlock : ((s.cache.bunpin b).buf x).lock = (s.cache.buf x).lock := by
      by_cases hx : x = b
      · subst hx; rw [bunpin, modify_self]
      · rw [bunpin, modify_ne _ hx]
    simp only [hlock]
    exact h.held x

/-- What a step can do to a buffer: leave its tag and its contents alone, hand it over when it is
unused, or fill it. -/
theorem Step.buf_cases (hi : s.Inv) (hst : Step s a s') (x : Fin NBUF) :
    ((s'.cache.buf x).tag = (s.cache.buf x).tag ∧ (s'.cache.buf x).valid = (s.cache.buf x).valid ∧
        (s'.cache.buf x).data = (s.cache.buf x).data) ∨
      ((s'.cache.buf x).valid = false ∧ (s.cache.buf x).refcnt = 0) ∨
      ∃ p d, a = .fill p x d ∧ ⟨p, x, .holding⟩ ∈ s.uses ∧ (s.cache.buf x).valid = false ∧
        s'.cache.buf x = { s.cache.buf x with data := d, valid := true } := by
  obtain ⟨l, hl⟩ := hi.wf
  have hkeep : ∀ (b : Fin NBUF) (f : Buf → Buf), (f (s.cache.buf b)).tag = (s.cache.buf b).tag →
      (f (s.cache.buf b)).valid = (s.cache.buf b).valid →
      (f (s.cache.buf b)).data = (s.cache.buf b).data →
      ((s.cache.modify b f).buf x).tag = (s.cache.buf x).tag ∧
        ((s.cache.modify b f).buf x).valid = (s.cache.buf x).valid ∧
        ((s.cache.modify b f).buf x).data = (s.cache.buf x).data := by
    intro b f h1 h2 h3
    by_cases hx : x = b
    · subst hx
      rw [modify_self]
      exact ⟨h1, h2, h3⟩
    · rw [modify_ne _ hx]
      exact ⟨rfl, rfl, rfl⟩
  cases hst with
  | @bget p dev blockno b c hg =>
    obtain ⟨_, _, -, -, -, rfl⟩ | ⟨-, h0, rfl⟩ := hl.order.bget_cases hg
    · left
      dsimp only
      exact hkeep b _ (Buf.tag_refcnt _ _) rfl rfl
    · by_cases hx : x = b
      · subst hx
        exact .inr (.inl ⟨by simp, h0⟩)
      · rw [modify_ne _ hx]
        exact .inl ⟨rfl, rfl, rfl⟩
  | @acquiresleep p b hu hfree =>
    left
    dsimp only
    exact hkeep b _ rfl rfl rfl
  | @fill p b d hu hv =>
    by_cases hx : x = b
    · subst hx
      exact .inr (.inr ⟨p, d, rfl, hu, hv, by simp⟩)
    · rw [modify_ne _ hx]
      exact .inl ⟨rfl, rfl, rfl⟩
  | @releasesleep p b hu hlock =>
    left
    dsimp only
    exact hkeep b _ rfl rfl rfl
  | @brelse p b hu =>
    by_cases hx : x = b
    · subst hx
      rw [brelse_buf_self]
      exact .inl ⟨Buf.tag_refcnt _ _, rfl, rfl⟩
    · rw [brelse_buf_ne hx]
      exact .inl ⟨rfl, rfl, rfl⟩
  | @bpin p b hu =>
    left
    dsimp only [bpin]
    exact hkeep b _ (Buf.tag_refcnt _ _) rfl rfl
  | @bunpin b hp =>
    left
    dsimp only [bunpin]
    exact hkeep b _ (Buf.tag_refcnt _ _) rfl rfl

theorem Step.holding (hst : Step s a s') (h : ⟨p, b, .holding⟩ ∈ s.uses)
    (ha : a ≠ .releasesleep p b) : ⟨p, b, .holding⟩ ∈ s'.uses := by
  cases hst with
  | bget hg => exact mem_cons_of_mem _ h
  | acquiresleep hu hfree =>
    exact mem_cons_of_mem _ ((mem_erase_of_ne (by simp)).2 h)
  | fill hu hv => exact h
  | @releasesleep q c hu hlock =>
    refine mem_cons_of_mem _ ((mem_erase_of_ne fun he => ha ?_).2 h)
    cases he
    rfl
  | brelse hu => exact (mem_erase_of_ne (by simp)).2 h
  | bpin hu => exact h
  | bunpin hp => exact h

theorem Step.mem_uses (hi : s.Inv) (hst : Step s a s') {u : Use} (hu : u ∈ s'.uses) :
    (∃ v ∈ s.uses, v.buf = u.buf) ∨
      ∃ p dev blockno, a = .bget p dev blockno ∧ (s'.cache.buf u.buf).tag = (dev, blockno) := by
  obtain ⟨l, hl⟩ := hi.wf
  cases hst with
  | @bget p dev blockno b c hg =>
    rcases mem_cons.1 hu with rfl | hu
    · refine .inr ⟨p, dev, blockno, rfl, ?_⟩
      obtain ⟨_, _, -, ht, -, rfl⟩ | ⟨-, -, rfl⟩ := hl.order.bget_cases hg
      · rw [modify_self, Buf.tag_refcnt, ht]
      · rw [modify_self]
        rfl
    · exact .inl ⟨u, hu, rfl⟩
  | acquiresleep hv hfree =>
    rcases mem_cons.1 hu with rfl | hu
    · exact .inl ⟨_, hv, rfl⟩
    · exact .inl ⟨u, mem_of_mem_erase hu, rfl⟩
  | fill hv _ => exact .inl ⟨u, hu, rfl⟩
  | releasesleep hv hlock =>
    rcases mem_cons.1 hu with rfl | hu
    · exact .inl ⟨_, hv, rfl⟩
    · exact .inl ⟨u, mem_of_mem_erase hu, rfl⟩
  | brelse hv => exact .inl ⟨u, mem_of_mem_erase hu, rfl⟩
  | bpin hv => exact .inl ⟨u, hu, rfl⟩
  | bunpin hp => exact .inl ⟨u, hu, rfl⟩

end Cinux.Sharing
