import Cinux.Log.Buffers

/-!
# Crash atomicity of the log

In every state of `logging`, also in the middle of a commit or of a recovery, replaying the log
that is on the disk over the disk gives every home block the contents after exactly the committed
transactions.  A recovery is such a replay, so this is what it leaves (`crash_atomicity`).

`LogSys.OpsInv` adds that a commit falls between operations, so no operation is split.
-/

namespace Cinux.LogSys

open Function Redo List

variable {L : LogConf} {s s' : LogSys} {p op : ℕ} {i j : Fin NBUF} {b : ℕ}

/-! ### The log on the disk -/

variable {disk : ℕ → Block}

theorem logged_nil (h : readHead (disk L.start) = []) : logged L disk = [] := by
  simp [logged, h]

theorem logged_keys (disk : ℕ → Block) :
    (logged L disk).map Prod.fst = readHead (disk L.start) := by
  rw [logged, map_map]
  exact (map_congr_left fun _ _ => rfl).trans (zipIdx_map_fst 0 _)

theorem mem_logged {w : ℕ × Block} (h : w ∈ logged L disk) :
    ∃ j, (readHead (disk L.start))[j]? = some w.1 ∧ w.2 = disk (L.block j) := by
  obtain ⟨x, hx, rfl⟩ := mem_map.1 h
  exact ⟨x.2, List.mem_zipIdx_iff_getElem?.1 hx, rfl⟩

theorem logged_drop {tail : ℕ} (h : (readHead (disk L.start))[tail]? = some b) :
    (logged L disk).drop tail = (b, disk (L.block tail)) :: (logged L disk).drop (tail + 1) := by
  have hget : (logged L disk)[tail]? = some (b, disk (L.block tail)) := by
    rw [logged, List.getElem?_map, List.getElem?_zipIdx, h]
    simp
  obtain ⟨hlt, he⟩ := List.getElem?_eq_some_iff.1 hget
  rw [drop_eq_getElem_cons hlt, he]

theorem logged_congr {disk disk' : ℕ → Block} (hs : disk' L.start = disk L.start)
    (hlen : (readHead (disk L.start)).length ≤ LOGBLOCKS)
    (hb : ∀ j < LOGBLOCKS, disk' (L.block j) = disk (L.block j)) :
    logged L disk' = logged L disk := by
  unfold logged
  rw [hs]
  refine map_congr_left fun x hx => ?_
  have hlt : x.2 < (readHead (disk L.start)).length :=
    (List.getElem?_eq_some_iff.1 (List.mem_zipIdx_iff_getElem?.1 hx)).1
  rw [hb x.2 (hlt.trans_le hlen)]

theorem logged_update_home (hb : L.Home b) (d : Block)
    (hlen : (readHead (disk L.start)).length ≤ LOGBLOCKS) :
    logged L (update disk b d) = logged L disk :=
  logged_congr (update_of_ne hb.ne_start.symm _ _) hlen fun _ hj =>
    update_of_ne (hb.ne_block hj).symm _ _

theorem DiskInv.head_home (h : s.DiskInv L) : (∀ b ∈ readHead (s.disk L.start), L.Home b) ∧
    (readHead (s.disk L.start)).length ≤ LOGBLOCKS ∧ (readHead (s.disk L.start)).Nodup := by
  have hh := h.head
  have hlh : (∀ b ∈ s.lh, L.Home b) ∧ s.lh.length ≤ LOGBLOCKS ∧ s.lh.Nodup :=
    ⟨h.lhHome, h.lhLen, h.lhNodup⟩
  unfold HeadOk at hh
  cases hph : s.phase <;> simp only [hph] at hh
  · exact hh
  all_goals first | exact hh ▸ hlh | simp [hh]

theorem DiskInv.congr (h : s.DiskInv L) (hdisk : s'.disk = s.disk) (hlh : s'.lh = s.lh)
    (hphase : s'.phase = s.phase) (hcur : s'.cur = s.cur) (hhist : s'.history = s.history)
    (hbase : s'.base = s.base) : s'.DiskInv L := by
  cases s
  cases s'
  subst hdisk hlh hphase hcur hhist hbase
  exact ⟨h.1, h.2, h.3, h.4, h.5, h.6, h.7, h.8, h.9, h.10, h.11⟩

variable {sh : Sharing}

theorem DiskInv.record (h : s.DiskInv L) (hph : s.phase = .idle)
    (hb : L.Home (s.sh.cache.buf i).blockno) (hlen : s.lh.length < LOGBLOCKS) :
    (s.record op i sh).DiskInv L := by
  have hph' : (s.record op i sh).phase = .idle := hph
  have hcom : (s.record op i sh).committed = s.committed := rfl
  have hpend : s.pending = s.lh := by simp [pending, hph]
  have hpend' : (s.record op i sh).pending = (s.record op i sh).lh := by simp [pending, hph']
  refine ⟨fun b hb' => ?_, ?_, ?_, ?_, fun _ b hb' hp => ?_, fun j b hj => ?_, fun b hb' => ?_,
    h.recoverable, fun e he => ?_, fun hi => absurd hph' hi, fun q hq => ?_⟩
  · rcases mem_record_lh.1 hb' with hb' | rfl
    · exact h.lhHome b hb'
    · exact hb
  · dsimp only [LogSys.record]
    split_ifs with hm
    · exact h.lhNodup
    · refine nodup_append.2 ⟨h.lhNodup, nodup_singleton _, fun a ha b' hb' he => hm ?_⟩
      rwa [← mem_singleton.1 hb', ← he]
  · dsimp only [LogSys.record]
    split_ifs
    · exact h.lhLen
    · rw [length_append, length_singleton]
      exact hlen
  · have := h.head
    simp only [HeadOk, hph] at this
    simp only [HeadOk, hph']
    exact this
  · rw [hpend', mem_record_lh, not_or] at hp
    rw [contents_record, update_of_ne hp.2]
    exact h.landed (by simp [Up, hph]) b hb' (hpend ▸ hp.1)
  · simp [copied, hph'] at hj
  · have := h.replayed b hb'
    exact this
  · rcases mem_append.1 he with he | he
    · exact mem_record_lh.2 (.inl (h.recorded e he))
    · rw [mem_singleton.1 he]
      exact mem_record_lh.2 (.inr rfl)
  · rw [hph'] at hq
    cases hq

theorem DiskInv.endOp (h : s.DiskInv L) (hph : s.phase = .idle) (n : ℕ) (os : List (ℕ × ℕ)) :
    DiskInv L { s with
      outstanding := n
      ops := os
      phase := if n = 0 then if s.lh.length > 0 then .logging p 0 else .finishing p
        else s.phase } := by
  have hhead := h.head
  have hland := h.landed
  have hrep := h.replayed
  simp only [HeadOk, Up, pending, restored, hph, forall_const] at hhead hland hrep
  split_ifs with hn hlh
  · refine ⟨h.lhHome, h.lhNodup, h.lhLen, hhead, fun _ => hland, fun j b hj => ?_, hrep,
      h.recoverable, h.recorded, fun _ hl => absurd rfl (hl p 0), fun q hq => ?_⟩
    · cases hj
    · cases hq
  · have hnil : s.lh = [] := by
      simpa using hlh
    refine ⟨h.lhHome, h.lhNodup, h.lhLen, hhead, fun _ => hland, fun j b hj => ?_, hrep,
      h.recoverable, h.recorded, fun _ _ => ?_, fun _ _ => hnil⟩
    · cases hj
    · refine eq_nil_iff_forall_not_mem.2 fun e he => ?_
      have := h.recorded e he
      simp [hnil] at this
  · exact h.congr rfl rfl rfl rfl rfl rfl

/-- A round of `write_log` puts the contents of a recorded block into the log. -/
theorem DiskInv.writeLog {tail : ℕ} (h : s.DiskInv L) (hc : s.CacheInv L)
    (hclean : ∀ i, s.dirty i = none) (hph : s.phase = .logging p tail)
    (hb : s.lh[tail]? = some b) (hj : s.Has L p j b) :
    DiskInv L { (s.setData i (s.data j)).write (L.block tail) (s.data j) with
      phase := .logging p (tail + 1) } := by
  have hhead := h.head
  have hland := h.landed
  have hrec := h.recoverable
  simp only [HeadOk, Up, pending, hph, forall_const] at hhead hland
  obtain ⟨htail, hbt⟩ := List.getElem?_eq_some_iff.1 hb
  have hlt : tail < LOGBLOCKS := htail.trans_le h.lhLen
  have hstart : update s.disk (L.block tail) (s.data j) L.start = s.disk L.start :=
    update_of_ne (LogConf.block_ne_start hlt).symm _ _
  have hhome : ∀ b', L.Home b' →
      update s.disk (L.block tail) (s.data j) b' = s.disk b' := fun b' hb' =>
    update_of_ne (hb'.ne_block hlt) _ _
  have hdata : s.data j = s.contents b := by
    rw [hc.home j b hj.valid hj.blockno (h.lhHome b (hbt ▸ getElem_mem htail)) (hclean j)]
    simp [expected, hph]
  have hhead' : readHead (update s.disk (L.block tail) (s.data j) L.start) = [] := by
    rw [hstart, hhead]
  have hrep : ∀ b', L.Home b' → replay [] (update s.disk (L.block tail) (s.data j)) b' =
      s.committed b' := by
    intro b' hb'
    have := hrec b' hb'
    rw [logged_nil hhead] at this
    rw [replay_nil, hhome b' hb']
    exact this
  refine ⟨h.lhHome, h.lhNodup, h.lhLen, hhead', fun _ b' hb' hp => ?_, fun k b' hk hkb => ?_,
    fun b' hb' => ?_, fun b' hb' => ?_, h.recorded, fun _ hl => absurd rfl (hl p _), fun q hq => ?_⟩
  · exact (hhome b' hb').trans (hland b' hb' hp)
  · change update s.disk (L.block tail) (s.data j) (L.block k) = s.contents b'
    rcases Nat.lt_succ_iff_lt_or_eq.1 hk with hk | rfl
    · have hne : L.block k ≠ L.block tail := fun he =>
        hk.ne (LogConf.block_inj (hk.trans hlt) hlt he)
      rw [update_of_ne hne]
      exact h.copies k b' (by simpa [copied, hph] using hk) hkb
    · have hbb : b' = b := Option.some.inj (hkb.symm.trans hb)
      rw [update_self, hdata, hbb]
  · change replay ((logged L (update s.disk _ _)).drop 0) _ b' = _
    rw [logged_nil hhead']
    exact hrep b' hb'
  · change replay (logged L (update s.disk _ _)) _ b' = _
    rw [logged_nil hhead']
    exact hrep b' hb'
  · cases hq

/-- **The commit point**: once the header is written, replaying the log gives the contents after
the current transaction. -/
theorem DiskInv.commit (h : s.DiskInv L) (hph : s.phase = .logging p s.lh.length) (d : Block) :
    DiskInv L { (s.setData i (Cinux.writeHead s.lh d)).write L.start (Cinux.writeHead s.lh d) with
      phase := .installing p 0, history := s.history ++ [s.cur], cur := [] } := by
  have hland := h.landed
  simp only [Up, pending, hph, forall_const] at hland
  generalize hd : Cinux.writeHead s.lh d = hd'
  have hread : readHead (update s.disk L.start hd' L.start) = s.lh := by
    rw [update_self, ← hd]
    exact readHead_writeHead d h.lhLen fun b hb => (h.lhHome b hb).1
  have hblock : ∀ k < LOGBLOCKS, update s.disk L.start hd' (L.block k) =
      s.disk (L.block k) := fun k hk => update_of_ne (LogConf.block_ne_start hk) _ _
  have hcopies : ∀ k b, s.lh[k]? = some b →
      update s.disk L.start hd' (L.block k) = s.contents b := by
    intro k b hk
    have hlt := (List.getElem?_eq_some_iff.1 hk).1
    rw [hblock k (hlt.trans_le h.lhLen)]
    exact h.copies k b (by simpa [copied, hph] using hlt) hk
  have hcont : replay (writes ((s.history ++ [s.cur]).flatten ++ [])) s.base = s.contents := by
    simp [contents]
  have hrep : ∀ b, L.Home b → replay (logged L (update s.disk L.start hd'))
      (update s.disk L.start hd') b = s.contents b := by
    intro b hb
    by_cases hm : b ∈ s.lh
    · refine replay_of_forall_eq (fun w hw => ?_) (by rw [logged_keys, hread]; exact hm)
      obtain ⟨k, hk, hwk⟩ := mem_logged hw
      rw [hread] at hk
      rw [hwk, hcopies k _ hk]
    · rw [replay_of_not_mem (by rw [logged_keys, hread]; exact hm), update_of_ne hb.ne_start]
      exact hland b hb hm
  have hcom : replay (writes (s.history ++ [s.cur]).flatten) s.base = s.contents := by
    simp [contents]
  refine ⟨h.lhHome, h.lhNodup, h.lhLen, hread, fun _ b hb hp => ?_, fun k b _ hk => ?_,
    fun b hb => ?_, fun b hb => ?_, fun e he => ?_, fun _ _ => rfl, fun q hq => ?_⟩
  · exact (update_of_ne hb.ne_start _ _).trans
      ((hland b hb hp).trans (congrFun hcont b).symm)
  · exact (hcopies k b hk).trans (congrFun hcont b).symm
  · exact (hrep b hb).trans (congrFun hcom b).symm
  · exact (hrep b hb).trans (congrFun hcom b).symm
  · cases he
  · cases hq

theorem replay_logged_home (hb : L.Home b) (d : Block)
    (hlen : (readHead (disk L.start)).length ≤ LOGBLOCKS) (hm : b ∈ readHead (disk L.start)) :
    replay (logged L (update disk b d)) (update disk b d) = replay (logged L disk) disk := by
  rw [logged_update_home hb d hlen]
  exact replay_update_of_mem (by rw [logged_keys]; exact hm) d

/-- What a round of `install_trans` finds, and what it does to the log. -/
theorem DiskInv.round {tail : ℕ} (h : s.DiskInv L) (hc : s.CacheInv L)
    (hhead : Cinux.readHead (s.disk L.start) = s.lh) (hb : s.lh[tail]? = some b)
    (hi : s.Has L p i (L.block tail)) :
    L.Home b ∧ s.data i = s.disk (L.block tail) ∧
      Cinux.readHead (update s.disk b (s.data i) L.start) = s.lh ∧
      replay (logged L (update s.disk b (s.data i))) (update s.disk b (s.data i)) =
        replay (logged L s.disk) s.disk := by
  obtain ⟨htail, hbt⟩ := List.getElem?_eq_some_iff.1 hb
  have hmem : b ∈ s.lh := hbt ▸ getElem_mem htail
  have hbh := h.lhHome b hmem
  refine ⟨hbh, hc.area i _ hi.valid hi.blockno (.inr ⟨tail, htail.trans_le h.lhLen, rfl⟩), ?_,
    replay_logged_home hbh _ (hhead ▸ h.lhLen) (hhead ▸ hmem)⟩
  rw [update_of_ne hbh.ne_start.symm, hhead]

/-- A round of `install_trans` after a commit. -/
theorem DiskInv.install {tail : ℕ} (h : s.DiskInv L) (hc : s.CacheInv L)
    (hph : s.phase = .installing p tail) (hb : s.lh[tail]? = some b)
    (hi : s.Has L p i (L.block tail)) :
    DiskInv L { s.write b (s.data i) with sh := sh, phase := .installing p (tail + 1) } := by
  have hhead := h.head
  have hland := h.landed
  simp only [HeadOk, Up, pending, hph, forall_const] at hhead hland
  obtain ⟨htail, hbt⟩ := List.getElem?_eq_some_iff.1 hb
  obtain ⟨hbh, hdata, hread, hrep⟩ := h.round hc hhead hb hi
  have hcopy := h.copies tail b (by simpa [copied, hph] using htail) hb
  refine ⟨h.lhHome, h.lhNodup, h.lhLen, hread, fun _ b' hb' hp => ?_, fun k b' hk hkb => ?_,
    fun b' hb' => ?_, fun b' hb' => ?_, h.recorded, fun _ _ => ?_, fun q hq => ?_⟩
  · change update s.disk b (s.data i) b' = s.contents b'
    by_cases hbb : b' = b
    · rw [hbb, update_self, hdata, hcopy]
    · rw [update_of_ne hbb]
      refine hland b' hb' fun hm => hp ?_
      -- the block that leaves the list is `b`
      rw [drop_eq_getElem_cons htail, hbt] at hm
      exact (mem_cons.1 hm).resolve_left hbb
  · change update s.disk b (s.data i) (L.block k) = s.contents b'
    have hk' : k < s.lh.length := hk
    rw [update_of_ne (hbh.ne_block (hk'.trans_le h.lhLen)).symm]
    exact h.copies k b' (by simpa [copied, hph] using hk') hkb
  · exact (congrFun hrep b').trans (h.recoverable b' hb')
  · exact (congrFun hrep b').trans (h.recoverable b' hb')
  · exact h.cur (by simp [hph]) (by simp [hph])
  · cases hq

/-- The header is cleared when every home block is up to date. -/
theorem diskInv_clear (hdone : ∀ b, L.Home b → s.disk b = s.committed b)
    (hcur : s.cur = []) {d : Block} (hd : readHead d = []) {ph : LogPhase}
    (hph : ph = .idle ∨ ∃ p, ph = .finishing p) :
    DiskInv L { (s.setData i d).write L.start d with phase := ph, lh := [] } := by
  have hread : readHead (update s.disk L.start d L.start) = [] := by
    rw [update_self, hd]
  have hhome : ∀ b, L.Home b → update s.disk L.start d b = s.committed b := fun b hb =>
    (update_of_ne hb.ne_start _ _).trans (hdone b hb)
  have hcont : s.contents = s.committed := by simp [contents, committed, hcur]
  have hrec : ∀ b, L.Home b → replay (logged L (update s.disk L.start d))
      (update s.disk L.start d) b = s.committed b := by
    intro b hb
    rw [logged_nil hread, replay_nil]
    exact hhome b hb
  refine ⟨by simp, by simp, by simp, ?_, fun _ b hb _ => ?_, fun k b _ hk => ?_, fun b hb => ?_,
    hrec, fun e he => ?_, fun _ _ => hcur, fun _ _ => rfl⟩
  · rcases hph with rfl | ⟨q, rfl⟩
    · exact hread
    · exact hread
  · exact (hhome b hb).trans (congrFun hcont b).symm
  · simp at hk
  · rcases hph with rfl | ⟨q, rfl⟩
    · exact hrec b hb
    · exact hrec b hb
  · have he' : e ∈ s.cur := he
    rw [hcur] at he'
    cases he'

theorem DiskInv.finish (h : s.DiskInv L) (hph : s.phase = .finishing p) :
    DiskInv L { s with phase := .idle } := by
  have hhead := h.head
  have hland := h.landed
  have hrep := h.replayed
  simp only [HeadOk, Up, pending, restored, hph, forall_const] at hhead hland hrep
  refine ⟨h.lhHome, h.lhNodup, h.lhLen, hhead, fun _ => hland, fun j b hj => ?_, hrep,
    h.recoverable, h.recorded, fun hi => absurd rfl hi, fun q hq => ?_⟩
  · cases hj
  · cases hq

theorem DiskInv.powerFail (h : s.DiskInv L) : s.powerFail.DiskInv L := by
  refine ⟨by simp [LogSys.powerFail], by simp [LogSys.powerFail], by simp [LogSys.powerFail],
    h.head_home, fun hu => hu.elim, fun j b hj => ?_, h.recoverable, h.recoverable,
    by simp [LogSys.powerFail], fun _ _ => rfl, fun _ _ => rfl⟩
  cases hj

theorem DiskInv.readHead (h : s.DiskInv L) (hph : s.phase = .down) {l : List ℕ}
    (hl : Cinux.readHead (s.disk L.start) = l) :
    DiskInv L { s with phase := .recovering p 0, lh := l } := by
  obtain ⟨h1, h2, h3⟩ := h.head_home
  have hcur := h.cur (by simp [hph]) (by simp [hph])
  rw [hl] at h1 h2 h3
  refine ⟨h1, h3, h2, hl, fun hu => hu.elim, fun j b hj => ?_, h.recoverable, h.recoverable,
    fun e he => ?_, fun _ _ => hcur, fun q hq => ?_⟩
  · cases hj
  · have he' : e ∈ s.cur := he
    rw [hcur] at he'
    cases he'
  · cases hq

/-- A round of `install_trans` in a recovery. -/
theorem DiskInv.reinstall {tail : ℕ} (h : s.DiskInv L) (hc : s.CacheInv L)
    (hph : s.phase = .recovering p tail) (hb : s.lh[tail]? = some b)
    (hi : s.Has L p i (L.block tail)) :
    DiskInv L { (s.setData j (s.data i)).write b (s.data i) with
      phase := .recovering p (tail + 1) } := by
  have hhead := h.head
  have hrep := h.replayed
  simp only [HeadOk, restored, hph] at hhead hrep
  obtain ⟨hbh, hdata, hread, hrec⟩ := h.round hc hhead hb hi
  have hlog : logged L (update s.disk b (s.data i)) = logged L s.disk :=
    logged_update_home hbh _ (hhead ▸ h.lhLen)
  have hcons : (logged L s.disk).drop tail =
      (b, s.disk (L.block tail)) :: (logged L s.disk).drop (tail + 1) :=
    logged_drop (hhead ▸ hb)
  refine ⟨h.lhHome, h.lhNodup, h.lhLen, hread, fun hu => hu.elim, fun k b' hk => ?_,
    fun b' hb' => ?_, fun b' hb' => ?_, h.recorded, fun _ _ => ?_, fun q hq => ?_⟩
  · cases hk
  · change replay ((logged L (update s.disk b (s.data i))).drop (tail + 1))
      (update s.disk b (s.data i)) b' = s.committed b'
    have := hrep b' hb'
    rw [hcons, replay_cons] at this
    rw [hlog, hdata]
    exact this
  · exact (congrFun hrec b').trans (h.recoverable b' hb')
  · exact h.cur (by simp [hph]) (by simp [hph])
  · cases hq

/-! ### Operations -/

/-- The entries of one operation. -/
def ofOp (op : ℕ) (es : List Entry) : List Entry := es.filter (·.op = op)

/-- A commit falls between operations: the entries of an operation are all in the current
transaction or all in one transaction of the past. -/
structure OpsInv (s : LogSys) : Prop where
  count : s.outstanding = s.ops.length
  idle : s.ops ≠ [] → s.phase = .idle
  fresh : (∀ x ∈ s.ops, x.2 < s.nextOp) ∧ ∀ e ∈ s.written, e.op < s.nextOp
  active : ∀ x ∈ s.ops, ofOp x.2 s.written = ofOp x.2 s.cur ∧ ∀ T ∈ s.history, ofOp x.2 T = []
  current : ∀ e ∈ s.cur, ofOp e.op s.written = ofOp e.op s.cur ∧
    ∀ T ∈ s.history, ofOp e.op T = []
  past : ∀ T ∈ s.history, ∀ e ∈ T, ofOp e.op s.written = ofOp e.op T
  disjoint : s.history.Pairwise fun T T' => ∀ e ∈ T', ofOp e.op T = []

theorem ofOp_append (op : ℕ) (es es' : List Entry) :
    ofOp op (es ++ es') = ofOp op es ++ ofOp op es' := filter_append ..

theorem mem_ofOp {op : ℕ} {e : Entry} {es : List Entry} : e ∈ ofOp op es ↔ e ∈ es ∧ e.op = op := by
  simp [ofOp]

theorem ofOp_eq_nil {op : ℕ} {es : List Entry} : ofOp op es = [] ↔ ∀ e ∈ es, e.op ≠ op := by
  simp [ofOp, filter_eq_nil_iff]

theorem OpsInv.cur_written (h : s.OpsInv) {e : Entry} (he : e ∈ s.cur) : e ∈ s.written := by
  have : e ∈ ofOp e.op s.written := by
    rw [(h.current e he).1]
    exact mem_ofOp.2 ⟨he, rfl⟩
  exact (mem_ofOp.1 this).1

theorem OpsInv.past_written (h : s.OpsInv) {T : List Entry} (hT : T ∈ s.history) {e : Entry}
    (he : e ∈ T) : e ∈ s.written := by
  have : e ∈ ofOp e.op s.written := by
    rw [h.past T hT e he]
    exact mem_ofOp.2 ⟨he, rfl⟩
  exact (mem_ofOp.1 this).1

theorem OpsInv.beginOp (h : s.OpsInv) (hph : s.phase = .idle) (p : ℕ) :
    OpsInv { s with
      outstanding := s.outstanding + 1
      ops := (p, s.nextOp) :: s.ops
      nextOp := s.nextOp + 1 } := by
  have hnew : ∀ es : List Entry, (∀ e ∈ es, e ∈ s.written) → ofOp s.nextOp es = [] := by
    intro es hes
    exact ofOp_eq_nil.2 fun e he => (h.fresh.2 e (hes e he)).ne
  refine ⟨by simp [h.count], fun _ => hph, ⟨fun x hx => ?_, fun e he => ?_⟩, fun x hx => ?_,
    h.current, h.past, h.disjoint⟩
  · rcases mem_cons.1 hx with rfl | hx
    · exact Nat.lt_succ_self _
    · exact (h.fresh.1 x hx).trans (Nat.lt_succ_self _)
  · exact (h.fresh.2 e he).trans (Nat.lt_succ_self _)
  · rcases mem_cons.1 hx with rfl | hx
    · exact ⟨(hnew _ fun _ he => he).trans (hnew _ fun _ he => h.cur_written he).symm,
        fun T hT => hnew _ fun _ he => h.past_written hT he⟩
    · exact h.active x hx

theorem OpsInv.endOp (h : s.OpsInv) {x : ℕ × ℕ} (hx : x ∈ s.ops) {ph : LogPhase}
    (hph : s.outstanding - 1 ≠ 0 → ph = .idle) :
    OpsInv { s with outstanding := s.outstanding - 1, ops := s.ops.erase x, phase := ph } := by
  refine ⟨?_, fun hne => hph ?_, ⟨fun y hy => h.fresh.1 y (mem_of_mem_erase hy), h.fresh.2⟩,
    fun y hy => h.active y (mem_of_mem_erase hy), h.current, h.past, h.disjoint⟩
  · rw [length_erase_of_mem hx, h.count]
  · rw [h.count, ← length_erase_of_mem hx]
    exact fun he => hne (length_eq_zero_iff.1 he)

theorem OpsInv.record (h : s.OpsInv) (hop : (p, op) ∈ s.ops) :
    (s.record op i sh).OpsInv := by
  obtain ⟨heq, hpast⟩ := h.active _ hop
  set e : Entry := ⟨op, (s.sh.cache.buf i).blockno, s.data i⟩ with he
  have hofOp : ∀ q, ofOp q s.written = ofOp q s.cur →
      ofOp q (s.written ++ [e]) = ofOp q (s.cur ++ [e]) := fun q hq => by
    rw [ofOp_append, ofOp_append, hq]
  have hne : ∀ T ∈ s.history, ∀ e' ∈ T, ofOp e'.op [e] = [] := by
    intro T hT e' he'
    refine ofOp_eq_nil.2 fun x hx hxe => ?_
    obtain rfl := mem_singleton.1 hx
    exact ofOp_eq_nil.1 (hpast T hT) e' he' hxe.symm
  refine ⟨h.count, h.idle, ⟨h.fresh.1, fun x hx => ?_⟩, fun x hx => ?_, fun x hx => ?_,
    fun T hT x hx => ?_, h.disjoint⟩
  · rcases mem_append.1 hx with hx | hx
    · exact h.fresh.2 x hx
    · rw [mem_singleton.1 hx]
      exact h.fresh.1 _ hop
  · obtain ⟨h1, h2⟩ := h.active x hx
    exact ⟨hofOp _ h1, h2⟩
  · rcases mem_append.1 hx with hx | hx
    · obtain ⟨h1, h2⟩ := h.current x hx
      exact ⟨hofOp _ h1, h2⟩
    · rw [mem_singleton.1 hx]
      exact ⟨hofOp _ heq, hpast⟩
  · change ofOp x.op (s.written ++ [e]) = _
    rw [ofOp_append, hne T hT x hx, append_nil]
    exact h.past T hT x hx

theorem OpsInv.commit (h : s.OpsInv) (hops : s.ops = []) {ph : LogPhase} : OpsInv { s with
      disk := disk, sh := sh, phase := ph, history := s.history ++ [s.cur], cur := [] } := by
  refine ⟨h.count, fun hne => absurd hops hne, h.fresh, fun x hx => ?_, fun e he => ?_,
    fun T hT e he => ?_, ?_⟩
  · simp [hops] at hx
  · cases he
  · rcases mem_append.1 hT with hT | hT
    · exact h.past T hT e he
    · obtain rfl := mem_singleton.1 hT
      exact (h.current e he).1
  · refine pairwise_append.2 ⟨h.disjoint, pairwise_singleton _ _, fun T hT T' hT' e he => ?_⟩
    obtain rfl := mem_singleton.1 hT'
    exact (h.current e he).2 T hT

theorem OpsInv.powerFail (h : s.OpsInv) : s.powerFail.OpsInv := by
  refine ⟨rfl, fun hne => absurd rfl hne, ⟨fun x hx => ?_, h.fresh.2⟩, fun x hx => ?_,
    fun e he => ?_, h.past, h.disjoint⟩
  · cases hx
  · cases hx
  · cases he

theorem OpsInv.whole (h : s.OpsInv) (op : ℕ) :
    (∃ pre T post, s.history = pre ++ T :: post ∧ ofOp op s.written = ofOp op T ∧
      ∀ T' ∈ pre ++ post, ofOp op T' = []) ∨ ∀ T ∈ s.history, ofOp op T = [] := by
  by_cases hop : ∀ T ∈ s.history, ofOp op T = []
  · exact .inr hop
  · left
    push Not at hop
    obtain ⟨T, hT, hne⟩ := hop
    obtain ⟨e, he⟩ := exists_mem_of_ne_nil _ hne
    obtain ⟨heT, rfl⟩ := mem_ofOp.1 he
    obtain ⟨pre, post, hhist⟩ := append_of_mem hT
    refine ⟨pre, T, post, hhist, h.past T hT e heT, fun T' hT' => ?_⟩
    have hdis := h.disjoint
    rw [hhist] at hdis
    obtain ⟨-, hpost, hpre⟩ := pairwise_append.1 hdis
    rcases mem_append.1 hT' with hT' | hT'
    · exact hpre T' hT' T mem_cons_self e heT
    · refine ofOp_eq_nil.2 fun e' he' heq => ?_
      have := (pairwise_cons.1 hpost).1 T' hT' e' he'
      exact ofOp_eq_nil.1 this e heT heq.symm

theorem OpsInv.congr (h : s.OpsInv) (hout : s'.outstanding = s.outstanding) (hops : s'.ops = s.ops)
    (hph : s.ops ≠ [] → s'.phase = .idle) (hnext : s'.nextOp = s.nextOp) (hcur : s'.cur = s.cur)
    (hhist : s'.history = s.history) (hw : s'.written = s.written) : s'.OpsInv := by
  cases s'
  subst hout hops hnext hcur hhist hw
  exact ⟨h.1, hph, h.3, h.4, h.5, h.6, h.7⟩

/-! ### The invariant -/

/-- What holds in every state. -/
structure Inv (L : LogConf) (s : LogSys) : Prop where
  cache : s.CacheInv L
  disk : s.DiskInv L
  ops : s.OpsInv

theorem Inv.ops_nil (h : s.Inv L) (hph : s.phase ≠ .idle) : s.ops = [] := by
  by_contra hne
  exact hph (h.ops.idle hne)

theorem Inv.clean (h : s.Inv L) (hph : s.phase ≠ .idle) (x : Fin NBUF) : s.dirty x = none := by
  cases hd : s.dirty x with
  | none => rfl
  | some q =>
    obtain ⟨⟨op, hop⟩, -⟩ := h.cache.dirty x q hd
    rw [h.ops_nil hph] at hop
    cases hop

theorem Inv.restored_all (h : s.Inv L) (hph : s.phase = .recovering p s.lh.length) (b : ℕ)
    (hb : L.Home b) : s.disk b = s.committed b := by
  have hhead := h.disk.head
  have hrep := h.disk.replayed b hb
  simp only [HeadOk, restored, hph] at hhead hrep
  have hlen : (logged L s.disk).length ≤ s.lh.length := by simp [logged, hhead]
  rwa [drop_of_length_le hlen] at hrep

theorem cacheInv_powerFail (L : LogConf) (s : LogSys) : s.powerFail.CacheInv L := by
  refine ⟨Sharing.inv_boot, Sharing.sequential_boot, fun x => Nat.zero_le _, fun x hx => ?_,
    fun b hb => ?_, fun u hu => ?_, fun x hx => ?_, fun x b hx => ?_, fun x b hx => ?_,
    fun x q hx => ?_⟩
  all_goals first | cases hx | cases hb | cases hu

theorem inv_init (h : Init L s) : s.Inv L := by
  obtain ⟨hp, hhead, hbase, hhist, hw, -⟩ := h
  have hcur : s.cur = [] := by rw [hp]; rfl
  have hops : s.ops = [] := by rw [hp]; rfl
  have hrec : ∀ b, L.Home b → replay (logged L s.disk) s.disk b = s.committed b := by
    intro b _
    rw [logged_nil hhead, committed, hhist, hbase]
    rfl
  rw [hp]
  refine ⟨cacheInv_powerFail L s, ?_, ?_⟩
  · refine ⟨by simp [LogSys.powerFail], by simp [LogSys.powerFail], by simp [LogSys.powerFail],
      ?_, fun hu => hu.elim, fun j b hj => ?_, hrec, hrec, by simp [LogSys.powerFail],
      fun _ _ => rfl, fun _ _ => rfl⟩
    · change (∀ b ∈ readHead (s.disk L.start), L.Home b) ∧
        (readHead (s.disk L.start)).length ≤ LOGBLOCKS ∧ (readHead (s.disk L.start)).Nodup
      simp [hhead]
    · cases hj
  · refine ⟨rfl, fun hne => absurd rfl hne, ⟨fun x hx => ?_, fun e he => ?_⟩, fun x hx => ?_,
      fun e he => ?_, fun T hT => ?_, ?_⟩
    · cases hx
    · rw [show s.powerFail.written = [] from hw] at he
      cases he
    · cases hx
    · cases he
    · rw [show s.powerFail.history = [] from hhist] at hT
      cases hT
    · rw [show s.powerFail.history = [] from hhist]
      exact List.Pairwise.nil

/-- Every step keeps the invariant. -/
theorem Inv.step {a : LogAct} (h : s.Inv L) (hst : Step L s a s') : s'.Inv L := by
  cases hst with
  | bio hbio ht ha =>
    exact ⟨h.cache.bio h.disk hbio ht ha, h.disk.congr rfl rfl rfl rfl rfl rfl,
      h.ops.congr rfl rfl h.ops.idle rfl rfl rfl rfl⟩
  | modify hop hh hb =>
    exact ⟨h.cache.modify hop hh hb _, h.disk.congr rfl rfl rfl rfl rfl rfl,
      h.ops.congr rfl rfl h.ops.idle rfl rfl rfl rfl⟩
  | logWrite hop hh hb hlen hout hpin =>
    have hph := h.ops.idle (ne_nil_of_mem hop)
    exact ⟨h.cache.record hph hh hpin, h.disk.record hph (hh.blockno ▸ hb) hlen, h.ops.record hop⟩
  | @beginOp p hph hp hroom =>
    refine ⟨h.cache.frame rfl rfl rfl (fun _ q _ ⟨op, hop⟩ => ⟨op, mem_cons_of_mem _ hop⟩)
      rfl fun _ _ => rfl, h.disk.congr rfl rfl rfl rfl rfl rfl, h.ops.beginOp hph p⟩
  | @endOp p op hop hd =>
    have hph := h.ops.idle (ne_nil_of_mem hop)
    refine ⟨h.cache.frame rfl rfl rfl (fun x q hx ⟨op', hop'⟩ => ⟨op', ?_⟩) ?_ fun b _ => ?_,
      h.disk.endOp hph _ _, h.ops.endOp hop fun hne => by rw [if_neg hne, hph]⟩
    · refine (mem_erase_of_ne fun he => ?_).2 hop'
      cases he
      exact hd x hx
    · simp only [pending, hph]
      split_ifs <;> rfl
    · simp only [expected, hph]
      split_ifs <;> rfl
  | @writeLog p tail b i j hph hb hi hj =>
    have hlt : tail < LOGBLOCKS := (List.getElem?_eq_some_iff.1 hb).1.trans_le h.disk.lhLen
    have hne : s.phase ≠ .idle := by simp [hph]
    refine ⟨h.cache.overwrite hi rfl rfl rfl rfl (by simp [pending, hph, write, setData])
      fun b' hb' => ?_, h.disk.writeLog h.cache (h.clean hne) hph hb hj,
      h.ops.congr rfl rfl (fun he => absurd (h.ops_nil hne) he) rfl rfl rfl rfl⟩
    rw [if_neg (hb'.ne_block hlt)]
    simp only [expected, hph]
    rfl
  | @commit p i hph hi =>
    have hne : s.phase ≠ .idle := by simp [hph]
    refine ⟨h.cache.overwrite hi rfl rfl rfl rfl (by simp [pending, hph, write, setData])
      fun b' hb' => ?_, h.disk.commit hph _, h.ops.commit (h.ops_nil hne)⟩
    rw [if_neg hb'.ne_start]
    simp only [expected, hph]
    simp [contents, write, setData]
  | @install p tail b i j sh hph hb hi hj hpin =>
    have hne : s.phase ≠ .idle := by simp [hph]
    obtain ⟨htail, hbt⟩ := List.getElem?_eq_some_iff.1 hb
    have hlt : tail < LOGBLOCKS := htail.trans_le h.disk.lhLen
    have hdata : s.data i = s.contents b := by
      rw [h.cache.area i _ hi.valid hi.blockno (.inr ⟨tail, hlt, rfl⟩)]
      exact h.disk.copies tail b (by simpa [copied, hph] using htail) hb
    have hexp : s.expected = s.contents := by simp [expected, hph]
    -- first the copy, then the pin
    have hmid : CacheInv L ((s.setData j (s.data i)).write b (s.data i)) := by
      refine h.cache.overwrite hj rfl rfl rfl rfl rfl fun b' _ => ?_
      have : ((s.setData j (s.data i)).write b (s.data i)).expected = s.contents := by
        simp only [expected, write, setData, hph]
        rfl
      rw [this, hexp, hdata]
      split_ifs with hbb
      · rw [hbb]
      · rfl
    refine ⟨hmid.unpin (b := b) ⟨hj.holding, ?_, ?_⟩ hpin rfl rfl rfl rfl
      (fun b' => ?_) ?_, h.disk.install h.cache hph hb hi,
      h.ops.congr rfl rfl (fun he => absurd (h.ops_nil hne) he) rfl rfl rfl rfl⟩
    · exact (setData_valid s j _ j).trans hj.valid
    · exact (setData_tag s j _ j).trans hj.tag
    · have hnd : (b :: s.lh.drop (tail + 1)).Nodup := by
        have := h.disk.lhNodup.sublist (drop_sublist tail s.lh)
        rwa [drop_eq_getElem_cons htail, hbt] at this
      have hleft : ∀ b', b' ∈ s.lh.drop (tail + 1) ↔ b' ∈ s.lh.drop tail ∧ b' ≠ b := by
        intro b'
        rw [drop_eq_getElem_cons htail, hbt, mem_cons]
        refine ⟨fun hm => ⟨.inr hm, fun he => ?_⟩, fun h => h.1.resolve_left h.2⟩
        exact (nodup_cons.1 hnd).1 (he ▸ hm)
      simp only [pending, write, setData, hph]
      exact hleft b'
    · simp only [expected, write, setData, hph]
      rfl
  | @erase p i hph hi =>
    have hne : s.phase ≠ .idle := by simp [hph]
    have hcur := h.disk.cur hne (by simp [hph])
    refine ⟨h.cache.overwrite hi rfl rfl rfl rfl (by simp [pending, hph])
      fun b' hb' => ?_, diskInv_clear (fun b hb => ?_) hcur (readHead_writeHead_nil _)
        (.inr ⟨p, rfl⟩),
      h.ops.congr rfl rfl (fun he => absurd (h.ops_nil hne) he) rfl rfl rfl rfl⟩
    · rw [if_neg hb'.ne_start]
      simp only [expected, hph]
      rfl
    · rw [h.disk.landed (by simp [Up, hph]) b hb (by simp [pending, hph])]
      simp [contents, committed, hcur]
  | @finish p hph =>
    have hne : s.phase ≠ .idle := by simp [hph]
    exact ⟨h.cache.frame rfl rfl rfl (fun _ _ _ hop => hop) (by simp [pending, hph])
      (fun b _ => by simp only [expected, hph]; rfl), h.disk.finish hph,
      h.ops.congr rfl rfl (fun he => absurd (h.ops_nil hne) he) rfl rfl rfl rfl⟩
  | crash => exact ⟨cacheInv_powerFail L s, h.disk.powerFail, h.ops.powerFail⟩
  | @readHead p i hph hi =>
    have hne : s.phase ≠ .idle := by simp [hph]
    have hdata := h.cache.area i _ hi.valid hi.blockno (.inl rfl)
    exact ⟨h.cache.frame rfl rfl rfl (fun _ _ _ hop => hop) (by simp [pending, hph])
      (fun b _ => by simp only [expected, hph]), h.disk.readHead hph (by rw [hdata]),
      h.ops.congr rfl rfl (fun he => absurd (h.ops_nil hne) he) rfl rfl rfl rfl⟩
  | @reinstall p tail b i j hph hb hi hj =>
    have hne : s.phase ≠ .idle := by simp [hph]
    refine ⟨h.cache.overwrite hj rfl rfl rfl rfl (by simp [pending, hph])
      fun b' _ => ?_, h.disk.reinstall h.cache hph hb hi,
      h.ops.congr rfl rfl (fun he => absurd (h.ops_nil hne) he) rfl rfl rfl rfl⟩
    simp only [expected, hph, write, setData, update_apply]
  | @recovered p i hph hi =>
    have hne : s.phase ≠ .idle := by simp [hph]
    have hcur := h.disk.cur hne (by simp [hph])
    have hdone := h.restored_all hph
    refine ⟨h.cache.overwrite hi rfl rfl rfl rfl (by simp [pending, hph])
      fun b' hb' => ?_, diskInv_clear hdone hcur (readHead_writeHead_nil _) (.inl rfl),
      h.ops.congr rfl rfl (fun he => absurd (h.ops_nil hne) he) rfl rfl rfl rfl⟩
    rw [if_neg hb'.ne_start]
    simp only [expected, hph]
    rw [hdone b' hb']
    simp [contents, committed, write, setData, hcur]

/-! ### A run with a crash -/

/-- The state before the first recovery of a zeroed disk. -/
def blank : LogSys where
  disk := fun _ => Block.zero
  sh := Sharing.boot
  lh := []
  outstanding := 0
  phase := .down
  ops := []
  dirty := fun _ => none
  nextOp := 0
  base := fun _ => Block.zero
  cur := []
  history := []
  written := []

theorem readHead_zero : readHead Block.zero = [] := by
  simp [readHead, toInt32]

instance neZero_NBUF : NeZero NBUF := ⟨by decide⟩

/-- `bread` of a block that is not cached, into buffer `i`, -/
def bread (i : Fin NBUF) (b : ℕ) : List Move := [.bget b, .acquiresleep i, .fill i]

/-- and `brelse`. -/
def brelse (i : Fin NBUF) : List Move := [.releasesleep i, .brelse i]

/-- A system is started, an operation writes block 100 and is committed; before the block is copied
home the power fails.  The recovery finds the block in the log and copies it. -/
def crashRun : List Move :=
  .flatten
    [bread 0 2, [.readHead 0], brelse 0, [.bget 2, .acquiresleep 0, .recovered 0], brelse 0,
      [.beginOp], bread 1 100, [.modify 1 100 fun _ => 7, .logWrite 1 100], brelse 1, [.endOp],
      bread 2 3, [.bget 100, .acquiresleep 1, .writeLog 2 1 0 100], brelse 1, brelse 2,
      [.bget 2, .acquiresleep 0, .commit 0, .crash],
      bread 0 2, [.readHead 0], brelse 0, bread 1 3, bread 2 100, [.reinstall 1 2 0 100], brelse 2,
      brelse 1, [.bget 2, .acquiresleep 0]]

/-- **Crash atomicity.**  Whenever a recovery completes, every home block holds its contents after
exactly the transactions whose header write reached the disk, in order; and the writes of an
operation are all in one of these transactions, or in none. -/
theorem crash_atomicity (h : (logging L).Reachable s) :
    (∀ p s', Step L s (.recovered p) s' → ∀ b, L.Home b →
      s'.disk b = replay (writes s'.history.flatten) s'.base b) ∧
    ∀ op, (∃ pre T post, s.history = pre ++ T :: post ∧ ofOp op s.written = ofOp op T ∧
      ∀ T' ∈ pre ++ post, ofOp op T' = []) ∨ ∀ T ∈ s.history, ofOp op T = [] := by
  have hinv : s.Inv L := h.invariant (fun _ => inv_init) fun _ _ _ hi hst =>
    hi.step hst
  refine ⟨fun p s' hst b hb => ?_, hinv.ops.whole⟩
  cases hst with
  | recovered hph hi =>
    exact (update_of_ne hb.ne_start _ _).trans (hinv.restored_all hph b hb)

theorem crash_atomicity_run : ∃ s s', (logging ⟨1, 2, by decide⟩).Reachable s ∧
    Step ⟨1, 2, by decide⟩ s (.recovered 0) s' ∧
    s'.history.map (·.map Entry.blockno) = [[100]] ∧ (s'.disk 100).byte 0 = 7 ∧
    s'.disk 100 = replay (writes s'.history.flatten) s'.base 100 := by
  have h0 : (logging ⟨1, 2, by decide⟩).Reachable blank :=
    .start ⟨rfl, readHead_zero, rfl, rfl, rfl, rfl⟩
  obtain ⟨s, hs, hph, hi, hhist, hbyte⟩ := h0.play (next _) crashRun
    (P := fun s => s.phase = .recovering 0 s.lh.length ∧ s.Has ⟨1, 2, by decide⟩ 0 0 2 ∧
      s.history.map (·.map Entry.blockno) = [[100]] ∧ (s.disk 100).byte 0 = 7) (by decide +kernel)
  have hst := Step.recovered hph hi
  exact ⟨s, _, hs, hst, hhist, hbyte, (crash_atomicity hs).1 0 _ hst 100 (by decide)⟩

end Cinux.LogSys
