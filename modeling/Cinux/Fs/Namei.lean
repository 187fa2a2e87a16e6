import Cinux.Fs.Syscalls

/-!
# Path resolution

`namex` takes a path apart with `skipelem`, which leaves each element in a buffer of `DIRSIZ` bytes:
a shorter element gets a NUL, a longer one is cut off without one.  `ext2fs_dirlookup` reads a
string from that buffer, up to 255 bytes.  The two fit together as long as elements are shorter than
`DIRSIZ`; otherwise what is looked up is the first 14 bytes and whatever lies behind the buffer.

`Reaches` is the walk by whole names, `namexLoop` the one of the code, and `namei_whole_iff` says
when they are the same.
-/

namespace Cinux

open List Option

/-- The buffer after `skipelem` has moved the element `s` there. -/
def storeName (s name : Bytes) : Bytes :=
  if DIRSIZ ≤ s.length then s.take DIRSIZ else s ++ 0 :: name.drop (s.length + 1)

/-- `skipelem`: the rest of the path and the buffer, or a null pointer.  A path is given without its
NUL, a buffer by its `DIRSIZ` bytes. -/
def skipelem (path name : Bytes) : Option (Bytes × Bytes) :=
  let path := path.dropWhile (· = 47)
  if path = [] then none
  else
    let s := path.takeWhile (· ≠ 47)
    let path := path.dropWhile (· ≠ 47)
    some (path.dropWhile (· = 47), storeName s name)

/-! ### The elements of a path -/

theorem elements_nil : elements [] = [] := by
  simp [elements]

theorem elements_slash (path : Bytes) : elements (47 :: path) = elements path := by
  unfold elements
  rw [splitOn, splitOnP_cons_eq_if_modifyHead, if_pos (by simp)]
  simp [splitOn]

theorem elements_dropWhile (path : Bytes) :
    elements (path.dropWhile (· = 47)) = elements path := by
  induction path with
  | nil => rfl
  | cons a path ih =>
    by_cases ha : a = 47
    · subst ha
      rw [dropWhile_cons_of_pos (by simp), ih, elements_slash]
    · rw [dropWhile_cons_of_neg (by simpa using ha)]

theorem elements_append {c rest : Bytes} (hc : c ≠ []) (hslash : ∀ a ∈ c, a ≠ 47)
    (hrest : rest = [] ∨ ∃ l, rest = 47 :: l) : elements (c ++ rest) = c :: elements rest := by
  have hno : ∀ a ∈ c, (a == 47) = false := fun a ha => by simpa using hslash a ha
  obtain rfl | ⟨l, rfl⟩ := hrest
  · rw [append_nil, elements_nil, elements, splitOn, splitOnP_eq_singleton hno]
    simp [hc]
  · rw [elements_slash, elements, splitOn, splitOnP_append_cons_of_forall_mem hno 47 (by simp)]
    simp [elements, splitOn, hc]

theorem dropWhile_nil_or_slash (s : Bytes) :
    s.dropWhile (· ≠ 47) = [] ∨ ∃ l, s.dropWhile (· ≠ 47) = 47 :: l := by
  induction s with
  | nil => exact .inl rfl
  | cons a s ih =>
    by_cases ha : a = 47
    · subst ha
      exact .inr ⟨s, by rw [dropWhile_cons_of_neg (by simp)]⟩
    · rw [dropWhile_cons_of_pos (by simpa using ha)]
      exact ih

theorem skipelem_none {path name : Bytes} (h : skipelem path name = none) :
    elements path = [] := by
  unfold skipelem at h
  dsimp only at h
  split_ifs at h with hs
  rw [← elements_dropWhile, hs, elements_nil]

theorem cstr_storeName {s : Bytes} (h : (0 : UInt8) ∉ s) (name behind : Bytes) :
    cstr (storeName s name ++ behind) = nameBuffer s behind := by
  unfold storeName nameBuffer
  split_ifs with hlong
  · rfl
  · rw [append_assoc]
    exact cstr_append_zero h _

/-- **`skipelem`** takes the first element off the path, and `nameBuffer` is the string that it
leaves in the buffer. -/
theorem skipelem_some {path name rest name' : Bytes} (h0 : (0 : UInt8) ∉ path)
    (h : skipelem path name = some (rest, name')) :
    ∃ c, elements path = c :: elements rest ∧ (0 : UInt8) ∉ c ∧ (0 : UInt8) ∉ rest ∧
      ∀ behind, cstr (name' ++ behind) = nameBuffer c behind := by
  unfold skipelem at h
  dsimp only at h
  split_ifs at h with hs
  cases h
  have hfirst := head_dropWhile_not (p := fun a : UInt8 => decide (a = 47)) hs
  rw [← elements_dropWhile path]
  generalize hp : path.dropWhile (· = 47) = p at hs hfirst ⊢
  have hsub : ∀ a ∈ p, a ∈ path := by
    rw [← hp]
    exact fun a ha => (dropWhile_sublist _).mem ha
  have hsplit : p.takeWhile (· ≠ 47) ++ p.dropWhile (· ≠ 47) = p := takeWhile_append_dropWhile
  have hslash : ∀ a ∈ p.takeWhile (· ≠ 47), a ≠ 47 := by
    intro a ha
    simpa using mem_takeWhile_imp ha
  have hc : p.takeWhile (· ≠ 47) ≠ [] := by
    cases p with
    | nil => exact absurd rfl hs
    | cons a p =>
      have ha : a ≠ 47 := of_decide_eq_false hfirst
      rw [takeWhile_cons_of_pos (by simpa using ha)]
      exact cons_ne_nil _ _
  have hc0 : (0 : UInt8) ∉ p.takeWhile (· ≠ 47) :=
    fun h => h0 (hsub 0 ((takeWhile_sublist _).mem h))
  refine ⟨p.takeWhile (· ≠ 47), ?_, hc0, fun h => ?_, fun behind => cstr_storeName hc0 name behind⟩
  · rw [elements_dropWhile, ← elements_append hc hslash (dropWhile_nil_or_slash p), hsplit]
  · exact h0 (hsub 0 ((dropWhile_sublist _).mem ((dropWhile_sublist _).mem h)))

/-! ### The loop of `namex` -/

/-- What `namex` returns: an inode or a null pointer, if it does not panic. -/
inductive Resolved where
  | inode (ip : ℕ)
  | null
  | panic (msg : String)
  deriving DecidableEq

/-- A run of `namex`: the offsets of the directory entries that it went through, and the result. -/
structure Walk where
  entries : List ℕ
  result : Resolved
  deriving DecidableEq

/-- The walk that goes through the entry at `off` first. -/
def Walk.cons (off : ℕ) (w : Walk) : Walk := { w with entries := off :: w.entries }

/-- The string `b` finds what the name `c` should find: the entry `c`, or nothing, and in either
case the search does not read beyond the end of the directory. -/
def File.Whole (f : File) (c b : Bytes) : Prop :=
  (∀ o, f.Live o → (f.entry o).text = c →
    b.take EXT2_NAME_LEN = c ∧ o + DirEntry.sizeof ≤ f.size) ∧
  ((∀ o, f.Live o → (f.entry o).text ≠ c) →
    ∀ o, f.Record o → ¬ f.Hit b o ∧ o + DirEntry.sizeof ≤ f.size)

namespace FileTree

variable (t : FileTree) (behind : Bytes)

/-- The loop of `namex`, for at most `fuel` rounds: `name` is the buffer, `behind` what lies behind
it, and `ip` the inode reached.  The references that it takes and drops are left out. -/
def namexLoop (parent : Bool) : ℕ → Bytes → Bytes → ℕ → Option Walk
  | 0, _, _, _ => none
  | fuel + 1, path, name, ip =>
    match skipelem path name with
    | none => some ⟨[], if parent then .null else .inode ip⟩
    | some (path, name) =>
      if (t ip).type ≠ .dir then some ⟨[], .null⟩
      else if parent ∧ path = [] then some ⟨[], .inode ip⟩
      else
        match (t ip).file.ext2fsDirlookup (cstr (name ++ behind)) fuel with
        | none => none
        | some (.panic msg) => some ⟨[], .panic msg⟩
        | some .absent => some ⟨[], .null⟩
        | some (.found next off) => (namexLoop parent fuel path name next).map (.cons off)

/-- The loop, as `namei` runs it, ends with `w`. -/
def Namex (path name : Bytes) (ip : ℕ) (w : Walk) : Prop :=
  ∃ fuel, t.namexLoop behind false fuel path name ip = some w

/-- The inode that a path starts from: the root or the current directory `cwd`. -/
def start (cwd : ℕ) (path : Bytes) : ℕ := if Vfs.absolute path then ROOTINO else cwd

/-- `namei(path)` ends with `w`. -/
def Namei (cwd : ℕ) (path name : Bytes) (w : Walk) : Prop :=
  t.Namex behind path name (start cwd path) w

/-- The walk by whole names: the next inode is the one of the entry whose name is the element. -/
inductive Reaches : List Bytes → ℕ → Walk → Prop
  | done {ip : ℕ} : Reaches [] ip ⟨[], .inode ip⟩
  | notDir {c : Bytes} {cs : List Bytes} {ip : ℕ} : (t ip).type ≠ .dir →
      Reaches (c :: cs) ip ⟨[], .null⟩
  | missing {c : Bytes} {cs : List Bytes} {ip : ℕ} : (t ip).type = .dir →
      (∀ o, (t ip).file.Live o → ((t ip).file.entry o).text ≠ c) → Reaches (c :: cs) ip ⟨[], .null⟩
  | step {c : Bytes} {cs : List Bytes} {ip o : ℕ} {w : Walk} : (t ip).type = .dir →
      (t ip).file.Live o → ((t ip).file.entry o).text = c →
      Reaches cs ((t ip).file.entry o).inode w → Reaches (c :: cs) ip (w.cons o)

/-- In every directory that the names `cs` lead to from `ip`, the string in the buffer finds what
the name should find. -/
def AllWhole : List Bytes → ℕ → Prop
  | [], _ => True
  | c :: cs, ip => (t ip).type = .dir →
      (t ip).file.Whole c (nameBuffer c behind) ∧
        ∀ o, (t ip).file.Live o → ((t ip).file.entry o).text = c →
          AllWhole cs ((t ip).file.entry o).inode

/-- The directories of the tree are well-formed. -/
def WellFormed : Prop := ∀ ip, (t ip).type = .dir → (t ip).file.WellFormed

variable {t behind} {parent : Bool} {path name : Bytes} {ip : ℕ} {w : Walk}

theorem namexLoop_succ {fuel : ℕ} (h : t.namexLoop behind parent fuel path name ip = some w) :
    t.namexLoop behind parent (fuel + 1) path name ip = some w := by
  induction fuel generalizing path name ip w with
  | zero => cases h
  | succ fuel ih =>
    rw [namexLoop] at h ⊢
    cases hs : skipelem path name with
    | none =>
      rw [hs] at h
      exact h
    | some q =>
      simp only [hs] at h ⊢
      split_ifs at h ⊢ with hdir hpar
      · exact h
      · exact h
      · cases hl : (t ip).file.ext2fsDirlookup (cstr (q.2 ++ behind)) fuel with
        | none =>
          rw [hl] at h
          cases h
        | some r =>
          have hl' : (t ip).file.ext2fsDirlookup (cstr (q.2 ++ behind)) (fuel + 1) = some r :=
            File.lookupLoop_succ hl
          rw [hl] at h
          rw [hl']
          cases r with
          | panic msg => exact h
          | absent => exact h
          | found next off =>
            obtain ⟨w', hw', rfl⟩ := map_eq_some_iff.1 h
            exact map_eq_some_iff.2 ⟨w', ih hw', rfl⟩

theorem namexLoop_mono {fuel : ℕ} (k : ℕ)
    (h : t.namexLoop behind parent fuel path name ip = some w) :
    t.namexLoop behind parent (fuel + k) path name ip = some w := by
  induction k with
  | zero => exact h
  | succ k ih => exact namexLoop_succ ih

/-! A round of the loop ends the walk, or goes on as the lookup says. -/

theorem namex_done (hs : skipelem path name = none) :
    t.Namex behind path name ip w ↔ w = ⟨[], .inode ip⟩ := by
  constructor
  · rintro ⟨_ | fuel, h⟩
    · cases h
    · simp only [namexLoop, hs] at h
      exact (some.inj h).symm
  · rintro rfl
    exact ⟨1, by simp [namexLoop, hs]⟩

theorem namex_notDir {q : Bytes × Bytes} (hs : skipelem path name = some q)
    (hdir : (t ip).type ≠ .dir) : t.Namex behind path name ip w ↔ w = ⟨[], .null⟩ := by
  constructor
  · rintro ⟨_ | fuel, h⟩
    · cases h
    · simp only [namexLoop, hs, if_pos hdir] at h
      exact (some.inj h).symm
  · rintro rfl
    exact ⟨1, by simp [namexLoop, hs, hdir]⟩

theorem namex_dir {rest name' : Bytes} (hs : skipelem path name = some (rest, name'))
    (hdir : (t ip).type = .dir) :
    t.Namex behind path name ip w ↔ ∃ r, (t ip).file.Looks (cstr (name' ++ behind)) r ∧ match r with
      | .panic msg => w = ⟨[], .panic msg⟩
      | .absent => w = ⟨[], .null⟩
      | .found next off => ∃ v, t.Namex behind rest name' next v ∧ w = v.cons off := by
  have hround : ∀ fuel, t.namexLoop behind false (fuel + 1) path name ip =
      match (t ip).file.ext2fsDirlookup (cstr (name' ++ behind)) fuel with
      | none => none
      | some (.panic msg) => some ⟨[], .panic msg⟩
      | some .absent => some ⟨[], .null⟩
      | some (.found next off) => (t.namexLoop behind false fuel rest name' next).map
          (.cons off) := by
    intro fuel
    simp [namexLoop, hs, hdir]
  constructor
  · rintro ⟨_ | fuel, h⟩
    · cases h
    rw [hround] at h
    cases hl : (t ip).file.ext2fsDirlookup (cstr (name' ++ behind)) fuel with
    | none =>
      rw [hl] at h
      cases h
    | some r =>
      rw [hl] at h
      refine ⟨r, ⟨fuel, hl⟩, ?_⟩
      cases r with
      | panic msg => exact (some.inj h).symm
      | absent => exact (some.inj h).symm
      | found next off =>
        obtain ⟨v, hv, rfl⟩ := map_eq_some_iff.1 h
        exact ⟨v, ⟨fuel, hv⟩, rfl⟩
  · rintro ⟨r, ⟨n, hn⟩, hr⟩
    cases r with
    | panic msg =>
      refine ⟨n + 1, ?_⟩
      rw [hround, hn, hr]
    | absent =>
      refine ⟨n + 1, ?_⟩
      rw [hround, hn, hr]
    | found next off =>
      -- enough rounds for the lookup and for the rest of the path
      obtain ⟨v, ⟨k, hk⟩, rfl⟩ := hr
      refine ⟨n + k + 1, ?_⟩
      rw [hround, show (t ip).file.ext2fsDirlookup (cstr (name' ++ behind)) (n + k) = _ from
        File.lookupLoop_mono k hn]
      have hk' := namexLoop_mono n hk
      rw [Nat.add_comm] at hk'
      exact map_eq_some_iff.2 ⟨v, hk', rfl⟩

/-- From `ip` on, the walk of the code is the walk by whole names. -/
def Honours (t : FileTree) (behind path name : Bytes) (ip : ℕ) : Prop :=
  ∃ w, t.Reaches (elements path) ip w ∧ t.Namex behind path name ip w

theorem Walk.cons_inj {o o' : ℕ} {v v' : Walk} (h : Walk.cons o v = Walk.cons o' v') :
    o = o' ∧ v = v' := by
  obtain ⟨hl, hr⟩ := Walk.mk.inj h
  obtain ⟨ho, hl⟩ := List.cons.inj hl
  refine ⟨ho, ?_⟩
  cases v
  cases v'
  simp_all

/-- The first name is an entry of the directory. -/
theorem honours_entry {c rest name' : Bytes} {o : ℕ} (hwf : (t ip).file.WellFormed)
    (hs : skipelem path name = some (rest, name')) (hdir : (t ip).type = .dir)
    (hel : elements path = c :: elements rest) (hc : (0 : UInt8) ∉ c)
    (hb : cstr (name' ++ behind) = nameBuffer c behind) (ho : (t ip).file.Live o)
    (htext : ((t ip).file.entry o).text = c) :
    t.Honours behind path name ip ↔
      ((nameBuffer c behind).take EXT2_NAME_LEN = c ∧ o + DirEntry.sizeof ≤ (t ip).file.size) ∧
        t.Honours behind rest name' ((t ip).file.entry o).inode := by
  have hn := nameBuffer_noNul hc behind
  unfold Honours
  rw [hel]
  constructor
  · rintro ⟨w, hreach, hname⟩
    obtain ⟨r, hl, hr⟩ := (namex_dir hs hdir).1 hname
    rw [hb] at hl
    cases hreach with
    | notDir hnot => exact absurd hdir hnot
    | missing _ hno => exact absurd htext (hno o ho)
    | @step _ _ _ o' v _ ho' htext' hv =>
      obtain rfl := hwf.unique o o' ho ho' (htext.trans htext'.symm)
      cases r with
      | panic msg => cases hr
      | absent => cases hr
      | found next off =>
        obtain ⟨v', hv', he⟩ := hr
        obtain ⟨rfl, rfl⟩ := Walk.cons_inj he
        obtain ⟨hit, hroom, rfl⟩ := (hwf.looks_found_iff hn).1 hl
        exact ⟨⟨hit.2.symm.trans htext, hroom⟩, v, hv, hv'⟩
  · rintro ⟨⟨htake, hroom⟩, v, hv, hname⟩
    refine ⟨v.cons o, .step hdir ho htext hv, (namex_dir hs hdir).2 ⟨.found _ o, ?_, v, hname, rfl⟩⟩
    rw [hb, hwf.looks_found_iff hn]
    exact ⟨⟨ho, htext.trans htake.symm⟩, hroom, rfl⟩

/-- The first name is not in the directory. -/
theorem honours_missing {c rest name' : Bytes} (hwf : (t ip).file.WellFormed)
    (hs : skipelem path name = some (rest, name')) (hdir : (t ip).type = .dir)
    (hel : elements path = c :: elements rest) (hc : (0 : UInt8) ∉ c)
    (hb : cstr (name' ++ behind) = nameBuffer c behind)
    (hno : ∀ o, (t ip).file.Live o → ((t ip).file.entry o).text ≠ c) :
    t.Honours behind path name ip ↔ ∀ o, (t ip).file.Record o →
      ¬ (t ip).file.Hit (nameBuffer c behind) o ∧ o + DirEntry.sizeof ≤ (t ip).file.size := by
  have hn := nameBuffer_noNul hc behind
  rw [← hwf.looks_absent_iff hn]
  unfold Honours
  rw [hel]
  constructor
  · rintro ⟨w, hreach, hname⟩
    obtain ⟨r, hl, hr⟩ := (namex_dir hs hdir).1 hname
    rw [hb] at hl
    cases hreach with
    | notDir hnot => exact absurd hdir hnot
    | step _ ho htext _ => exact absurd htext (hno _ ho)
    | missing _ _ =>
      cases r with
      | panic msg => cases hr
      | absent => exact hl
      | found next off =>
        obtain ⟨v, -, he⟩ := hr
        cases he
  · intro hl
    refine ⟨⟨[], .null⟩, .missing hdir hno, (namex_dir hs hdir).2 ⟨.absent, ?_, rfl⟩⟩
    rw [hb]
    exact hl

theorem honours_iff_allWhole (hwf : t.WellFormed) {cs : List Bytes}
    (h0 : (0 : UInt8) ∉ path) (hcs : elements path = cs) :
    t.Honours behind path name ip ↔ t.AllWhole behind cs ip := by
  induction cs generalizing path name ip with
  | nil =>
    cases hs : skipelem path name with
    | none =>
      refine iff_of_true ⟨⟨[], .inode ip⟩, ?_, (namex_done hs).2 rfl⟩ trivial
      rw [hcs]
      exact .done
    | some q =>
      obtain ⟨c, hel, -⟩ := skipelem_some h0 hs
      cases hel.symm.trans hcs
  | cons c cs ih =>
    cases hs : skipelem path name with
    | none => cases (skipelem_none hs).symm.trans hcs
    | some q =>
      obtain ⟨c', hel, hc, hrest, hb⟩ := skipelem_some h0 hs
      obtain ⟨rfl, hcs'⟩ := List.cons.inj (hel.symm.trans hcs)
      by_cases hdir : (t ip).type = .dir
      · have hw := hwf ip hdir
        have hall : t.AllWhole behind (c' :: cs) ip ↔ (t ip).file.Whole c' (nameBuffer c' behind) ∧
            ∀ o, (t ip).file.Live o → ((t ip).file.entry o).text = c' →
              t.AllWhole behind cs ((t ip).file.entry o).inode := forall_prop_of_true hdir
        rw [hall]
        by_cases hex : ∃ o, (t ip).file.Live o ∧ ((t ip).file.entry o).text = c'
        · obtain ⟨o, ho, htext⟩ := hex
          rw [honours_entry hw hs hdir hel hc (hb behind) ho htext, ih hrest hcs']
          have huniq : ∀ o', (t ip).file.Live o' → ((t ip).file.entry o').text = c' → o' = o :=
            fun o' ho' h => hw.unique o' o ho' ho (h.trans htext.symm)
          constructor
          · rintro ⟨hfirst, hgo⟩
            refine ⟨⟨fun o' ho' h => ?_, fun hno => absurd htext (hno o ho)⟩, fun o' ho' h => ?_⟩
            · rw [huniq o' ho' h]
              exact hfirst
            · rw [huniq o' ho' h]
              exact hgo
          · rintro ⟨hwhole, hgo⟩
            exact ⟨hwhole.1 o ho htext, hgo o ho htext⟩
        · have hno : ∀ o, (t ip).file.Live o → ((t ip).file.entry o).text ≠ c' :=
            fun o ho h => hex ⟨o, ho, h⟩
          rw [honours_missing hw hs hdir hel hc (hb behind) hno]
          constructor
          · intro h
            exact ⟨⟨fun o ho htext => absurd htext (hno o ho), fun _ => h⟩,
              fun o ho htext => absurd htext (hno o ho)⟩
          · exact fun h => h.1.2 hno
      · refine iff_of_true ⟨⟨[], .null⟩, ?_, (namex_notDir hs hdir).2 rfl⟩ fun h => absurd h hdir
        rw [hcs]
        exact .notDir hdir

/-- **When whole names are honoured.**  `namei` goes through exactly the entries with the names of
the path, and fails exactly when one is missing or is not in a directory, if and only if in every
directory that the names lead to the string in the buffer finds what the name should find. -/
theorem namei_whole_iff (t : FileTree) (hwf : t.WellFormed) (cwd : ℕ) (path : Bytes)
    (h0 : (0 : UInt8) ∉ path) (behind name : Bytes) :
    (∃ w, t.Reaches (elements path) (start cwd path) w ∧ t.Namei behind cwd path name w) ↔
      t.AllWhole behind (elements path) (start cwd path) :=
  honours_iff_allWhole hwf h0 rfl

/-- A directory with the entries `.`, `..` and an entry of fourteen bytes `a`. -/
def dirFourteen : File where
  size := 1024
  block _ := fun j =>
    [2, 0, 0, 0, 12, 0, 1, 2, 46, 0, 0, 0, 2, 0, 0, 0, 12, 0, 2, 2, 46, 46, 0, 0,
      12, 0, 0, 0, 232, 3, 14, 1, 97, 97, 97, 97, 97, 97, 97, 97, 97, 97, 97, 97, 97, 97].getD
        j.val 0

theorem entries_dirFourteen : dirFourteen.RecordsAt [0, 12, 24] ∧
    ((dirFourteen.entry 0).text = [46] ∧ (dirFourteen.entry 12).text = [46, 46] ∧
      (dirFourteen.entry 24).text = List.replicate 14 97) ∧ (dirFourteen.entry 24).inode ≠ 0 := by
  decide +kernel

theorem text_dirFourteen : (dirFourteen.entry 0).text = [46] ∧
    (dirFourteen.entry 12).text = [46, 46] ∧ (dirFourteen.entry 24).text = List.replicate 14 97 :=
  entries_dirFourteen.2.1

theorem record_dirFourteen {r : ℕ} (h : dirFourteen.Record r) : r = 0 ∨ r = 12 ∨ r = 24 := by
  simpa using entries_dirFourteen.1.record.1 h

theorem live_dirFourteen : dirFourteen.Live 24 :=
  ⟨entries_dirFourteen.1.record.2 (by decide), entries_dirFourteen.2.2⟩

theorem wellFormed_dirFourteen : dirFourteen.WellFormed := entries_dirFourteen.1.wellFormed

/-- Inode 12 is a file and inode 1 the directory with its name. -/
def treeFourteen : FileTree := fun i =>
  if i = 1 then ⟨.dir, 2, 1, dirFourteen⟩ else ⟨.file, 1, 0, ⟨0, fun _ => Block.zero⟩⟩

theorem wellFormed_treeFourteen : treeFourteen.WellFormed := by
  intro ip hdir
  unfold treeFourteen at hdir ⊢
  split_ifs at hdir ⊢
  exact wellFormed_dirFourteen

/-- With a NUL behind the buffer the fourteen bytes lead to the file. -/
theorem namei_whole_fourteen : treeFourteen.WellFormed ∧ (0 : UInt8) ∉ List.replicate 14 97 ∧
    ∃ w, treeFourteen.Reaches (elements (List.replicate 14 97)) (start 1 (List.replicate 14 97)) w ∧
      treeFourteen.Namei [0] 1 (List.replicate 14 97) [] w := by
  refine ⟨wellFormed_treeFourteen, by decide,
    (namei_whole_iff treeFourteen wellFormed_treeFourteen 1
    (List.replicate 14 97) (by decide) [0] []).2 ?_⟩
  refine fun _ => ⟨⟨fun o ho htext => ?_, fun hno => ?_⟩, fun _ _ _ => trivial⟩
  · rcases record_dirFourteen ho.1 with rfl | rfl | rfl
    · cases text_dirFourteen.1.symm.trans htext
    · cases text_dirFourteen.2.1.symm.trans htext
    · exact ⟨by decide, by decide⟩
  · exact absurd text_dirFourteen.2.2 (hno 24 live_dirFourteen)

/-- **A name of fifteen bytes is taken for its first fourteen.**  No entry has that name, but with a
NUL behind the buffer `namei` returns the file with the shorter one; with a `b` there it fails. -/
theorem namei_confuses :
    treeFourteen.WellFormed ∧ (List.replicate 15 (97 : UInt8)).length < MAXPATH ∧
    treeFourteen.Reaches (elements (List.replicate 15 97)) (start 1 (List.replicate 15 97))
      ⟨[], .null⟩ ∧
    treeFourteen.Namei [0] 1 (List.replicate 15 97) [] ⟨[24], .inode 12⟩ ∧
    treeFourteen.Namei [98, 0] 1 (List.replicate 15 97) [] ⟨[], .null⟩ ∧
    ¬∃ w, treeFourteen.Reaches (elements (List.replicate 15 97))
        (start 1 (List.replicate 15 97)) w ∧
      treeFourteen.Namei [0] 1 (List.replicate 15 97) [] w := by
  have hel : elements (List.replicate 15 97) = [List.replicate 15 97] := by decide
  have hno : ∀ o, dirFourteen.Live o → (dirFourteen.entry o).text ≠ List.replicate 15 97 := by
    intro o ho htext
    rcases record_dirFourteen ho.1 with rfl | rfl | rfl
    · cases text_dirFourteen.1.symm.trans htext
    · cases text_dirFourteen.2.1.symm.trans htext
    · cases text_dirFourteen.2.2.symm.trans htext
  refine ⟨wellFormed_treeFourteen, by decide, ?_,
    ⟨8, by decide +kernel⟩, ⟨8, by decide +kernel⟩, ?_⟩
  · exact .missing rfl hno
  · intro h
    have hall := (honours_iff_allWhole wellFormed_treeFourteen (by decide) hel).1 h
    exact ((hall rfl).1.2 hno 24 live_dirFourteen.1).1
      ⟨live_dirFourteen, text_dirFourteen.2.2.trans (by decide)⟩

end FileTree

end Cinux
