import Cinux.Bio.Io

/-!
# Versions of a block

A process may release a buffer that differs from its disk block; `bget` then drops what the buffer
holds as soon as it needs the buffer for another block.  Which contents a later `bread` shows
depends on when that happens, but it is always one of the *versions* of the block: what the disk
has, or what a valid buffer has.

`Io.Keeps G o held s` says that all versions of all blocks satisfy `G`, while the process holds the
buffers `held`.  Reading, writing and releasing blocks keeps this whatever `G` is; only a store
into a buffer has to be checked.
-/

namespace Cinux

open List

namespace Io

open Program (Triple)

/-- The disk or a valid buffer has the contents `d` for block `n`. -/
def Version (s : Io) (n : ℕ) (d : Block) : Prop :=
  d = s.disk n ∨
    ∃ b, (s.cache.buf b).valid = true ∧ (s.cache.buf b).blockno = n ∧ (s.cache.buf b).data = d

/-- The process holds the buffers `held`, each with its block number; all versions of all blocks
satisfy `G`, and the memory around the buffers is `o`. -/
structure Keeps (G : ℕ → Block → Prop) (o : ℕ → ℤ → UInt8) (held : List (Fin NBUF × ℕ))
    (s : Io) : Prop where
  holds : s.Holds (held.map Prod.fst)
  blockno : ∀ x ∈ held, (s.cache.buf x.1).blockno = x.2
  outside : s.outside = o
  versions : ∀ n d, s.Version n d → G n d

variable {G G' : ℕ → Block → Prop} {o : ℕ → ℤ → UInt8} {held : List (Fin NBUF × ℕ)} {s s' : Io}
  {b : Fin NBUF} {n : ℕ}

namespace Keeps

theorem mem_holds (hb : (b, n) ∈ held) : b ∈ held.map Prod.fst := mem_map.2 ⟨_, hb, rfl⟩

theorem valid (h : s.Keeps G o held) (hb : (b, n) ∈ held) : (s.cache.buf b).valid = true :=
  (h.holds.locked b (mem_holds hb)).2.2

theorem data (h : s.Keeps G o held) (hb : (b, n) ∈ held) : G n (s.cache.buf b).data :=
  h.versions n _ (.inr ⟨b, h.valid hb, h.blockno _ hb, rfl⟩)

theorem imp (h : s.Keeps G o held) (hG : ∀ n d, G n d → G' n d) : s.Keeps G' o held :=
  ⟨h.holds, h.blockno, h.outside, fun n d hd => hG n d (h.versions n d hd)⟩

theorem byteAt (h : s.Keeps G o held) (hb : (b, n) ∈ held) {d : Block} (hG : ∀ e, G n e → e = d)
    (i : ℤ) : s.byteAt b i = if 0 ≤ i ∧ i < BSIZE then d.byte i.toNat else o n i := by
  have hbno : (s.cache.buf b).blockno = n := h.blockno _ hb
  unfold Io.byteAt
  rw [hG _ (h.data hb), hbno, h.outside]

theorem bread (h : s.Keeps G o held) (hr : Io.bread n s = .ok (b, s')) :
    s'.Keeps G o ((b, n) :: held) := by
  obtain ⟨hout, hh, hd, ho, hbno, hver, hother⟩ := h.holds.bread_ok hr
  refine ⟨hh, fun x hx => ?_, ho.trans h.outside, fun m d hm => ?_⟩
  · rcases mem_cons.1 hx with rfl | hx
    · exact hbno
    · have hne : x.1 ≠ b := fun e => hout (e ▸ mem_map_of_mem hx)
      rw [hother _ hne]
      exact h.blockno x hx
  · rcases hm with rfl | ⟨x, hv, hx, rfl⟩
    · exact h.versions m _ (.inl (by rw [hd]))
    by_cases hxb : x = b
    · subst hxb
      obtain rfl : n = m := hbno.symm.trans hx
      rcases hver with hdata | ⟨hv', hbno', hdata⟩
      · exact h.versions _ _ (.inl hdata)
      · exact h.versions _ _ (.inr ⟨x, hv', hbno', hdata.symm⟩)
    · rw [hother x hxb] at hv hx ⊢
      exact h.versions m _ (.inr ⟨x, hv, hx, rfl⟩)

theorem map_fst_erase (hnd : (held.map Prod.fst).Nodup) (hb : (b, n) ∈ held) :
    (held.erase (b, n)).map Prod.fst = (held.map Prod.fst).erase b := by
  induction held with
  | nil => cases hb
  | cons y l ih =>
    obtain ⟨hy, hnd⟩ := nodup_cons.1 hnd
    by_cases he : y = (b, n)
    · subst he
      simp
    · have hb' : (b, n) ∈ l := (mem_cons.1 hb).resolve_left fun e => he e.symm
      have hyb : y.1 ≠ b := fun e => hy (e ▸ mem_holds hb')
      rw [erase_cons_tail (by simpa using he), map_cons, map_cons,
        erase_cons_tail (by simpa using hyb), ih hnd hb']

theorem brelse (h : s.Keeps G o held) (hb : (b, n) ∈ held) {u : Unit}
    (hr : Io.brelse b s = .ok (u, s')) :
    s'.Keeps G o (held.erase (b, n)) := by
  obtain ⟨t, ht, hh, hd, ho, hself, hother⟩ := h.holds.brelse_ok (mem_holds hb)
  rw [ht] at hr
  obtain ⟨-, rfl⟩ := Program.ok_inj hr
  have hbufs : ∀ x, (t.cache.buf x).valid = (s.cache.buf x).valid ∧
      (t.cache.buf x).blockno = (s.cache.buf x).blockno ∧
      (t.cache.buf x).data = (s.cache.buf x).data := by
    intro x
    by_cases hxb : x = b
    · subst hxb
      rw [hself]
      exact ⟨rfl, rfl, rfl⟩
    · rw [hother x hxb]
      exact ⟨rfl, rfl, rfl⟩
  refine ⟨?_, fun x hx => ?_, ho.trans h.outside, fun m d hm => h.versions m d ?_⟩
  · rwa [map_fst_erase h.holds.nodup hb]
  · rw [(hbufs _).2.1]
    exact h.blockno x (mem_of_mem_erase hx)
  · rcases hm with rfl | ⟨x, hv, hx, rfl⟩
    · exact .inl (by rw [hd])
    · obtain ⟨e1, e2, e3⟩ := hbufs x
      exact .inr ⟨x, e1 ▸ hv, e2 ▸ hx, e3.symm⟩

theorem brelse_head (h : s.Keeps G o ((b, n) :: held)) {u : Unit}
    (hr : Io.brelse b s = .ok (u, s')) : s'.Keeps G o held := by
  have h' := h.brelse (mem_cons_self (a := (b, n))) hr
  rwa [erase_cons_head] at h'

theorem bread_ne (h : s.Keeps G o held) {x : Fin NBUF × ℕ} (hx : x ∈ held)
    (hr : Io.bread n s = .ok (b, s')) : n ≠ x.2 := by
  rintro rfl
  have h' := h.bread hr
  have hself : (s'.cache.buf b).blockno = x.2 := h'.blockno _ mem_cons_self
  have hother : (s'.cache.buf x.1).blockno = x.2 := h'.blockno x (mem_cons_of_mem _ hx)
  have hsame := h'.holds.blockno_inj (h'.valid mem_cons_self)
    (h'.valid (b := x.1) (mem_cons_of_mem _ hx)) (hself.trans hother.symm)
  exact (h.holds.bread_ok hr).1 (hsame ▸ mem_holds hx)

theorem perm {held' : List (Fin NBUF × ℕ)} (h : s.Keeps G o held) (hp : held.Perm held') :
    s.Keeps G o held' :=
  ⟨h.holds.perm (hp.map _), fun x hx => h.blockno x (hp.mem_iff.2 hx), h.outside, h.versions⟩

theorem with_outside (h : s.Keeps G o held) (o' : ℕ → ℤ → UInt8) :
    Keeps G o' held { s with outside := o' } :=
  ⟨⟨h.holds.wf, h.holds.nodup, h.holds.locked, h.holds.free, h.holds.dev⟩, h.blockno, rfl,
    h.versions⟩

theorem modifyData (h : s.Keeps G o held) (hb : (b, n) ∈ held) {f : Block → Block}
    (hf : G n (f (s.cache.buf b).data)) {u : Unit} (hr : Io.modifyData b f s = .ok (u, s')) :
    s'.Keeps G o held := by
  obtain ⟨-, rfl⟩ := Program.ok_inj hr
  refine ⟨h.holds.modify_data (mem_holds hb) f, fun x hx => ?_, h.outside, fun m d hm => ?_⟩
  · by_cases hxb : x.1 = b
    · rw [hxb]
      simpa [hxb] using h.blockno x hx
    · dsimp only
      rw [Bcache.modify_ne _ hxb]
      exact h.blockno x hx
  · rcases hm with rfl | ⟨x, hv, hx, rfl⟩
    · exact h.versions m _ (.inl rfl)
    dsimp only at hv hx ⊢
    by_cases hxb : x = b
    · subst hxb
      rw [Bcache.modify_self] at hx ⊢
      obtain rfl : n = m := (h.blockno _ hb).symm.trans hx
      exact hf
    · rw [Bcache.modify_ne _ hxb] at hv hx ⊢
      exact h.versions m _ (.inr ⟨x, hv, hx, rfl⟩)

theorem bwrite (h : s.Keeps G o held) (hb : (b, n) ∈ held) {u : Unit}
    (hr : Io.bwrite b s = .ok (u, s')) :
    s'.Keeps (fun m d => G m d ∧ (m = n → d = (s.cache.buf b).data)) o held := by
  have hlock : ¬(s.cache.buf b).lock = none := (h.holds.locked b (mem_holds hb)).1
  unfold Io.bwrite at hr
  rw [if_neg hlock] at hr
  obtain ⟨-, rfl⟩ := Program.ok_inj hr
  have hbno : (s.cache.buf b).blockno = n := h.blockno _ hb
  refine ⟨⟨h.holds.wf, h.holds.nodup, h.holds.locked, h.holds.free, h.holds.dev⟩, h.blockno,
    h.outside, fun m d hm => ?_⟩
  rcases hm with rfl | ⟨x, hv, hx, rfl⟩
  · dsimp only
    rw [hbno]
    by_cases hmn : m = n
    · subst hmn
      rw [Function.update_self]
      exact ⟨h.data hb, fun _ => rfl⟩
    · rw [Function.update_of_ne hmn]
      exact ⟨h.versions m _ (.inl rfl), fun e => absurd e hmn⟩
  · refine ⟨h.versions m _ (.inr ⟨x, hv, hx, rfl⟩), ?_⟩
    rintro rfl
    rw [h.holds.blockno_inj hv (h.valid hb) (hx.trans hbno.symm)]

theorem rewrite (h : s.Keeps G o held) (hb : (b, n) ∈ held) {f : Block → Block} {s1 : Io}
    {u u' : Unit} (hr : Io.modifyData b f s = .ok (u, s1)) (hr' : Io.bwrite b s1 = .ok (u', s')) :
    s'.Keeps (fun m d => (m ≠ n → G m d) ∧ (m = n → d = f (s.cache.buf b).data)) o held := by
  have h0 : s.Keeps (fun m d => m ≠ n → G m d) o held := h.imp fun _ _ hd _ => hd
  have h1 := h0.modifyData hb (fun hne => absurd rfl hne) hr
  have hdata : (s1.cache.buf b).data = f (s.cache.buf b).data := by
    obtain ⟨-, rfl⟩ := Program.ok_inj hr
    simp
  rw [← hdata]
  exact h1.bwrite hb hr'

/-! Buffers can be read, written and released. -/

theorem exists_bread (h : s.Keeps G o held) (hne : ∀ x ∈ held, x.2 ≠ n)
    (hlen : held.length < NBUF) :
    ∃ b s', Io.bread n s = .ok (b, s') ∧ s'.Keeps G o ((b, n) :: held) := by
  have hbno : ∀ b ∈ held.map Prod.fst, (s.cache.buf b).blockno ≠ n := by
    intro b hb
    obtain ⟨x, hx, rfl⟩ := mem_map.1 hb
    rw [h.blockno x hx]
    exact hne x hx
  obtain ⟨b, s', hr⟩ := h.holds.exists_bread hbno (by rwa [length_map])
  exact ⟨b, s', hr, h.bread hr⟩

theorem exists_brelse_head (h : s.Keeps G o ((b, n) :: held)) :
    ∃ s', Io.brelse b s = .ok ((), s') ∧ s'.Keeps G o held := by
  obtain ⟨s', hr, -⟩ := h.holds.brelse_ok (b := b) (by simp)
  exact ⟨s', hr, h.brelse_head hr⟩

theorem exists_bwrite (h : s.Keeps G o held) (hb : (b, n) ∈ held) :
    ∃ s', Io.bwrite b s = .ok ((), s') := by
  have hlock : ¬(s.cache.buf b).lock = none := (h.holds.locked b (mem_holds hb)).1
  unfold Io.bwrite
  rw [if_neg hlock]
  exact ⟨_, rfl⟩

end Keeps

end Io

end Cinux
