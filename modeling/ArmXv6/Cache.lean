import ArmXv6.Bio
import Mathlib.Data.Finset.Card
import Mathlib.Data.List.Perm.Subperm

namespace ArmXv6.Cache

open Lib.Exec Lib.Ring Param Bio

def At (io : Io) (b s : Nat) : Prop :=
  b < NBUF ∧ (io.buf b).dev = ROOTDEV ∧ (io.buf b).sector = s

/-- The cache invariant. Every cached sector has its contents in view; dirty and
held say which buffers are pinned, and only dirty or modified sectors differ
from the disk. -/
structure CacheInv (io : Io) (view : Nat → Block) (dirty held modified : Finset Nat) : Prop where
  ring : ∃ l, Linked io.links head l head ∧ l.Perm (List.range NBUF)
  unique : ∀ a b s, At io a s → At io b s → a = b
  cached : ∀ b s, At io b s → (io.buf b).valid = true ∧ (io.buf b).data = view s
  dirty_iff : ∀ b, b < NBUF →
    ((io.buf b).dirty = true ↔ (io.buf b).dev = ROOTDEV ∧ (io.buf b).sector ∈ dirty)
  busy_iff : ∀ b, b < NBUF →
    ((io.buf b).busy = true ↔ (io.buf b).dev = ROOTDEV ∧ (io.buf b).sector ∈ held)
  pinned : ∀ s ∈ dirty ∪ held, ∃ b, At io b s
  disk : ∀ s, s ∉ dirty → s ∉ modified → view s = io.memdisk s
  modified_held : modified ⊆ held

variable {io : Io} {view : Nat → Block} {dirty held modified : Finset Nat} {b s : Nat}

/-- The parts of the state that reading and releasing buffers do not touch. -/
def SameDisk (io io' : Io) : Prop :=
  io'.memdisk = io.memdisk ∧ io'.disksize = io.disksize ∧ io'.log = io.log

theorem scan_hit (h : CacheInv io view dirty held modified) (hb : At io b s) :
    scan io.links.next head (fun x => (io.buf x).dev = ROOTDEV ∧ (io.buf x).sector = s)
      (NBUF + 1) (io.links.next head) = some b := by
  obtain ⟨l, hl, hperm⟩ := h.ring
  have hmem (x : Nat) : x ∈ l ↔ x < NBUF := by rw [hperm.mem_iff, List.mem_range]
  have hhead : head ∉ l := by rw [hmem]; exact Nat.lt_irrefl NBUF
  have hlen : l.length = NBUF := by rw [hperm.length_eq, List.length_range]
  rw [hl.scan_next hhead _ _ (by omega)]
  rw [List.find?_eq_some_iff_append]
  refine ⟨by simpa using hb.2, ?_⟩
  obtain ⟨as, bs, rfl⟩ := List.append_of_mem ((hmem b).mpr hb.1)
  refine ⟨as, bs, rfl, ?_⟩
  intro a ha
  have hnd : (as ++ b :: bs).Nodup := hperm.nodup_iff.mpr List.nodup_range
  have hne : a ≠ b := by
    rintro rfl
    exact (List.nodup_append.mp hnd).2.2 a ha a List.mem_cons_self rfl
  have hlt : a < NBUF := (hmem a).mp (by simp [ha])
  simp only [Bool.not_eq_true', decide_eq_false_iff_not]
  exact fun hc => hne (h.unique a b s ⟨hlt, hc⟩ hb)

theorem scan_miss (h : CacheInv io view dirty held modified) (hs : ∀ b, ¬At io b s) :
    scan io.links.next head (fun x => (io.buf x).dev = ROOTDEV ∧ (io.buf x).sector = s)
      (NBUF + 1) (io.links.next head) = none := by
  obtain ⟨l, hl, hperm⟩ := h.ring
  have hmem (x : Nat) : x ∈ l ↔ x < NBUF := by rw [hperm.mem_iff, List.mem_range]
  have hhead : head ∉ l := by rw [hmem]; exact Nat.lt_irrefl NBUF
  have hlen : l.length = NBUF := by rw [hperm.length_eq, List.length_range]
  rw [hl.scan_next hhead _ _ (by omega), List.find?_eq_none]
  intro x hx hc
  exact hs x ⟨(hmem x).mp hx, by simpa using hc⟩

theorem exists_clean (h : CacheInv io view dirty held modified)
    (hcap : (dirty ∪ held).card < NBUF) :
    ∃ b, b < NBUF ∧ (io.buf b).busy = false ∧ (io.buf b).dirty = false := by
  by_contra hno
  push Not at hno
  have hpin (b : Nat) (hb : b < NBUF) : At io b (io.buf b).sector ∧ (io.buf b).sector ∈ dirty ∪ held := by
    by_cases hbusy : (io.buf b).busy = false
    · have hd := (h.dirty_iff b hb).mp (by simpa using hno b hb hbusy)
      exact ⟨⟨hb, hd.1, rfl⟩, Finset.mem_union_left _ hd.2⟩
    · have hh := (h.busy_iff b hb).mp (by simpa using hbusy)
      exact ⟨⟨hb, hh.1, rfl⟩, Finset.mem_union_right _ hh.2⟩
  have hcard : (Finset.range NBUF).card ≤ (dirty ∪ held).card := by
    apply Finset.card_le_card_of_injOn fun b => (io.buf b).sector
    · intro b hb
      exact (hpin b (by simpa using hb)).2
    · intro a ha b hb he
      have ha' := (hpin a (by simpa using ha)).1
      have hb' := (hpin b (by simpa using hb)).1
      exact h.unique a b _ ha' (by simpa [he] using hb')
  rw [Finset.card_range] at hcard
  omega

theorem scan_clean (h : CacheInv io view dirty held modified)
    (hcap : (dirty ∪ held).card < NBUF) :
    ∃ b, b < NBUF ∧ (io.buf b).busy = false ∧ (io.buf b).dirty = false ∧
      scan io.links.prev head (fun x => ¬(io.buf x).busy ∧ ¬(io.buf x).dirty)
        (NBUF + 1) (io.links.prev head) = some b := by
  obtain ⟨l, hl, hperm⟩ := h.ring
  have hmem (x : Nat) : x ∈ l ↔ x < NBUF := by rw [hperm.mem_iff, List.mem_range]
  have hhead : head ∉ l := by rw [hmem]; exact Nat.lt_irrefl NBUF
  have hlen : l.length = NBUF := by rw [hperm.length_eq, List.length_range]
  obtain ⟨c, hc, hbusy, hdirty⟩ := exists_clean h hcap
  rw [hl.scan_prev hhead _ _ (by omega)]
  have hsome : (l.reverse.find? fun x => decide (¬(io.buf x).busy ∧ ¬(io.buf x).dirty)).isSome := by
    rw [List.find?_isSome]
    exact ⟨c, by simpa [hmem] using hc, by simp [hbusy, hdirty]⟩
  obtain ⟨b, hb⟩ := Option.isSome_iff_exists.mp hsome
  have hp := List.find?_some hb
  have hin := List.mem_of_find?_eq_some hb
  simp only [Bool.not_eq_true, decide_eq_true_eq] at hp
  exact ⟨b, (hmem b).mp (List.mem_reverse.mp hin), hp.1, hp.2, hb⟩

def withBuf (io : Io) (b : Nat) (x : Buf) : Io := { io with buf := Function.update io.buf b x }

@[simp] theorem buf_withBuf (io : Io) (b c : Nat) (x : Buf) :
    (withBuf io b x).buf c = if c = b then x else io.buf c := by
  simp [withBuf, Function.update_apply]

@[simp] theorem memdisk_withBuf (io : Io) (b : Nat) (x : Buf) : (withBuf io b x).memdisk = io.memdisk := rfl

@[simp] theorem disksize_withBuf (io : Io) (b : Nat) (x : Buf) : (withBuf io b x).disksize = io.disksize := rfl

@[simp] theorem links_withBuf (io : Io) (b : Nat) (x : Buf) : (withBuf io b x).links = io.links := rfl

@[simp] theorem log_withBuf (io : Io) (b : Nat) (x : Buf) : (withBuf io b x).log = io.log := rfl

@[simp] theorem withBuf_withBuf (io : Io) (b : Nat) (x y : Buf) :
    withBuf (withBuf io b x) b y = withBuf io b y := by
  simp [withBuf]

theorem setBuf_apply (b : Nat) (f : Buf → Buf) (io : Io) :
    setBuf b f io = .ok () (withBuf io b (f (io.buf b))) [] := rfl

theorem bread_hit (h : CacheInv io view dirty held modified) (hb : At io b s) (hs : s ∉ held) :
    bread ROOTDEV s io = .ok b (withBuf io b { io.buf b with busy := true }) [] := by
  have hbusy : (io.buf b).busy = false := by
    have hn : ¬(io.buf b).busy = true := by
      rw [h.busy_iff b hb.1]
      exact fun hc => hs (hb.2.2 ▸ hc.2)
    simpa using hn
  have hvalid := (h.cached b s hb).1
  have hget : bget ROOTDEV s io = .ok b (withBuf io b { io.buf b with busy := true }) [] := by
    simp only [bget, bind_apply, fetch_apply, scan_hit h hb, hbusy, Bool.false_eq_true,
      not_false_eq_true, if_true, setBuf_apply, pure_apply, after_ok, List.append_nil]
  simp only [bread, bind_apply, hget, fetch_apply, buf_withBuf, if_true, hvalid, not_true_eq_false,
    if_false, pure_apply, after_ok, List.append_nil]

theorem bread_miss (h : CacheInv io view dirty held modified) (hs : ∀ b, ¬At io b s)
    (hcap : (dirty ∪ held).card < NBUF) (hsize : s < io.disksize) :
    ∃ b, b < NBUF ∧ (io.buf b).busy = false ∧ (io.buf b).dirty = false ∧
      bread ROOTDEV s io =
        .ok b (withBuf io b ⟨true, true, false, ROOTDEV, s, io.memdisk s⟩) [] := by
  obtain ⟨b, hlt, hbusy, hdirty, hscan⟩ := scan_clean h hcap
  have hget : bget ROOTDEV s io =
      .ok b (withBuf io b ⟨true, false, false, ROOTDEV, s, (io.buf b).data⟩) [] := by
    simp only [bget, bind_apply, fetch_apply, scan_miss h hs, hscan, setBuf_apply, pure_apply,
      after_ok, List.append_nil]
  refine ⟨b, hlt, hbusy, hdirty, ?_⟩
  have hsize' : ¬io.disksize ≤ s := by omega
  have hide : iderw b (withBuf io b ⟨true, false, false, ROOTDEV, s, (io.buf b).data⟩) =
      .ok () (withBuf io b ⟨true, true, false, ROOTDEV, s, io.memdisk s⟩) [] := by
    simp [iderw, bind_apply, fetch_apply, after_ok, ROOTDEV, setBuf_apply, hsize']
  simp [bread, bind_apply, hget, hide, fetch_apply, pure_apply, after_ok]

/-- The invariant after one buffer has been given to sector s. Sectors other than s
keep their contents and flags; what s gets is up to the caller. -/
theorem CacheInv.replace {io' : Io} {x : Buf} {view' : Nat → Block} {dirty' held' modified' : Finset Nat}
    (h : CacheInv io view dirty held modified) (hb : b < NBUF)
    (hbuf : io'.buf = Function.update io.buf b x)
    (hring : ∃ l, Linked io'.links head l head ∧ l.Perm (List.range NBUF))
    (hx : x.dev = ROOTDEV ∧ x.sector = s ∧ x.valid = true ∧ x.data = view' s ∧
      (x.dirty = true ↔ s ∈ dirty') ∧ (x.busy = true ↔ s ∈ held'))
    (hother : ∀ c, c ≠ b → ¬At io c s) (hevict : ∀ t, At io b t → t ≠ s → t ∉ dirty ∪ held)
    (hview : ∀ t, t ≠ s → view' t = view t) (hdirty : ∀ t, t ≠ s → (t ∈ dirty' ↔ t ∈ dirty))
    (hheld : ∀ t, t ≠ s → (t ∈ held' ↔ t ∈ held))
    (hdisk : ∀ t, t ∉ dirty' → t ∉ modified' → view' t = io'.memdisk t)
    (hmod : modified' ⊆ held') : CacheInv io' view' dirty' held' modified' := by
  obtain ⟨hxd, hxs, hxv, hxdata, hxdirty, hxbusy⟩ := hx
  have hAt (c t : Nat) : At io' c t ↔ (c = b ∧ t = s) ∨ (c ≠ b ∧ At io c t) := by
    by_cases hc : c = b
    · subst hc
      simp only [At, hbuf, Function.update_self, hb, hxd, hxs, true_and, ne_eq, not_true_eq_false,
        false_and, or_false]
      exact eq_comm
    · simp [At, hbuf, hc]
  have hne {c t : Nat} (hc : c ≠ b) (ht : At io c t) : t ≠ s := fun he => hother c hc (he ▸ ht)
  refine ⟨hring, ?_, ?_, ?_, ?_, ?_, hdisk, hmod⟩
  · intro a c t ha hc
    rw [hAt] at ha hc
    rcases ha with ⟨rfl, rfl⟩ | ⟨han, ha⟩ <;> rcases hc with ⟨rfl, hts⟩ | ⟨hcn, hc⟩
    · rfl
    · exact absurd hc (hother c hcn)
    · exact absurd (hts ▸ ha) (hother a han)
    · exact h.unique a c t ha hc
  · intro c t hc
    rcases (hAt c t).mp hc with ⟨rfl, rfl⟩ | ⟨hcn, hc⟩
    · simp [hbuf, hxv, hxdata]
    · rw [hview t (hne hcn hc)]
      simpa [hbuf, hcn] using h.cached c t hc
  · intro c hc
    by_cases hcn : c = b
    · subst hcn; simp [hbuf, hxd, hxs, hxdirty]
    · simp only [hbuf, Function.update_of_ne hcn, h.dirty_iff c hc]
      refine and_congr_right fun hd => (hdirty _ ?_).symm
      exact hne hcn ⟨hc, hd, rfl⟩
  · intro c hc
    by_cases hcn : c = b
    · subst hcn; simp [hbuf, hxd, hxs, hxbusy]
    · simp only [hbuf, Function.update_of_ne hcn, h.busy_iff c hc]
      refine and_congr_right fun hd => (hheld _ ?_).symm
      exact hne hcn ⟨hc, hd, rfl⟩
  · intro t ht
    by_cases hts : t = s
    · exact ⟨b, (hAt b t).mpr (.inl ⟨rfl, hts⟩)⟩
    · have hold : t ∈ dirty ∪ held := by
        rwa [Finset.mem_union, hdirty t hts, hheld t hts, ← Finset.mem_union] at ht
      obtain ⟨c, hc⟩ := h.pinned t hold
      have hcn : c ≠ b := fun he => hevict t (he ▸ hc) hts hold
      exact ⟨c, (hAt c t).mpr (.inr ⟨hcn, hc⟩)⟩

theorem CacheInv.other (h : CacheInv io view dirty held modified) (hb : At io b s) (c : Nat)
    (hc : c ≠ b) : ¬At io c s := fun hat => hc (h.unique c b s hat hb)

theorem At.eq {t : Nat} (hb : At io b s) (ht : At io b t) : t = s := ht.2.2.symm.trans hb.2.2

theorem CacheInv.dirty_eq (h : CacheInv io view dirty held modified) (hb : At io b s) :
    ((io.buf b).dirty = true ↔ s ∈ dirty) := by
  rw [h.dirty_iff b hb.1, hb.2.1, hb.2.2]
  exact ⟨fun hd => hd.2, fun hd => ⟨rfl, hd⟩⟩

theorem CacheInv.busy_eq (h : CacheInv io view dirty held modified) (hb : At io b s) :
    ((io.buf b).busy = true ↔ s ∈ held) := by
  rw [h.busy_iff b hb.1, hb.2.1, hb.2.2]
  exact ⟨fun hd => hd.2, fun hd => ⟨rfl, hd⟩⟩

theorem at_withBuf {x : Buf} {c t : Nat} (hd : x.dev = (io.buf b).dev)
    (hs : x.sector = (io.buf b).sector) (hc : At io c t) : At (withBuf io b x) c t := by
  refine ⟨hc.1, ?_⟩
  by_cases he : c = b
  · subst he
    simpa [hd, hs] using hc.2
  · simpa [he] using hc.2

theorem bread_cached (h : CacheInv io view dirty held modified) (hb : At io b s) (hs : s ∉ held) :
    ∃ io', bread ROOTDEV s io = .ok b io' [] ∧
      CacheInv io' view dirty (insert s held) modified ∧ At io' b s ∧ SameDisk io io' ∧
      ∀ c t, t ∈ held → At io c t → At io' c t := by
  have hheld (t : Nat) (ht : t ≠ s) : t ∈ insert s held ↔ t ∈ held := by simp [ht]
  have hmod : modified ⊆ insert s held := h.modified_held.trans (Finset.subset_insert _ _)
  obtain ⟨hvalid, hdata⟩ := h.cached b s hb
  refine ⟨_, bread_hit h hb hs, ?_, ⟨hb.1, by simpa using hb.2⟩, ⟨rfl, rfl, rfl⟩, ?_⟩
  · refine h.replace hb.1 rfl h.ring ?_ (h.other hb) (fun t ht hts => absurd (hb.eq ht) hts)
      (fun _ _ => rfl) (fun _ _ => Iff.rfl) hheld h.disk hmod
    exact ⟨hb.2.1, hb.2.2, hvalid, hdata, h.dirty_eq hb, by simp⟩
  · exact fun c t _ hc => at_withBuf rfl rfl hc

theorem bread_spec (h : CacheInv io view dirty held modified) (hs : s ∉ held)
    (hsize : s < io.disksize) (hcap : (dirty ∪ held).card < NBUF ∨ s ∈ dirty) :
    ∃ b io', bread ROOTDEV s io = .ok b io' [] ∧
      CacheInv io' view dirty (insert s held) modified ∧ At io' b s ∧ SameDisk io io' ∧
      ∀ c t, t ∈ held → At io c t → At io' c t := by
  have hheld (t : Nat) (ht : t ≠ s) : t ∈ insert s held ↔ t ∈ held := by simp [ht]
  have hmod : modified ⊆ insert s held := h.modified_held.trans (Finset.subset_insert _ _)
  by_cases hat : ∃ b, At io b s
  · obtain ⟨b, hb⟩ := hat
    exact ⟨b, bread_cached h hb hs⟩
  · push Not at hat
    have hsd : s ∉ dirty := fun hd => by
      obtain ⟨c, hc⟩ := h.pinned s (Finset.mem_union_left _ hd)
      exact hat c hc
    obtain ⟨b, hb, hbusy, hdirty, hrun⟩ := bread_miss h hat (hcap.resolve_right hsd) hsize
    refine ⟨b, _, hrun, ?_, ⟨hb, by simp⟩, ⟨rfl, rfl, rfl⟩, ?_⟩
    · refine h.replace hb rfl h.ring ?_ (fun c _ => hat c) ?_
        (fun _ _ => rfl) (fun _ _ => Iff.rfl) hheld h.disk hmod
      · exact ⟨rfl, rfl, rfl, (h.disk s hsd fun hm => hs (h.modified_held hm)).symm, by simp [hsd], by simp⟩
      · intro t ht _ hpin
        rcases Finset.mem_union.mp hpin with hd | hd
        · simp [(h.dirty_eq ht).mpr hd] at hdirty
        · simp [(h.busy_eq ht).mpr hd] at hbusy
    · intro c t ht hc
      have hcb : c ≠ b := by
        rintro rfl
        simp [(h.busy_eq hc).mpr ht] at hbusy
      exact ⟨hc.1, by simpa [hcb] using hc.2⟩

theorem setData_spec (h : CacheInv io view dirty held modified) (hb : At io b s) (hs : s ∈ held)
    (d : Block) :
    CacheInv (withBuf io b { io.buf b with data := d }) (Function.update view s d)
      dirty held (insert s modified) := by
  refine h.replace hb.1 rfl h.ring ?_ (h.other hb) (fun t ht hts => absurd (hb.eq ht) hts)
    (fun t ht => Function.update_of_ne ht _ _) (fun _ _ => Iff.rfl) (fun _ _ => Iff.rfl) ?_ ?_
  · exact ⟨hb.2.1, hb.2.2, (h.cached b s hb).1, by simp, h.dirty_eq hb, h.busy_eq hb⟩
  · intro t hd hm
    rw [Finset.mem_insert, not_or] at hm
    rw [Function.update_of_ne hm.1]
    exact h.disk t hd hm.2
  · exact Finset.insert_subset hs h.modified_held

theorem bwrite_spec (h : CacheInv io view dirty held modified) (hb : At io b s) (hs : s ∈ held)
    (hsize : s < io.disksize) :
    ∃ io', bwrite b io = .ok () io' [⟨s, view s⟩] ∧
      CacheInv io' view (dirty.erase s) held (modified.erase s) ∧ (∀ c t, At io c t → At io' c t) ∧
      io'.memdisk = Function.update io.memdisk s (view s) ∧ io'.disksize = io.disksize ∧
      io'.log = io.log := by
  obtain ⟨hvalid, hdata⟩ := h.cached b s hb
  have hbusy := (h.busy_eq hb).mpr hs
  have hsize' : ¬io.disksize ≤ s := by omega
  have hdev : (io.buf b).dev = 1 := hb.2.1
  have hrun : bwrite b io = .ok ()
      { withBuf io b { io.buf b with dirty := false, valid := true } with
        memdisk := Function.update io.memdisk s (view s) } [⟨s, view s⟩] := by
    have hx : iderw b (withBuf io b { io.buf b with dirty := true }) = .ok ()
        { withBuf io b { io.buf b with dirty := false, valid := true } with
          memdisk := Function.update io.memdisk s (view s) } [⟨s, view s⟩] := by
      simp [iderw, writeSector, bind_apply, fetch_apply, update_apply, emit_apply, after_ok,
        setBuf_apply, hbusy, hdev, hb.2.2, hsize', hdata, withBuf]
    refine bind_ok (fetch_apply io) ?_
    rw [if_neg (by simp [hbusy])]
    exact bind_ok (setBuf_apply b _ io) hx
  refine ⟨_, hrun, ?_, ?_, rfl, rfl, rfl⟩
  · refine h.replace hb.1 rfl h.ring ?_ (h.other hb) (fun t ht hts => absurd (hb.eq ht) hts)
      (fun _ _ => rfl) (fun t ht => by simp [ht]) (fun _ _ => Iff.rfl) ?_ ?_
    · exact ⟨hb.2.1, hb.2.2, rfl, hdata, by simp, h.busy_eq hb⟩
    · intro t hd hm
      by_cases hts : t = s
      · subst hts; simp
      · simp only [Finset.mem_erase, ne_eq, hts, not_false_eq_true, true_and] at hd hm
        simpa [hts] using h.disk t hd hm
    · exact (Finset.erase_subset _ _).trans h.modified_held
  · exact fun c t hc => at_withBuf rfl rfl hc

theorem setDirty_spec (h : CacheInv io view dirty held modified) (hb : At io b s) :
    CacheInv (withBuf io b { io.buf b with dirty := true }) view (insert s dirty) held
      (modified.erase s) := by
  refine h.replace hb.1 rfl h.ring ?_ (h.other hb) (fun t ht hts => absurd (hb.eq ht) hts)
    (fun _ _ => rfl) (fun t ht => by simp [ht]) (fun _ _ => Iff.rfl) ?_ ?_
  · exact ⟨hb.2.1, hb.2.2, (h.cached b s hb).1, (h.cached b s hb).2, by simp, h.busy_eq hb⟩
  · intro t hd hm
    rw [Finset.mem_insert, not_or] at hd
    exact h.disk t hd.2 fun hm' => hm (Finset.mem_erase.mpr ⟨hd.1, hm'⟩)
  · exact (Finset.erase_subset _ _).trans h.modified_held

theorem ring_moveToFront {k : Links Nat} {l : List Nat} (hl : Linked k head l head)
    (hperm : l.Perm (List.range NBUF)) (hb : b < NBUF) :
    ∃ l', Linked (insertAfter (unlink k b) head b) head l' head ∧ l'.Perm (List.range NBUF) := by
  have hmem (x : Nat) : x ∈ l ↔ x < NBUF := by rw [hperm.mem_iff, List.mem_range]
  have hnd : l.Nodup := hperm.nodup_iff.mpr List.nodup_range
  have hhead : head ∉ l := by rw [hmem]; exact Nat.lt_irrefl NBUF
  have hbh : b ≠ head := Nat.ne_of_lt hb
  obtain ⟨as, bs, rfl⟩ := List.append_of_mem ((hmem b).mpr hb)
  have hmid : (as ++ b :: bs).Perm (b :: (as ++ bs)) := List.perm_middle
  have hcons : (b :: (as ++ bs)).Nodup := hmid.nodup_iff.mp hnd
  have hhead' : head ∉ as ++ bs := fun hm => hhead (hmid.mem_iff.mpr (List.mem_cons_of_mem b hm))
  have hab := (List.nodup_cons.mp hcons)
  have hnx {m : List Nat} (hm : m.Nodup) (hh : head ∉ m) : (head :: m).Nodup := List.nodup_cons.mpr ⟨hh, hm⟩
  have hny {m : List Nat} (hm : m.Nodup) (hh : head ∉ m) : (m ++ [head]).Nodup :=
    (List.perm_append_singleton head m).nodup_iff.mpr (hnx hm hh)
  have hun := linked_unlink hl (hnx hnd hhead) (hny hnd hhead)
  exact ⟨b :: (as ++ bs), linked_insertAfter hun hbh hbh hab.1 (hnx hab.2 hhead') (hny hab.2 hhead'),
    hmid.symm.trans hperm⟩

theorem brelse_spec (h : CacheInv io view dirty held modified) (hb : At io b s) (hs : s ∈ held)
    (hm : s ∉ modified) :
    ∃ io', brelse b io = .ok () io' [] ∧ CacheInv io' view dirty (held.erase s) modified ∧
      (∀ c t, At io c t → At io' c t) ∧ SameDisk io io' := by
  have hbusy := (h.busy_eq hb).mpr hs
  obtain ⟨l, hl, hperm⟩ := h.ring
  have hrun : brelse b io = .ok () { withBuf io b { io.buf b with busy := false } with
      links := insertAfter (unlink io.links b) head b } [] := by
    simp [brelse, bind_apply, fetch_apply, update_apply, setBuf_apply, after_ok, hbusy, withBuf]
  refine ⟨_, hrun, ?_, ?_, rfl, rfl, rfl⟩
  · refine h.replace hb.1 rfl (ring_moveToFront hl hperm hb.1) ?_ (h.other hb)
      (fun t ht hts => absurd (hb.eq ht) hts) (fun _ _ => rfl) (fun _ _ => Iff.rfl)
      (fun t ht => by simp [ht]) h.disk ?_
    · exact ⟨hb.2.1, hb.2.2, (h.cached b s hb).1, (h.cached b s hb).2, h.dirty_eq hb, by simp⟩
    · exact fun t ht => Finset.mem_erase.mpr ⟨fun he => hm (he ▸ ht), h.modified_held ht⟩
  · exact fun c t hc => at_withBuf rfl rfl hc

theorem binitLinks_linked (n : Nat) (hn : n ≤ NBUF) :
    Linked ((List.range n).foldl (fun k b => insertAfter k head b) ⟨fun _ => head, fun _ => head⟩)
      head (List.range n).reverse head := by
  induction n with
  | zero => exact ⟨rfl, rfl⟩
  | succ n ih =>
      have hne : n ≠ head := Nat.ne_of_lt hn
      have hnd : (List.range n).reverse.Nodup := List.nodup_reverse.mpr List.nodup_range
      have hhead : head ∉ (List.range n).reverse := by
        rw [List.mem_reverse, List.mem_range]
        exact Nat.not_lt.mpr (Nat.le_of_lt hn)
      have hnot : n ∉ (List.range n).reverse := by simp
      rw [List.range_succ, List.foldl_append, List.reverse_append]
      refine linked_insertAfter (ih (Nat.le_of_lt hn)) hne hne hnot (List.nodup_cons.mpr ⟨hhead, hnd⟩) ?_
      exact (List.perm_append_singleton head _).nodup_iff.mpr (List.nodup_cons.mpr ⟨hhead, hnd⟩)

theorem binit_inv (d : Nat → Block) (n : Nat) (log : Log) : CacheInv (binit d n log) d ∅ ∅ ∅ := by
  have hAt (b s : Nat) : ¬At (binit d n log) b s := fun h => by
    have hdev : uint (2 ^ 32 - 1) = ROOTDEV := h.2.1
    exact absurd hdev (by decide)
  refine ⟨⟨_, binitLinks_linked NBUF le_rfl, List.reverse_perm _⟩, ?_, ?_, ?_, ?_, ?_, ?_, ?_⟩
  · exact fun a b s ha => absurd ha (hAt a s)
  · exact fun b s hb => absurd hb (hAt b s)
  · exact fun b _ => by simp [binit, emptyBuf]
  · exact fun b _ => by simp [binit, emptyBuf]
  · simp
  · exact fun _ _ _ => rfl
  · simp

end ArmXv6.Cache
