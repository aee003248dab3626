import ArmXv6.Cache
import ArmXv6.Lib.Redo
import ArmXv6.Log
import Mathlib.Data.List.GetD

namespace ArmXv6.Recovery

open Lib Lib.Exec Lib.Bytes Param Bio Log Cache

/-- The on-disk log as a redo log: the header sector, the slots after it, and
the encoding of the home sectors in the header. -/
def layout (log : Bio.Log) : Redo.Layout Nat Block where
  region s := log.start ≤ s ∧ s < log.start + log.size
  head := log.start
  slot i := log.start + i + 1
  decode := decodeHead
  erase b := b.setSlice 0 (encodeHead [])

def capacity (log : Bio.Log) : Nat := min LOGSIZE (log.size - 1)

theorem length_encodeHead (lh : List Nat) : (encodeHead lh).length = 4 + 4 * lh.length := by
  simp [encodeHead, List.length_flatMap]
  omega

theorem getElem_flatMap_word (lh : List Nat) (i k : Nat) (hi : i < lh.length) (hk : k < 4) :
    (lh.flatMap (leBytes 4)).getD (4 * i + k) 0 = (leBytes 4 (lh.getD i 0)).getD k 0 := by
  induction lh generalizing i with
  | nil => simp at hi
  | cons x lh ih =>
      cases i with
      | zero =>
          rw [List.flatMap_cons, List.getD_append _ _ _ _ (by simpa using hk)]
          simp
      | succ i =>
          rw [List.flatMap_cons, List.getD_append_right _ _ _ _ (by simp; omega)]
          have h := ih i (by simpa using hi)
          simpa [show 4 * (i + 1) + k - 4 = 4 * i + k by omega] using h

theorem word_encodeHead_zero (b : Block) (lh : List Nat) (h : 4 + 4 * lh.length ≤ BSIZE) :
    (b.setSlice 0 (encodeHead lh)).word 0 = lh.length := by
  have hs : (b.setSlice 0 (encodeHead lh)).slice 0 4 = leBytes 4 lh.length := by
    apply List.ext_getElem
    · simp
    · intro k hk hk'
      have hk4 : k < 4 := by simpa using hk
      have hlen := length_encodeHead lh
      rw [Mem.getElem_slice, Mem.get_setSlice, if_pos (by simp only [BSIZE] at *; omega)]
      simp [encodeHead, List.getElem?_append_left, hk4]
  rw [Mem.word, hs, leNat_leBytes]
  exact Nat.mod_eq_of_lt (by simp only [BSIZE] at h; omega)

theorem word_encodeHead_succ (b : Block) (lh : List Nat) (h : 4 + 4 * lh.length ≤ BSIZE) (i : Nat)
    (hi : i < lh.length) : (b.setSlice 0 (encodeHead lh)).word (4 + 4 * i) = lh[i] % 2 ^ 32 := by
  have hs : (b.setSlice 0 (encodeHead lh)).slice (4 + 4 * i) 4 = leBytes 4 lh[i] := by
    apply List.ext_getElem
    · simp
    · intro k hk hk'
      have hk4 : k < 4 := by simpa using hk
      have hlen := length_encodeHead lh
      rw [Mem.getElem_slice, Mem.get_setSlice, if_pos (by simp only [BSIZE] at *; omega), encodeHead,
        List.getD_append_right _ _ _ _ (by simp; omega), length_leBytes,
        show 4 + 4 * i + k - 0 - 4 = 4 * i + k by omega, getElem_flatMap_word lh i k hi hk4]
      simp [List.getD, hi, hk4]
  rw [Mem.word, hs, leNat_leBytes]
  rfl

theorem decodeHead_encodeHead (b : Block) (lh : List Nat) (h : 4 + 4 * lh.length ≤ BSIZE)
    (hlh : ∀ s ∈ lh, s < 2 ^ 32) : decodeHead (b.setSlice 0 (encodeHead lh)) = lh := by
  have hn : (sint ((b.setSlice 0 (encodeHead lh)).word 0)).toNat = lh.length := by
    rw [word_encodeHead_zero b lh h, sint, if_pos (by simp only [BSIZE] at h; omega)]
    rfl
  apply List.ext_getElem
  · simp [decodeHead, hn]
  · intro i hi hi'
    simp only [decodeHead, List.getElem_map, List.getElem_range]
    rw [word_encodeHead_succ b lh h i hi']
    exact Nat.mod_eq_of_lt (hlh _ (List.getElem_mem hi'))

theorem decodeHead_zero : decodeHead (Mem.zero : Block) = [] := by
  simp [decodeHead, sint]

theorem layout_lawful (log : Bio.Log) (h : 0 < log.size) :
    (layout log).Lawful (capacity log) where
  head_mem := ⟨Nat.le_refl _, by simp only [layout]; omega⟩
  slot_mem i hi := by simp only [layout, capacity] at *; omega
  slot_ne_head i hi := by simp only [layout]; omega
  decode_erase b := decodeHead_encodeHead b [] (by decide) (by simp)

variable {io : Io} {view : Nat → Block} {dirty : Finset Nat}

/-- The on-disk log lies inside the disk, whose size is that of an image in memory. -/
structure LogFits (io : Io) : Prop where
  size_pos : 0 < io.log.size
  on_disk : io.log.start + io.log.size ≤ io.disksize
  in_memory : io.disksize ≤ 2 ^ 32 / BSIZE

theorem readHead_spec (h : CacheInv io view dirty ∅ ∅) (hfit : LogFits io)
    (hcap : dirty.card < NBUF) :
    ∃ io', readHead io = .ok () io' [] ∧ CacheInv io' view dirty ∅ ∅ ∧ io'.memdisk = io.memdisk ∧
      io'.disksize = io.disksize ∧
      io'.log = { io.log with lh := decodeHead (view io.log.start) } := by
  have hsize : io.log.start < io.disksize := by have := hfit.size_pos; have := hfit.on_disk; omega
  obtain ⟨b, io₁, h1, c1, a1, d1, -⟩ := bread_spec h (Finset.notMem_empty _) hsize (.inl (by simpa using hcap))
  have hdata := (c1.cached b _ a1).2
  have c2 : CacheInv { io₁ with log := { io₁.log with lh := decodeHead (view io.log.start) } }
      view dirty (insert io.log.start ∅) ∅ :=
    ⟨c1.ring, c1.unique, c1.cached, c1.dirty_iff, c1.busy_iff, c1.pinned, c1.disk, c1.modified_held⟩
  obtain ⟨io₂, h2, c3, -, d2⟩ := brelse_spec c2 a1 (by simp) (Finset.notMem_empty _)
  refine ⟨io₂, ?_, ?_, d2.1.trans d1.1, d2.2.1.trans d1.2.1, ?_⟩
  · refine bind_ok (fetch_apply io) (bind_ok h1 (bind_ok (fetch_apply io₁) ?_))
    rw [hdata]
    exact bind_ok (update_apply _ io₁) h2
  · simpa using c3
  · rw [d2.2.2, d1.2.2]

theorem writeHead_spec (h : CacheInv io view dirty ∅ ∅) (hfit : LogFits io)
    (hcap : dirty.card < NBUF) (hd : io.log.start ∉ dirty) :
    ∃ io', writeHead io =
        .ok () io' [(io.log.start, (view io.log.start).setSlice 0 (encodeHead io.log.lh))] ∧
      CacheInv io' (Function.update view io.log.start
        ((view io.log.start).setSlice 0 (encodeHead io.log.lh))) dirty ∅ ∅ ∧
      io'.memdisk = Function.update io.memdisk io.log.start
        ((view io.log.start).setSlice 0 (encodeHead io.log.lh)) ∧
      io'.disksize = io.disksize ∧ io'.log = io.log := by
  have hsize : io.log.start < io.disksize := by have := hfit.size_pos; have := hfit.on_disk; omega
  obtain ⟨b, io₁, h1, c1, a1, d1, -⟩ := bread_spec h (Finset.notMem_empty _) hsize (.inl (by simpa using hcap))
  have hdata := (c1.cached b _ a1).2
  have c2 := setData_spec c1 a1 (by simp) ((view io.log.start).setSlice 0 (encodeHead io.log.lh))
  have a2 : At (withBuf io₁ b { io₁.buf b with
      data := (view io.log.start).setSlice 0 (encodeHead io.log.lh) }) b io.log.start :=
    ⟨a1.1, by simpa using a1.2⟩
  obtain ⟨io₃, h3, c3, a3, m3, s3, l3⟩ := bwrite_spec c2 a2 (by simp) (by simpa [d1.2.1] using hsize)
  obtain ⟨io₄, h4, c4, -, d4⟩ := brelse_spec c3 (a3 b _ a2) (by simp) (by simp)
  simp only [Function.update_self] at h3 m3
  refine ⟨io₄, ?_, ?_, ?_, ?_, ?_⟩
  · refine bind_ok (fetch_apply io) (bind_ok h1 (bind_ok (setBuf_apply b _ io₁) ?_))
    rw [hdata]
    exact bind_ok h3 h4
  · simpa [Finset.erase_eq_of_notMem hd] using c4
  · rw [d4.1, m3]
    simp [d1.1]
  · rw [d4.2.1, s3]
    exact d1.2.1
  · rw [d4.2.2, l3]
    exact d1.2.2

theorem installLoop_spec (rest : List Nat) (tail : Nat) (h : CacheInv io view dirty ∅ ∅)
    (hfit : LogFits io) (hrest : ∀ s ∈ rest, ¬(layout io.log).region s ∧ s < io.disksize)
    (hslots : tail + rest.length < io.log.size) (hdirty : ∀ s ∈ dirty, ¬(layout io.log).region s)
    (hnd : rest.Nodup) (hcard : dirty.card < NBUF)
    (hcap : (∀ s ∈ rest, s ∈ dirty) ∨ dirty.card + 1 < NBUF) :
    ∃ io', installTrans.loop tail rest io =
        .ok () io' (Redo.installs (layout io.log) view tail rest) ∧
      CacheInv io' (Redo.apply view (Redo.installs (layout io.log) view tail rest))
        (dirty \ rest.toFinset) ∅ ∅ ∧
      io'.memdisk = Redo.apply io.memdisk (Redo.installs (layout io.log) view tail rest) ∧
      io'.disksize = io.disksize ∧ io'.log = io.log := by
  induction rest generalizing io view dirty tail with
  | nil => exact ⟨io, rfl, by simpa [Redo.installs, Redo.apply] using h, rfl, rfl, rfl⟩
  | cons s rest ih =>
      obtain ⟨hns, hs⟩ := hrest s List.mem_cons_self
      have hlen : tail + 1 + rest.length < io.log.size := by
        have := hslots; simp only [List.length_cons] at this; omega
      have hslot : (layout io.log).region (io.log.start + tail + 1) := by
        simp only [layout]; omega
      have hslotD : io.log.start + tail + 1 ∉ dirty := fun hd => hdirty _ hd hslot
      have hne : s ≠ io.log.start + tail + 1 := fun he => hns (he ▸ hslot)
      have hslotSize : io.log.start + tail + 1 < io.disksize := by have := hfit.on_disk; omega
      obtain ⟨lb, io₁, h1, c1, a1, d1, -⟩ :=
        bread_spec h (Finset.notMem_empty _) hslotSize (.inl (by simpa using hcard))
      have hcap1 : (dirty ∪ insert (io.log.start + tail + 1) ∅).card < NBUF ∨ s ∈ dirty := by
        rcases hcap with hall | hroom
        · exact .inr (hall s List.mem_cons_self)
        · left
          refine Nat.lt_of_le_of_lt (Finset.card_union_le _ _) ?_
          simpa using hroom
      obtain ⟨db, io₂, h2, c2, a2, d2, k2⟩ :=
        bread_spec c1 (by simpa using hne) (by simpa [d1.2.1] using hs) hcap1
      have hlb := k2 lb _ (by simp) a1
      have hdata := (c2.cached lb _ hlb).2
      have c3 := setData_spec c2 a2 (by simp) (view (io.log.start + tail + 1))
      obtain ⟨io₄, h4, c4, k4, m4, s4, l4⟩ :=
        bwrite_spec c3 (at_withBuf rfl rfl a2) (by simp) (by simpa [d1.2.1, d2.2.1] using hs)
      simp only [Function.update_self] at h4 m4
      obtain ⟨io₅, h5, c5, k5, d5⟩ := brelse_spec c4 (k4 lb _ (at_withBuf rfl rfl hlb)) (by simp) (by simp)
      obtain ⟨io₆, h6, c6, -, d6⟩ :=
        brelse_spec c5 (k5 db _ (k4 db _ (at_withBuf rfl rfl a2))) (by simp [hne]) (by simp)
      have hlog : io₆.log = io.log := by
        rw [d6.2.2, d5.2.2, l4]
        exact d2.2.2.trans d1.2.2
      have hds : io₆.disksize = io.disksize := by
        rw [d6.2.1, d5.2.1, s4]
        exact d2.2.1.trans d1.2.1
      have hmd : io₆.memdisk = Function.update io.memdisk s (view (io.log.start + tail + 1)) := by
        rw [d6.1, d5.1, m4]
        simp [d2.1, d1.1]
      have c7 : CacheInv io₆ (Function.update view s (view (io.log.start + tail + 1)))
          (dirty.erase s) ∅ ∅ := by
        simpa [hne, Finset.erase_insert_of_ne] using c6
      have hcard' : (dirty.erase s).card ≤ dirty.card := Finset.card_erase_le
      obtain ⟨hsr, hnd'⟩ := List.nodup_cons.mp hnd
      obtain ⟨io₇, h7, c8, m8, s8, l8⟩ := ih (tail + 1) c7
        ⟨hlog ▸ hfit.size_pos, by rw [hlog, hds]; exact hfit.on_disk, hds ▸ hfit.in_memory⟩
        (fun t ht => by rw [hlog, hds]; exact hrest t (List.mem_cons_of_mem s ht))
        (by rw [hlog]; exact hlen)
        (fun t ht => by rw [hlog]; exact hdirty t (Finset.mem_of_mem_erase ht)) hnd'
        (Nat.lt_of_le_of_lt hcard' hcard)
        (hcap.imp
          (fun hall t ht => Finset.mem_erase.mpr
            ⟨fun he => hsr (he ▸ ht), hall t (List.mem_cons_of_mem s ht)⟩)
          (fun hroom => by omega))
      have hinst : Redo.installs (layout io₆.log)
          (Function.update view s (view (io.log.start + tail + 1))) (tail + 1) rest =
          Redo.installs (layout io.log) view (tail + 1) rest := by
        rw [hlog]
        refine Redo.installs_congr _ _ _ _ _ fun j hj => Function.update_of_ne ?_ _ _
        intro he
        refine hns (he ▸ ?_)
        simp only [layout]
        omega
      rw [hinst] at h7 c8 m8
      refine ⟨io₇, ?_, ?_, ?_, s8.trans hds, l8.trans hlog⟩
      · refine bind_ok (fetch_apply io) (bind_ok h1 (bind_ok h2 (bind_ok (fetch_apply io₂)
          (bind_ok (setBuf_apply db _ io₂) ?_))))
        rw [hdata]
        exact bind_ok h4 (bind_ok h5 (bind_ok h6 h7))
      · rw [Redo.installs, Redo.apply_cons]
        have hset : dirty \ (s :: rest).toFinset = dirty.erase s \ rest.toFinset := by
          ext t
          simp only [Finset.mem_sdiff, List.mem_toFinset, List.mem_cons, not_or, Finset.mem_erase]
          tauto
        rw [hset]
        exact c8
      · rw [Redo.installs, Redo.apply_cons, m8, hmd]
        rfl

theorem withLog_inv {held modified : Finset Nat} (h : CacheInv io view dirty held modified) (log : Bio.Log) :
    CacheInv { io with log := log } view dirty held modified :=
  ⟨h.ring, h.unique, h.cached, h.dirty_iff, h.busy_iff, h.pinned, h.disk, h.modified_held⟩

/-- The writes of a replay of the logged sectors, erasing the header last. -/
def replayWrites (log : Bio.Log) (d : Nat → Block) : List DiskWrite :=
  Redo.installs (layout log) d 0 log.lh ++ [(log.start, (d log.start).setSlice 0 (encodeHead []))]

/-- The common end of recovery and commit: install the logged sectors and erase the header. -/
theorem replay_spec (h : CacheInv io view dirty ∅ ∅) (hfit : LogFits io)
    (hlh : ∀ s ∈ io.log.lh, ¬(layout io.log).region s ∧ s < io.disksize)
    (hslots : io.log.lh.length < io.log.size) (hsub : dirty ⊆ io.log.lh.toFinset)
    (hnd : io.log.lh.Nodup) (hcard : dirty.card < NBUF)
    (hcap : (∀ s ∈ io.log.lh, s ∈ dirty) ∨ dirty.card + 1 < NBUF) :
    ∃ io', (installTrans >>= fun _ => setLh [] >>= fun _ => writeHead) io =
        .ok () io' (replayWrites io.log view) ∧
      CacheInv io' (Redo.apply view (replayWrites io.log view)) ∅ ∅ ∅ ∧
      io'.memdisk = Redo.apply io.memdisk (replayWrites io.log view) ∧
      io'.disksize = io.disksize ∧ io'.log = { io.log with lh := [] } := by
  have hdirty (s : Nat) (hs : s ∈ dirty) : ¬(layout io.log).region s :=
    (hlh s (List.mem_toFinset.mp (hsub hs))).1
  obtain ⟨io₁, h1, c1, m1, s1, l1⟩ :=
    installLoop_spec io.log.lh 0 h hfit hlh (by omega) hdirty hnd hcard hcap
  rw [Finset.sdiff_eq_empty_iff_subset.mpr hsub] at c1
  have c2 := withLog_inv c1 { io₁.log with lh := [] }
  have hhead : Redo.apply view (Redo.installs (layout io.log) view 0 io.log.lh) io.log.start =
      view io.log.start := by
    refine Redo.apply_of_not_mem _ _ _ fun w hw he => ?_
    obtain ⟨j, hj, rfl⟩ := (Redo.mem_installs _ _ _ _ _).mp hw
    refine (hlh _ (List.getElem_mem hj)).1 ?_
    rw [show io.log.lh[j] = io.log.start from he]
    exact (layout_lawful io.log hfit.size_pos).head_mem
  have hfit2 : LogFits { io₁ with log := { io₁.log with lh := [] } } :=
    ⟨by simpa [l1] using hfit.size_pos, by simpa [l1, s1] using hfit.on_disk, by simpa [s1] using hfit.in_memory⟩
  obtain ⟨io₂, h3, c3, m3, s3, l3⟩ := writeHead_spec c2 hfit2 (by decide) (Finset.notMem_empty _)
  simp only [l1, hhead] at h3 c3 m3
  refine ⟨io₂, ?_, ?_, ?_, s3.trans s1, ?_⟩
  · refine bind_ok (bind_ok (fetch_apply io) h1) (bind_ok (update_apply _ io₁) ?_)
    simpa only [l1] using h3
  · rw [replayWrites, Redo.apply_append]
    exact c3
  · rw [replayWrites, Redo.apply_append, m3, m1]
    rfl
  · rw [l3, l1]

/-- Recovery with nothing dirty in the cache makes exactly the writes of an
abstract recovery. -/
theorem recoverFromLog_spec {x : Nat → Block} {l : List Nat} (h : CacheInv io io.memdisk ∅ ∅ ∅)
    (hfit : LogFits io) (hdet : Redo.Determines (layout io.log) (capacity io.log) io.memdisk x l)
    (hl : ∀ s ∈ l, s < io.disksize) (hnd : l.Nodup) :
    ∃ io', recoverFromLog io = .ok () io' (Redo.recovery (layout io.log) io.memdisk) ∧
      io'.memdisk = Redo.apply io.memdisk (Redo.recovery (layout io.log) io.memdisk) := by
  obtain ⟨io₁, h1, c1, m1, s1, l1⟩ := readHead_spec h hfit (by decide)
  have hdec : decodeHead (io.memdisk io.log.start) = l := hdet.header
  rw [hdec] at l1
  have hlh : io₁.log.lh = l := by rw [l1]
  have hlog : layout io₁.log = layout io.log := by simp [layout, l1]
  have hfits := hdet.fits
  have hpos := hfit.size_pos
  have hfit1 : LogFits io₁ := ⟨by simpa [l1] using hpos, by simpa [l1, s1] using hfit.on_disk,
    by simpa [s1] using hfit.in_memory⟩
  have hslots : io₁.log.lh.length < io₁.log.size := by
    have hs : io₁.log.size = io.log.size := by rw [l1]
    simp only [capacity] at hfits
    rw [hlh, hs]
    omega
  obtain ⟨io₂, h2, -, m2, -, -⟩ := replay_spec c1 hfit1
    (fun s hs => by rw [hlog, s1]; exact ⟨hdet.home s (hlh ▸ hs), hl s (hlh ▸ hs)⟩)
    hslots (by simp) (hlh ▸ hnd) (by decide) (.inr (by decide))
  have hrec : replayWrites io₁.log io.memdisk = Redo.recovery (layout io.log) io.memdisk := by
    rw [replayWrites, hlog, hlh, l1, ← hdec]
    rfl
  rw [hrec] at h2 m2
  refine ⟨io₂, ?_, by rw [m2, m1]⟩
  rw [← List.nil_append (Redo.recovery _ _)]
  exact bind_ok h1 h2

/-- The state inside a transaction: exactly the logged sectors are dirty, and each
slot holds what its home sector has in view. -/
structure InTrans (io : Io) (view : Nat → Block) : Prop where
  cache : CacheInv io view io.log.lh.toFinset ∅ ∅
  fit : LogFits io
  busy : io.log.busy = true
  nodup : io.log.lh.Nodup
  home : ∀ s ∈ io.log.lh, ¬(layout io.log).region s ∧ s < io.disksize
  slots : ∀ i (h : i < io.log.lh.length), view (io.log.start + i + 1) = view io.log.lh[i]

/-- The logged sectors after one more log_write, with absorption. -/
def absorb (lh : List Nat) (s : Nat) : List Nat := if s ∈ lh then lh else lh ++ [s]

theorem absorb_toFinset (lh : List Nat) (s : Nat) : (absorb lh s).toFinset = insert s lh.toFinset := by
  by_cases hs : s ∈ lh
  · simp [absorb, hs]
  · simp [absorb, hs]

theorem absorb_nodup {lh : List Nat} (h : lh.Nodup) (s : Nat) : (absorb lh s).Nodup := by
  by_cases hs : s ∈ lh
  · simpa [absorb, hs] using h
  · rw [absorb, if_neg hs]
    exact (List.perm_append_singleton s lh).nodup_iff.mpr (List.nodup_cons.mpr ⟨hs, h⟩)

theorem mem_absorb {lh : List Nat} {s t : Nat} : t ∈ absorb lh s ↔ t = s ∨ t ∈ lh := by
  have h := absorb_toFinset lh s
  rw [← List.mem_toFinset, h, Finset.mem_insert, List.mem_toFinset]

theorem getElem_absorb {lh : List Nat} (hnd : lh.Nodup) (s j : Nat) (hj : j < (absorb lh s).length) :
    (j = lh.idxOf s ∧ (absorb lh s)[j] = s) ∨
      (j ≠ lh.idxOf s ∧ (absorb lh s)[j] ≠ s ∧ ∃ h : j < lh.length, (absorb lh s)[j] = lh[j]) := by
  have hi : lh.idxOf s < (absorb lh s).length ∧ ∀ h : lh.idxOf s < (absorb lh s).length,
      (absorb lh s)[lh.idxOf s] = s := by
    by_cases hs : s ∈ lh
    · simp [absorb, hs, List.idxOf_lt_length_iff]
    · simp [absorb, hs]
  by_cases hj' : j = lh.idxOf s
  · subst hj'
    exact .inl ⟨rfl, hi.2 hj⟩
  · refine .inr ⟨hj', ?_, ?_⟩
    · intro he
      have he' := he.trans (hi.2 hi.1).symm
      exact hj' ((List.Nodup.getElem_inj_iff (absorb_nodup hnd s)).mp he')
    · by_cases hs : s ∈ lh
      · simp only [absorb, if_pos hs] at hj ⊢
        exact ⟨hj, trivial⟩
      · rw [List.idxOf_eq_length hs] at hj'
        simp only [absorb, if_neg hs, List.length_append, List.length_cons, List.length_nil] at hj
        have hlt : j < lh.length := by omega
        refine ⟨hlt, ?_⟩
        simp [absorb, hs, List.getElem_append_left, hlt]

theorem idxOf_le_absorb (lh : List Nat) (s : Nat) :
    lh.idxOf s + 1 ≤ (insert s lh.toFinset).card ∨ ¬lh.Nodup := by
  by_cases hnd : lh.Nodup
  · left
    by_cases hs : s ∈ lh
    · have := List.idxOf_lt_length_iff.mpr hs
      rw [Finset.insert_eq_self.mpr (List.mem_toFinset.mpr hs), List.toFinset_card_of_nodup hnd]
      exact this
    · rw [Finset.card_insert_of_notMem (by simpa using hs), List.toFinset_card_of_nodup hnd,
        List.idxOf_eq_length hs]
  · exact .inr hnd

theorem append_eq_absorb (lh : List Nat) (s : Nat) :
    (if lh.idxOf s = lh.length then lh ++ [s] else lh) = absorb lh s := by
  unfold absorb
  by_cases hm : s ∈ lh
  · have := List.idxOf_lt_length_iff.mpr hm
    rw [if_pos hm, if_neg (by omega)]
  · rw [if_neg hm, if_pos (List.idxOf_eq_length hm)]

/-- One logged block: its contents go to its slot on the disk and into the view;
its home sector stays as it is on the disk. -/
theorem writeBlock_spec (h : InTrans io view) (s : Nat) (d : Block)
    (hs : ¬(layout io.log).region s ∧ s < io.disksize)
    (hroom : (insert s io.log.lh.toFinset).card < capacity io.log) :
    ∃ io', writeBlock s d io = .ok () io' [(io.log.start + io.log.lh.idxOf s + 1, d)] ∧
      InTrans io' (Function.update (Function.update view s d)
        (io.log.start + io.log.lh.idxOf s + 1) d) ∧
      io'.memdisk = Function.update io.memdisk (io.log.start + io.log.lh.idxOf s + 1) d ∧
      io'.disksize = io.disksize ∧ io'.log = { io.log with lh := absorb io.log.lh s } := by
  obtain ⟨hc, hfit, hbusy, hnd, hhome, hslots⟩ := h
  have hcard : io.log.lh.toFinset.card = io.log.lh.length := List.toFinset_card_of_nodup hnd
  have hle : io.log.lh.toFinset.card ≤ (insert s io.log.lh.toFinset).card :=
    Finset.card_le_card (Finset.subset_insert _ _)
  have hidx := (idxOf_le_absorb io.log.lh s).resolve_right (not_not_intro hnd)
  simp only [capacity, LOGSIZE] at hroom
  have hNBUF : NBUF = 10 := rfl
  generalize hi : io.log.lh.idxOf s = i at hidx ⊢
  have hslot : (layout io.log).region (io.log.start + i + 1) := by simp only [layout]; omega
  have hsne : s ≠ io.log.start + i + 1 := fun he => hs.1 (he ▸ hslot)
  have hslotD : io.log.start + i + 1 ∉ io.log.lh.toFinset := fun hd =>
    (hhome _ (List.mem_toFinset.mp hd)).1 hslot
  have hslotSize : io.log.start + i + 1 < io.disksize := by
    have h1 := hslot.2; have h2 := hfit.on_disk; omega
  obtain ⟨b, io₁, h1, c1, a1, d1, -⟩ := bread_spec hc (Finset.notMem_empty _) hs.2 (.inl (by simp; omega))
  have c2 := setData_spec c1 a1 (by simp) d
  have a2 : At (withBuf io₁ b { io₁.buf b with data := d }) b s := at_withBuf rfl rfl a1
  have hcapL : (io.log.lh.toFinset ∪ insert s ∅).card < NBUF := by
    rw [Finset.union_comm, Finset.insert_union, Finset.empty_union]; omega
  obtain ⟨lb, io₃, h3, c3, a3, d3, k3⟩ := bread_spec c2 (s := io.log.start + i + 1)
    (by simpa using hsne.symm) (by simpa [d1.2.1] using hslotSize) (.inl hcapL)
  have a3b := k3 b s (by simp) a2
  have hdata : (io₃.buf b).data = d := by simpa using (c3.cached b s a3b).2
  have c4 := setData_spec c3 a3 (by simp) d
  obtain ⟨io₅, h5, c5, k5, m5, s5, l5⟩ := bwrite_spec c4 (at_withBuf rfl rfl a3) (by simp)
    (by simpa [d3.2.1, d1.2.1] using hslotSize)
  simp only [Function.update_self] at h5 m5
  obtain ⟨io₆, h6, c6, k6, d6⟩ := brelse_spec c5 (k5 lb _ (at_withBuf rfl rfl a3)) (by simp) (by simp)
  have a6b := k6 b s (k5 b s (at_withBuf rfl rfl a3b))
  have hlog3 : io₃.log = io.log := d3.2.2.trans d1.2.2
  have hlog6 : io₆.log = io.log := by rw [d6.2.2, l5]; exact hlog3
  let io₇ : Io := { io₆ with log := { io.log with lh := absorb io.log.lh s } }
  have happend : setLh (if i = io₃.log.lh.length then io₃.log.lh ++ [(io₃.buf b).sector]
      else io₃.log.lh) io₆ = .ok () io₇ [] := by
    have hlh : (if i = io₃.log.lh.length then io₃.log.lh ++ [(io₃.buf b).sector] else io₃.log.lh) =
        absorb io.log.lh s := by
      rw [a3b.2.2, hlog3, ← hi, append_eq_absorb]
    rw [hlh, setLh, update_apply, hlog6]
  have a7 : At io₇ b s := a6b
  have c8 := setDirty_spec (withLog_inv c6 io₇.log) a7
  obtain ⟨io₉, h9, c9, -, d9⟩ := brelse_spec c8 (at_withBuf rfl rfl a7) (by simp [hsne]) (by simp)
  have hds : io₉.disksize = io.disksize := by
    rw [d9.2.1]
    change io₆.disksize = _
    rw [d6.2.1, s5]
    exact d3.2.1.trans d1.2.1
  have hlog9 : io₉.log = { io.log with lh := absorb io.log.lh s } := d9.2.2
  have hlay : layout io₉.log = layout io.log := by rw [hlog9]; rfl
  refine ⟨io₉, ?_, ?_, ?_, hds, hlog9⟩
  · have hlw : logWrite b (withBuf io₁ b { io₁.buf b with data := d }) =
        .ok () (withBuf io₇ b { io₇.buf b with dirty := true }) [(io.log.start + i + 1, d)] := by
      have hdev : ((withBuf io₁ b { io₁.buf b with data := d }).buf b).dev = ROOTDEV := a2.2.1
      have hsec : ((withBuf io₁ b { io₁.buf b with data := d }).buf b).sector = s := a2.2.2
      have hlog2 : (withBuf io₁ b { io₁.buf b with data := d }).log = io.log := d1.2.2
      refine bind_ok (fetch_apply _) ?_
      rw [hlog2, if_neg (by simp only [LOGSIZE]; omega), if_neg (by simp [hbusy])]
      simp only [hsec, hdev, hi]
      refine bind_ok h3 (bind_ok (fetch_apply io₃) (bind_ok (setBuf_apply lb _ io₃) ?_))
      rw [hdata]
      exact bind_ok h5 (bind_ok h6 (bind_ok happend (setBuf_apply b _ io₇)))
    exact bind_ok h1 (bind_ok (setBuf_apply b _ io₁) (bind_ok hlw h9))
  · refine ⟨?_, ⟨?_, ?_, hds ▸ hfit.in_memory⟩, ?_, ?_, ?_, ?_⟩
    · rw [hlog9, absorb_toFinset]
      have herase : (({s} : Finset Nat).erase (io.log.start + i + 1)).erase s = ∅ := by
        ext t
        simp only [Finset.mem_erase, Finset.mem_singleton, Finset.notMem_empty, iff_false]
        tauto
      simpa [Finset.erase_eq_of_notMem hslotD, herase] using c9
    · rw [hlog9]; exact hfit.size_pos
    · rw [hlog9, hds]; exact hfit.on_disk
    · rw [hlog9]; exact hbusy
    · rw [hlog9]; exact absorb_nodup hnd s
    · intro t ht
      rw [hlay, hds]
      rw [hlog9] at ht
      rcases mem_absorb.mp ht with rfl | ht
      · exact hs
      · exact hhome t ht
    · intro j hj
      simp only [hlog9] at hj ⊢
      rcases getElem_absorb hnd s j hj with ⟨hji, he⟩ | ⟨hji, hne, hlt, he⟩
      · rw [he, Function.update_of_ne hsne, Function.update_self, hji, hi, Function.update_self]
      · have hreg := (hhome _ (List.getElem_mem hlt)).1
        have hn1 : io.log.lh[j] ≠ io.log.start + i + 1 := fun hx => hreg (hx ▸ hslot)
        have hn2 : io.log.start + j + 1 ≠ io.log.start + i + 1 := by omega
        have hn3 : io.log.start + j + 1 ≠ s := by
          intro hx
          refine hs.1 (hx ▸ ?_)
          simp only [layout]
          omega
        rw [he] at hne ⊢
        rw [Function.update_of_ne hn2, Function.update_of_ne hn3, Function.update_of_ne hn1,
          Function.update_of_ne hne, hslots j hlt]
  · rw [d9.1]
    change io₆.memdisk = _
    rw [d6.1, m5]
    simp [d3.1, d1.1]

theorem apply_congr {d e : Nat → Block} {s : Nat} (ws : List DiskWrite) (h : d s = e s) :
    Redo.apply d ws s = Redo.apply e ws s := by
  induction ws generalizing d e with
  | nil => exact h
  | cons w ws ih =>
      refine ih ?_
      by_cases hs : s = w.1
      · simp [hs]
      · simpa [hs] using h

/-- A whole sequence of logged blocks: only slots are written, and the view becomes
the contents last logged for each sector. -/
theorem writeBlocks_spec (ws : List DiskWrite) (h : InTrans io view)
    (hws : ∀ w ∈ ws, ¬(layout io.log).region w.1 ∧ w.1 < io.disksize)
    (hroom : ((ws.map Prod.fst).toFinset ∪ io.log.lh.toFinset).card < capacity io.log) :
    ∃ io' view' t, writeBlocks ws io = .ok () io' t ∧ InTrans io' view' ∧
      (∀ w ∈ t, (layout io.log).region w.1 ∧ w.1 ≠ io.log.start) ∧
      io'.memdisk = Redo.apply io.memdisk t ∧ view' io.log.start = view io.log.start ∧
      (∀ s, ¬(layout io.log).region s → view' s = Redo.apply view ws s) ∧
      io'.disksize = io.disksize ∧ io'.log = { io.log with lh := (ws.map Prod.fst).foldl absorb io.log.lh } := by
  induction ws generalizing io view with
  | nil => exact ⟨io, view, [], rfl, h, by simp, rfl, rfl, fun _ _ => rfl, rfl, rfl⟩
  | cons w ws ih =>
      have hw := hws w List.mem_cons_self
      have hsub : insert w.1 io.log.lh.toFinset ⊆
          ((w :: ws).map Prod.fst).toFinset ∪ io.log.lh.toFinset := by
        intro t ht
        simp only [Finset.mem_insert, List.mem_toFinset] at ht
        simp only [List.map_cons, List.toFinset_cons, Finset.mem_union, Finset.mem_insert,
          List.mem_toFinset]
        tauto
      have hroom1 := Nat.lt_of_le_of_lt (Finset.card_le_card hsub) hroom
      have hidx := (idxOf_le_absorb io.log.lh w.1).resolve_right (not_not_intro h.nodup)
      obtain ⟨io₁, h1, t1, m1, s1, l1⟩ := writeBlock_spec h w.1 w.2 hw hroom1
      have hlay : layout io₁.log = layout io.log := by rw [l1]; rfl
      have hset : (ws.map Prod.fst).toFinset ∪ io₁.log.lh.toFinset =
          ((w :: ws).map Prod.fst).toFinset ∪ io.log.lh.toFinset := by
        rw [l1, absorb_toFinset]
        simp [Finset.union_insert]
      obtain ⟨io₂, view₂, t, h2, i2, hslot, m2, hst, hv, s2, l2⟩ := ih t1
        (fun v hv => by rw [hlay, s1]; exact hws v (List.mem_cons_of_mem w hv))
        (by rw [hset]; rw [show capacity io₁.log = capacity io.log by rw [l1]; rfl]; exact hroom)
      have hstart : io₁.log.start = io.log.start := by rw [l1]
      rw [hlay, hstart] at hslot
      rw [hstart] at hst
      rw [hlay] at hv
      have hregion : (layout io.log).region (io.log.start + io.log.lh.idxOf w.1 + 1) := by
        simp only [layout, capacity, LOGSIZE] at hroom1 ⊢
        omega
      have hhead : io.log.start ≠ w.1 := fun he =>
        hw.1 (he ▸ (layout_lawful io.log h.fit.size_pos).head_mem)
      refine ⟨io₂, view₂, _, bind_ok h1 h2, i2, ?_, ?_, ?_, ?_, s2.trans s1, ?_⟩
      · intro v hv
        simp only [List.cons_append, List.nil_append, List.mem_cons] at hv
        rcases hv with rfl | hv
        · exact ⟨hregion, by simp only; omega⟩
        · exact hslot v hv
      · rw [m2, m1, List.singleton_append, Redo.apply_cons]
      · rw [hst, Function.update_of_ne (by omega), Function.update_of_ne hhead]
      · intro s hs
        rw [hv s hs, Redo.apply_cons]
        refine apply_congr ws ?_
        have hne : s ≠ io.log.start + io.log.lh.idxOf w.1 + 1 := fun he => hs (he ▸ hregion)
        rw [Function.update_of_ne hne]
      · rw [l2, l1]
        rfl

theorem mem_foldl_absorb (ss lh : List Nat) (t : Nat) :
    t ∈ ss.foldl absorb lh ↔ t ∈ ss ∨ t ∈ lh := by
  induction ss generalizing lh with
  | nil => simp
  | cons s ss ih =>
      rw [List.foldl_cons, ih, mem_absorb, List.mem_cons]
      tauto

end ArmXv6.Recovery
