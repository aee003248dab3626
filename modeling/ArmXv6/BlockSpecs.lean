import Mathlib.Data.List.Lattice
import Mathlib.Data.List.Perm.Subperm
import ArmXv6.DiskImage

namespace ArmXv6.BlockSpecs

open Lib.Exec Lib.Bytes Param Blocks Fs DiskImage

/-- The stops that no contract tolerates by default. Everything else is the exhaustion of
a resource, a wait, or a check on a state the caller did not promise. -/
def faults : List Stop :=
  [.panic "write outside of trans", .panic "freeing free block", .panic "ilock: no type"]

def Lenient (ok : Stop → Prop) : Prop := ∀ w, w ∉ faults → ok w

/-- The stops of a transaction that has outgrown the log or the buffer cache. -/
def overflows : List Stop := [.panic "too big a transaction", .panic "bget: no buffers"]

def Unbounded (ok : Stop → Prop) : Prop := ∀ w ∈ overflows, ok w

/-- The log sits where the superblock says, its slots hold what the logged sectors hold, and
the buffers of these sectors are the dirty ones. -/
structure LogRep (v : Volume) (fs : Fs) : Prop where
  disksize : fs.disksize = v.disksize
  start : fs.log.start = v.logStart
  size : fs.log.size = v.sb.nlog
  nodup : fs.log.lh.Nodup
  below : ∀ s ∈ fs.log.lh, s < v.logStart
  length : fs.log.lh.length ≤ v.sb.nlog - 1
  synced : ∀ (k s : Nat), fs.log.lh[k]? = some s → fs.blk (v.logStart + k + 1) = fs.blk s
  dirty : fs.dirty.Perm fs.log.lh

def absorb (l : List Nat) (s : Nat) : List Nat := if s ∈ l then l else l ++ [s]

theorem length_absorb_le (l : List Nat) (s : Nat) : (absorb l s).length ≤ l.length + 1 := by
  unfold absorb
  split <;> simp

theorem mem_absorb {l : List Nat} {s t : Nat} : t ∈ absorb l s ↔ t ∈ l ∨ t = s := by
  unfold absorb
  split
  · constructor
    · exact Or.inl
    · rintro (h | rfl) <;> assumption
  · simp

def afterLog (fs : Fs) (s : Nat) (d : Block) : Fs :=
  { fs with
    blk := Function.update (Function.update fs.blk s d) (fs.log.start + fs.log.lh.idxOf s + 1) d
    log := { fs.log with lh := absorb fs.log.lh s }
    dirty := fs.dirty.insert s }

section

variable {v : Volume} {fs : Fs} {s : Nat} {ok : Stop → Prop} {G : Event → Prop}

theorem LogRep.congr {fs' : Fs} (h : LogRep v fs) (hd : fs'.disksize = fs.disksize) (hl : fs'.log = fs.log)
    (hb : fs'.blk = fs.blk) (hdirty : fs'.dirty = fs.dirty) : LogRep v fs' where
  disksize := hd ▸ h.disksize
  start := hl ▸ h.start
  size := hl ▸ h.size
  nodup := hl ▸ h.nodup
  below := hl ▸ h.below
  length := hl ▸ h.length
  synced := by rw [hl, hb]; exact h.synced
  dirty := by rw [hdirty, hl]; exact h.dirty

@[simp] theorem logRep_held (l : List Nat) : LogRep v { fs with held := l } ↔ LogRep v fs :=
  ⟨fun h => h.congr rfl rfl rfl rfl, fun h => h.congr rfl rfl rfl rfl⟩

@[simp] theorem logRep_icache (c : Nat → Inode) : LogRep v { fs with icache := c } ↔ LogRep v fs :=
  ⟨fun h => h.congr rfl rfl rfl rfl, fun h => h.congr rfl rfl rfl rfl⟩

theorem LogRep.afterLog_blk (h : LogRep v fs) (d : Block) {b : Nat} (hb : b < v.logStart) :
    (afterLog fs s d).blk b = Function.update fs.blk s d b := by
  have hne : b ≠ fs.log.start + fs.log.lh.idxOf s + 1 := by rw [h.start]; omega
  simp only [BlockSpecs.afterLog, Function.update_of_ne hne]

theorem LogRep.afterLog (h : LogRep v fs) (hs : s < v.logStart) (hl : fs.log.lh.length < v.sb.nlog - 1)
    (d : Block) : LogRep v (afterLog fs s d) where
  disksize := h.disksize
  start := h.start
  size := h.size
  nodup := by
    simp only [BlockSpecs.afterLog, absorb]
    split
    · exact h.nodup
    · rename_i hm
      refine List.nodup_append.2 ⟨h.nodup, by simp, ?_⟩
      intro a ha b hb he
      rw [List.mem_singleton.1 hb] at he
      exact hm (he ▸ ha)
  below := by
    intro t ht
    rcases mem_absorb.1 ht with ht | rfl
    · exact h.below t ht
    · exact hs
  length := (length_absorb_le _ _).trans hl
  synced := by
    intro k t hk
    have ht : t < v.logStart := by
      rcases mem_absorb.1 (List.mem_of_getElem? hk) with ht | rfl
      · exact h.below t ht
      · exact hs
    rw [h.afterLog_blk d ht]
    have hidx : k = fs.log.lh.idxOf s ↔ t = s := by
      simp only [BlockSpecs.afterLog, absorb] at hk
      by_cases hm : s ∈ fs.log.lh
      · rw [if_pos hm] at hk
        obtain ⟨hlt, hk⟩ := List.getElem?_eq_some_iff.1 hk
        constructor
        · rintro rfl
          rw [← hk, List.getElem_idxOf]
        · intro he
          rw [← he, ← hk]
          exact (h.nodup.idxOf_getElem k hlt).symm
      · rw [if_neg hm] at hk
        have hlen : fs.log.lh.idxOf s = fs.log.lh.length := List.idxOf_eq_length_iff.2 hm
        rw [hlen]
        rcases Nat.lt_or_ge k fs.log.lh.length with hlt | hge
        · rw [List.getElem?_append_left hlt] at hk
          constructor
          · omega
          · intro he
            exact absurd (List.mem_of_getElem? (he ▸ hk)) hm
        · have hk0 : k - fs.log.lh.length = 0 := by
            rw [List.getElem?_append_right hge] at hk
            have := (List.getElem?_eq_some_iff.1 hk).1
            simp at this
            omega
          rw [List.getElem?_append_right hge, hk0] at hk
          simp at hk
          exact ⟨fun _ => hk.symm, fun _ => by omega⟩
    simp only [BlockSpecs.afterLog, h.start]
    by_cases hks : k = fs.log.lh.idxOf s
    · rw [← hks, Function.update_self, hidx.1 hks, Function.update_self]
    · have hts : t ≠ s := fun he => hks (hidx.2 he)
      have hne : v.logStart + k + 1 ≠ v.logStart + fs.log.lh.idxOf s + 1 := by omega
      have hne' : v.logStart + k + 1 ≠ s := by omega
      rw [Function.update_of_ne hne, Function.update_of_ne hne', Function.update_of_ne hts]
      apply h.synced
      simp only [BlockSpecs.afterLog, absorb] at hk
      split at hk
      · exact hk
      · rename_i hm
        have hlt : k < fs.log.lh.length := by
          by_contra hge
          have := (List.getElem?_eq_some_iff.1 hk).1
          rw [List.idxOf_eq_length_iff.2 hm] at hks
          simp at this
          omega
        rwa [List.getElem?_append_left hlt] at hk
  dirty := by
    have hm : s ∈ fs.dirty ↔ s ∈ fs.log.lh := h.dirty.mem_iff
    simp only [BlockSpecs.afterLog, absorb, List.insert]
    by_cases hs : s ∈ fs.log.lh
    · simpa [hs, hm] using h.dirty
    · simpa [hs, hm] using (h.dirty.cons s).trans (List.perm_append_singleton s _).symm

theorem LogRep.length_union_le (h : LogRep v fs) :
    (fs.held ∪ fs.dirty).length ≤ fs.held.length + fs.log.lh.length := by
  rw [← h.dirty.length_eq]
  exact (List.union_sublist_append _ _).length_le.trans_eq List.length_append

/-- Nothing stands in the way of reading sector s, but for a lack of buffers where that is
tolerated. -/
def Readable (ok : Stop → Prop) (fs : Fs) (s : Nat) : Prop :=
  s ∉ fs.held ∧ (Unbounded ok ∨ fs.held.length + fs.log.lh.length < NBUF)

theorem bread_spec (h : LogRep v fs) (hs : s < v.disksize) (hr : Lenient ok ∨ Readable ok fs s) :
    (bread s fs).Holds G (fun d fs' => d = fs.blk s ∧ fs' = { fs with held := s :: fs.held })
      (fun w _ => ok w) := by
  have hd : ¬fs.disksize ≤ s := by rw [h.disksize]; omega
  simp only [bread, holds_bind, holds_fetch, holds_ite, holds_sleep, holds_panic, holds_update, holds_pure]
  refine ⟨fun hheld => ?_, fun _ => ⟨fun hfull => ?_, fun _ => ⟨fun hle => absurd hle hd, fun _ => ⟨trivial, trivial⟩⟩⟩⟩
  · rcases hr with hr | hr
    · exact hr _ (by decide)
    · exact absurd hheld hr.1
  · rcases hr with hr | ⟨-, hr | hr⟩
    · exact hr _ (by decide)
    · exact hr _ (by decide)
    · have := h.length_union_le
      omega

@[simp] theorem holds_brelse {Q : Unit → Fs → Prop} {E : Stop → Fs → Prop} :
    (brelse s fs).Holds G Q E ↔ Q () { fs with held := fs.held.erase s } := by
  simp [brelse]

/-- Nothing stands in the way of logging a sector: the log has a slot left and a buffer is
free for it, or the stops for their lack are tolerated. -/
structure Loggable (ok : Stop → Prop) (v : Volume) (fs : Fs) : Prop where
  held : ∀ s ∈ fs.held, s < v.logStart
  room : Unbounded ok ∨ fs.log.lh.length < LOGSIZE ∧ fs.log.lh.length < v.sb.nlog - 1 ∧
    fs.held.length + fs.log.lh.length < NBUF

theorem logWrite_spec (h : LogRep v fs) (d : Block)
    (hbusy : fs.log.busy = true) (hr : Lenient ok ∨ Loggable ok v fs) :
    (logWrite s d fs).Holds G
      (fun _ fs' => fs' = afterLog fs s d ∧ fs.log.lh.length < v.sb.nlog - 1) (fun w _ => ok w) := by
  simp only [logWrite, holds_bind, holds_fetch, holds_ite, holds_panic, holds_update, setBlk, setLog, hbusy,
    not_true_eq_false, false_implies, true_and, not_false_eq_true, true_implies, h.start, h.size]
  refine ⟨fun hbig => ?_, fun hbig => ?_⟩
  · rcases hr with hr | hr
    · exact hr _ (by decide)
    · rcases hr.room with hr | hr
      · exact hr _ (by decide)
      · omega
  · have hlt : fs.log.lh.length < v.sb.nlog - 1 := by omega
    have hidx : fs.log.lh.idxOf s ≤ fs.log.lh.length := List.idxOf_le_length
    have hslot : v.logStart + fs.log.lh.idxOf s + 1 < v.disksize := by
      have := v.logStart_le
      omega
    have hnotdirty : v.logStart + fs.log.lh.idxOf s + 1 ∉ fs.dirty := by
      intro hm
      have := h.below _ (h.dirty.mem_iff.1 hm)
      omega
    -- The block has been changed in its buffer already; the slot is read and overwritten.
    have hb : (bread (v.logStart + fs.log.lh.idxOf s + 1) { fs with blk := Function.update fs.blk s d }).Holds G
        (fun _ fs' => fs' = { fs with
          blk := Function.update fs.blk s d
          held := (v.logStart + fs.log.lh.idxOf s + 1) :: fs.held }) (fun w _ => ok w) := by
      simp only [bread, holds_bind, holds_fetch, holds_ite, holds_sleep, holds_panic, holds_update, holds_pure]
      refine ⟨fun hheld => ?_, fun _ => ⟨fun hfull => ?_, fun _ => ⟨fun hle => ?_, fun _ => trivial⟩⟩⟩
      · rcases hr with hr | hr
        · exact hr _ (by decide)
        · have := hr.held _ hheld
          omega
      · rcases hr with hr | hr
        · exact hr _ (by decide)
        · rcases hr.room with hr | hr
          · exact hr _ (by decide)
          · have := h.length_union_le
            omega
      · rw [h.disksize] at hle
        omega
    refine hb.mono (fun _ fs' he => ?_) fun _ _ => id
    subst he
    simp only [bwrite, setBlk, holds_bind, holds_update, holds_brelse, List.erase_cons_head,
      List.erase_of_not_mem hnotdirty, afterLog, absorb, h.start]
    refine ⟨?_, hlt⟩
    by_cases hm : s ∈ fs.log.lh
    · have hne : fs.log.lh.idxOf s ≠ fs.log.lh.length := (List.idxOf_lt_length_iff.2 hm).ne
      simp [hm, hne]
    · simp [hm]

theorem bread_lenient (hok : Lenient ok) (s : Nat) (fs : Fs) :
    (bread s fs).Holds G (fun d fs' => d = fs.blk s ∧ fs' = { fs with held := s :: fs.held })
      (fun w _ => ok w) := by
  simp only [bread, holds_bind, holds_fetch, holds_ite, holds_sleep, holds_panic, holds_update, holds_pure]
  exact ⟨fun _ => hok _ (by decide), fun _ => ⟨fun _ => hok _ (by decide), fun _ =>
    ⟨fun _ => hok _ (by decide), fun _ => ⟨trivial, trivial⟩⟩⟩⟩

theorem installTrans_loop_spec (hok : Lenient ok) (l : List Nat) (tail : Nat)
    (hs : ∀ (k s : Nat), l[k]? = some s → fs.blk (fs.log.start + tail + k + 1) = fs.blk s) :
    (installTrans.loop tail l fs).Holds G (fun _ fs' => fs' = { fs with dirty := fs.dirty.diff l })
      (fun w _ => ok w) := by
  induction l generalizing fs tail with
  | nil => simp [installTrans.loop]
  | cons sector rest ih =>
      have hhead := hs 0 sector rfl
      simp only [installTrans.loop, holds_bind, holds_fetch]
      refine (bread_lenient hok _ fs).mono ?_ fun _ _ => id
      rintro _ _ ⟨rfl, rfl⟩
      refine (bread_lenient hok _ _).mono ?_ fun _ _ => id
      rintro _ _ ⟨-, rfl⟩
      have hself : Function.update fs.blk sector (fs.blk (fs.log.start + tail + 1)) = fs.blk := by
        rw [show fs.blk (fs.log.start + tail + 1) = fs.blk sector from hhead, Function.update_eq_self]
      have herase : ((sector :: (fs.log.start + tail + 1) :: fs.held).erase (fs.log.start + tail + 1)).erase sector =
          fs.held := by
        by_cases he : sector = fs.log.start + tail + 1 <;> simp [he]
      simp only [bwrite, setBlk, holds_bind, holds_update, holds_brelse, hself, herase]
      refine (ih (tail + 1) ?_).mono ?_ fun _ _ => id
      · intro k s hk
        have := hs (k + 1) s hk
        rwa [show fs.log.start + tail + (k + 1) + 1 = fs.log.start + (tail + 1) + k + 1 by omega] at this
      · rintro _ _ rfl
        simp [List.diff_cons]

theorem writeHead_spec (hok : Lenient ok) (fs : Fs) :
    (writeHead fs).Holds G
      (fun _ fs' => fs' = { fs with
        blk := Function.update fs.blk fs.log.start ((fs.blk fs.log.start).setSlice 0 (Log.encodeHead fs.log.lh))
        dirty := fs.dirty.erase fs.log.start }) (fun w _ => ok w) := by
  simp only [writeHead, holds_bind, holds_fetch]
  refine (bread_lenient hok _ fs).mono ?_ fun _ _ => id
  rintro _ _ ⟨rfl, rfl⟩
  simp [bwrite, setBlk]

theorem commitTrans_spec (h : LogRep v fs) (hok : Lenient ok) :
    (commitTrans fs).Holds G
      (fun _ fs' => LogRep v fs' ∧ fs'.log.lh = [] ∧ fs'.log.busy = false ∧ fs'.icache = fs.icache ∧
        fs'.held = fs.held ∧ fs'.input = fs.input ∧ ∀ b < v.logStart, fs'.blk b = fs.blk b)
      (fun w _ => ok w) := by
  have hrep : ∀ blk : Nat → Block,
      LogRep v { fs with blk := blk, dirty := [], log := { fs.log with lh := [], busy := false } } :=
    fun blk => ⟨h.disksize, h.start, h.size, List.nodup_nil, by simp, by simp, by simp, List.Perm.nil⟩
  simp only [commitTrans, holds_bind, holds_fetch, holds_ite, holds_pure, setLog, holds_update, installTrans]
  refine ⟨fun _ => ?_, fun hnil => ?_⟩
  · refine (writeHead_spec hok fs).mono ?_ fun _ _ => id
    rintro _ _ rfl
    have hclean : fs.dirty.erase fs.log.start = fs.dirty := by
      apply List.erase_of_not_mem
      intro hm
      have := h.below _ (h.dirty.mem_iff.1 hm)
      rw [h.start] at this
      omega
    have hself : ∀ l : List Nat, l.diff l = [] := fun l => by
      induction l with
      | nil => rfl
      | cons a l ih => simpa [List.diff_cons] using ih
    have hdiff : fs.dirty.diff fs.log.lh = [] := by
      have := h.dirty.diff_right fs.log.lh
      rw [hself] at this
      exact this.eq_nil
    refine (installTrans_loop_spec hok fs.log.lh 0 ?_).mono ?_ fun _ _ => id
    · intro k s hk
      have hs := h.below s (List.mem_of_getElem? hk)
      simp only [h.start]
      rw [Function.update_of_ne (by omega), Function.update_of_ne (by omega)]
      exact h.synced k s hk
    · rintro _ _ rfl
      refine (writeHead_spec hok _).mono ?_ fun _ _ => id
      rintro _ _ rfl
      simp only [hclean, hdiff, List.erase_nil]
      refine ⟨hrep _, trivial, trivial, trivial, trivial, trivial, ?_⟩
      intro b hb
      rw [Function.update_of_ne (by rw [h.start]; omega), Function.update_of_ne (by rw [h.start]; omega)]
  · have hlh : fs.log.lh = [] := List.eq_nil_of_length_eq_zero (by omega)
    have hdirty : fs.dirty = [] := by
      have := h.dirty
      rw [hlh] at this
      exact this.eq_nil
    have := hrep fs.blk
    exact ⟨by simpa [hlh, hdirty] using this, hlh, trivial, trivial, trivial, trivial, fun _ _ => trivial⟩

theorem beginTrans_spec (hok : Lenient ok) :
    (beginTrans fs).Holds G (fun _ fs' => fs.log.busy = false ∧ fs' = { fs with log := { fs.log with busy := true } })
      (fun w _ => ok w) := by
  simp only [beginTrans, holds_bind, holds_fetch, holds_ite, holds_sleep, setLog, holds_update]
  exact ⟨fun _ => hok _ (by decide), fun h => ⟨by simpa using h, trivial⟩⟩

theorem LogRep.busy (h : LogRep v fs) (b : Bool) : LogRep v { fs with log := { fs.log with busy := b } } :=
  ⟨h.disksize, h.start, h.size, h.nodup, h.below, h.length, h.synced, h.dirty⟩

end

end ArmXv6.BlockSpecs
