import ArmXv6.Recovery

namespace ArmXv6.CrashSafety

open Lib Lib.Exec Param Bio Log Cache Recovery

/-- Between transactions: nothing is held or dirty, and the log is empty both in
memory and on the disk. -/
structure AtRest (io : Io) : Prop where
  cache : CacheInv io io.memdisk ∅ ∅ ∅
  fit : LogFits io
  idle : io.log.busy = false
  lh_nil : io.log.lh = []
  header : decodeHead (io.memdisk io.log.start) = []

variable {io : Io} {ws : List DiskWrite}

/-- The sectors a transaction may log: on the disk, outside the log, and few
enough distinct ones for log_write to accept them. -/
structure Loggable (io : Io) (ws : List DiskWrite) : Prop where
  outside : ∀ w ∈ ws, ¬(layout io.log).region w.1
  on_disk : ∀ w ∈ ws, w.1 < io.disksize
  room : (ws.map Prod.fst).toFinset.card < min LOGSIZE (io.log.size - 1)

/-- A disk whose next recovery gives the contents x: the redo log determines x, and
the sectors it names are distinct sectors of the disk. -/
def Recovers (log : Bio.Log) (disksize : Nat) (d x : Nat → Block) : Prop :=
  ∃ l, Redo.Determines (layout log) (capacity log) d x l ∧ l.Nodup ∧ ∀ s ∈ l, s < disksize

theorem inTrans_of_atRest (h : AtRest io) :
    InTrans { io with log := { io.log with busy := true } } io.memdisk := by
  obtain ⟨hc, hfit, -, hlh, -⟩ := h
  refine ⟨?_, ⟨hfit.size_pos, hfit.on_disk, hfit.in_memory⟩, rfl, by simp [hlh], by simp [hlh], by simp [hlh]⟩
  simpa [hlh] using withLog_inv hc { io.log with busy := true }

theorem recovers_atRest (h : AtRest io) : Recovers io.log io.disksize io.memdisk io.memdisk :=
  ⟨[], ⟨h.header, Nat.zero_le _, by simp, by simp, fun _ _ _ => rfl⟩, by simp, by simp⟩

theorem recovers_commit {view : Nat → Block} {t : List DiskWrite} {io' : Io} (h : AtRest io)
    (hws : Loggable io ws) (hin : InTrans io' view)
    (hslot : ∀ w ∈ t, (layout io.log).region w.1 ∧ w.1 ≠ io.log.start)
    (hmem : io'.memdisk = Redo.apply io.memdisk t)
    (hview : ∀ s, ¬(layout io.log).region s → view s = Redo.apply io.memdisk ws s)
    (hds : io'.disksize = io.disksize)
    (hlog : io'.log = { io.log with busy := true, lh := (ws.map Prod.fst).foldl absorb [] }) (b : Block) :
    Recovers io.log io.disksize
      (Function.update io'.memdisk io.log.start (b.setSlice 0 (encodeHead io'.log.lh)))
      (Redo.apply io.memdisk ws) := by
  have hlay : layout io'.log = layout io.log := by rw [hlog]; rfl
  have hstart : io'.log.start = io.log.start := by rw [hlog]
  have hmemlh (s : Nat) : s ∈ io'.log.lh ↔ s ∈ ws.map Prod.fst := by
    rw [hlog, mem_foldl_absorb]
    simp
  have hlen : io'.log.lh.length < min LOGSIZE (io.log.size - 1) := by
    have hcard := List.toFinset_card_of_nodup hin.nodup
    have hset : io'.log.lh.toFinset = (ws.map Prod.fst).toFinset := by
      ext s
      rw [List.mem_toFinset, List.mem_toFinset, hmemlh]
    have := hws.room
    rw [← hset, hcard] at this
    exact this
  have hlh32 (s : Nat) (hs : s ∈ io'.log.lh) : s < 2 ^ 32 := by
    have h1 := (hin.home s hs).2
    have h2 := hin.fit.in_memory
    simp only [BSIZE] at h2
    omega
  refine ⟨io'.log.lh, ⟨?_, ?_, ?_, ?_, ?_⟩, hin.nodup, fun s hs => hds ▸ (hin.home s hs).2⟩
  · simp only [layout, Function.update_self]
    refine decodeHead_encodeHead b _ ?_ hlh32
    simp only [LOGSIZE, BSIZE] at *
    omega
  · exact Nat.le_of_lt hlen
  · exact fun s hs => hlay ▸ (hin.home s hs).1
  · intro i hi
    have hcache := hin.cache.disk (io'.log.start + i + 1) ?_ (Finset.notMem_empty _)
    · have hne : (layout io.log).slot i ≠ io.log.start := by simp only [layout]; omega
      rw [Function.update_of_ne hne, ← hview _ (hlay ▸ (hin.home _ (List.getElem_mem hi)).1),
        ← hin.slots i hi, hcache, hstart]
      rfl
    · intro hd
      refine (hin.home _ (List.mem_toFinset.mp hd)).1 ?_
      rw [hlay, hstart]
      simp only [layout]
      omega
  · intro s hs hns
    have hne : s ≠ io.log.start := fun he => hs (he ▸ (layout_lawful io.log h.fit.size_pos).head_mem)
    have hold : Redo.apply io.memdisk t s = io.memdisk s :=
      Redo.apply_of_not_mem _ _ _ fun w hw he => hs (he ▸ (hslot w hw).1)
    have hnew : Redo.apply io.memdisk ws s = io.memdisk s := by
      refine Redo.apply_of_not_mem _ _ _ fun w hw he => hns ?_
      rw [hmemlh]
      exact List.mem_map.mpr ⟨w, hw, he⟩
    rw [Function.update_of_ne hne, hmem, hold, hnew]

/-- The disk writes of a transaction: first the slots, and then, unless nothing was
logged, the commit record followed by exactly the writes of a recovery. -/
theorem transaction_spec (h : AtRest io) (hws : Loggable io ws) :
    ∃ io' t u, transaction ws io = .ok () io' (t ++ u) ∧
      io'.memdisk = Redo.apply io.memdisk (t ++ u) ∧
      (∀ w ∈ t, (layout io.log).region w.1 ∧ w.1 ≠ io.log.start) ∧
      ((ws = [] ∧ u = []) ∨ ∃ hb,
        Recovers io.log io.disksize (Function.update (Redo.apply io.memdisk t) io.log.start hb)
          (Redo.apply io.memdisk ws) ∧
        u = (io.log.start, hb) :: Redo.recovery (layout io.log)
          (Function.update (Redo.apply io.memdisk t) io.log.start hb)) := by
  have hbegin : beginTrans io = .ok () { io with log := { io.log with busy := true } } [] := by
    simp [beginTrans, bind_apply, fetch_apply, update_apply, after_ok, h.idle]
  obtain ⟨io₁, view, t, h1, i1, hslot, m1, -, hv, s1, l1⟩ := writeBlocks_spec ws (inTrans_of_atRest h)
    (fun w hw => ⟨hws.outside w hw, hws.on_disk w hw⟩)
      (by rw [show io.log.lh.toFinset = ∅ by simp [h.lh_nil], Finset.union_empty]; exact hws.room)
  simp only [h.lh_nil] at l1
  have hlay : layout io₁.log = layout io.log := by rw [l1]; rfl
  have hstart : io₁.log.start = io.log.start := by rw [l1]
  have hmem (s : Nat) : s ∈ io₁.log.lh ↔ s ∈ ws.map Prod.fst := by
    rw [l1, mem_foldl_absorb]
    simp
  by_cases hnil : ws = []
  · subst hnil
    have hlh : io₁.log.lh = [] := List.eq_nil_iff_forall_not_mem.mpr fun s hs => by simpa using (hmem s).mp hs
    have hcommit : commitTrans io₁ = .ok () { io₁ with log := { io₁.log with busy := false } } [] := by
      refine bind_ok (fetch_apply io₁) ?_
      rw [if_neg (by simp [hlh])]
      exact bind_ok (pure_apply () io₁) (update_apply _ io₁)
    refine ⟨{ io₁ with log := { io₁.log with busy := false } }, t, [], ?_, ?_, hslot, .inl ⟨rfl, rfl⟩⟩
    · exact bind_ok_of_eq hbegin (bind_ok h1 hcommit) (List.nil_append _)
    · rw [List.append_nil]
      exact m1
  · have hrec := recovers_commit h hws i1 hslot m1 hv s1 l1 (view io.log.start)
    obtain ⟨hb, hhb⟩ : ∃ hb, hb = (view io.log.start).setSlice 0 (encodeHead io₁.log.lh) := ⟨_, rfl⟩
    rw [← hhb] at hrec
    have hregion := (layout_lawful io.log h.fit.size_pos).head_mem
    have hcard : io₁.log.lh.toFinset.card < min LOGSIZE (io.log.size - 1) := by
      rw [show io₁.log.lh.toFinset = (ws.map Prod.fst).toFinset by
        ext s; rw [List.mem_toFinset, List.mem_toFinset, hmem]]
      exact hws.room
    have hNBUF : io₁.log.lh.toFinset.card < NBUF := by simp only [LOGSIZE, NBUF] at *; omega
    have hdirty {s : Nat} (hs : (layout io.log).region s) : s ∉ io₁.log.lh.toFinset := fun hd =>
      (i1.home s (List.mem_toFinset.mp hd)).1 (hlay ▸ hs)
    obtain ⟨io₂, h2, c2, m2, s2, l2⟩ := writeHead_spec i1.cache i1.fit hNBUF (hstart ▸ hdirty hregion)
    rw [hstart, ← hhb] at h2 c2 m2
    have hlen : io₂.log.lh.length < io₂.log.size := by
      have hc := List.toFinset_card_of_nodup i1.nodup
      have hs : io₂.log.size = io.log.size := by rw [l2, l1]
      rw [l2] at hs ⊢
      omega
    rw [← l2] at c2
    obtain ⟨io₃, h3, -, m3, -, l3⟩ := replay_spec c2
      ⟨l2 ▸ i1.fit.size_pos, by rw [l2, s2]; exact i1.fit.on_disk, by rw [s2]; exact i1.fit.in_memory⟩
      (fun s hs => by rw [l2, s2]; exact i1.home s (l2 ▸ hs)) hlen (Finset.Subset.refl _) (l2 ▸ i1.nodup)
      (by rw [l2]; exact hNBUF) (.inl fun s hs => List.mem_toFinset.mpr hs)
    have hdisk : Function.update (Redo.apply io.memdisk t) io.log.start hb = io₂.memdisk := by
      rw [m2, m1]
    have hreplay : replayWrites io₂.log (Function.update view io.log.start hb) =
        Redo.recovery (layout io.log) io₂.memdisk := by
      have hhead : io₂.memdisk io.log.start = hb := by rw [m2, Function.update_self]
      have hdec : (layout io.log).decode (io₂.memdisk (layout io.log).head) = io₂.log.lh := by
        obtain ⟨l, hl, -⟩ := hrec
        have hd := hl.header
        rw [l2]
        change decodeHead (io₂.memdisk io.log.start) = _
        rw [hhead, hhb]
        refine decodeHead_encodeHead _ _ ?_ fun s hs => ?_
        · have hc := List.toFinset_card_of_nodup i1.nodup
          simp only [LOGSIZE, BSIZE] at *
          omega
        · have h1 := (i1.home s hs).2
          have h2 := i1.fit.in_memory
          simp only [BSIZE] at h2
          omega
      have hinst : Redo.installs (layout io.log) (Function.update view io.log.start hb) 0 io₂.log.lh =
          Redo.installs (layout io.log) io₂.memdisk 0 io₂.log.lh := by
        refine Redo.installs_congr _ _ _ _ _ fun j hj => ?_
        refine c2.disk _ ?_ (Finset.notMem_empty _)
        rw [l2]
        refine hdirty ?_
        have hs : io₂.log.size = io.log.size := by rw [l2, l1]
        simp only [layout]
        omega
      rw [replayWrites, Redo.recovery, hdec, ← hinst]
      have hlay2 : layout io₂.log = layout io.log := by rw [l2]; exact hlay
      have hst2 : io₂.log.start = io.log.start := by rw [l2]; exact hstart
      rw [hlay2, hst2, Function.update_self, ← hhead]
      rfl
    rw [hreplay] at h3 m3
    have hcommit : commitTrans io₁ = .ok () { io₃ with log := { io₃.log with busy := false } }
        ((io.log.start, hb) :: Redo.recovery (layout io.log) io₂.memdisk) := by
      refine bind_ok (fetch_apply io₁) ?_
      have hpos : 0 < io₁.log.lh.length := by
        obtain ⟨w, hw⟩ := List.exists_mem_of_ne_nil ws hnil
        exact List.length_pos_of_mem ((hmem w.1).mpr (List.mem_map_of_mem hw))
      rw [if_pos hpos]
      exact bind_ok_of_eq (bind_ok h2 h3) (update_apply _ io₃) (List.append_nil _)
    refine ⟨{ io₃ with log := { io₃.log with busy := false } }, t, _, ?_, ?_, hslot, .inr ⟨hb, ?_, rfl⟩⟩
    · rw [hdisk]
      exact bind_ok_of_eq hbegin (bind_ok h1 hcommit) (List.nil_append _)
    · rw [Redo.apply_append, Redo.apply_cons, hdisk]
      exact m3
    · rw [m1] at hrec
      exact hrec

/-- The kernel's state when it starts again with a given disk: an empty cache and
an empty log in memory. -/
def reboot (log : Bio.Log) (disksize : Nat) (d : Nat → Block) : Io :=
  binit d disksize { log with busy := false, lh := [] }

/-- The disk when the machine stops after k disk writes of a run that began with disk d. -/
def stopAfter {α : Type} (d : Nat → Block) (r : Run DiskWrite Io α) (k : Nat) : Nat → Block :=
  Redo.apply d (r.trace.take k)

/-- Disks left by any number of recoveries, each stopped somewhere between two writes. -/
inductive Interrupted (log : Bio.Log) (disksize : Nat) (d : Nat → Block) : (Nat → Block) → Prop
  | refl : Interrupted log disksize d d
  | again {e : Nat → Block} (k : Nat) : Interrupted log disksize d e →
      Interrupted log disksize d (stopAfter e (recoverFromLog (reboot log disksize e)) k)

theorem recover_run {log : Bio.Log} {disksize : Nat} {d x : Nat → Block}
    (hfit : LogFits (reboot log disksize d)) (h : Recovers log disksize d x) :
    ∃ io', recoverFromLog (reboot log disksize d) = .ok () io' (Redo.recovery (layout log) d) ∧
      io'.memdisk = Redo.apply d (Redo.recovery (layout log) d) := by
  obtain ⟨l, hl, hnd, hlt⟩ := h
  exact recoverFromLog_spec (binit_inv d disksize { log with busy := false, lh := [] }) hfit hl hlt hnd

theorem recovers_interrupted {log : Bio.Log} {disksize : Nat} {d e x : Nat → Block}
    (hfit : ∀ d, LogFits (reboot log disksize d)) (hpos : 0 < log.size)
    (h : Recovers log disksize d x) (he : Interrupted log disksize d e) :
    Recovers log disksize e x := by
  induction he with
  | refl => exact h
  | @again e k _ ih =>
      obtain ⟨io', hrun, -⟩ := recover_run (hfit e) ih
      obtain ⟨l, hl, hnd, hlt⟩ := ih
      obtain ⟨l', hl', hdet⟩ := hl.recovery_take (layout_lawful log hpos) k
      rw [stopAfter, hrun]
      refine ⟨l', hdet, ?_, ?_⟩
      · rcases hl' with rfl | rfl
        · exact hnd
        · simp
      · rcases hl' with rfl | rfl
        · exact hlt
        · simp

/-- At every stopping point inside a transaction the disk recovers to the old contents
before the commit record is written, and to the new ones from then on. -/
theorem recovers_transaction (h : AtRest io) (hws : Loggable io ws) (k : Nat) :
    Recovers io.log io.disksize (stopAfter io.memdisk (transaction ws io) k)
      (if ∃ w ∈ (transaction ws io).trace.take k, w.1 = io.log.start then Redo.apply io.memdisk ws
        else io.memdisk) := by
  have hlawful := layout_lawful io.log h.fit.size_pos
  obtain ⟨io', t, u, hrun, -, hslot, hu⟩ := transaction_spec h hws
  obtain ⟨l0, hrest, hnd0, hlt0⟩ := recovers_atRest h
  have htrace : (transaction ws io).trace = t ++ u := by rw [hrun]; rfl
  have hl0 : l0 = [] := by rw [← hrest.header]; exact h.header
  subst hl0
  have hbefore (v : List DiskWrite) (hv : ∀ w ∈ v, w ∈ t) :
      Recovers io.log io.disksize (Redo.apply io.memdisk v) io.memdisk :=
    ⟨[], hrest.slotWrites v fun w hw => hslot w (hv w hw), hnd0, hlt0⟩
  rw [stopAfter, htrace]
  by_cases hk : k ≤ t.length
  · have htake : (t ++ u).take k = t.take k := List.take_append_of_le_length hk
    rw [htake, if_neg]
    · exact hbefore _ fun w hw => List.mem_of_mem_take hw
    · rintro ⟨w, hw, he⟩
      exact (hslot w (List.mem_of_mem_take hw)).2 he
  · rcases hu with ⟨rfl, rfl⟩ | ⟨hb, ⟨l, hdet, hnd, hlt⟩, rfl⟩
    · have htake : (t ++ []).take k = t := by
        rw [List.append_nil]
        exact List.take_of_length_le (by omega)
      rw [htake, if_neg]
      · exact hbefore t fun w hw => hw
      · rintro ⟨w, hw, he⟩
        exact (hslot w hw).2 he
    · obtain ⟨j, rfl⟩ : ∃ j, k = t.length + (j + 1) := ⟨k - t.length - 1, by omega⟩
      rw [List.take_length_add_append, List.take_succ_cons, if_pos ⟨(io.log.start, hb), by simp, rfl⟩,
        Redo.apply_append, Redo.apply_cons]
      obtain ⟨l', hl', hdet'⟩ := hdet.recovery_take hlawful j
      refine ⟨l', hdet', ?_, ?_⟩
      · rcases hl' with rfl | rfl
        · exact hnd
        · simp
      · rcases hl' with rfl | rfl
        · exact hlt
        · simp

/-- A completed transaction has written the commit record, and the new contents are in place. -/
theorem transaction_commits (h : AtRest io) (hws : Loggable io ws) :
    ∃ io' t, transaction ws io = .ok () io' t ∧ (ws ≠ [] → ∃ w ∈ t, w.1 = io.log.start) ∧
      ∀ s, ¬(layout io.log).region s → io'.memdisk s = Redo.apply io.memdisk ws s := by
  obtain ⟨io', t, u, hrun, hmem, hslot, hu⟩ := transaction_spec h hws
  refine ⟨io', t ++ u, hrun, fun hne => ?_, fun s hs => ?_⟩
  · obtain ⟨hb, -, rfl⟩ := hu.resolve_left fun hc => hne hc.1
    exact ⟨(io.log.start, hb), by simp, rfl⟩
  · rw [hmem, Redo.apply_append]
    rcases hu with ⟨rfl, rfl⟩ | ⟨hb, ⟨l, hdet, -⟩, rfl⟩
    · change Redo.apply io.memdisk t s = io.memdisk s
      exact Redo.apply_of_not_mem _ _ _ fun w hw he => hs (he ▸ (hslot w hw).1)
    · exact (hdet.recovery (layout_lawful io.log h.fit.size_pos)).rest s hs (by simp)

/-- Crash atomicity. A transaction from rest completes with its contents in place, and if it
logs anything it writes the commit record. If the machine stops after any number of its disk
writes, and again inside any number of recoveries, a complete recovery succeeds and leaves
every sector outside the log with its new contents if the commit record had reached the disk,
and with its old contents otherwise. -/
theorem crash_atomicity (io : Io) (h : AtRest io) (ws : List DiskWrite) (hws : Loggable io ws) :
    (∃ io' t, transaction ws io = .ok () io' t ∧ (ws ≠ [] → ∃ w ∈ t, w.1 = io.log.start) ∧
      ∀ s, ¬(io.log.start ≤ s ∧ s < io.log.start + io.log.size) →
        io'.memdisk s = Redo.apply io.memdisk ws s) ∧
    ∀ k d, Interrupted io.log io.disksize (stopAfter io.memdisk (transaction ws io) k) d →
      ∃ io' t, recoverFromLog (reboot io.log io.disksize d) = .ok () io' t ∧
        ∀ s, ¬(io.log.start ≤ s ∧ s < io.log.start + io.log.size) →
          io'.memdisk s =
            if ∃ w ∈ (transaction ws io).trace.take k, w.1 = io.log.start then
              Redo.apply io.memdisk ws s
            else io.memdisk s := by
  refine ⟨transaction_commits h hws, ?_⟩
  intro k d hd
  have hfit (e : Nat → Block) : LogFits (reboot io.log io.disksize e) :=
    ⟨h.fit.size_pos, h.fit.on_disk, h.fit.in_memory⟩
  have hrec := recovers_interrupted hfit h.fit.size_pos (recovers_transaction h hws k) hd
  obtain ⟨io', hrun, hmem⟩ := recover_run (hfit d) hrec
  obtain ⟨l, hdet, -⟩ := hrec
  refine ⟨io', _, hrun, fun s hs => ?_⟩
  have hfinal := (hdet.recovery (layout_lawful io.log h.fit.size_pos)).rest s hs (by simp)
  rw [hmem, hfinal]
  split <;> rfl

/-- A freshly booted kernel on an empty disk of 40 sectors with its log in the last ten. -/
def blank : Io := reboot ⟨30, 10, false, []⟩ 40 fun _ => Bytes.Mem.zero

def twoBlocks : List DiskWrite :=
  [(5, Bytes.Mem.zero.setBit 0), (6, Bytes.Mem.zero), (5, Bytes.Mem.zero.setBit 1)]

theorem blank_atRest : AtRest blank where
  cache := binit_inv _ _ _
  fit := ⟨by decide, by decide, by decide⟩
  idle := rfl
  lh_nil := rfl
  header := decodeHead_zero

theorem twoBlocks_loggable : Loggable blank twoBlocks :=
  ⟨by simp [twoBlocks, layout, blank, reboot, binit], by simp [twoBlocks, blank, reboot, binit], by decide⟩

theorem crash_atomicity_blank :
    AtRest blank ∧ Loggable blank twoBlocks ∧
    (∃ io' t, transaction twoBlocks blank = .ok () io' t ∧
      (twoBlocks ≠ [] → ∃ w ∈ t, w.1 = blank.log.start) ∧
      ∀ s, ¬(blank.log.start ≤ s ∧ s < blank.log.start + blank.log.size) →
        io'.memdisk s = Redo.apply blank.memdisk twoBlocks s) ∧
    ∀ k d, Interrupted blank.log blank.disksize (stopAfter blank.memdisk (transaction twoBlocks blank) k) d →
      ∃ io' t, recoverFromLog (reboot blank.log blank.disksize d) = .ok () io' t ∧
        ∀ s, ¬(blank.log.start ≤ s ∧ s < blank.log.start + blank.log.size) →
          io'.memdisk s =
            if ∃ w ∈ (transaction twoBlocks blank).trace.take k, w.1 = blank.log.start then
              Redo.apply blank.memdisk twoBlocks s
            else blank.memdisk s :=
  ⟨blank_atRest, twoBlocks_loggable, crash_atomicity blank blank_atRest twoBlocks twoBlocks_loggable⟩

end ArmXv6.CrashSafety
