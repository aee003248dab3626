import ArmXv6.Lib.Lockstep
import ArmXv6.Blocks
import ArmXv6.Transparency

namespace ArmXv6.BlockCache

open Lib.Exec Lib.Lockstep Param Bio Cache Transparency
open Blocks (Fs FsM)

variable {M : Finset Nat} {fs fs' : Fs} {io io' : Io} {b s c t : Nat} {d : Block}

/-- Every sector in the cache is one of the disk. -/
def Inside (io : Io) : Prop := ∀ b s, At io b s → s < io.disksize

/-- The buffers and the log are what the flat picture of the disk stands for. The sectors of M
have been changed in their buffers and are not logged yet. -/
structure Shows (M : Finset Nat) (fs : Fs) (io : Io) : Prop where
  cache : CacheInv io fs.blk fs.dirty.toFinset fs.held.toFinset M
  inside : Inside io
  size : fs.disksize = io.disksize
  log : fs.log = io.log
  held : fs.held.Nodup
  dirty : fs.dirty.Nodup

theorem Shows.pinned (h : Shows M fs io) :
    (fs.held ∪ fs.dirty).length = (fs.dirty.toFinset ∪ fs.held.toFinset).card := by
  have hnd : (fs.held ∪ fs.dirty).Nodup := List.Nodup.union fs.held h.dirty
  rw [← List.toFinset_card_of_nodup hnd, List.toFinset_union, Finset.union_comm]

/-- The buffers keep their sectors. -/
def Tags (io io' : Io) : Prop :=
  io'.disksize = io.disksize ∧ io'.log = io.log ∧ ∀ c, (io'.buf c).dev = (io.buf c).dev ∧
    (io'.buf c).sector = (io.buf c).sector

theorem Tags.refl (io : Io) : Tags io io := ⟨rfl, rfl, fun _ => ⟨rfl, rfl⟩⟩

theorem Tags.at_iff (h : Tags io io') : At io' c t ↔ At io c t := by
  unfold At
  rw [(h.2.2 c).1, (h.2.2 c).2]

theorem Tags.inside (h : Tags io io') (hi : Inside io) : Inside io' := fun b s ha => by
  rw [h.1]
  exact hi b s (h.at_iff.mp ha)

theorem tags_withBuf {x : Buf} (hd : x.dev = (io.buf b).dev) (hs : x.sector = (io.buf b).sector) :
    Tags io (withBuf io b x) := by
  refine ⟨rfl, rfl, fun c => ?_⟩
  rw [buf_withBuf]
  split
  case isTrue e => exact e ▸ ⟨hd, hs⟩
  case isFalse => exact ⟨rfl, rfl⟩

theorem tags_setBuf (b : Nat) {f : Buf → Buf} (hf : ∀ x, (f x).dev = x.dev ∧ (f x).sector = x.sector) :
    Preserves (Tags io) (setBuf b f) := by
  refine .update fun io' h => ⟨h.1, h.2.1, fun c => ?_⟩
  by_cases e : c = b
  · subst e
    simp only [Function.update_self]
    exact ⟨(hf _).1.trans (h.2.2 c).1, (hf _).2.trans (h.2.2 c).2⟩
  · simp only [Function.update_of_ne e]
    exact h.2.2 c

theorem tags_brelse (b : Nat) : Preserves (Tags io) (brelse b) :=
  .bind .fetch fun _ => .ite (.panic _) (.bind (.update fun _ h => h) fun _ => tags_setBuf b fun _ => ⟨rfl, rfl⟩)

theorem tags_iderw (b : Nat) : Preserves (Tags io) (iderw b) := by
  refine .bind .fetch fun _ => .ite (.panic _) (.ite (.panic _) (.ite (.panic _) (.ite (.panic _) (.ite ?_ ?_))))
  · refine .bind (tags_setBuf b fun _ => ⟨rfl, rfl⟩) fun _ => .bind ?_ fun _ => tags_setBuf b fun _ => ⟨rfl, rfl⟩
    exact .bind (.update fun _ h => h) fun _ => fun io' h => by simpa using h
  · exact tags_setBuf b fun _ => ⟨rfl, rfl⟩

theorem tags_bwrite (b : Nat) : Preserves (Tags io) (bwrite b) :=
  .bind .fetch fun _ => .ite (.panic _) (.bind (tags_setBuf b fun _ => ⟨rfl, rfl⟩) fun _ => tags_iderw b)

/-- What a read of sector s gives on both sides. -/
structure Taken (M : Finset Nat) (fs : Fs) (io : Io) (s : Nat) (d : Block) (b : Nat) (fs' : Fs) (io' : Io) : Prop where
  shows : Shows M fs' io'
  found : At io' b s
  state : fs' = { fs with held := s :: fs.held }
  data : d = fs.blk s
  free : s ∉ fs.held
  keep : ∀ c t, t ∈ fs.held → At io c t → At io' c t

theorem Shows.not_full (h : Shows M fs io) (hn : ¬NBUF ≤ (fs.held ∪ fs.dirty).length) : ¬Full io := by
  intro hf
  rw [h.pinned, Nat.not_le] at hn
  obtain ⟨b, hb, hbusy, hdirty⟩ := exists_clean h.cache hn
  rcases hf b hb with hc | hc
  · rw [hbusy] at hc
    cases hc
  · rw [hdirty] at hc
    cases hc

theorem Shows.full (h : Shows M fs io) (hn : NBUF ≤ (fs.held ∪ fs.dirty).length) : Full io := by
  by_contra hf
  have hlt := card_lt_of_not_full h.cache hf
  rw [← h.pinned] at hlt
  omega

/-- A sector with a buffer is pinned when all buffers are. -/
theorem Shows.uncached (h : Shows M fs io) (hf : Full io) (hs : s ∉ fs.held) (hd : s ∉ fs.dirty) (b : Nat) :
    ¬At io b s := by
  intro hb
  rcases hf b hb.1 with hc | hc
  · exact hs (List.mem_toFinset.mp ((h.cache.busy_eq hb).mp hc))
  · exact hd (List.mem_toFinset.mp ((h.cache.dirty_eq hb).mp hc))

/-- A read brings no other sector into the cache. -/
theorem bread_at (h : Shows M fs io) (hs : s ∉ fs.held) (hsize : s < io.disksize)
    (hcap : (fs.dirty.toFinset ∪ fs.held.toFinset).card < NBUF ∨ s ∈ fs.dirty) {u : List DiskWrite}
    (hrun : bread ROOTDEV s io = .ok b io' u) (ha : At io' c t) : At io c t ∨ t = s := by
  have hs' : s ∉ fs.held.toFinset := fun hm => hs (List.mem_toFinset.mp hm)
  by_cases hat : ∃ b, At io b s
  · obtain ⟨b₀, hb₀⟩ := hat
    rw [bread_hit h.cache hb₀ hs'] at hrun
    cases hrun
    refine .inl ?_
    unfold At at ha ⊢
    rw [buf_withBuf] at ha
    by_cases e : c = b
    · subst e
      simpa using ha
    · simpa [e] using ha
  · have hno : ∀ b, ¬At io b s := fun b hb => hat ⟨b, hb⟩
    have hcard : (fs.dirty.toFinset ∪ fs.held.toFinset).card < NBUF := by
      rcases hcap with hc | hc
      · exact hc
      · obtain ⟨b₀, hb₀⟩ := h.cache.pinned s (Finset.mem_union_left _ (List.mem_toFinset.mpr hc))
        exact absurd hb₀ (hno b₀)
    obtain ⟨b₀, -, -, -, hmiss⟩ := bread_miss h.cache hno hcard hsize
    rw [hmiss] at hrun
    cases hrun
    unfold At at ha ⊢
    rw [buf_withBuf] at ha
    by_cases e : c = b
    · subst e
      rw [if_pos rfl] at ha
      exact .inr ha.2.2.symm
    · rw [if_neg e] at ha
      exact .inl ha

theorem bread_inStep (h : Shows M fs io) (s : Nat) :
    InStep (Taken M fs io s) (Blocks.bread s fs) (bread ROOTDEV s io) := by
  unfold Blocks.bread
  rw [bind_apply, fetch_apply]
  dsimp only
  rw [inStep_after_left]
  by_cases hs : s ∈ fs.held
  · rw [if_pos hs, bread_held h.cache (List.mem_toFinset.mpr hs)]
    exact .stop
  rw [if_neg hs]
  have hs' : s ∉ fs.held.toFinset := fun hm => hs (List.mem_toFinset.mp hm)
  by_cases hfull : s ∉ fs.dirty ∧ NBUF ≤ (fs.held ∪ fs.dirty).length
  · have hf := h.full hfull.2
    rw [if_pos hfull, bread_full h.cache (h.uncached hf hs hfull.1) hf]
    exact .stop
  rw [if_neg hfull]
  have hcap : (fs.dirty.toFinset ∪ fs.held.toFinset).card < NBUF ∨ s ∈ fs.dirty := by
    by_cases hd : s ∈ fs.dirty
    · exact .inr hd
    · refine .inl ?_
      rw [← h.pinned]
      exact Nat.not_le.mp fun hn => hfull ⟨hd, hn⟩
  by_cases hsize : fs.disksize ≤ s
  · rw [if_pos hsize]
    have hno : ∀ b, ¬At io b s := fun b hb => Nat.not_le.mpr (h.inside b s hb) (h.size ▸ hsize)
    have hnd : s ∉ fs.dirty := fun hd => by
      obtain ⟨b, hb⟩ := h.cache.pinned s (Finset.mem_union_left _ (List.mem_toFinset.mpr hd))
      exact hno b hb
    have hnf := h.not_full fun hn => hfull ⟨hnd, hn⟩
    obtain ⟨io', hrun⟩ := bread_beyond h.cache hno hnf (h.size ▸ hsize)
    rw [hrun]
    exact .stop
  · rw [if_neg hsize]
    have hlt : s < io.disksize := h.size ▸ Nat.not_le.mp hsize
    obtain ⟨b, io', hrun, hc, ha, hsame, hkeep⟩ :=
      bread_spec h.cache hs' hlt (hcap.imp_right List.mem_toFinset.mpr)
    have hat : ∀ c t, At io' c t → At io c t ∨ t = s := fun c t => bread_at h hs hlt hcap hrun
    rw [hrun]
    refine .ok ⟨⟨?_, fun c t hct => ?_, ?_, ?_, ?_, h.dirty⟩, ha, rfl, rfl, hs, fun c t ht =>
      hkeep c t (List.mem_toFinset.mpr ht)⟩
    · change CacheInv io' fs.blk fs.dirty.toFinset (s :: fs.held).toFinset M
      rw [List.toFinset_cons]
      exact hc
    · rw [hsame.2.1]
      rcases hat c t hct with hold | rfl
      · exact h.inside c t hold
      · exact hlt
    · exact h.size.trans hsame.2.1.symm
    · exact h.log.trans hsame.2.2.symm
    · exact List.nodup_cons.mpr ⟨hs, h.held⟩

theorem toFinset_erase {l : List Nat} (h : l.Nodup) (s : Nat) : (l.erase s).toFinset = l.toFinset.erase s := by
  ext t
  rw [List.mem_toFinset, h.mem_erase_iff, Finset.mem_erase, List.mem_toFinset]

theorem toFinset_insert (l : List Nat) (s : Nat) : (l.insert s).toFinset = insert s l.toFinset := by
  ext t
  rw [List.mem_toFinset, List.mem_insert_iff, Finset.mem_insert, List.mem_toFinset]

theorem brelse_shows (h : Shows M fs io) (ha : At io b s) (hs : s ∈ fs.held) (hm : s ∉ M) :
    ∃ io', brelse b io = .ok () io' [] ∧ Shows M { fs with held := fs.held.erase s } io' ∧ Tags io io' := by
  obtain ⟨io', hrun, hc, -, -⟩ := brelse_spec h.cache ha (List.mem_toFinset.mpr hs) hm
  have ht : Tags io io' := (tags_brelse b).ok (.refl io) hrun
  refine ⟨io', hrun, ⟨?_, ht.inside h.inside, h.size.trans ht.1.symm, h.log.trans ht.2.1.symm, h.held.erase s,
    h.dirty⟩, ht⟩
  rw [← toFinset_erase h.held] at hc
  exact hc

/-- The holder of a buffer stores to it. -/
theorem setData_shows (h : Shows M fs io) (ha : At io b s) (hs : s ∈ fs.held) (d : Block) :
    Shows (insert s M) { fs with blk := Function.update fs.blk s d } (withBuf io b { io.buf b with data := d }) ∧
      Tags io (withBuf io b { io.buf b with data := d }) := by
  have ht : Tags io (withBuf io b { io.buf b with data := d }) := tags_withBuf rfl rfl
  exact ⟨⟨setData_spec h.cache ha (List.mem_toFinset.mpr hs) d, ht.inside h.inside, h.size, h.log, h.held, h.dirty⟩, ht⟩

/-- A held buffer is written to the disk with the contents d. -/
theorem bwrite_shows (h : Shows M fs io) (ha : At io b s) (hs : s ∈ fs.held) (d : Block) :
    ∃ io' u, bwrite b (withBuf io b { io.buf b with data := d }) = .ok () io' u ∧
      Shows (M.erase s) { fs with blk := Function.update fs.blk s d, dirty := fs.dirty.erase s } io' ∧ Tags io io' := by
  obtain ⟨h₁, ht₁⟩ := setData_shows h ha hs d
  have ha₁ := ht₁.at_iff.mpr ha
  obtain ⟨io', hrun, hc, -, -, -, -⟩ := bwrite_spec h₁.cache ha₁ (List.mem_toFinset.mpr hs) (h₁.inside b s ha₁)
  have ht : Tags io io' := (tags_bwrite b).ok ht₁ hrun
  refine ⟨io', _, hrun,
    ⟨?_, ht.inside h.inside, h.size.trans ht.1.symm, h.log.trans ht.2.1.symm, h.held, h.dirty.erase s⟩, ht⟩
  rw [Finset.erase_insert_eq_erase, ← toFinset_erase h.dirty] at hc
  exact hc

theorem Shows.setLog (h : Shows M fs io) (f : Bio.Log → Bio.Log) :
    Shows M { fs with log := f fs.log } { io with log := f io.log } :=
  ⟨Recovery.withLog_inv h.cache _, h.inside, h.size, congrArg f h.log, h.held, h.dirty⟩

/-- Between two calls on both sides: the same sectors are held, in the same buffers. -/
structure Kept (M : Finset Nat) (fs : Fs) (io : Io) (fs' : Fs) (io' : Io) : Prop where
  shows : Shows M fs' io'
  held : fs'.held = fs.held
  keep : ∀ c t, t ∈ fs.held → At io c t → At io' c t

theorem Kept.trans {fs'' : Fs} {io'' : Io} (h : Kept M fs io fs' io') (h' : Kept M fs' io' fs'' io'') :
    Kept M fs io fs'' io'' :=
  ⟨h'.shows, h'.held.trans h.held, fun c t ht ha => h'.keep c t (h.held ▸ ht) (h.keep c t ht ha)⟩

theorem beginTrans_inStep (h : Shows M fs io) :
    InStep (fun _ _ fs' io' => Kept M fs io fs' io') (Blocks.beginTrans fs) (Log.beginTrans io) := by
  unfold Blocks.beginTrans Log.beginTrans
  refine .left (fetch_apply fs) (.right (fetch_apply io) ?_)
  rw [h.log]
  by_cases hbusy : io.log.busy = true
  · rw [if_pos hbusy, if_pos hbusy]
    exact .stop
  · rw [if_neg hbusy, if_neg hbusy]
    exact .ok ⟨h.setLog fun l => { l with busy := true }, rfl, fun _ _ _ => id⟩

theorem writeHead_inStep (h : Shows ∅ fs io) :
    InStep (fun _ _ fs' io' => Kept ∅ fs io fs' io') (Blocks.writeHead fs) (Log.writeHead io) := by
  unfold Blocks.writeHead Log.writeHead
  refine .left (fetch_apply fs) (.right (fetch_apply io) ?_)
  rw [h.log]
  refine (bread_inStep h io.log.start).bind fun hb buf fs₁ io₁ h₁ => ?_
  obtain ⟨h₁, ha₁, rfl, rfl, hs, hkeep₁⟩ := h₁
  have hdata : (io₁.buf buf).data = fs.blk io.log.start := (h₁.cache.cached buf _ ha₁).2
  obtain ⟨io₂, u, hrun₂, h₂, ht₂⟩ :=
    bwrite_shows h₁ ha₁ List.mem_cons_self ((fs.blk io.log.start).setSlice 0 (Log.encodeHead io.log.lh))
  obtain ⟨io₃, hrun₃, h₃, ht₃⟩ := brelse_shows h₂ (ht₂.at_iff.mpr ha₁) List.mem_cons_self (by simp)
  refine .right (setBuf_apply _ _ _) ?_
  rw [hdata]
  refine .right hrun₂ (.left rfl ?_)
  rw [hrun₃]
  refine .ok ⟨?_, List.erase_cons_head .., fun c t ht ha => ht₃.at_iff.mpr (ht₂.at_iff.mpr (hkeep₁ c t ht ha))⟩
  simpa using h₃

theorem installTrans_loop_inStep (l : List Nat) (tail : Nat) (h : Shows ∅ fs io) :
    InStep (fun _ _ fs' io' => Kept ∅ fs io fs' io') (Blocks.installTrans.loop tail l fs)
      (Log.installTrans.loop tail l io) := by
  induction l generalizing fs io tail with
  | nil => exact .ok ⟨h, rfl, fun _ _ _ => id⟩
  | cons s l ih =>
      unfold Blocks.installTrans.loop Log.installTrans.loop
      refine .left (fetch_apply fs) (.right (fetch_apply io) ?_)
      rw [h.log]
      refine (bread_inStep h _).bind fun d lbuf fs₁ io₁ h₁ => ?_
      obtain ⟨h₁, ha₁, rfl, rfl, hs₁, hkeep₁⟩ := h₁
      refine (bread_inStep h₁ s).bind fun _ dbuf fs₂ io₂ h₂ => ?_
      obtain ⟨h₂, ha₂, rfl, -, hs₂, hkeep₂⟩ := h₂
      have hal := hkeep₂ lbuf _ List.mem_cons_self ha₁
      have hdata : (io₂.buf lbuf).data = fs.blk (io.log.start + tail + 1) := (h₂.cache.cached lbuf _ hal).2
      refine .right (fetch_apply io₂) ?_
      rw [hdata]
      obtain ⟨io₃, u, hrun₃, h₃, ht₃⟩ := bwrite_shows h₂ ha₂ List.mem_cons_self (fs.blk (io.log.start + tail + 1))
      obtain ⟨io₄, hrun₄, h₄, ht₄⟩ :=
        brelse_shows h₃ (ht₃.at_iff.mpr hal) (List.mem_cons_of_mem _ List.mem_cons_self) (by simp)
      have hheld : (s :: (io.log.start + tail + 1) :: fs.held).erase (io.log.start + tail + 1) = s :: fs.held := by
        rw [List.erase_cons_tail, List.erase_cons_head]
        rw [beq_iff_eq]
        exact fun e => hs₂ (e ▸ List.mem_cons_self)
      have ha₄ : At io₄ dbuf s := ht₄.at_iff.mpr (ht₃.at_iff.mpr ha₂)
      obtain ⟨io₅, hrun₅, h₅, ht₅⟩ := brelse_shows h₄ ha₄ (by rw [hheld]; exact List.mem_cons_self) (by simp)
      refine .right (setBuf_apply _ _ _)
        (.right hrun₃ (.left rfl (.right hrun₄ (.left rfl (.right hrun₅ (.left rfl ?_))))))
      have hk : Kept ∅ fs io
          { fs with blk := Function.update fs.blk s (fs.blk (io.log.start + tail + 1)), dirty := fs.dirty.erase s }
          io₅ := by
        refine ⟨?_, rfl, fun c t ht ha => ?_⟩
        · dsimp only at h₅
          rw [hheld, List.erase_cons_head, Finset.erase_empty] at h₅
          exact h₅
        · refine ht₅.at_iff.mpr (ht₄.at_iff.mpr (ht₃.at_iff.mpr ?_))
          exact hkeep₂ c t (List.mem_cons_of_mem _ ht) (hkeep₁ c t ht ha)
      dsimp only
      rw [hheld, List.erase_cons_head]
      exact (ih (tail + 1) hk.shows).mono fun _ _ _ _ => hk.trans

theorem commitTrans_inStep (h : Shows ∅ fs io) :
    InStep (fun _ _ fs' io' => Kept ∅ fs io fs' io') (Blocks.commitTrans fs) (Log.commitTrans io) := by
  unfold Blocks.commitTrans Log.commitTrans
  refine .left (fetch_apply fs) (.right (fetch_apply io) ?_)
  rw [h.log]
  have hend : ∀ {fs₁ : Fs} {io₁ : Io}, Kept ∅ fs io fs₁ io₁ → InStep (fun _ _ fs' io' => Kept ∅ fs io fs' io')
      (Blocks.setLog (fun l => { l with busy := false }) fs₁)
      ((update fun io => { io with log := { io.log with busy := false } } : IoM Unit) io₁) :=
    fun k => .ok ⟨k.shows.setLog fun l => { l with busy := false }, k.held, k.keep⟩
  by_cases hpos : 0 < io.log.lh.length
  · rw [if_pos hpos, if_pos hpos]
    refine InStep.bind (R := fun _ _ fs' io' => Kept ∅ fs io fs' io') ?_ fun _ _ _ _ => hend
    refine (writeHead_inStep h).bind fun _ _ fs₁ io₁ k₁ => ?_
    have hinstall :
        InStep (fun _ _ fs' io' => Kept ∅ fs io fs' io') (Blocks.installTrans fs₁) (Log.installTrans io₁) := by
      unfold Blocks.installTrans Log.installTrans
      refine .left (fetch_apply fs₁) (.right (fetch_apply io₁) ?_)
      rw [k₁.shows.log]
      exact (installTrans_loop_inStep _ 0 k₁.shows).mono fun _ _ _ _ => k₁.trans
    refine hinstall.bind fun _ _ fs₂ io₂ k₂ => ?_
    refine .left (update_apply _ _) (.right (update_apply _ _) ?_)
    have k₃ :
        Kept ∅ fs io { fs₂ with log := { fs₂.log with lh := [] } } { io₂ with log := { io₂.log with lh := [] } } :=
      ⟨k₂.shows.setLog fun l => { l with lh := [] }, k₂.held, k₂.keep⟩
    exact (writeHead_inStep k₃.shows).mono fun _ _ _ _ => k₃.trans
  · rw [if_neg hpos, if_neg hpos]
    exact .left rfl (.right rfl (hend ⟨h, rfl, fun _ _ _ => id⟩))

theorem setDirty_shows (h : Shows M fs io) (ha : At io b s) :
    Shows (M.erase s) { fs with dirty := fs.dirty.insert s } (withBuf io b { io.buf b with dirty := true }) ∧
      Tags io (withBuf io b { io.buf b with dirty := true }) := by
  have ht : Tags io (withBuf io b { io.buf b with dirty := true }) := tags_withBuf rfl rfl
  refine ⟨⟨?_, ht.inside h.inside, h.size, h.log, h.held, h.dirty.insert⟩, ht⟩
  have hc := setDirty_spec h.cache ha
  rw [← toFinset_insert] at hc
  exact hc

/-- log_write of a held sector with new contents. -/
theorem logWrite_inStep (h : Shows ∅ fs io) (ha : At io b s) (hs : s ∈ fs.held) (d : Block) :
    InStep (fun _ _ fs' io' => Kept ∅ fs io fs' io') (Blocks.logWrite s d fs) (Transparency.modify b d io) := by
  unfold Blocks.logWrite Transparency.modify Log.logWrite
  obtain ⟨h₁, ht₁⟩ := setData_shows h ha hs d
  have ha₁ := ht₁.at_iff.mpr ha
  refine .left rfl (.right (setBuf_apply _ _ _) (.left (fetch_apply _) (.right (fetch_apply _) ?_)))
  generalize withBuf io b { io.buf b with data := d } = io₁ at h₁ ha₁ ht₁
  dsimp only
  have hlog : fs.log = io₁.log := h₁.log
  rw [ha₁.2.1, ha₁.2.2, hlog]
  by_cases hroom : LOGSIZE ≤ io₁.log.lh.length ∨ io₁.log.size - 1 ≤ io₁.log.lh.length
  · rw [if_pos hroom, if_pos hroom]
    exact .stop
  rw [if_neg hroom, if_neg hroom]
  by_cases hbusy : ¬io₁.log.busy = true
  · rw [if_pos hbusy, if_pos hbusy]
    exact .stop
  rw [if_neg hbusy, if_neg hbusy]
  rw [hlog] at h₁
  refine (bread_inStep h₁ _).bind fun _ lbuf fs₂ io₂ h₂ => ?_
  obtain ⟨h₂, ha₂, rfl, -, hslot, hkeep₂⟩ := h₂
  have hb₂ := hkeep₂ b s hs ha₁
  have hdata : (io₂.buf b).data = d := by
    rw [(h₂.cache.cached b s hb₂).2]
    exact Function.update_self ..
  have hlog₂ : io₁.log = io₂.log := h₂.log
  refine .right (fetch_apply io₂) ?_
  rw [hdata, hb₂.2.2, ← hlog₂]
  obtain ⟨io₃, u, hrun₃, h₃, ht₃⟩ := bwrite_shows h₂ ha₂ List.mem_cons_self d
  obtain ⟨io₄, hrun₄, h₄, ht₄⟩ := brelse_shows h₃ (ht₃.at_iff.mpr ha₂) List.mem_cons_self (by simp)
  refine .right (setBuf_apply _ _ _) (.right hrun₃ (.left rfl (.right hrun₄ (.left rfl ?_))))
  have hlog₄ : io₁.log = io₄.log := h₄.log
  have hb₄ : At io₄ b s := ht₄.at_iff.mpr (ht₃.at_iff.mpr hb₂)
  have h₅ := h₄.setLog fun l => { l with lh := if io₁.log.lh.idxOf s = l.lh.length then l.lh ++ [s] else l.lh }
  obtain ⟨h₆, ht₆⟩ := setDirty_shows h₅ hb₄
  have hmod : (((insert s (∅ : Finset Nat)).erase (io₁.log.start + io₁.log.lh.idxOf s + 1)).erase s) = ∅ := by
    ext t
    simp only [Finset.mem_erase, Finset.mem_insert, Finset.notMem_empty]
    tauto
  unfold Log.setLh
  refine .left (update_apply _ _) (.right (update_apply _ _) ?_)
  rw [hmod] at h₆
  rw [hlog₄] at h₆ ht₆ ⊢
  refine .ok ⟨h₆, List.erase_cons_head .., fun c t ht ha => ?_⟩
  exact ht₆.at_iff.mpr (ht₄.at_iff.mpr (ht₃.at_iff.mpr (hkeep₂ c t ht (ht₁.at_iff.mpr ha))))

/-- The calls of the code above, each with the sector it is about. -/
inductive Op
  | read (s : Nat)
  | modify (s : Nat) (d : Block)
  | release (s : Nat)
  | begin
  | commit

def flat : Op → FsM (Option Block)
  | .read s => do
      let d ← Blocks.bread s
      pure (some d)
  | .modify s d => do
      Blocks.logWrite s d
      pure none
  | .release s => do
      Blocks.brelse s
      pure none
  | .begin => do
      Blocks.beginTrans
      pure none
  | .commit => do
      Blocks.commitTrans
      pure none

/-- hand gives the buffer that the caller got for a sector. -/
def buffered (hand : Nat → Nat) : Op → IoM (Option Block × (Nat → Nat))
  | .read s => do
      let b ← bread ROOTDEV s
      let io ← fetch
      pure (some (io.buf b).data, Function.update hand s b)
  | .modify s d => do
      Transparency.modify (hand s) d
      pure (none, hand)
  | .release s => do
      brelse (hand s)
      pure (none, hand)
  | .begin => do
      Log.beginTrans
      pure (none, hand)
  | .commit => do
      Log.commitTrans
      pure (none, hand)

def flatRun : List Op → FsM (List (Option Block))
  | [] => pure []
  | op :: ops => do
      let r ← flat op
      let rs ← flatRun ops
      pure (r :: rs)

def bufferedRun (hand : Nat → Nat) : List Op → IoM (List (Option Block))
  | [] => pure []
  | op :: ops => do
      let q ← buffered hand op
      let rs ← bufferedRun q.2 ops
      pure (q.1 :: rs)

/-- Only the holder of a sector changes or releases it. -/
def Allowed (fs : Fs) : Op → Prop
  | .modify s _ | .release s => s ∈ fs.held
  | _ => True

def Disciplined : List Op → Fs → Prop
  | [], _ => True
  | op :: ops, fs => Allowed fs op ∧ ∀ r fs' u, flat op fs = .ok r fs' u → Disciplined ops fs'

def Holding (hand : Nat → Nat) (fs : Fs) (io : Io) : Prop := ∀ s ∈ fs.held, At io (hand s) s

variable {hand : Nat → Nat} {op : Op} {ops : List Op}

theorem Kept.holding (h : Kept M fs io fs' io') (hh : Holding hand fs io) : Holding hand fs' io' := by
  intro s hs
  rw [h.held] at hs
  exact h.keep _ s hs (hh s hs)

theorem step_inStep (h : Shows ∅ fs io) (hh : Holding hand fs io) (ha : Allowed fs op) :
    InStep (fun r q fs' io' => q.1 = r ∧ Shows ∅ fs' io' ∧ Holding q.2 fs' io') (flat op fs) (buffered hand op io) := by
  cases op with
  | read s =>
      refine (bread_inStep h s).bind fun d b fs₁ io₁ h₁ => ?_
      obtain ⟨h₁, hb, rfl, rfl, hs, hkeep⟩ := h₁
      refine .right (fetch_apply io₁) (.ok ⟨congrArg some (h₁.cache.cached b s hb).2, h₁, fun t ht => ?_⟩)
      rcases List.mem_cons.mp ht with rfl | ht
      · change At io₁ (Function.update hand t b t) t
        rw [Function.update_self]
        exact hb
      · have hne : t ≠ s := fun e => hs (e ▸ ht)
        change At io₁ (Function.update hand s b t) t
        rw [Function.update_of_ne hne]
        exact hkeep _ t ht (hh t ht)
  | modify s d => exact (logWrite_inStep h (hh s ha) ha d).bind fun _ _ _ _ k => .ok ⟨rfl, k.shows, k.holding hh⟩
  | release s =>
      obtain ⟨io₁, hrun, h₁, ht⟩ := brelse_shows h (hh s ha) ha (Finset.notMem_empty s)
      exact .left (update_apply _ _)
        (.right hrun (.ok ⟨rfl, h₁, fun t hm => ht.at_iff.mpr (hh t (List.mem_of_mem_erase hm))⟩))
  | begin => exact (beginTrans_inStep h).bind fun _ _ _ _ k => .ok ⟨rfl, k.shows, k.holding hh⟩
  | commit => exact (commitTrans_inStep h).bind fun _ _ _ _ k => .ok ⟨rfl, k.shows, k.holding hh⟩

/-- The flat picture is all that the code above can see of the buffers and the log: both give it
the same contents, or stop it for the same reason. -/
theorem run_inStep (h : Shows ∅ fs io) (hh : Holding hand fs io) (hd : Disciplined ops fs) :
    InStep (fun rs qs fs' io' => qs = rs ∧ Shows ∅ fs' io') (flatRun ops fs) (bufferedRun hand ops io) := by
  induction ops generalizing fs io hand with
  | nil => exact .ok ⟨rfl, h⟩
  | cons op ops ih =>
      refine (step_inStep h hh hd.1).from_run.bind fun r q fs₁ io₁ h₁ => ?_
      obtain ⟨⟨u, hrun⟩, hr, h₁, hh₁⟩ := h₁
      refine (ih h₁ hh₁ (hd.2 r fs₁ u hrun)).bind fun rs qs fs₂ io₂ h₂ => ?_
      exact .ok ⟨congrArg₂ _ hr h₂.1, h₂.2⟩

theorem inside_of_tags {α : Type} {m : IoM α} (hm : ∀ io, Preserves (Tags io) m) : Preserves Inside m :=
  fun io hi => (hm io io (.refl io)).mono (fun _ _ ht => ht.inside hi) fun _ _ => id

theorem iderw_inside (b : Nat) (io : Io) :
    (iderw b io).Holds (fun _ => True) (fun _ _ => (io.buf b).sector < io.disksize) fun _ _ => True := by
  unfold iderw
  rw [holds_bind, holds_fetch, holds_ite]
  refine ⟨fun _ => by simp, fun _ => ?_⟩
  rw [holds_ite]
  refine ⟨fun _ => by simp, fun _ => ?_⟩
  rw [holds_ite]
  refine ⟨fun _ => by simp, fun _ => ?_⟩
  rw [holds_ite]
  refine ⟨fun _ => by simp, fun hlt => ?_⟩
  have hlt := Nat.not_le.mp hlt
  rw [holds_ite]
  refine ⟨fun _ => ?_, fun _ => ?_⟩
  · rw [holds_bind, setBuf_apply]
    intro _
    unfold writeSector
    simp only [holds_bind, holds_update, holds_emit, setBuf_apply]
    exact fun _ _ => hlt
  · rw [setBuf_apply]
    exact fun _ => hlt

theorem inside_bread (s : Nat) : Preserves Inside (bread ROOTDEV s) := by
  intro io hi
  unfold bread bget
  rw [holds_bind, holds_bind, holds_fetch]
  have hdone : ∀ {b : Nat} {io₁ : Io}, Inside io₁ →
      ((do let io ← fetch; if ¬(io.buf b).valid = true then do iderw b; pure b else pure b : IoM Nat) io₁).Holds
        (fun _ => True) (fun _ io' => Inside io') fun _ _ => True := fun {b io₁} h₁ => by
    rw [holds_bind, holds_fetch, holds_ite]
    refine ⟨fun _ => ?_, fun _ => by rw [holds_pure]; exact h₁⟩
    rw [holds_bind]
    refine (inside_of_tags (fun _ => tags_iderw b) io₁ h₁).mono (fun _ _ h₂ => ?_) fun _ _ => id
    rw [holds_pure]
    exact h₂
  generalize Lib.Ring.scan io.links.next head _ _ _ = found
  generalize Lib.Ring.scan io.links.prev head _ _ _ = clean
  cases found with
  | some b =>
      dsimp only
      rw [holds_ite]
      refine ⟨fun _ => ?_, fun _ => by simp⟩
      rw [holds_bind]
      have hbusy : Preserves Inside (setBuf b fun x => { x with busy := true }) :=
        inside_of_tags fun _ => tags_setBuf b fun _ => ⟨rfl, rfl⟩
      refine (hbusy io hi).mono (fun _ _ h₁ => ?_) fun _ _ => id
      rw [holds_pure]
      exact hdone h₁
  | none =>
      cases clean with
      | none =>
          dsimp only
          rw [holds_panic]
          trivial
      | some b =>
          dsimp only
          -- the buffer has its new sector, which iderw looks at before it reads
          rw [holds_bind, setBuf_apply]
          intro _
          rw [holds_pure, holds_bind, holds_fetch, holds_ite]
          refine ⟨fun _ => ?_, fun hv => absurd (by simp) hv⟩
          rw [holds_bind]
          refine ((iderw_inside b _).and (tags_iderw b _ (.refl _))).mono (fun _ io' h₁ => ?_) fun _ _ _ => trivial
          obtain ⟨hlt, ht⟩ := h₁
          rw [holds_pure]
          intro c t ha
          rw [ht.1]
          have ha' := ht.at_iff.mp ha
          unfold At at ha'
          simp only [buf_withBuf, if_true] at ha' hlt
          by_cases e : c = b
          · rw [if_pos e] at ha'
            exact ha'.2.2 ▸ hlt
          · rw [if_neg e] at ha'
            exact hi c t ha'

theorem inside_setLh (lh : List Nat) : Preserves Inside (Log.setLh lh) := .update fun _ h => h

theorem inside_setData (b : Nat) (f : Buf → Block) : Preserves Inside (setBuf b fun x => { x with data := f x }) :=
  inside_of_tags fun _ => tags_setBuf b fun _ => ⟨rfl, rfl⟩

theorem inside_bwrite (b : Nat) : Preserves Inside (bwrite b) := inside_of_tags fun _ => tags_bwrite b

theorem inside_brelse (b : Nat) : Preserves Inside (brelse b) := inside_of_tags fun _ => tags_brelse b

theorem inside_installTrans_loop (tail : Nat) (l : List Nat) : Preserves Inside (Log.installTrans.loop tail l) := by
  induction l generalizing tail with
  | nil => exact .pure _
  | cons s l ih =>
      refine .bind .fetch fun _ => .bind (inside_bread _) fun lbuf => .bind (inside_bread _) fun dbuf => ?_
      refine .bind .fetch fun io => .bind (inside_setData dbuf _) fun _ => .bind (inside_bwrite _) fun _ => ?_
      exact .bind (inside_brelse _) fun _ => .bind (inside_brelse _) fun _ => ih _

theorem inside_initlog : Preserves Inside initlog := by
  refine .bind (inside_bread 1) fun b => .bind .fetch fun _ => .bind (inside_brelse b) fun _ =>
    .bind (.update fun _ h => h) fun _ => ?_
  refine .bind ?_ fun _ => .bind (.bind .fetch fun _ => inside_installTrans_loop _ _) fun _ =>
    .bind (inside_setLh _) fun _ => ?_
  · exact .bind .fetch fun _ => .bind (inside_bread _) fun _ => .bind .fetch fun _ => .bind (inside_setLh _) fun _ =>
      inside_brelse _
  · exact .bind .fetch fun _ => .bind (inside_bread _) fun _ => .bind (inside_setData _ _) fun _ =>
      .bind (inside_bwrite _) fun _ => inside_brelse _

/-- The picture that the code above starts from: the disk as it is after recovery. -/
def booted (io : Io) (icache : Nat → Blocks.Inode) (input : List (Option UInt8)) : Fs :=
  ⟨io.memdisk, io.disksize, [], [], io.log, icache, input⟩

theorem booted_shows {disk : Nat → Block} {disksize : Nat} {log : Bio.Log} {u : List DiskWrite}
    (h : initlog (binit disk disksize log) = .ok () io u) (icache : Nat → Blocks.Inode) (input : List (Option UInt8)) :
    Shows ∅ (booted io icache input) io := by
  obtain ⟨hnil, view, hg⟩ := (initlog_good disk disksize _).ok h
  have hempty : Inside (binit disk disksize log) := fun b s ha => by
    have hdev : uint (2 ^ 32 - 1) = ROOTDEV := ha.2.1
    exact absurd hdev (by decide)
  have hin : Inside io := inside_initlog.ok hempty h
  have hc := hg.cache
  rw [hnil] at hc
  have hview : view = io.memdisk := funext fun s => hc.disk s (Finset.notMem_empty s) (Finset.notMem_empty s)
  rw [hview] at hc
  exact ⟨hc, hin, rfl, rfl, List.nodup_nil, List.nodup_nil⟩

/-- From recovery on, whatever is done. -/
theorem booted_inStep {disk : Nat → Block} {disksize : Nat} {log : Bio.Log} {u : List DiskWrite}
    (h : initlog (binit disk disksize log) = .ok () io u) (icache : Nat → Blocks.Inode) (input : List (Option UInt8))
    (hd : Disciplined ops (booted io icache input)) :
    InStep (fun rs qs fs' io' => qs = rs ∧ Shows ∅ fs' io') (flatRun ops (booted io icache input))
      (bufferedRun hand ops io) :=
  run_inStep (booted_shows h icache input) (fun _ hs => absurd hs List.not_mem_nil) hd

end ArmXv6.BlockCache
