import ArmXv6.Recovery

namespace ArmXv6.Transparency

open Lib.Exec Lib.Ring Lib.Bytes Param Bio Log Cache Recovery

/-- The place of the log by the superblock: it ends with the file system. -/
def locate (sb : Block) (log : Bio.Log) : Bio.Log :=
  { log with start := uint (sb.word 0 + (2 ^ 32 - sb.word 12)), size := (sint (sb.word 12)).toNat }

def initlog : IoM Unit := do
  let b ← bread ROOTDEV 1
  let io ← fetch
  brelse b
  update fun io' => { io' with log := locate (io.buf b).data io'.log }
  recoverFromLog

/-- Modification of a held buffer, and log_write. -/
def modify (b : Nat) (d : Block) : IoM Unit := do
  setBuf b fun x => { x with data := d }
  logWrite b

def InLog (io : Io) (s : Nat) : Prop := io.log.start ≤ s ∧ s < io.log.start + io.log.size

/-- The cache in use, with the flat array that it stands for. The holder of a buffer is
whoever got it from bread, so only busy buffers are modified and released. -/
inductive Reaches (disk : Nat → Block) (disksize : Nat) : Io → (Nat → Block) → Prop
  | boot {io : Io} {t : List DiskWrite} (h : initlog (binit disk disksize ⟨0, 0, false, []⟩) = .ok () io t) :
      Reaches disk disksize io io.memdisk
  | read {io io' : Io} {cells : Nat → Block} {t : List DiskWrite} {b : Nat} (s : Nat)
      (hr : Reaches disk disksize io cells)
      (hs : ¬InLog io s) (h : bread ROOTDEV s io = .ok b io' t) : Reaches disk disksize io' cells
  | modify {io io' : Io} {cells : Nat → Block} {t : List DiskWrite} (b : Nat) (d : Block)
      (hr : Reaches disk disksize io cells) (hb : b < NBUF) (hh : (io.buf b).busy = true)
      (h : modify b d io = .ok () io' t) :
      Reaches disk disksize io' (Function.update cells (io.buf b).sector d)
  | release {io io' : Io} {cells : Nat → Block} {t : List DiskWrite} (b : Nat) (hr : Reaches disk disksize io cells)
      (hb : b < NBUF) (hh : (io.buf b).busy = true) (h : brelse b io = .ok () io' t) : Reaches disk disksize io' cells
  | begin {io io' : Io} {cells : Nat → Block} {t : List DiskWrite} (hr : Reaches disk disksize io cells)
      (h : beginTrans io = .ok () io' t) : Reaches disk disksize io' cells
  | commit {io io' : Io} {cells : Nat → Block} {t : List DiskWrite} (hr : Reaches disk disksize io cells)
      (h : commitTrans io = .ok () io' t) : Reaches disk disksize io' cells

/-- A valid buffer caches a sector of the disk. -/
def Local (io : Io) : Prop := ∀ b, (io.buf b).valid = true → (io.buf b).dev = ROOTDEV

theorem keeps_setBuf (b : Nat) {f : Buf → Buf}
    (h : ∀ x, (f x).valid = true → (f x).dev = ROOTDEV ∨ x.valid = true ∧ (f x).dev = x.dev) :
    Preserves Local (setBuf b f) := by
  refine .update fun io hl c hc => ?_
  by_cases e : c = b
  · subst e
    simp only [Function.update_self] at hc ⊢
    rcases h _ hc with h | ⟨h, h'⟩
    · exact h
    · rw [h']
      exact hl c h
  · simp only [Function.update_of_ne e] at hc ⊢
    exact hl c hc

theorem keeps_iderw (b : Nat) : Preserves Local (iderw b) := by
  intro io hl
  unfold iderw
  rw [holds_bind, holds_fetch, holds_ite]
  refine ⟨fun _ => by simp, fun _ => ?_⟩
  rw [holds_ite]
  refine ⟨fun _ => by simp, fun _ => ?_⟩
  rw [holds_ite]
  refine ⟨fun _ => by simp, fun hdev => ?_⟩
  have hdev : (io.buf b).dev = ROOTDEV := by simpa [ROOTDEV] using hdev
  have hset : ∀ x : Buf, x.dev = ROOTDEV → Local (withBuf io b x) := by
    intro x hx c hc
    by_cases e : c = b
    · simpa [e] using hx
    · rw [buf_withBuf, if_neg e] at hc ⊢
      exact hl c hc
  rw [holds_ite]
  refine ⟨fun _ => by simp, fun _ => ?_⟩
  rw [holds_ite]
  refine ⟨fun _ => ?_, fun _ => ?_⟩
  · rw [holds_bind, setBuf_apply]
    intro _
    unfold writeSector
    rw [holds_bind, holds_bind, holds_update, holds_emit]
    intro _
    rw [setBuf_apply]
    intro _ c hc
    simp only [withBuf, Function.update_self] at hc ⊢
    by_cases e : c = b
    · subst e
      simpa using hdev
    · simp only [Function.update_of_ne e] at hc ⊢
      exact hl c hc
  · rw [setBuf_apply]
    intro _
    exact hset _ hdev

theorem keeps_bget (dev sector : Nat) : Preserves Local (bget dev sector) := by
  refine .bind .fetch fun io => ?_
  split
  · exact .ite (.bind (keeps_setBuf _ fun _ hx => .inr ⟨hx, rfl⟩) fun _ => .pure _) .sleep
  · split
    · exact .bind (keeps_setBuf _ fun x hx => by cases hx) fun _ => .pure _
    · exact .panic _

theorem keeps_bread (dev sector : Nat) : Preserves Local (bread dev sector) :=
  .bind (keeps_bget dev sector) fun b => .bind .fetch fun _ => .ite (.bind (keeps_iderw b) fun _ => .pure _) (.pure _)

theorem keeps_bwrite (b : Nat) : Preserves Local (bwrite b) :=
  .bind .fetch fun _ => .ite (.panic _) (.bind (keeps_setBuf _ fun _ hx => .inr ⟨hx, rfl⟩) fun _ => keeps_iderw b)

theorem keeps_brelse (b : Nat) : Preserves Local (brelse b) :=
  .bind .fetch fun _ => .ite (.panic _) (.bind (.update fun _ hl => hl) fun _ => keeps_setBuf _ fun _ hx =>
    .inr ⟨hx, rfl⟩)

theorem keeps_setData (b : Nat) (f : Buf → Block) : Preserves Local (setBuf b fun x => { x with data := f x }) :=
  keeps_setBuf b fun _ hx => .inr ⟨hx, rfl⟩

theorem keeps_setLh (lh : List Nat) : Preserves Local (setLh lh) := .update fun _ hl => hl

theorem keeps_installTrans_loop (tail : Nat) (l : List Nat) : Preserves Local (installTrans.loop tail l) := by
  induction l generalizing tail with
  | nil => exact .pure _
  | cons s l ih =>
      refine .bind .fetch fun _ => .bind (keeps_bread _ _) fun lbuf => .bind (keeps_bread _ _) fun dbuf => ?_
      refine .bind .fetch fun io => .bind (keeps_setData dbuf _) fun _ => .bind (keeps_bwrite _) fun _ => ?_
      exact .bind (keeps_brelse _) fun _ => .bind (keeps_brelse _) fun _ => ih _

theorem keeps_installTrans : Preserves Local installTrans := .bind .fetch fun _ => keeps_installTrans_loop _ _

theorem keeps_writeHead : Preserves Local writeHead :=
  .bind .fetch fun _ => .bind (keeps_bread _ _) fun b => .bind (keeps_setData b _) fun _ =>
    .bind (keeps_bwrite _) fun _ => keeps_brelse _

theorem keeps_recoverFromLog : Preserves Local recoverFromLog := by
  refine .bind ?_ fun _ => .bind keeps_installTrans fun _ => .bind (keeps_setLh _) fun _ => keeps_writeHead
  exact .bind .fetch fun _ => .bind (keeps_bread _ _) fun _ => .bind .fetch fun _ =>
    .bind (keeps_setLh _) fun _ => keeps_brelse _

theorem keeps_initlog : Preserves Local initlog :=
  .bind (keeps_bread _ _) fun _ => .bind .fetch fun _ => .bind (keeps_brelse _) fun _ =>
    .bind (.update fun _ hl => hl) fun _ => keeps_recoverFromLog

theorem keeps_beginTrans : Preserves Local beginTrans :=
  .bind .fetch fun _ => .ite .sleep (.update fun _ hl => hl)

theorem keeps_commitTrans : Preserves Local commitTrans := by
  refine .bind .fetch fun _ => .bind (.ite ?_ (.pure _)) fun _ => .update fun _ hl => hl
  exact .bind keeps_writeHead fun _ => .bind keeps_installTrans fun _ => .bind (keeps_setLh _) fun _ => keeps_writeHead

theorem keeps_modify (b : Nat) (d : Block) : Preserves Local (modify b d) := by
  refine .bind (keeps_setData b _) fun _ => .bind .fetch fun _ => .ite (.panic _) (.ite (.panic _) ?_)
  refine .bind (keeps_bread _ _) fun lbuf => .bind .fetch fun _ => .bind (keeps_setData lbuf _) fun _ => ?_
  exact .bind (keeps_bwrite _) fun _ => .bind (keeps_brelse _) fun _ => .bind (keeps_setLh _) fun _ =>
    keeps_setBuf _ fun _ hx => .inr ⟨hx, rfl⟩

theorem Reaches.local {disk : Nat → Block} {disksize : Nat} {io : Io} {cells : Nat → Block}
    (h : Reaches disk disksize io cells) : Local io := by
  induction h with
  | boot h => exact keeps_initlog.ok (fun b hb => by cases hb) h
  | read s _ _ h ih => exact (keeps_bread _ _).ok ih h
  | modify b d _ _ _ h ih => exact (keeps_modify b d).ok ih h
  | release b _ _ _ h ih => exact (keeps_brelse b).ok ih h
  | begin _ h ih => exact keeps_beginTrans.ok ih h
  | commit _ h ih => exact keeps_commitTrans.ok ih h

variable {io : Io} {view : Nat → Block} {dirty held modified : Finset Nat} {b s : Nat}

/-- All buffers are pinned by a dirty or a held sector. -/
def Full (io : Io) : Prop := ∀ b < NBUF, (io.buf b).busy = true ∨ (io.buf b).dirty = true

theorem bread_held (h : CacheInv io view dirty held modified) (hs : s ∈ held) :
    bread ROOTDEV s io = .stop .sleep io [] := by
  obtain ⟨b, hb⟩ := h.pinned s (Finset.mem_union_right _ hs)
  have hbusy := (h.busy_eq hb).mpr hs
  simp only [bread, bget, bind_apply, fetch_apply, scan_hit h hb, hbusy, not_true_eq_false, if_false, Prog.sleep,
    Run.after, List.append_nil]

theorem scan_full (h : CacheInv io view dirty held modified) (hf : Full io) :
    scan io.links.prev head (fun x => ¬(io.buf x).busy ∧ ¬(io.buf x).dirty) (NBUF + 1) (io.links.prev head) = none := by
  obtain ⟨l, hl, hperm⟩ := h.ring
  have hmem (x : Nat) : x ∈ l ↔ x < NBUF := by rw [hperm.mem_iff, List.mem_range]
  have hhead : head ∉ l := by rw [hmem]; exact Nat.lt_irrefl NBUF
  have hlen : l.length = NBUF := by rw [hperm.length_eq, List.length_range]
  rw [hl.scan_prev hhead _ _ (by omega), List.find?_eq_none]
  intro x hx
  have := hf x ((hmem x).mp (List.mem_reverse.mp hx))
  rcases this with e | e <;> simp [e]

theorem bread_full (h : CacheInv io view dirty held modified) (hs : ∀ b, ¬At io b s) (hf : Full io) :
    bread ROOTDEV s io = .stop (.panic "bget: no buffers") io [] := by
  simp only [bread, bget, bind_apply, fetch_apply, scan_miss h hs, scan_full h hf, Prog.panic, Run.after,
    List.append_nil]

/-- Each pinned sector has a buffer of its own, so a free buffer leaves fewer sectors than buffers. -/
theorem card_lt_of_not_full (h : CacheInv io view dirty held modified) (hf : ¬Full io) :
    (dirty ∪ held).card < NBUF := by
  unfold Full at hf
  push Not at hf
  obtain ⟨c, hc, hbusy, hdirty⟩ := hf
  have hex : ∀ s, s ∈ dirty ∪ held → ∃ b, At io b s := h.pinned
  choose! g hg using hex
  have hle : (dirty ∪ held).card ≤ ((Finset.range NBUF).erase c).card := by
    apply Finset.card_le_card_of_injOn g
    · intro s hs
      have hs' : s ∈ dirty ∪ held := by simpa using hs
      have hat := hg s hs'
      rw [Finset.coe_erase, Set.mem_sdiff, Set.mem_singleton_iff]
      refine ⟨by simpa using hat.1, ?_⟩
      rintro rfl
      rcases Finset.mem_union.mp hs' with hd | hd
      · exact hdirty ((h.dirty_eq hat).mpr hd)
      · exact hbusy ((h.busy_eq hat).mpr hd)
    · intro s hs t ht e
      have h₁ := hg s (by simpa using hs)
      have h₂ := hg t (by simpa using ht)
      rw [← e] at h₂
      exact h₂.eq h₁
  rw [Finset.card_erase_of_mem (by simpa using hc), Finset.card_range] at hle
  have : 0 < NBUF := by decide
  omega

theorem bread_beyond (h : CacheInv io view dirty held modified) (hs : ∀ b, ¬At io b s) (hf : ¬Full io)
    (hsize : io.disksize ≤ s) :
    ∃ io', bread ROOTDEV s io = .stop (.panic "iderw: sector out of range") io' [] := by
  obtain ⟨b, -, -, -, hscan⟩ := scan_clean h (card_lt_of_not_full h hf)
  have hget : bget ROOTDEV s io =
      .ok b (withBuf io b ⟨true, false, false, ROOTDEV, s, (io.buf b).data⟩) [] := by
    simp only [bget, bind_apply, fetch_apply, scan_miss h hs, hscan, setBuf_apply, pure_apply,
      after_ok, List.append_nil]
  have hide : iderw b (withBuf io b ⟨true, false, false, ROOTDEV, s, (io.buf b).data⟩) =
      .stop (.panic "iderw: sector out of range") (withBuf io b ⟨true, false, false, ROOTDEV, s, (io.buf b).data⟩)
        [] := by
    simp [iderw, bind_apply, fetch_apply, ROOTDEV, hsize, Prog.panic, Run.after]
  refine ⟨withBuf io b ⟨true, false, false, ROOTDEV, s, (io.buf b).data⟩, ?_⟩
  simp [bread, bind_apply, hget, hide, fetch_apply, Run.after]

/-- Why a read does not return. -/
def Refused (io : Io) (held : Finset Nat) (s : Nat) (w : Stop) : Prop :=
  w = .sleep ∧ s ∈ held ∨ w = .panic "bget: no buffers" ∧ Full io ∨
    w = .panic "iderw: sector out of range" ∧ io.disksize ≤ s

theorem bread_holds (h : CacheInv io view dirty held modified) :
    (bread ROOTDEV s io).Holds (fun _ => True)
      (fun b io' => s ∉ held ∧ CacheInv io' view dirty (insert s held) modified ∧ At io' b s ∧ SameDisk io io' ∧
        ∀ c t, t ∈ held → At io c t → At io' c t)
      fun w _ => Refused io held s w := by
  by_cases hs : s ∈ held
  · rw [bread_held h hs]
    exact fun _ => .inl ⟨rfl, hs⟩
  by_cases hat : ∃ b, At io b s
  · obtain ⟨b, hb⟩ := hat
    obtain ⟨io', hrun, h'⟩ := bread_cached h hb hs
    rw [hrun]
    exact fun _ => ⟨hs, h'⟩
  push Not at hat
  by_cases hf : Full io
  · rw [bread_full h hat hf]
    exact fun _ => .inr (.inl ⟨rfl, hf⟩)
  by_cases hsize : s < io.disksize
  · obtain ⟨b, io', hrun, h'⟩ := bread_spec h hs hsize (.inl (card_lt_of_not_full h hf))
    rw [hrun]
    exact fun _ => ⟨hs, h'⟩
  · obtain ⟨io', hrun⟩ := bread_beyond h hat hf (by omega)
    rw [hrun]
    exact fun _ => .inr (.inr ⟨rfl, by omega⟩)

theorem bwrite_holds (h : CacheInv io view dirty held modified) (hb : At io b s) (hs : s ∈ held) :
    (bwrite b io).Holds (fun _ => True)
      (fun _ io' => CacheInv io' view (dirty.erase s) held (modified.erase s) ∧ (∀ c t, At io c t → At io' c t) ∧
        io'.log = io.log) fun _ _ => True := by
  by_cases hsize : s < io.disksize
  · obtain ⟨io', hrun, h₁, h₂, -, -, h₃⟩ := bwrite_spec h hb hs hsize
    rw [hrun]
    exact fun _ => ⟨h₁, h₂, h₃⟩
  · have hbusy := (h.busy_eq hb).mpr hs
    have hsize' : io.disksize ≤ s := by omega
    have hdev : (io.buf b).dev = 1 := hb.2.1
    have hide : iderw b (withBuf io b { io.buf b with dirty := true }) =
        .stop (.panic "iderw: sector out of range") (withBuf io b { io.buf b with dirty := true }) [] := by
      simp [iderw, bind_apply, fetch_apply, hbusy, hdev, hb.2.2, hsize', Prog.panic, Run.after]
    unfold bwrite
    rw [holds_bind, holds_fetch, holds_ite]
    refine ⟨fun _ => by simp, fun _ => ?_⟩
    rw [holds_bind, setBuf_apply]
    intro _
    rw [hide]
    exact fun _ => trivial

theorem brelse_holds (h : CacheInv io view dirty held modified) (hb : At io b s) (hs : s ∈ held) (hm : s ∉ modified) :
    (brelse b io).Holds (fun _ => True)
      (fun _ io' => CacheInv io' view dirty (held.erase s) modified ∧ (∀ c t, At io c t → At io' c t) ∧ SameDisk io io')
      fun _ _ => True := by
  obtain ⟨io', hrun, h'⟩ := brelse_spec h hb hs hm
  rw [hrun]
  exact fun _ => h'

theorem at_data {d : Block} {c t : Nat} (hc : At io c t) : At (withBuf io b { io.buf b with data := d }) c t :=
  at_withBuf rfl rfl hc

theorem writeHead_holds (h : CacheInv io view dirty held ∅) (hd : io.log.start ∉ dirty) :
    (writeHead io).Holds (fun _ => True)
      (fun _ io' => (∃ d, CacheInv io' (Function.update view io.log.start d) dirty held ∅) ∧ io'.log = io.log)
      fun _ _ => True := by
  unfold writeHead
  rw [holds_bind, holds_fetch, holds_bind]
  refine (bread_holds h).mono (fun b io₁ h₁ => ?_) fun _ _ _ => trivial
  obtain ⟨hs, c₁, a₁, d₁, -⟩ := h₁
  rw [holds_bind, setBuf_apply]
  intro _
  have c₂ := setData_spec c₁ a₁ (Finset.mem_insert_self _ _) ((io₁.buf b).data.setSlice 0 (encodeHead io.log.lh))
  rw [holds_bind]
  refine (bwrite_holds c₂ (at_data a₁) (Finset.mem_insert_self _ _)).mono (fun _ io₂ h₂ => ?_) fun _ _ => id
  obtain ⟨c₃, a₃, l₃⟩ := h₂
  refine (brelse_holds c₃ (a₃ b _ (at_data a₁)) (Finset.mem_insert_self _ _) (by simp)).mono (fun _ io₃ h₃ =>
    ?_) fun _ _ => id
  obtain ⟨c₄, -, d₄⟩ := h₃
  refine ⟨⟨(io₁.buf b).data.setSlice 0 (encodeHead io.log.lh), ?_⟩, ?_⟩
  · simpa [Finset.erase_eq_of_notMem hd, Finset.erase_insert hs] using c₄
  · rw [d₄.2.2, l₃]
    exact d₁.2.2

theorem installTrans_loop_holds (l : List Nat) (tail : Nat) (h : CacheInv io view dirty held ∅) :
    (installTrans.loop tail l io).Holds (fun _ => True)
      (fun _ io' => io'.log = io.log ∧ ∃ view', CacheInv io' view' (dirty \ l.toFinset) held ∅ ∧
        ((∀ j (hj : j < l.length), view (io.log.start + (tail + j) + 1) = view l[j]) → view' = view))
      fun _ _ => True := by
  induction l generalizing io view dirty tail with
  | nil =>
      unfold installTrans.loop
      rw [holds_pure]
      exact ⟨rfl, view, by simpa using h, fun _ => rfl⟩
  | cons s l ih =>
      unfold installTrans.loop
      rw [holds_bind, holds_fetch, holds_bind]
      refine (bread_holds h).mono (fun lbuf io₁ h₁ => ?_) fun _ _ _ => trivial
      obtain ⟨hl, c₁, a₁, d₁, -⟩ := h₁
      rw [holds_bind]
      refine (bread_holds c₁).mono (fun dbuf io₂ h₂ => ?_) fun _ _ _ => trivial
      obtain ⟨hs, c₂, a₂, d₂, f₂⟩ := h₂
      have al := f₂ lbuf _ (Finset.mem_insert_self _ _) a₁
      rw [holds_bind, holds_fetch, holds_bind, setBuf_apply]
      intro _
      rw [(c₂.cached lbuf _ al).2]
      have c₃ := setData_spec c₂ a₂ (Finset.mem_insert_self _ _) (view (io.log.start + tail + 1))
      rw [holds_bind]
      refine (bwrite_holds c₃ (at_data a₂) (Finset.mem_insert_self _ _)).mono (fun _ io₃ h₃ => ?_) fun _ _ => id
      obtain ⟨c₄, a₄, l₄⟩ := h₃
      have hne : io.log.start + tail + 1 ≠ s := fun e => hs (e ▸ Finset.mem_insert_self _ _)
      rw [holds_bind]
      refine (brelse_holds c₄ (a₄ _ _ (at_data al)) (by simp) (by simp)).mono (fun _ io₄ h₄ => ?_) fun _ _ => id
      obtain ⟨c₅, a₅, d₅⟩ := h₄
      rw [holds_bind]
      refine (brelse_holds c₅ (a₅ _ _ (a₄ _ _ (at_data a₂))) (by simp [hne.symm]) (by simp)).mono (fun _ io₅ h₅ => ?_)
        fun _ _ => id
      obtain ⟨c₆, -, d₆⟩ := h₅
      have hlog : io₅.log = io.log := by
        rw [d₆.2.2, d₅.2.2, l₄]
        exact d₂.2.2.trans d₁.2.2
      have hheld :
          (((insert s (insert (io.log.start + tail + 1) held)).erase (io.log.start + tail + 1)).erase s) = held := by
        ext t
        simp only [Finset.mem_erase, Finset.mem_insert]
        constructor
        · rintro ⟨h₁, h₂, h₃⟩
          exact (h₃.resolve_left h₁).resolve_left h₂
        · intro ht
          refine ⟨?_, ?_, .inr (.inr ht)⟩
          · rintro rfl
            exact hs (Finset.mem_insert_of_mem ht)
          · rintro rfl
            exact hl ht
      rw [hheld, Finset.erase_insert (Finset.notMem_empty _)] at c₆
      refine (ih (tail + 1) c₆).mono (fun _ io₆ h₆ => ?_) fun _ _ => id
      obtain ⟨l₆, view', c₇, hv⟩ := h₆
      refine ⟨l₆.trans hlog, view', ?_, fun hall => ?_⟩
      · have : dirty.erase s \ l.toFinset = dirty \ (s :: l).toFinset := by
          ext t
          simp only [Finset.mem_sdiff, Finset.mem_erase, List.toFinset_cons, Finset.mem_insert]
          tauto
        rw [← this]
        exact c₇
      · have hself : Function.update view s (view (io.log.start + tail + 1)) = view := by
          rw [Function.update_eq_self_iff]
          exact hall 0 (by simp)
        rw [hself] at hv
        refine hv fun j hj => ?_
        have := hall (j + 1) (by simpa using hj)
        rw [hlog, show tail + 1 + j = tail + (j + 1) by omega]
        simpa using this

/-- The slot of the log that a write of the sector goes to. -/
def slotOf (io : Io) (s : Nat) : Nat := io.log.start + io.log.lh.idxOf s + 1

theorem modify_holds {d : Block} (h : CacheInv io view dirty held ∅) (hb : At io b s) (hs : s ∈ held)
    (hout : ∀ t ∈ dirty ∪ held, ¬InLog io t) :
    (modify b d io).Holds (fun _ => True)
      (fun _ io' => CacheInv io' (Function.update (Function.update view s d) (slotOf io s) d) (insert s dirty) held ∅ ∧
        io'.log = { io.log with lh := absorb io.log.lh s } ∧
        io.log.lh.length < LOGSIZE ∧ io.log.lh.length < io.log.size - 1 ∧ InLog io (slotOf io s))
      fun _ _ => True := by
  unfold modify
  rw [holds_bind, setBuf_apply]
  intro _
  have c₁ := setData_spec h hb hs d
  have a₁ : At (withBuf io b { io.buf b with data := d }) b s := at_data hb
  have hd₁ : ((withBuf io b { io.buf b with data := d }).buf b).data = d := by simp
  have hlog₁ : (withBuf io b { io.buf b with data := d }).log = io.log := rfl
  generalize withBuf io b { io.buf b with data := d } = io₁ at c₁ a₁ hd₁ hlog₁
  unfold logWrite
  rw [holds_bind, holds_fetch, holds_ite]
  refine ⟨fun _ => by simp, fun hroom => ?_⟩
  rw [holds_ite]
  refine ⟨fun _ => by simp, fun _ => ?_⟩
  rw [a₁.2.1, a₁.2.2, hlog₁, holds_bind]
  rw [hlog₁] at hroom
  have hidx : io.log.lh.idxOf s ≤ io.log.lh.length := List.idxOf_le_length
  have hin : InLog io (slotOf io s) := by
    unfold InLog slotOf
    omega
  have hslot : slotOf io s ∉ dirty ∪ held := fun hm => hout _ hm hin
  have hne : s ≠ slotOf io s := fun e => hslot (Finset.mem_union_right _ (e ▸ hs))
  change (bread ROOTDEV (slotOf io s) io₁).Holds _ _ _
  refine (bread_holds c₁).mono (fun lbuf io₂ h₂ => ?_) fun _ _ _ => trivial
  obtain ⟨-, c₂, a₂, d₂, f₂⟩ := h₂
  have ab := f₂ b s hs a₁
  rw [holds_bind, holds_fetch, holds_bind, setBuf_apply]
  intro _
  rw [(c₂.cached b s ab).2, Function.update_self, ab.2.2, d₂.2.2, hlog₁, append_eq_absorb]
  have c₃ := setData_spec c₂ a₂ (Finset.mem_insert_self _ _) d
  rw [holds_bind]
  refine (bwrite_holds c₃ (at_data a₂) (Finset.mem_insert_self _ _)).mono (fun _ io₃ h₃ => ?_) fun _ _ => id
  obtain ⟨c₄, a₄, l₄⟩ := h₃
  rw [holds_bind]
  refine (brelse_holds c₄ (a₄ _ _ (at_data a₂)) (Finset.mem_insert_self _ _) (by simp)).mono (fun _ io₄ h₄ => ?_)
    fun _ _ => id
  obtain ⟨c₅, a₅, d₅⟩ := h₄
  unfold setLh
  rw [holds_bind, holds_update, setBuf_apply]
  intro _
  have ab' := a₅ _ _ (a₄ _ _ (at_data ab))
  have c₆ := setDirty_spec (withLog_inv c₅ { io₄.log with lh := absorb io.log.lh s }) ab'
  have hlog₄ : io₄.log = io.log := by
    rw [d₅.2.2, l₄]
    exact d₂.2.2.trans hlog₁
  refine ⟨?_, ?_, by omega, by omega, hin⟩
  · have hmod : (((insert (slotOf io s) (insert s (∅ : Finset Nat))).erase (slotOf io s)).erase s) = ∅ := by
      ext t
      simp only [Finset.mem_erase, Finset.mem_insert, Finset.notMem_empty]
      tauto
    have hdirty : dirty.erase (slotOf io s) = dirty :=
      Finset.erase_eq_of_notMem fun hm => hslot (Finset.mem_union_left _ hm)
    have hheld : (insert (slotOf io s) held).erase (slotOf io s) = held :=
      Finset.erase_insert fun hm => hslot (Finset.mem_union_right _ hm)
    rw [hmod, hdirty, hheld] at c₆
    exact c₆
  · change ({ io₄.log with lh := absorb io.log.lh s } : Bio.Log) = _
    rw [hlog₄]

/-- The invariant of a run: cells is the array that the cache stands for, and the log
holds a copy of each block of the transaction. -/
structure Good (io : Io) (cells : Nat → Block) (view : Nat → Block) (held : Finset Nat) : Prop where
  cache : CacheInv io view io.log.lh.toFinset held ∅
  flat : ∀ s, ¬InLog io s → view s = cells s
  copies : ∀ i (hi : i < io.log.lh.length), view (io.log.start + i + 1) = view io.log.lh[i]
  outside : ∀ s ∈ io.log.lh.toFinset ∪ held, ¬InLog io s
  fits : io.log.lh ≠ [] → io.log.lh.length < io.log.size
  nodup : io.log.lh.Nodup

variable {cells : Nat → Block}

theorem InLog.congr {io' : Io} (h : io'.log = io.log) (s : Nat) : InLog io' s ↔ InLog io s := by
  unfold InLog
  rw [h]

theorem Good.same {io' : Io} {held' : Finset Nat} (h : Good io cells view held) (hlog : io'.log = io.log)
    (hc : CacheInv io' view io.log.lh.toFinset held' ∅) (hout : ∀ s ∈ held', ¬InLog io s) :
      Good io' cells view held' where
  cache := by rw [hlog]; exact hc
  flat s hs := h.flat s fun hin => hs ((InLog.congr hlog s).mpr hin)
  copies := by rw [hlog]; exact h.copies
  outside s hs hin := by
    rw [hlog] at hs
    have hin' := (InLog.congr hlog s).mp hin
    rcases Finset.mem_union.mp hs with hm | hm
    · exact h.outside s (Finset.mem_union_left _ hm) hin'
    · exact hout s hm hin'
  fits := by rw [hlog]; exact h.fits
  nodup := by rw [hlog]; exact h.nodup

theorem Good.held_out (h : Good io cells view held) : ∀ t ∈ held, ¬InLog io t :=
  fun t ht => h.outside t (Finset.mem_union_right _ ht)

theorem read_good (h : Good io cells view held) (hs : ¬InLog io s) :
    (bread ROOTDEV s io).Holds (fun _ => True)
      (fun b io' => Good io' cells view (insert s held) ∧ At io' b s ∧ (io'.buf b).data = cells s)
      fun w _ => Refused io held s w := by
  refine (bread_holds h.cache).mono (fun b io' h' => ?_) fun _ _ => id
  obtain ⟨-, hc, ha, hd, -⟩ := h'
  refine ⟨h.same hd.2.2 hc ?_, ha, ?_⟩
  · intro t ht
    rcases Finset.mem_insert.mp ht with rfl | ht
    · exact hs
    · exact h.held_out t ht
  · rw [(hc.cached b s ha).2]
    exact h.flat s hs

theorem Good.busy (h : Good io cells view held) (hb : b < NBUF) (hh : (io.buf b).busy = true) :
    At io b (io.buf b).sector ∧ (io.buf b).sector ∈ held := by
  have := (h.cache.busy_iff b hb).mp hh
  exact ⟨⟨hb, this.1, rfl⟩, this.2⟩

theorem release_good (h : Good io cells view held) (hb : b < NBUF) (hh : (io.buf b).busy = true) :
    (brelse b io).Holds (fun _ => True) (fun _ io' => Good io' cells view (held.erase (io.buf b).sector))
      fun _ _ => True := by
  obtain ⟨ha, hs⟩ := h.busy hb hh
  refine (brelse_holds h.cache ha hs (Finset.notMem_empty _)).mono (fun _ io' h' => ?_) fun _ _ => id
  exact h.same h'.2.2.2.2 h'.1 fun t ht => h.held_out t (Finset.mem_of_mem_erase ht)

theorem Good.flag (h : Good io cells view held) (busy : Bool) :
    Good { io with log := { io.log with busy := busy } } cells view held :=
  ⟨withLog_inv h.cache _, h.flat, h.copies, h.outside, h.fits, h.nodup⟩

theorem modify_good {d : Block} (h : Good io cells view held) (hb : b < NBUF) (hh : (io.buf b).busy = true) :
    (modify b d io).Holds (fun _ => True)
      (fun _ io' => ∃ view', Good io' (Function.update cells (io.buf b).sector d) view' held) fun _ _ => True := by
  obtain ⟨ha, hs⟩ := h.busy hb hh
  generalize (io.buf b).sector = s at ha hs
  refine (modify_holds h.cache ha hs h.outside).mono (fun _ io' h' =>
    ⟨Function.update (Function.update view s d) (slotOf io s) d, ?_⟩) fun _ _ => id
  obtain ⟨hc, hlog, hroom, hsize, hin⟩ := h'
  have hsout := h.held_out s hs
  have hne : s ≠ slotOf io s := fun e => hsout (e ▸ hin)
  have hIn : ∀ t, InLog io' t ↔ InLog io t := fun t => by unfold InLog; rw [hlog]
  refine ⟨?_, fun t ht => ?_, ?_, fun t ht => ?_, ?_, ?_⟩
  · rw [hlog]
    dsimp only
    rw [absorb_toFinset]
    exact hc
  · rw [hIn] at ht
    have : t ≠ slotOf io s := fun e => ht (e ▸ hin)
    rw [Function.update_of_ne this]
    by_cases e : t = s
    · subst e; simp
    · rw [Function.update_of_ne e, Function.update_of_ne e]
      exact h.flat t ht
  · rw [hlog]
    dsimp only
    intro i hi
    rcases getElem_absorb h.nodup s i hi with ⟨rfl, e⟩ | ⟨hne', e, hlt, e'⟩
    · rw [e]
      change Function.update (Function.update view s d) (slotOf io s) d (slotOf io s) = _
      rw [Function.update_self, Function.update_of_ne hne, Function.update_self]
    · have hslot : io.log.start + i + 1 ≠ slotOf io s := by
        unfold slotOf
        omega
      have hi' : InLog io (io.log.start + i + 1) := by
        unfold InLog
        omega
      have hs' : io.log.start + i + 1 ≠ s := fun e => hsout (e ▸ hi')
      have hout : io.log.lh[i] ≠ slotOf io s := by
        intro e
        exact h.outside _ (Finset.mem_union_left _ (List.mem_toFinset.mpr (List.getElem_mem hlt))) (e ▸ hin)
      rw [e'] at e ⊢
      rw [Function.update_of_ne hslot, Function.update_of_ne hs', Function.update_of_ne hout, Function.update_of_ne e]
      exact h.copies i hlt
  · rw [hIn]
    rw [hlog] at ht
    dsimp only at ht
    rw [absorb_toFinset] at ht
    rcases Finset.mem_union.mp ht with ht | ht
    · rcases Finset.mem_insert.mp ht with rfl | ht
      · exact hsout
      · exact h.outside t (Finset.mem_union_left _ ht)
    · exact h.held_out t ht
  · intro _
    rw [hlog]
    dsimp only
    unfold absorb
    split
    case isTrue => omega
    case isFalse => rw [List.length_append, List.length_singleton]; omega
  · rw [hlog]
    exact absorb_nodup h.nodup s

theorem commit_good (h : Good io cells view held) :
    (commitTrans io).Holds (fun _ => True)
      (fun _ io' => io'.log.lh = [] ∧ ∃ view', Good io' cells view' held) fun _ _ => True := by
  unfold commitTrans
  rw [holds_bind, holds_fetch, holds_bind, holds_ite]
  refine ⟨fun hpos => ?_, fun hpos => ?_⟩
  · have hsize := h.fits (List.ne_nil_of_length_pos hpos)
    have hstart : InLog io io.log.start := by
      unfold InLog
      omega
    have hnot : io.log.start ∉ io.log.lh.toFinset := fun hm => h.outside _ (Finset.mem_union_left _ hm) hstart
    rw [holds_bind]
    refine (writeHead_holds h.cache hnot).mono (fun _ io₁ h₁ => ?_) fun _ _ => id
    obtain ⟨⟨d, c₁⟩, l₁⟩ := h₁
    rw [holds_bind]
    unfold installTrans
    rw [holds_bind, holds_fetch, l₁]
    refine (installTrans_loop_holds io.log.lh 0 c₁).mono (fun _ io₂ h₂ => ?_) fun _ _ => id
    obtain ⟨l₂, view', c₂, hv⟩ := h₂
    have hview : view' = Function.update view io.log.start d := by
      refine hv fun j hj => ?_
      have hmem : io.log.lh[j] ∈ io.log.lh.toFinset := List.mem_toFinset.mpr (List.getElem_mem hj)
      have hne : io.log.lh[j] ≠ io.log.start := fun e => hnot (e ▸ hmem)
      rw [l₁, Nat.zero_add, Function.update_of_ne (by omega), Function.update_of_ne hne]
      exact h.copies j hj
    subst hview
    rw [Finset.sdiff_self] at c₂
    unfold setLh
    rw [holds_bind, holds_update]
    refine (writeHead_holds (withLog_inv c₂ _) (Finset.notMem_empty _)).mono (fun _ io₃ h₃ => ?_) fun _ _ => id
    obtain ⟨⟨d', c₃⟩, l₃⟩ := h₃
    rw [holds_update]
    have hlog : io₃.log = { io.log with lh := [] } := by
      rw [l₃]
      change { io₂.log with lh := [] } = _
      rw [l₂, l₁]
    have hnil : io₃.log.lh = [] := by rw [hlog]
    suffices hg : Good io₃ cells (Function.update (Function.update view io.log.start d) io.log.start d') held from
      ⟨hnil, _, hg.flag false⟩
    refine ⟨?_, ?_, ?_, ?_, ?_, ?_⟩
    · rw [hlog]
      rw [l₂, l₁] at c₃
      simpa using c₃
    · intro s hs
      have hs' : ¬InLog io s := by
        unfold InLog at hs ⊢
        rw [hlog] at hs
        exact hs
      have hne : s ≠ io.log.start := fun e => hs' (e ▸ hstart)
      rw [Function.update_of_ne hne, Function.update_of_ne hne]
      exact h.flat s hs'
    · rw [hlog]
      simp
    · intro s hs
      rw [hlog] at hs
      unfold InLog
      rw [hlog]
      exact h.held_out s (by simpa using hs)
    · rw [hlog]
      simp
    · rw [hlog]
      simp
  · have hnil : io.log.lh = [] := List.length_eq_zero_iff.mp (by omega)
    rw [holds_pure, holds_update]
    exact ⟨hnil, view, h.flag false⟩

theorem initlog_good (disk : Nat → Block) (disksize : Nat) (log : Bio.Log) :
    (initlog (binit disk disksize log)).Holds (fun _ => True)
      (fun _ io' => io'.log.lh = [] ∧ ∃ view, Good io' io'.memdisk view ∅) fun _ _ => True := by
  have c₀ := binit_inv disk disksize log
  generalize binit disk disksize log = io₀ at c₀
  unfold initlog
  rw [holds_bind]
  refine (bread_holds c₀).mono (fun b io₁ h₁ => ?_) fun _ _ _ => trivial
  obtain ⟨-, c₁, a₁, -, -⟩ := h₁
  rw [holds_bind, holds_fetch, holds_bind]
  refine (brelse_holds c₁ a₁ (Finset.mem_insert_self _ _) (Finset.notMem_empty _)).mono (fun _ io₂ h₂ =>
    ?_) fun _ _ => id
  obtain ⟨c₂, -, -⟩ := h₂
  rw [Finset.erase_insert (Finset.notMem_empty _)] at c₂
  rw [holds_bind, holds_update]
  have c₃ := withLog_inv c₂ (locate (io₁.buf b).data io₂.log)
  generalize { io₂ with log := locate (io₁.buf b).data io₂.log } = io₃ at c₃
  unfold recoverFromLog readHead
  rw [holds_bind, holds_bind, holds_fetch, holds_bind]
  refine (bread_holds c₃).mono (fun b io₄ h₄ => ?_) fun _ _ _ => trivial
  obtain ⟨-, c₄, a₄, -, -⟩ := h₄
  unfold setLh
  rw [holds_bind, holds_fetch, holds_bind, holds_update]
  have c₄' := withLog_inv c₄ { io₄.log with lh := decodeHead (io₄.buf b).data }
  refine (brelse_holds c₄' a₄ (Finset.mem_insert_self _ _) (Finset.notMem_empty _)).mono (fun _ io₅ h₅ =>
    ?_) fun _ _ => id
  obtain ⟨c₅, -, -⟩ := h₅
  rw [Finset.erase_insert (Finset.notMem_empty _)] at c₅
  unfold installTrans
  rw [holds_bind, holds_bind, holds_fetch]
  refine (installTrans_loop_holds _ 0 c₅).mono (fun _ io₆ h₆ => ?_) fun _ _ => id
  obtain ⟨-, view', c₆, -⟩ := h₆
  rw [Finset.empty_sdiff] at c₆
  rw [holds_bind, holds_update]
  refine (writeHead_holds (withLog_inv c₆ _) (Finset.notMem_empty _)).mono (fun _ io₇ h₇ => ?_) fun _ _ => id
  obtain ⟨⟨d, c₇⟩, l₇⟩ := h₇
  have hnil : io₇.log.lh = [] := by rw [l₇]
  refine ⟨hnil, _, by rw [hnil]; exact c₇, fun s _ => c₇.disk s (Finset.notMem_empty _) (Finset.notMem_empty _),
    ?_, ?_, ?_, ?_⟩
  · rw [hnil]
    simp
  · rw [hnil]
    simp
  · rw [hnil]
    simp
  · rw [hnil]
    simp

theorem Reaches.good {disk : Nat → Block} {disksize : Nat} (h : Reaches disk disksize io cells) :
    ∃ view held, Good io cells view held := by
  induction h with
  | boot h =>
      obtain ⟨-, view, hg⟩ := (initlog_good disk disksize _).ok h
      exact ⟨view, ∅, hg⟩
  | read s _ hs h ih =>
      obtain ⟨view, held, hg⟩ := ih
      exact ⟨view, _, ((read_good hg hs).ok h).1⟩
  | modify b d _ hb hh h ih =>
      obtain ⟨view, held, hg⟩ := ih
      obtain ⟨view', hg'⟩ := (modify_good hg hb hh).ok h
      exact ⟨view', held, hg'⟩
  | release b _ hb hh h ih =>
      obtain ⟨view, held, hg⟩ := ih
      exact ⟨view, _, (release_good hg hb hh).ok h⟩
  | @begin io io' cells t _ h ih =>
      obtain ⟨view, held, hg⟩ := ih
      refine ⟨view, held, ?_⟩
      have : (beginTrans io).Holds (fun _ => True) (fun _ io' => Good io' cells view held) fun _ _ => True := by
        unfold beginTrans
        rw [holds_bind, holds_fetch, holds_ite]
        exact ⟨fun _ => by simp, fun _ => by rw [holds_update]; exact hg.flag true⟩
      exact this.ok h
  | commit _ h ih =>
      obtain ⟨view, held, hg⟩ := ih
      obtain ⟨-, view', hg'⟩ := (commit_good hg).ok h
      exact ⟨view', held, hg'⟩

theorem scan_some {next : Nat → Nat} {stop : Nat} {p : Nat → Bool} {fuel x a : Nat}
    (h : scan next stop p fuel x = some a) :
    p a = true := by
  induction fuel generalizing x with
  | zero => cases h
  | succ fuel ih =>
      unfold scan at h
      split at h
      case isTrue => cases h
      case isFalse =>
        split at h
        case isTrue hp =>
          cases h
          exact hp
        case isFalse => exact ih h

/-- bget, which is the only code that gives a buffer to another sector, never takes a dirty one. -/
theorem bget_keeps_dirty {io' : Io} {dev : Nat} {t : List DiskWrite} (h : bget dev s io = .ok b io' t) (c : Nat)
    (hc : (io.buf c).dirty = true) :
    (io'.buf c).dirty = true ∧ (io'.buf c).dev = (io.buf c).dev ∧ (io'.buf c).sector = (io.buf c).sector ∧
      (io'.buf c).data = (io.buf c).data := by
  have hset : ∀ (a : Nat) (x : Buf), (a = c → x.dirty = true ∧ x.dev = (io.buf c).dev ∧ x.sector = (io.buf c).sector ∧
      x.data = (io.buf c).data) → ((withBuf io a x).buf c).dirty = true ∧
        ((withBuf io a x).buf c).dev = (io.buf c).dev ∧
      ((withBuf io a x).buf c).sector = (io.buf c).sector ∧ ((withBuf io a x).buf c).data = (io.buf c).data := by
    intro a x hx
    rw [buf_withBuf]
    split
    case isTrue e => exact hx e.symm
    case isFalse => exact ⟨hc, rfl, rfl, rfl⟩
  have : (bget dev s io).Holds (fun _ => True)
      (fun _ io' => (io'.buf c).dirty = true ∧ (io'.buf c).dev = (io.buf c).dev ∧
        (io'.buf c).sector = (io.buf c).sector ∧ (io'.buf c).data = (io.buf c).data) fun _ _ => True := by
    unfold bget
    rw [holds_bind, holds_fetch]
    cases scan io.links.next head (fun b => (io.buf b).dev = dev ∧ (io.buf b).sector = s) (NBUF + 1)
        (io.links.next head) with
    | some a =>
        dsimp only
        rw [holds_ite]
        refine ⟨fun _ => ?_, fun _ => by simp⟩
        rw [holds_bind, setBuf_apply]
        intro _
        rw [holds_pure]
        refine hset _ _ ?_
        rintro rfl
        exact ⟨hc, rfl, rfl, rfl⟩
    | none =>
        dsimp only
        cases hs : scan io.links.prev head (fun b => ¬(io.buf b).busy ∧ ¬(io.buf b).dirty) (NBUF + 1)
            (io.links.prev head) with
        | some a =>
            dsimp only
            rw [holds_bind, setBuf_apply]
            intro _
            rw [holds_pure]
            refine hset _ _ ?_
            rintro rfl
            have := scan_some hs
            simp [hc] at this
        | none => simp
  exact this.ok h

/-- What holds of the buffers in every state: each is once in the list, a sector is cached
once at most, and clean buffers agree with the disk. -/
structure Sound (io : Io) : Prop where
  ring : ∃ l, Linked io.links head l head ∧ l.Perm (List.range NBUF)
  unique : ∀ a b, a < NBUF → b < NBUF → (io.buf a).dev = ROOTDEV → (io.buf b).dev = ROOTDEV →
    (io.buf a).sector = (io.buf b).sector → a = b
  clean : ∀ b < NBUF, (io.buf b).valid = true → (io.buf b).dirty = false → (io.buf b).busy = false →
    (io.buf b).data = io.memdisk (io.buf b).sector

theorem Good.sound (h : Good io cells view held) (hl : Local io) : Sound io where
  ring := h.cache.ring
  unique a b ha hb hda hdb e := h.cache.unique a b _ ⟨ha, hda, rfl⟩ ⟨hb, hdb, e.symm⟩
  clean b hb hv hd _ := by
    have hat : At io b (io.buf b).sector := ⟨hb, hl b hv, rfl⟩
    rw [(h.cache.cached b _ hat).2]
    refine h.cache.disk _ (fun hm => ?_) (Finset.notMem_empty _)
    rw [(h.cache.dirty_eq hat).mpr hm] at hd
    cases hd

theorem buffer_cache_transparent {disk : Nat → Block} {disksize : Nat} {io : Io} {cells : Nat → Block}
    (h : Reaches disk disksize io cells) :
    Sound io ∧
    (∀ dev s b io' t, bget dev s io = .ok b io' t → ∀ c, (io.buf c).dirty = true →
      (io'.buf c).dirty = true ∧ (io'.buf c).dev = (io.buf c).dev ∧ (io'.buf c).sector = (io.buf c).sector) ∧
    (∀ io' t, commitTrans io = .ok () io' t → ∀ b < NBUF, (io'.buf b).dirty = false) ∧
    ∀ s, ¬InLog io s → (bread ROOTDEV s io).Holds (fun _ => True)
      (fun b io' => (io'.buf b).dev = ROOTDEV ∧ (io'.buf b).sector = s ∧ (io'.buf b).data = cells s)
      fun w _ => (w = .sleep ∧ ∃ b < NBUF, (io.buf b).busy = true ∧ (io.buf b).sector = s) ∨
        (w = .panic "bget: no buffers" ∧ Full io) ∨ (w = .panic "iderw: sector out of range" ∧ io.disksize ≤ s) := by
  obtain ⟨view, held, hg⟩ := h.good
  refine ⟨hg.sound h.local, fun dev s b io' t hb c hc => ?_, fun io' t hc b hb => ?_, fun s hs => ?_⟩
  · obtain ⟨h₁, h₂, h₃, -⟩ := bget_keeps_dirty hb c hc
    exact ⟨h₁, h₂, h₃⟩
  · obtain ⟨hnil, view', hg'⟩ := (commit_good hg).ok hc
    have := hg'.cache.dirty_iff b hb
    rw [hnil] at this
    simpa using this
  · refine (read_good hg hs).mono (fun b io' h' => ⟨h'.2.1.2.1, h'.2.1.2.2, h'.2.2⟩) fun w _ hw => ?_
    refine hw.imp_left fun hw => ⟨hw.1, ?_⟩
    obtain ⟨b, hb⟩ := hg.cache.pinned s (Finset.mem_union_right _ hw.2)
    exact ⟨b, hb.1, (hg.cache.busy_eq hb).mpr hw.2, hb.2.2⟩

/-- A disk of forty sectors whose last ten are the log. -/
def smallDisk : Nat → Block := fun s =>
  if s = 1 then Mem.zero.setSlice 0 ([40, 0, 0, 0] ++ List.replicate 8 0 ++ [10]) else Mem.zero

def booted : Io := (initlog (binit smallDisk 40 ⟨0, 0, false, []⟩)).state

/-- Sector 5 is held in buffer 2 of a transaction. -/
def holding : Io := (bread ROOTDEV 5 (beginTrans booted).state).state

def written : Io := (modify 2 (Mem.zero.setBit 3) holding).state

theorem reaches_written : ∃ cells, Reaches smallDisk 40 written cells := by
  obtain ⟨_, h₀⟩ := Run.eq_ok (r := initlog (binit smallDisk 40 ⟨0, 0, false, []⟩)) (by decide +kernel)
  obtain ⟨_, h₁⟩ := Run.eq_ok (r := beginTrans booted) (by decide +kernel)
  obtain ⟨_, h₂⟩ := Run.eq_ok (r := bread ROOTDEV 5 (beginTrans booted).state) (by decide +kernel)
  obtain ⟨_, h₃⟩ := Run.eq_ok (r := modify 2 (Mem.zero.setBit 3) holding) (by decide +kernel)
  have hs : ¬(((beginTrans booted).state.log.start ≤ 5 ∧
      5 < (beginTrans booted).state.log.start + (beginTrans booted).state.log.size)) := by decide +kernel
  exact ⟨_, .modify 2 _ (.read 5 (.begin (.boot h₀) h₁) hs h₂) (by decide) (by decide +kernel) h₃⟩

theorem buffer_cache_transparent_written :
    (written.buf 2).dirty = true ∧ Sound written ∧
    ∀ io' t, commitTrans written = .ok () io' t → ∀ b < NBUF, (io'.buf b).dirty = false := by
  obtain ⟨cells, h⟩ := reaches_written
  have hs := buffer_cache_transparent h
  exact ⟨by decide +kernel, hs.1, hs.2.2.1⟩

end ArmXv6.Transparency
