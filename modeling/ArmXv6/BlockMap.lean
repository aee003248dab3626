import ArmXv6.Ownership

namespace ArmXv6.BlockMap

open Lib.Exec Lib.Bytes Param Blocks Fs DiskImage BlockSpecs BlockAlloc Ownership

/-- Cache entry ip holds the valid copy of the live inode i. -/
structure Cached (v : Volume) (A : Image) (fs : Fs) (ip i : Nat) : Prop where
  index : ip < NINODE
  ref : 0 < (fs.icache ip).ref
  valid : (fs.icache ip).valid = true
  inum : (fs.icache ip).inum = i
  live : Live v A i

/-- Only the copy of the inode in entry ip changes, besides blocks. -/
structure Edits (ip : Nat) (fs fs' : Fs) : Prop where
  held : fs'.held = fs.held
  busy : fs'.log.busy = fs.log.busy
  input : fs'.input = fs.input
  others : ∀ jp, jp ≠ ip → fs'.icache jp = fs.icache jp
  self : ∃ d, fs'.icache ip = { fs.icache ip with din := d }

variable {v : Volume} {A A' : Image} {S X D : Set Nat} {fs fs' fs'' : Fs} {ip i n b : Nat}
  {ok : Stop → Prop} {G : Event → Prop}

theorem Edits.trans (h : Edits ip fs fs') (h' : Edits ip fs' fs'') : Edits ip fs fs'' := by
  obtain ⟨d, hd⟩ := h'.self
  obtain ⟨e, he⟩ := h.self
  refine ⟨h'.held.trans h.held, h'.busy.trans h.busy, h'.input.trans h.input,
    fun jp hj => (h'.others jp hj).trans (h.others jp hj), d, ?_⟩
  rw [hd, he]

theorem edits_of_kept (h : Kept fs fs') (ip : Nat) : Edits ip fs fs' :=
  ⟨h.held, h.busy, h.input, fun _ _ => congrFun h.icache _, (fs.icache ip).din, congrFun h.icache ip⟩

theorem Cached.din (h : Cached v A fs ip i) (hrep : Rep v A D fs) : (fs.icache ip).din = A.ino i := by
  rw [← h.inum]
  exact hrep.cache.din ip h.index h.ref h.valid

theorem Cached.edits (h : Cached v A fs ip i) (he : Edits ip fs fs') (hl : Live v A' i) : Cached v A' fs' ip i := by
  obtain ⟨d, hd⟩ := he.self
  exact ⟨h.index, by rw [hd]; exact h.ref, by rw [hd]; exact h.valid, by rw [hd]; exact h.inum, hl⟩

/-- The state after the copy of the inode in entry ip is replaced. -/
def putDin (fs : Fs) (ip : Nat) (d : Dinode) : Fs :=
  { fs with icache := Function.update fs.icache ip { fs.icache ip with din := d } }

theorem edits_putDin (fs : Fs) (ip : Nat) (d : Dinode) : Edits ip fs (putDin fs ip d) :=
  ⟨rfl, rfl, rfl, fun _ hj => Function.update_of_ne hj _ _, d, Function.update_self ..⟩

@[simp] theorem holds_setDin {Q : Unit → Fs → Prop} {E : Stop → Fs → Prop} (f : Dinode → Dinode) :
    (setDin ip f fs).Holds G Q E ↔ Q () (putDin fs ip (f (fs.icache ip).din)) := by
  simp [setDin, setInode, putDin]

theorem rep_putDin (h : Rep v A D fs) (hc : Cached v A fs ip i) (d : Dinode) :
    Rep v (A.setIno i d) (insert i D) (putDin fs ip d) := by
  have hfield : ∀ jp, ((putDin fs ip d).icache jp).ref = (fs.icache jp).ref ∧
      ((putDin fs ip d).icache jp).inum = (fs.icache jp).inum ∧
      ((putDin fs ip d).icache jp).dev = (fs.icache jp).dev ∧
      ((putDin fs ip d).icache jp).valid = (fs.icache jp).valid := by
    intro jp
    by_cases hj : jp = ip <;> simp [putDin, hj]
  refine ⟨by simpa [putDin] using h.log, h.disk.setIno_stale i d, ⟨?_, ?_, ?_⟩⟩
  · intro jp hjp hr
    obtain ⟨h1, h2, h3, -⟩ := hfield jp
    rw [h1] at hr
    rw [h2, h3]
    exact h.cache.known jp hjp hr
  · intro jp hjp kp hkp hr hr' he
    rw [(hfield jp).1] at hr
    rw [(hfield kp).1] at hr'
    rw [(hfield jp).2.1, (hfield kp).2.1] at he
    exact h.cache.inj jp hjp kp hkp hr hr' he
  · intro jp hjp hr hv
    obtain ⟨h1, h2, -, h4⟩ := hfield jp
    rw [h1] at hr
    rw [h4] at hv
    rw [h2]
    by_cases hj : jp = ip
    · subst hj
      simp [putDin, Image.setIno, hc.inum]
    · have hne : (fs.icache jp).inum ≠ i := fun he =>
        hj (h.cache.inj jp hjp ip hc.index hr hc.ref (he.trans hc.inum.symm))
      simp only [putDin, Image.setIno, Function.update_of_ne hj, Function.update_of_ne hne]
      exact h.cache.din jp hjp hr hv

theorem bmap_existing (h : Rep v A D fs) (ho : Owns v A S X) (hc : Cached v A fs ip i) (hS : i ∉ S)
    (hn : n < MAXFILE) (hb : slot A i (bslot n) ≠ 0)
    (hr : Lenient ok ∨ Readable ok fs (slot A i NDIRECT)) :
    (bmap ip n fs).Holds G (fun b fs' => b = slot A i (bslot n) ∧ fs = fs') (fun w _ => ok w) := by
  have hdin := hc.din h
  simp only [bmap, holds_bind, holds_fetch, hdin]
  by_cases hd : n < NDIRECT
  · have hs : slot A i (bslot n) = (A.ino i).addrs n := by
      rw [show bslot n = n from if_pos hd, slot_direct _ _ hd.le]
    rw [hs] at hb
    simp [hd, hb, hs]
  · have hs : slot A i (bslot n) = if (A.ino i).addrs NDIRECT = 0 ∨ NDIRECT + NINDIRECT < n + 1 then 0
        else (A.data ((A.ino i).addrs NDIRECT)).word (4 * (n - NDIRECT)) := by
      rw [show bslot n = n + 1 from if_neg hd]
      unfold slot
      rw [if_neg (by omega), show n + 1 - (NDIRECT + 1) = n - NDIRECT by omega]
    have hind : (A.ino i).addrs NDIRECT ≠ 0 := by
      intro h0
      simp [hs, h0] at hb
    have hn' : n - NDIRECT < NINDIRECT := by
      simp only [MAXFILE] at hn
      omega
    have hlt : ¬NDIRECT + NINDIRECT < n + 1 := by
      simp only [MAXFILE] at hn
      omega
    rw [if_neg (by simp [hind, hlt])] at hs
    rw [← slot_indirect] at hind
    obtain ⟨hr1, hr2⟩ := ho.range i NDIRECT hc.live hS hind
    have hblk := h.blk_eq hr1 hr2
    rw [slot_indirect] at hind hr hr2 hblk
    simp only [hd, if_false, hn', if_true, hind, holds_bind, holds_pure]
    refine (bread_spec h.log (v.lt_disksize hr2) hr).mono ?_ fun _ _ => id
    rintro _ _ ⟨rfl, rfl⟩
    rw [hs] at hb
    simp [hblk, hb, hs]

/-- The logged sectors that count, with one kept back for the indirect block of the inode. -/
def cost (v : Volume) (A : Image) (i : Nat) (lh : List Nat) : Nat :=
  load v lh + if slot A i NDIRECT ≠ 0 ∧ slot A i NDIRECT ∈ lh then 0 else 1

/-- No buffer is held, and there is room for k more logged sectors and for free new blocks. -/
structure Plenty (v : Volume) (A : Image) (fs : Fs) (i k free : Nat) : Prop where
  budget : cost v A i fs.log.lh + nbitmap v + k ≤ 7
  nlog : 8 < v.sb.nlog
  held : fs.held = []
  free : free ≤ freeCount v A

theorem load_le_cost (v : Volume) (A : Image) (i : Nat) (lh : List Nat) : load v lh ≤ cost v A i lh :=
  Nat.le_add_right _ _

/-- The same, where it may be tolerated that the transaction outgrows the log or the buffers. -/
structure Enough (ok : Stop → Prop) (v : Volume) (A : Image) (fs : Fs) (i k free : Nat) : Prop where
  budget : Unbounded ok ∨ cost v A i fs.log.lh + nbitmap v + k ≤ 7 ∧ 8 < v.sb.nlog
  held : fs.held = []
  free : free ≤ freeCount v A

theorem Plenty.enough {k free : Nat} (h : Plenty v A fs i k free) : Enough ok v A fs i k free :=
  ⟨.inr ⟨h.budget, h.nlog⟩, h.held, h.free⟩

theorem Enough.ample {k free : Nat} (h : Enough ok v A fs i k free) : Ample ok v A fs k := by
  refine ⟨h.budget.imp id fun hb => ⟨?_, hb.2⟩, by simp [h.held], by simp [h.held]⟩
  have := load_le_cost v A i fs.log.lh
  omega

structure Grown (A A' : Image) (i n b : Nat) : Prop where
  others : ∀ j, j ≠ i → A'.ino j = A.ino j
  self : ∃ f, A'.ino i = { A.ino i with addrs := f }
  keep : ∀ k, slot A i k ≠ 0 → slot A' i k = slot A i k
  block : slot A' i (bslot n) = b
  zero : A'.data b = Mem.zero
  fresh : A.used b = false
  data : ∀ c, A.used c = true → c ≠ slot A i NDIRECT → A'.data c = A.data c
  used : ∀ c, A.used c = true → A'.used c = true

/-- A new block in the indirect block, which is there. -/
theorem bmap_entry_spec (h : Rep v A D fs) (ho : Owns v A S X) (hi : Live v A i) (hS : i ∉ S)
    (hn : NDIRECT ≤ n) (hn' : n < MAXFILE) (hind : slot A i NDIRECT ≠ 0) (h0 : slot A i (bslot n) = 0)
    (hbusy : fs.log.busy = true) (hr : Tolerant G ok ∨ Enough ok v A fs i 1 1) :
    ((do
        let bp ← bread (slot A i NDIRECT)
        if bp.word (4 * (n - NDIRECT)) = 0 then do
          let addr ← balloc
          logWrite (slot A i NDIRECT) (bp.setWord (4 * (n - NDIRECT)) addr)
          brelse (slot A i NDIRECT)
          pure addr
        else do
          brelse (slot A i NDIRECT)
          pure (bp.word (4 * (n - NDIRECT))) : FsM Nat) fs).Holds G
      (fun b fs' => A.used b = false ∧ v.dataStart ≤ b ∧ b < v.logStart ∧ Rep v (attachEntry A i n b) D fs' ∧
        Kept fs fs' ∧ fs'.log.lh = absorb (absorb (absorb fs.log.lh (BBLOCK b v.sb.ninodes)) b) (slot A i NDIRECT))
      (fun w _ => ok w) := by
  obtain ⟨hlo, hhi⟩ := ho.range i NDIRECT hi hS hind
  have hblk := h.blk_eq hlo hhi
  have hword : (A.data (slot A i NDIRECT)).word (4 * (n - NDIRECT)) = 0 := by
    have hbs : bslot n = n + 1 := if_neg (by omega)
    have hlt : ¬NDIRECT + NINDIRECT < n + 1 := by
      simp only [MAXFILE] at hn'
      omega
    rw [hbs] at h0
    unfold slot at h0
    rw [slot_indirect] at hind ⊢
    rw [if_neg (by omega), if_neg (by simp [hind, hlt]), show n + 1 - (NDIRECT + 1) = n - NDIRECT by omega] at h0
    exact h0
  simp only [holds_bind]
  refine (bread_spec h.log (v.lt_disksize hhi) (hr.imp And.left fun hp => hp.ample.readable h.log.nodup
    (by simp [hp.held]))).mono ?_ fun _ _ => id
  rintro _ _ ⟨rfl, rfl⟩
  rw [hblk]
  simp only [hword, if_true, holds_bind]
  have hrep : Rep v A D { fs with held := slot A i NDIRECT :: fs.held } :=
    ⟨by simpa using h.log, h.disk, h.cache⟩
  have hr₁ : Tolerant G ok ∨ Ample ok v A { fs with held := slot A i NDIRECT :: fs.held } 1 ∧
      ∃ c < v.logStart, A.used c = false := by
    refine hr.imp id fun hp => ⟨⟨hp.ample.budget, by simp [hp.held], ?_⟩, exists_free hp.free⟩
    intro s hs
    rw [hp.held, List.mem_singleton] at hs
    subst hs
    exact ⟨hlo, hhi, ho.used_slot hi hS hind⟩
  refine (balloc_spec hrep (fun c hc => ho.metadata hc) hbusy hr₁).mono ?_ fun _ _ => id
  rintro b fs₁ ⟨hu, hb, hb', hrep₁, hkept, hlh⟩
  have hne : slot A i NDIRECT ≠ b := ho.fresh hu hi hS hind
  have hr₂ : Lenient ok ∨ Loggable ok v fs₁ := by
    refine hr.imp And.left fun hp => ?_
    refine ⟨?_, hp.ample.budget.imp id fun ⟨hb, hnlog⟩ => ?_⟩
    · intro s hs
      rw [hkept.held, hp.held, List.mem_singleton] at hs
      exact hs ▸ hhi
    · have hload : load v fs₁.log.lh ≤ load v fs.log.lh + 1 := by
        rw [hlh]
        exact (load_absorb_le _ _).trans_eq
          (by rw [load_absorb_bitmap _ (bitmap_bblock (hb'.trans v.logStart_lt_size))])
      have hlen : fs₁.log.lh.length + 0 ≤ 7 := length_add_le (v := v) (by omega) hrep₁.log.nodup
      rw [hkept.held, hp.held]
      simp only [LOGSIZE, NBUF, List.length_singleton]
      omega
  refine (logWrite_spec hrep₁.log _ (hkept.busy.trans hbusy) hr₂).mono ?_ fun _ _ => id
  rintro _ _ ⟨rfl, hl⟩
  simp only [holds_brelse, holds_pure]
  refine ⟨hu, hb, hb', ?_, ⟨hkept.icache, ?_, hkept.busy, hkept.input⟩, ?_⟩
  · have hr := hrep₁.data hlo ((A.data (slot A i NDIRECT)).setWord (4 * (n - NDIRECT)) b)
      (hrep₁.log.afterLog hhi hl _)
    exact ⟨by simpa using hr.log, hr.disk, hr.cache⟩
  · change (fs₁.held).erase _ = _
    rw [hkept.held]
    simp
  · change absorb fs₁.log.lh _ = _
    rw [hlh]

theorem grown_attachAddr (ho : Owns v A S X) (hi : Live v A i) (hS : i ∉ S) (hn : n < NDIRECT)
    (h0 : slot A i n = 0) (hu : A.used b = false) (hb : v.dataStart ≤ b) : Grown A (attachAddr A i n b) i n b := by
  have hslot := fun l => slot_attachAddr (l := l) ho hi hS hn.le h0 hu hb hi hS
  have hbs : bslot n = n := if_pos hn
  refine ⟨fun j hj => Function.update_of_ne hj _ _, ⟨_, Function.update_self ..⟩, ?_, ?_,
    Function.update_self .., hu, ?_, ?_⟩
  · intro k hk
    have : k ≠ n := fun he => hk (he ▸ h0)
    simp [hslot, this]
  · simp [hslot, hbs]
  · intro c hc _
    have : c ≠ b := fun he => by rw [he, hu] at hc; exact absurd hc (by decide)
    exact Function.update_of_ne this _ _
  · intro c hc
    by_cases hcb : c = b <;> simp [attachAddr, Image.setIno, Image.alloc, hcb, hc]

theorem grown_attachEntry (ho : Owns v A S X) (hi : Live v A i) (hS : i ∉ S) (hn : NDIRECT ≤ n)
    (hn' : n < MAXFILE) (hind : slot A i NDIRECT ≠ 0) (h0 : slot A i (bslot n) = 0) (hu : A.used b = false)
    (hb' : b < v.logStart) : Grown A (attachEntry A i n b) i n b := by
  have hslot := fun l => slot_attachEntry (l := l) ho hi hS hn hn' hind hu hb' hi hS
  have hbi : b ≠ slot A i NDIRECT := fun he => ho.fresh hu hi hS hind he.symm
  refine ⟨fun j hj => rfl, ⟨_, rfl⟩, ?_, ?_, ?_, hu, ?_, ?_⟩
  · intro k hk
    have : k ≠ bslot n := fun he => hk (he ▸ h0)
    simp [hslot, this]
  · simp [hslot]
  · simp [attachEntry, Image.setData, Image.alloc, hbi]
  · intro c hc hci
    have : c ≠ b := fun he => by rw [he, hu] at hc; exact absurd hc (by decide)
    simp [attachEntry, Image.setData, Image.alloc, hci, this]
  · intro c hc
    by_cases hcb : c = b <;> simp [attachEntry, Image.setData, Image.alloc, hcb, hc]

/-- The blocks that block n of a file costs: the first indirect one needs the indirect block too. -/
def newBlocks (n : Nat) : Nat := if n = NDIRECT then 2 else 1

/-- The state of things after inode i got its block n. -/
structure Extended (v : Volume) (A : Image) (S X D : Set Nat) (ip i n : Nat) (fs : Fs) (b : Nat) (fs' : Fs)
    (A' : Image) : Prop where
  rep : Rep v A' D fs'
  owns : Owns v A' S X
  shape : Shaped A' i (n + 1)
  grown : Grown A A' i n b
  range : v.dataStart ≤ b ∧ b < v.logStart
  edits : Edits ip fs fs'
  logged : b ∈ fs'.log.lh
  cost : cost v A' i fs'.log.lh ≤ cost v A i fs.log.lh + 1
  free : freeCount v A' + newBlocks n = freeCount v A

theorem load_take_le (lh : List Nat) (hb : b < v.logStart) :
    load v (absorb (absorb lh (BBLOCK b v.sb.ninodes)) b) ≤ load v lh + 1 :=
  (load_absorb_le _ _).trans_eq (by rw [load_absorb_bitmap _ (bitmap_bblock (hb.trans v.logStart_lt_size))])

theorem bmap_direct_spec (h : Rep v A D fs) (ho : Owns v A S X) (hc : Cached v A fs ip i) (k : Nat)
    (hbusy : fs.log.busy = true)
    (hr : Tolerant G ok ∨ Ample ok v A fs 1 ∧ 0 < freeCount v A) :
    ((do
        let addr ← balloc
        setDin ip fun d => { d with addrs := Function.update d.addrs k addr }
        pure addr : FsM Nat) fs).Holds G
      (fun b fs' => A.used b = false ∧ v.dataStart ≤ b ∧ b < v.logStart ∧
        Rep v (attachAddr A i k b) (insert i D) fs' ∧ Edits ip fs fs' ∧
        fs'.log.lh = absorb (absorb fs.log.lh (BBLOCK b v.sb.ninodes)) b)
      (fun w _ => ok w) := by
  simp only [holds_bind]
  refine (balloc_spec h (fun c hc => ho.metadata hc) hbusy
    (hr.imp id fun ha => ⟨ha.1, exists_free ha.2⟩)).mono ?_ fun _ _ => id
  rintro b fs₁ ⟨hu, hb, hb', hrep, hkept, hlh⟩
  have hc₁ : Cached v (A.alloc b) fs₁ ip i := hc.edits (edits_of_kept hkept ip) hc.live
  have hdin : (fs₁.icache ip).din = A.ino i := hc₁.din hrep
  simp only [holds_setDin, holds_pure, hdin]
  exact ⟨hu, hb, hb', rep_putDin hrep hc₁ _, (edits_of_kept hkept ip).trans (edits_putDin ..), hlh⟩

theorem grown_first {ind : Nat} (ho : Owns v A S X) (hi : Live v A i) (hS : i ∉ S) (hz : slot A i NDIRECT = 0)
    (hu : A.used ind = false) (hlo : v.dataStart ≤ ind) (hg : Grown (attachAddr A i NDIRECT ind) A' i n b) :
    Grown A A' i n b := by
  have hslot := fun l => slot_attachAddr (l := l) ho hi hS le_rfl hz hu hlo hi hS
  have hind : slot (attachAddr A i NDIRECT ind) i NDIRECT = ind := by simp [hslot]
  have hself : (attachAddr A i NDIRECT ind).ino i =
      { A.ino i with addrs := Function.update (A.ino i).addrs NDIRECT ind } := Function.update_self ..
  have hused : ∀ c, A.used c = true → (attachAddr A i NDIRECT ind).used c = true := by
    intro c hc
    by_cases hcb : c = ind <;> simp [attachAddr, Image.setIno, Image.alloc, hcb, hc]
  refine ⟨?_, ?_, ?_, hg.block, hg.zero, ?_, ?_, fun c hc => hg.used c (hused c hc)⟩
  · intro j hj
    rw [hg.others j hj]
    exact Function.update_of_ne hj _ _
  · obtain ⟨f, hf⟩ := hg.self
    exact ⟨f, by rw [hf, hself]⟩
  · intro k hk
    have hkn : k ≠ NDIRECT := fun he => hk (he ▸ hz)
    have he : slot (attachAddr A i NDIRECT ind) i k = slot A i k := by simp [hslot, hkn]
    rw [hg.keep k (by rw [he]; exact hk), he]
  · by_contra hne
    have := hused b (by simpa using hne)
    rw [hg.fresh] at this
    exact absurd this (by decide)
  · intro c hc _
    have hci : c ≠ ind := fun he => by rw [he, hu] at hc; exact absurd hc (by decide)
    rw [hg.data c (hused c hc) (by rw [hind]; exact hci)]
    exact Function.update_of_ne hci _ _

theorem shaped_attachAddr (ho : Owns v A S X) (hi : Live v A i) (hS : i ∉ S) (hsh : Shaped A i n) (hd : n < NDIRECT)
    (hu : A.used b = false) (hb : v.dataStart ≤ b) : Shaped (attachAddr A i n b) i (n + 1) := by
  have hbs : bslot n = n := if_pos hd
  have h0 : slot A i n = 0 := by
    by_contra hne
    rw [← hbs] at hne
    have hn : n < MAXFILE := Nat.lt_add_right _ hd
    exact lt_irrefl n ((hsh.blocks n hn).1 hne)
  have hslot := fun l => slot_attachAddr (l := l) ho hi hS hd.le h0 hu hb hi hS
  have hb0 : b ≠ 0 := by have := v.one_lt_dataStart; omega
  constructor
  · intro m hm
    rw [hslot]
    by_cases hmn : m = n
    · simp [hmn, hbs, hb0]
    · have hne : bslot m ≠ n := fun he => hmn (bslot_inj (he.trans hbs.symm))
      have hlt : m < n + 1 ↔ m < n := by omega
      simp only [hne, and_false, if_false, hlt]
      exact hsh.blocks m hm
  · have hne : NDIRECT ≠ n := by omega
    have hlt : NDIRECT < n + 1 ↔ NDIRECT < n := by omega
    rw [hslot]
    simp only [hne, and_false, if_false, hlt]
    exact hsh.indirect

theorem shaped_attachEntry (ho : Owns v A S X) (hi : Live v A i) (hS : i ∉ S) (hn : NDIRECT ≤ n) (hn' : n < MAXFILE)
    (hind : slot A i NDIRECT ≠ 0) (hblocks : ∀ m < MAXFILE, slot A i (bslot m) ≠ 0 ↔ m < n)
    (hu : A.used b = false) (hb : v.dataStart ≤ b) (hb' : b < v.logStart) : Shaped (attachEntry A i n b) i (n + 1) := by
  have hslot := fun l => slot_attachEntry (l := l) ho hi hS hn hn' hind hu hb' hi hS
  have hb0 : b ≠ 0 := by have := v.one_lt_dataStart; omega
  constructor
  · intro m hm
    rw [hslot]
    by_cases hmn : m = n
    · simp [hmn, hb0]
    · have hne : bslot m ≠ bslot n := fun he => hmn (bslot_inj he)
      have hlt : m < n + 1 ↔ m < n := by omega
      simp only [hne, and_false, if_false, hlt]
      exact hblocks m hm
  · rw [hslot, if_neg fun hc => bslot_ne_indirect n hc.2.symm]
    exact ⟨fun _ => by omega, fun _ => hind⟩

theorem bmap_indirect_spec (h : Rep v A D fs) (ho : Owns v A S X) (hi : Live v A i) (hS : i ∉ S)
    (hn : NDIRECT ≤ n) (hn' : n < MAXFILE) (hind : slot A i NDIRECT ≠ 0)
    (hblocks : ∀ m < MAXFILE, slot A i (bslot m) ≠ 0 ↔ m < n)
    (hbusy : fs.log.busy = true) (hr : Tolerant G ok ∨ Enough ok v A fs i 1 1) :
    ((do
        let bp ← bread (slot A i NDIRECT)
        if bp.word (4 * (n - NDIRECT)) = 0 then do
          let addr ← balloc
          logWrite (slot A i NDIRECT) (bp.setWord (4 * (n - NDIRECT)) addr)
          brelse (slot A i NDIRECT)
          pure addr
        else do
          brelse (slot A i NDIRECT)
          pure (bp.word (4 * (n - NDIRECT))) : FsM Nat) fs).Holds G
      (fun b fs' => Rep v (attachEntry A i n b) D fs' ∧ Owns v (attachEntry A i n b) S X ∧
        Shaped (attachEntry A i n b) i (n + 1) ∧ Grown A (attachEntry A i n b) i n b ∧
        (v.dataStart ≤ b ∧ b < v.logStart) ∧ Kept fs fs' ∧ b ∈ fs'.log.lh ∧
        cost v (attachEntry A i n b) i fs'.log.lh ≤ cost v A i fs.log.lh + 1 ∧
        freeCount v (attachEntry A i n b) + 1 = freeCount v A)
      (fun w _ => ok w) := by
  have h0 : slot A i (bslot n) = 0 := by
    by_contra hne
    exact lt_irrefl n ((hblocks n hn').1 hne)
  refine (bmap_entry_spec h ho hi hS hn hn' hind h0 hbusy hr).mono ?_ fun _ _ => id
  rintro b fs' ⟨hu, hb, hb', hrep, hkept, hlh⟩
  have hslot := fun l => slot_attachEntry (l := l) ho hi hS hn hn' hind hu hb' hi hS
  have hind' : slot (attachEntry A i n b) i NDIRECT = slot A i NDIRECT := by
    rw [hslot, if_neg fun hc => bslot_ne_indirect n hc.2.symm]
  refine ⟨hrep, ho.attachEntry hi hS hn hn' hind h0 hu hb hb',
    shaped_attachEntry ho hi hS hn hn' hind hblocks hu hb hb',
    grown_attachEntry ho hi hS hn hn' hind h0 hu hb', ⟨hb, hb'⟩, hkept, ?_, ?_, ?_⟩
  · rw [hlh]
    exact mem_absorb.2 (.inl (mem_absorb.2 (.inr rfl)))
  · have hmem : slot A i NDIRECT ∈ fs'.log.lh := by
      rw [hlh]
      exact mem_absorb.2 (.inr rfl)
    have h1 := load_take_le fs.log.lh hb'
    simp only [cost, hind', hind, hmem, ne_eq, not_false_eq_true, and_self, if_true, true_and]
    by_cases hm : slot A i NDIRECT ∈ fs.log.lh
    · rw [hlh, load_absorb_mem (mem_absorb.2 (.inl (mem_absorb.2 (.inl hm))))]
      simp only [hm, if_true]
      omega
    · have h2 := load_absorb_le (v := v) (absorb (absorb fs.log.lh (BBLOCK b v.sb.ninodes)) b) (slot A i NDIRECT)
      rw [hlh]
      simp only [hm, if_false]
      omega
  · rw [← freeCount_alloc hu hb']
    rfl

theorem bmap_grow (h : Rep v A D fs) (ho : Owns v A S X) (hc : Cached v A fs ip i) (hS : i ∉ S)
    (hsh : Shaped A i n) (hn : n < MAXFILE) (hbusy : fs.log.busy = true)
    (hr : Tolerant G ok ∨ Enough ok v A fs i 1 (newBlocks n)) :
    (bmap ip n fs).Holds G
      (fun b fs' => ∃ A', Extended v A S X (insert i D) ip i n fs b fs' A') (fun w _ => ok w) := by
  have hdin := hc.din h
  have h0 : slot A i (bslot n) = 0 := by
    by_contra hne
    exact lt_irrefl n ((hsh.blocks n hn).1 hne)
  have hpos : 0 < newBlocks n := by unfold newBlocks; split <;> decide
  unfold bmap
  rw [holds_bind, holds_fetch]
  simp only [hdin]
  by_cases hd : n < NDIRECT
  · -- A direct block: one allocation, entered in the inode.
    have hbs : bslot n = n := if_pos hd
    rw [hbs] at h0
    have hz : (A.ino i).addrs n = 0 := by rw [← slot_direct A i hd.le, h0]
    simp only [hd, if_true, hz]
    refine (bmap_direct_spec h ho hc n hbusy
      (hr.imp id fun hp => ⟨hp.ample, hpos.trans_le hp.free⟩)).mono ?_ fun _ _ => id
    rintro b fs' ⟨hu, hb, hb', hrep, hed, hlh⟩
    have hslot := fun l => slot_attachAddr (l := l) ho hc.live hS hd.le h0 hu hb hc.live hS
    refine ⟨attachAddr A i n b, hrep, ho.attachAddr hc.live hS hd.le h0 hu hb hb',
      shaped_attachAddr ho hc.live hS hsh hd hu hb, grown_attachAddr ho hc.live hS hd h0 hu hb, ⟨hb, hb'⟩,
        hed, ?_, ?_, ?_⟩
    · rw [hlh]
      exact mem_absorb.2 (.inr rfl)
    · have hz' : slot A i NDIRECT = 0 := by
        by_contra hne
        have := hsh.indirect.1 hne
        omega
      have hz'' : slot (attachAddr A i n b) i NDIRECT = 0 := by
        rw [hslot]
        simp [show NDIRECT ≠ n by omega, hz']
      have := load_take_le fs.log.lh hb'
      simp only [cost, hz', hz'', ne_eq, not_true_eq_false, false_and, if_false, hlh]
      omega
    · have hnb : newBlocks n = 1 := if_neg (by omega)
      rw [hnb, ← freeCount_alloc hu hb']
      rfl
  · have hn12 : NDIRECT ≤ n := by omega
    have hn' : n - NDIRECT < NINDIRECT := by
      simp only [MAXFILE] at hn
      omega
    simp only [hd, if_false, hn', if_true]
    rw [holds_bind]
    by_cases hz : (A.ino i).addrs NDIRECT = 0
    · -- The first indirect block: the indirect block itself comes first.
      rw [if_pos hz]
      have hz' : slot A i NDIRECT = 0 := by rw [slot_indirect, hz]
      have hn12' : n = NDIRECT := by
        by_contra hne
        exact hsh.indirect.2 (by omega) hz'
      have hnb : newBlocks n = 2 := if_pos hn12'
      rw [hnb] at hr
      refine (bmap_direct_spec h ho hc NDIRECT hbusy
        (hr.imp id fun hp => ⟨hp.ample, by have := hp.free; omega⟩)).mono ?_ fun _ _ => id
      rintro ind fs₁ ⟨hu₁, hlo, hhi, hrep₁, hed₁, hlh₁⟩
      have hslot := fun l => slot_attachAddr (l := l) ho hc.live hS le_rfl hz' hu₁ hlo hc.live hS
      have ho₁ := ho.attachAddr hc.live hS le_rfl hz' hu₁ hlo hhi
      have hi₁ : Live v (attachAddr A i NDIRECT ind) i := by
        refine ⟨hc.live.1, ?_⟩
        rw [show (attachAddr A i NDIRECT ind).ino i = _ from Function.update_self ..]
        exact hc.live.2
      have hindeq : slot (attachAddr A i NDIRECT ind) i NDIRECT = ind := by simp [hslot]
      have hind0 : ind ≠ 0 := by have := v.one_lt_dataStart; omega
      have hblocks : ∀ m < MAXFILE, slot (attachAddr A i NDIRECT ind) i (bslot m) ≠ 0 ↔ m < n := by
        intro m hm
        rw [hslot, if_neg fun hc => bslot_ne_indirect m hc.2]
        exact hsh.blocks m hm
      have hmem : ind ∈ fs₁.log.lh := by
        rw [hlh₁]
        exact mem_absorb.2 (.inr rfl)
      have hcost : cost v (attachAddr A i NDIRECT ind) i fs₁.log.lh ≤ cost v A i fs.log.lh := by
        have := load_take_le fs.log.lh hhi
        simp only [cost, hindeq, hind0, hmem, hz', ne_eq, not_true_eq_false, not_false_eq_true, and_self, false_and,
          if_true, if_false]
        rw [hlh₁]
        omega
      have hfree : freeCount v (attachAddr A i NDIRECT ind) + 1 = freeCount v A := freeCount_alloc hu₁ hhi
      have hr₁ : Tolerant G ok ∨ Enough ok v (attachAddr A i NDIRECT ind) fs₁ i 1 1 := by
        refine hr.imp id fun hp => ⟨hp.budget.imp id fun hb => ⟨by omega, hb.2⟩, hed₁.held.trans hp.held, ?_⟩
        have := hp.free
        omega
      have hmain := bmap_indirect_spec hrep₁ ho₁ hi₁ hS hn12 hn (by rw [hindeq]; exact hind0) hblocks
        (hed₁.busy.trans hbusy) hr₁
      rw [hindeq] at hmain
      refine hmain.mono ?_ fun _ _ => id
      rintro b fs' ⟨hrep, ho', hsh', hg, hrange, hkept, hlog, hcost', hfree'⟩
      exact ⟨_, hrep, ho', hsh', grown_first ho hc.live hS hz' hu₁ hlo hg, hrange,
        hed₁.trans (edits_of_kept hkept ip), hlog, by omega, by omega⟩
    · rw [if_neg hz, holds_pure]
      have hind : slot A i NDIRECT ≠ 0 := by rwa [slot_indirect]
      have hlt := hsh.indirect.1 hind
      have hnb : newBlocks n = 1 := if_neg (by omega)
      rw [hnb] at hr
      have hmain := bmap_indirect_spec h ho hc.live hS hn12 hn hind hsh.blocks hbusy hr
      rw [slot_indirect] at hmain
      refine hmain.mono ?_ fun _ _ => id
      rintro b fs' ⟨hrep, ho', hsh', hg, hrange, hkept, hlog, hcost, hfree⟩
      exact ⟨_, ⟨hrep.log, hrep.disk.mono (Set.subset_insert i D), hrep.cache⟩, ho', hsh', hg, hrange,
        edits_of_kept hkept ip, hlog, hcost, hnb ▸ hfree⟩

end ArmXv6.BlockMap
