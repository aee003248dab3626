import ArmXv6.BlockSpecs

namespace ArmXv6.BlockAlloc

open Lib.Exec Lib.Bytes Param Blocks Fs DiskImage BlockSpecs

/-- The inode cache agrees with the image: one entry for each referenced inode, and valid
entries hold the inode. -/
structure CacheRep (v : Volume) (A : Image) (icache : Nat → Inode) : Prop where
  known : ∀ ip < NINODE, 0 < (icache ip).ref → (icache ip).dev = ROOTDEV ∧ (icache ip).inum < v.sb.ninodes
  inj : ∀ ip < NINODE, ∀ jp < NINODE, 0 < (icache ip).ref → 0 < (icache jp).ref →
    (icache ip).inum = (icache jp).inum → ip = jp
  din : ∀ ip < NINODE, 0 < (icache ip).ref → (icache ip).valid = true →
    (icache ip).din = A.ino (icache ip).inum

theorem CacheRep.congr {v : Volume} {A A' : Image} {icache : Nat → Inode} (h : CacheRep v A icache)
    (hA : A'.ino = A.ino) : CacheRep v A' icache :=
  { h with din := fun ip hip hr hv => hA ▸ h.din ip hip hr hv }

structure Rep (v : Volume) (A : Image) (D : Set Nat) (fs : Fs) : Prop where
  log : LogRep v fs
  disk : DiskRep v A D fs.blk
  cache : CacheRep v A fs.icache

/-- What code that only changes blocks leaves alone. -/
structure Kept (fs fs' : Fs) : Prop where
  icache : fs'.icache = fs.icache
  held : fs'.held = fs.held
  busy : fs'.log.busy = fs.log.busy
  input : fs'.input = fs.input

theorem Kept.trans {fs fs' fs'' : Fs} (h : Kept fs fs') (h' : Kept fs' fs'') : Kept fs fs'' :=
  ⟨h'.icache.trans h.icache, h'.held.trans h.held, h'.busy.trans h.busy, h'.input.trans h.input⟩

theorem Kept.refl (fs : Fs) : Kept fs fs := ⟨rfl, rfl, rfl, rfl⟩

/-- A run is of interest while every allocation finds a free block below the log. -/
def Roomy : Event → Prop
  | .balloc _ room => room = true
  | _ => True

/-- Where resources may run out: every resource stop is tolerated, and only roomy runs count. -/
def Tolerant (G : Event → Prop) (ok : Stop → Prop) : Prop := Lenient ok ∧ ∀ e, G e → Roomy e

def bitmap (v : Volume) (s : Nat) : Bool := BBLOCK 0 v.sb.ninodes ≤ s ∧ s < v.dataStart

def nbitmap (v : Volume) : Nat := v.dataStart - BBLOCK 0 v.sb.ninodes

/-- The logged sectors that are not bitmap blocks. -/
def load (v : Volume) (l : List Nat) : Nat := (l.filter fun s => !bitmap v s).length

variable {v : Volume} {A : Image} {D : Set Nat} {fs : Fs} {ok : Stop → Prop} {G : Event → Prop} {s b : Nat}

theorem length_le_load {l : List Nat} (h : l.Nodup) : l.length ≤ load v l + nbitmap v := by
  have hb : (l.filter fun s => bitmap v s).length ≤ nbitmap v := by
    have hsub : (l.filter fun s => bitmap v s) ⊆ List.range' (BBLOCK 0 v.sb.ninodes) (nbitmap v) := by
      intro s hs
      have := (List.mem_filter.1 hs).2
      simp only [bitmap, decide_eq_true_eq] at this
      simp only [List.mem_range'_1, nbitmap]
      omega
    simpa using ((h.filter _).subperm hsub).length_le
  have hl := l.length_eq_length_filter_add fun s => bitmap v s
  simp only [load]
  omega

theorem load_absorb_le (l : List Nat) (s : Nat) : load v (absorb l s) ≤ load v l + 1 := by
  unfold absorb load
  split
  · omega
  · rw [List.filter_append, List.length_append]
    have := (List.filter_sublist (p := fun s => !bitmap v s) (l := [s])).length_le
    simp only [List.length_singleton] at this
    omega

theorem load_absorb_bitmap (l : List Nat) (hs : bitmap v s = true) : load v (absorb l s) = load v l := by
  unfold absorb load
  split
  · rfl
  · simp [List.filter_append, hs]

theorem load_absorb_mem {l : List Nat} (hs : s ∈ l) : absorb l s = l := if_pos hs

theorem bitmap_bblock (hb : b < v.sb.size) : bitmap v (BBLOCK b v.sb.ninodes) = true := by
  have h := v.bblock_lt hb
  have h' := Nat.zero_le (b / BPB)
  simp only [bitmap, decide_eq_true_eq]
  refine ⟨?_, h⟩
  simp only [BBLOCK, Nat.zero_div]
  omega

/-- There is room for k more logged sectors beside the bitmap, or a lack of it is tolerated, with
few buffers held. -/
structure Ample (ok : Stop → Prop) (v : Volume) (A : Image) (fs : Fs) (k : Nat) : Prop where
  budget : Unbounded ok ∨ load v fs.log.lh + nbitmap v + k ≤ 7 ∧ 8 < v.sb.nlog
  few : fs.held.length ≤ 1
  held : ∀ s ∈ fs.held, v.dataStart ≤ s ∧ s < v.logStart ∧ A.used s = true

theorem length_add_le {k : Nat} {lh : List Nat} (h : load v lh + nbitmap v + k ≤ 7) (hn : lh.Nodup) :
    lh.length + k ≤ 7 := by
  have := length_le_load (v := v) hn
  omega

theorem Ample.readable {k : Nat} (h : Ample ok v A fs k) (hn : fs.log.lh.Nodup) (hs : s ∉ fs.held) :
    Readable ok fs s := by
  refine ⟨hs, h.budget.imp id fun hb => ?_⟩
  have := length_add_le hb.1 hn
  have := h.few
  simp only [NBUF]
  omega

theorem Ample.loggable {k : Nat} (h : Ample ok v A fs k) (hn : fs.log.lh.Nodup) (hs : s < v.logStart) :
    Loggable ok v { fs with held := s :: fs.held } := by
  refine ⟨?_, h.budget.imp id fun ⟨hb, hnlog⟩ => ?_⟩
  · intro t ht
    rcases List.mem_cons.1 ht with rfl | ht
    · exact hs
    · exact (h.held t ht).2.1
  · have := length_add_le hb hn
    have := h.few
    simp only [LOGSIZE, NBUF, List.length_cons]
    omega

theorem logged_then {Q : Unit → Fs → Prop} (h : LogRep v fs) (hs : s < v.logStart) (hbusy : fs.log.busy = true)
    (d : Block) (hr : Lenient ok ∨ Loggable ok v { fs with held := s :: fs.held })
    (hQ : LogRep v (afterLog fs s d) → Q () (afterLog fs s d)) :
    (logWrite s d { fs with held := s :: fs.held }).Holds G (fun _ fs₂ =>
      (brelse s fs₂).Holds G Q fun w _ => ok w) fun w _ => ok w := by
  have hrep : LogRep v { fs with held := s :: fs.held } := by simpa using h
  refine (logWrite_spec hrep _ hbusy hr).mono ?_ fun _ _ => id
  rintro _ _ ⟨rfl, hl⟩
  have he : { afterLog { fs with held := s :: fs.held } s d with held := (s :: fs.held).erase s } =
    afterLog fs s d := by
    simp [afterLog]
  have hq := hQ (h.afterLog hs hl _)
  rw [← he] at hq
  exact holds_brelse.2 hq

theorem modify_then {Q : Unit → Fs → Prop} (h : LogRep v fs) (hs : s < v.logStart) (hbusy : fs.log.busy = true)
    (f : Block → Block) (hr : Lenient ok ∨ Readable ok fs s ∧ Loggable ok v { fs with held := s :: fs.held })
    (hQ : LogRep v (afterLog fs s (f (fs.blk s))) → Q () (afterLog fs s (f (fs.blk s)))) :
    (bread s fs).Holds G (fun bp fs₁ => (logWrite s (f bp) fs₁).Holds G (fun _ fs₂ =>
      (brelse s fs₂).Holds G Q fun w _ => ok w) fun w _ => ok w) fun w _ => ok w := by
  refine (bread_spec h (v.lt_disksize hs) (hr.imp id And.left)).mono ?_ fun _ _ => id
  rintro _ _ ⟨rfl, rfl⟩
  exact logged_then h hs hbusy _ (hr.imp id And.right) hQ

theorem modify_spec (h : LogRep v fs) (hs : s < v.logStart) (hbusy : fs.log.busy = true) (f : Block → Block)
    (hr : Lenient ok ∨ Readable ok fs s ∧ Loggable ok v { fs with held := s :: fs.held }) :
    ((do
        let bp ← bread s
        logWrite s (f bp)
        brelse s) fs).Holds G
      (fun _ fs' => fs' = afterLog fs s (f (fs.blk s)) ∧ LogRep v fs') (fun w _ => ok w) := by
  simp only [holds_bind]
  exact modify_then h hs hbusy f hr fun hl => ⟨rfl, hl⟩

theorem kept_afterLog (fs : Fs) (s : Nat) (d : Block) : Kept fs (afterLog fs s d) := ⟨rfl, rfl, rfl, rfl⟩

theorem Rep.data (h : Rep v A D fs) (hb : v.dataStart ≤ b) (d : Block) (hl : LogRep v (afterLog fs b d)) :
    Rep v (A.setData b d) D (afterLog fs b d) :=
  ⟨hl, (h.disk.setData hb d).congr fun _ hc => h.log.afterLog_blk d hc, h.cache.congr rfl⟩

theorem Rep.blk_eq (h : Rep v A D fs) (hb : v.dataStart ≤ b) (hb' : b < v.logStart) : fs.blk b = A.data b :=
  h.disk.data b hb hb'

theorem Rep.used (h : Rep v A D fs) (hb : b < v.sb.size) (d : Block) (x : Bool)
    (hd : ∀ j < BPB, d.bit j = if j = b % BPB then x else (fs.blk (BBLOCK b v.sb.ninodes)).bit j)
    (hl : LogRep v (afterLog fs (BBLOCK b v.sb.ninodes) d)) :
    Rep v { A with used := Function.update A.used b x } D (afterLog fs (BBLOCK b v.sb.ninodes) d) :=
  ⟨hl, (h.disk.setUsed hb d x hd).congr fun _ hc => h.log.afterLog_blk d hc, h.cache.congr rfl⟩

theorem readsb_spec (h : Rep v A D fs) (hr : Lenient ok ∨ Readable ok fs 1) :
    (readsb fs).Holds G (fun sb fs' => sb = v.sb ∧ fs = fs') (fun w _ => ok w) := by
  have h1 : 1 < v.disksize := v.lt_disksize (by have := v.one_lt_dataStart; have := v.dataStart_le; omega)
  simp only [readsb, holds_bind]
  refine (bread_spec h.log h1 hr).mono ?_ fun _ _ => id
  rintro _ _ ⟨rfl, rfl⟩
  simp [h.disk.sb]

theorem bit_setBit_block (bp : Block) (i j : Nat) (hj : j < BPB) :
    (bp.setBit i).bit j = if j = i then true else bp.bit j := by
  have hj' : j / 8 < BSIZE := by simp only [BPB, BSIZE] at hj ⊢; omega
  rw [Mem.bit_setBit _ _ _ hj']
  by_cases h : j = i <;> simp [h]

theorem bit_clearBit_block (bp : Block) (i j : Nat) (hj : j < BPB) :
    (bp.clearBit i).bit j = if j = i then false else bp.bit j := by
  have hj' : j / 8 < BSIZE := by simp only [BPB, BSIZE] at hj ⊢; omega
  rw [Mem.bit_clearBit _ _ _ hj']
  by_cases h : j = i <;> simp [h]

theorem bfree_spec (h : Rep v A D fs) (hok : Lenient ok) (hbusy : fs.log.busy = true) (hb : b < v.sb.size)
    (hu : A.used b = true) :
    (bfree b fs).Holds G (fun _ fs' => Rep v (A.free b) D fs' ∧ Kept fs fs') (fun w _ => ok w) := by
  have hs : BBLOCK b v.sb.ninodes < v.logStart := (v.bblock_lt hb).trans_le v.dataStart_le
  simp only [bfree, holds_bind]
  refine (readsb_spec h (.inl hok)).mono ?_ fun _ _ => id
  rintro _ _ ⟨rfl, rfl⟩
  refine (bread_spec h.log (v.lt_disksize hs) (.inl hok)).mono ?_ fun _ _ => id
  rintro _ _ ⟨rfl, rfl⟩
  have hbit := h.disk.used b hb
  rw [hu] at hbit
  simp only [hbit, not_true_eq_false, if_false, holds_bind]
  have hrep : LogRep v { fs with held := BBLOCK b v.sb.ninodes :: fs.held } := by simpa using h.log
  refine (logWrite_spec hrep _ hbusy (.inl hok)).mono ?_ fun _ _ => id
  rintro _ _ ⟨rfl, hl⟩
  simp only [holds_brelse]
  have he : ∀ d, { afterLog { fs with held := BBLOCK b v.sb.ninodes :: fs.held } (BBLOCK b v.sb.ninodes) d with
      held := (BBLOCK b v.sb.ninodes :: fs.held).erase (BBLOCK b v.sb.ninodes) } =
      afterLog fs (BBLOCK b v.sb.ninodes) d := by
    intro d
    simp [afterLog]
  have hr := h.used hb _ false (fun j hj => bit_clearBit_block (fs.blk (BBLOCK b v.sb.ninodes)) (b % BPB) j hj)
    (h.log.afterLog hs hl _)
  exact ⟨(he _).symm ▸ hr, (he _).symm ▸ kept_afterLog _ _ _⟩

theorem firstClear_eq_some {bp : Block} {len bi : Nat} (h : firstClear bp len = some bi) :
    bi < len ∧ bp.bit bi = false ∧ ∀ j < bi, bp.bit j = true := by
  obtain ⟨hp, hm, hj⟩ := List.find?_range_eq_some.1 h
  exact ⟨List.mem_range.1 hm, by simpa using hp, fun j hlt => by simpa using hj j hlt⟩

theorem firstClear_eq_none {bp : Block} {len : Nat} (h : firstClear bp len = none) :
    ∀ j < len, bp.bit j = true := by
  intro j hj
  simpa using List.find?_eq_none.1 h j (List.mem_range.2 hj)

theorem bblock_add {b bi : Nat} (n : Nat) (hb : b % BPB = 0) (hbi : bi < BPB) :
    BBLOCK (b + bi) n = BBLOCK b n ∧ (b + bi) % BPB = bi := by
  simp only [BBLOCK, BPB, BSIZE] at *
  omega

theorem lt_logStart_of_hasRoom (h : DiskRep v A D fs.blk) {c : Nat} (hc : ∀ d < c, d < v.sb.size → A.used d = true)
    (hroom : hasRoom fs v.sb = true) : c < v.logStart := by
  obtain ⟨d, hd, hbit⟩ := List.any_eq_true.1 hroom
  have hd' : d < v.logStart := List.mem_range.1 hd
  have hds : d < v.sb.size := hd'.trans v.logStart_lt_size
  rw [h.used d hds] at hbit
  by_contra hge
  rw [hc d (by omega) hds] at hbit
  simp at hbit

theorem balloc_take_spec (h : Rep v A D fs) (hbusy : fs.log.busy = true) {b bi : Nat} (hb : b % BPB = 0)
    (hbi : bi < BPB) (hlt : b + bi < v.logStart) (hge : v.dataStart ≤ b + bi) (hu : A.used (b + bi) = false)
    (hr : Lenient ok ∨ Ample ok v A fs 1) :
    ((do
        logWrite (BBLOCK b v.sb.ninodes) ((fs.blk (BBLOCK b v.sb.ninodes)).setBit bi)
        brelse (BBLOCK b v.sb.ninodes)
        bzero (b + bi)
        pure (b + bi) : FsM Nat) { fs with held := BBLOCK b v.sb.ninodes :: fs.held }).Holds G
      (fun c fs' => c = b + bi ∧ Rep v (A.alloc (b + bi)) D fs' ∧ Kept fs fs' ∧
        fs'.log.lh = absorb (absorb fs.log.lh (BBLOCK (b + bi) v.sb.ninodes)) (b + bi))
      (fun w _ => ok w) := by
  obtain ⟨hblock, hmod⟩ := bblock_add v.sb.ninodes hb hbi
  have hsize : b + bi < v.sb.size := hlt.trans v.logStart_lt_size
  have hs : BBLOCK b v.sb.ninodes < v.logStart := hblock ▸ (v.bblock_lt hsize).trans_le v.dataStart_le
  have hrep : LogRep v { fs with held := BBLOCK b v.sb.ninodes :: fs.held } := by simpa using h.log
  simp only [holds_bind]
  refine (logWrite_spec hrep _ hbusy (hr.imp id fun ha => ha.loggable h.log.nodup hs)).mono ?_ fun _ _ => id
  rintro _ _ ⟨rfl, hl⟩
  simp only [holds_brelse]
  have he : ∀ d, { afterLog { fs with held := BBLOCK b v.sb.ninodes :: fs.held } (BBLOCK b v.sb.ninodes) d with
      held := (BBLOCK b v.sb.ninodes :: fs.held).erase (BBLOCK b v.sb.ninodes) } =
      afterLog fs (BBLOCK b v.sb.ninodes) d := fun d => by simp [afterLog]
  rw [show (afterLog { fs with held := BBLOCK b v.sb.ninodes :: fs.held } (BBLOCK b v.sb.ninodes)
    ((fs.blk (BBLOCK b v.sb.ninodes)).setBit bi)).held = BBLOCK b v.sb.ninodes :: fs.held from rfl, he]
  -- The bitmap block is logged; what is left is to clear the block itself.
  have hrep₁ : Rep v { A with used := Function.update A.used (b + bi) true } D
      (afterLog fs (BBLOCK b v.sb.ninodes) ((fs.blk (BBLOCK b v.sb.ninodes)).setBit bi)) := by
    have := h.used hsize ((fs.blk (BBLOCK b v.sb.ninodes)).setBit bi) true
      (by rw [hblock, hmod]; exact fun j hj => bit_setBit_block _ bi j hj)
      (by rw [hblock]; exact h.log.afterLog hs hl _)
    rwa [hblock] at this
  have hr₁ : Lenient ok ∨
      Readable ok (afterLog fs (BBLOCK b v.sb.ninodes) ((fs.blk (BBLOCK b v.sb.ninodes)).setBit bi)) (b + bi) ∧
      Loggable ok v { afterLog fs (BBLOCK b v.sb.ninodes) ((fs.blk (BBLOCK b v.sb.ninodes)).setBit bi) with
        held := (b + bi) :: fs.held } := by
    refine hr.imp id fun ha => ?_
    have hbm : bitmap v (BBLOCK b v.sb.ninodes) = true := hblock ▸ bitmap_bblock hsize
    have ha₁ : Ample ok v { A with used := Function.update A.used (b + bi) true }
        (afterLog fs (BBLOCK b v.sb.ninodes) ((fs.blk (BBLOCK b v.sb.ninodes)).setBit bi)) 1 := by
      refine ⟨?_, ha.few, fun s hs => ?_⟩
      · change _ ∨ load v (absorb fs.log.lh _) + _ + 1 ≤ 7 ∧ _
        rw [load_absorb_bitmap _ hbm]
        exact ha.budget
      · obtain ⟨h1, h2, h3⟩ := ha.held s hs
        refine ⟨h1, h2, ?_⟩
        by_cases hsb : s = b + bi <;> simp [hsb, h3]
    refine ⟨ha₁.readable hrep₁.log.nodup fun hm => ?_, ha₁.loggable hrep₁.log.nodup hlt⟩
    have := (ha.held _ hm).2.2
    rw [hu] at this
    exact absurd this (by decide)
  refine (modify_spec hrep₁.log hlt hbusy (fun _ => Mem.zero) hr₁).mono ?_ fun _ _ => id
  rintro _ _ ⟨rfl, hl'⟩
  simp only [holds_pure, true_and]
  refine ⟨hrep₁.data hge _ hl', (kept_afterLog _ _ _).trans (kept_afterLog _ _ _), ?_⟩
  rw [hblock]
  rfl

theorem balloc_loop_spec (h : Rep v A D fs) (hmeta : ∀ c < v.dataStart, A.used c = true)
    (hbusy : fs.log.busy = true) (hr : Tolerant G ok ∨ Ample ok v A fs 1 ∧ ∃ c < v.logStart, A.used c = false)
    (fuel b : Nat) (hb : b % BPB = 0) (hfull : ∀ c < b, c < v.sb.size → A.used c = true)
    (hfuel : v.sb.size < b + BPB * fuel) :
    (balloc.loop v.sb fuel b fs).Holds G
      (fun c fs' => A.used c = false ∧ v.dataStart ≤ c ∧ c < v.logStart ∧ Rep v (A.alloc c) D fs' ∧ Kept fs fs' ∧
        fs'.log.lh = absorb (absorb fs.log.lh (BBLOCK c v.sb.ninodes)) c)
      (fun w _ => ok w) := by
  -- If no bit is clear below the end of the disk, the allocation cannot be ample.
  have hout : ∀ b, (∀ c < b, c < v.sb.size → A.used c = true) → v.sb.size ≤ b →
      ok (.panic "balloc: out of blocks") := by
    intro b hfull hle
    rcases hr with hr | ⟨-, c, hc, hu⟩
    · exact hr.1 _ (by decide)
    · have hcs := hc.trans v.logStart_lt_size
      rw [hfull c (by omega) hcs] at hu
      exact absurd hu (by decide)
  induction fuel generalizing b with
  | zero =>
      simp only [balloc.loop, holds_panic]
      exact hout b hfull (by omega)
  | succ fuel ih =>
      simp only [balloc.loop, holds_bind, holds_fetch, holds_ite, holds_panic]
      refine ⟨fun hlt => ?_, fun hge => hout b hfull (by omega)⟩
      have hs : BBLOCK b v.sb.ninodes < v.logStart := (v.bblock_lt hlt).trans_le v.dataStart_le
      have hread : Lenient ok ∨ Readable ok fs (BBLOCK b v.sb.ninodes) := by
        refine hr.imp And.left fun ha => ha.1.readable h.log.nodup fun hm => ?_
        have := (ha.1.held _ hm).1
        have := v.bblock_lt hlt
        omega
      refine (bread_spec h.log (v.lt_disksize hs) hread).mono ?_ fun _ _ => id
      rintro _ _ ⟨rfl, rfl⟩
      have hbits : ∀ j < BPB, b + j < v.sb.size →
          (fs.blk (BBLOCK b v.sb.ninodes)).bit j = A.used (b + j) := by
        intro j hj hj'
        obtain ⟨h1, h2⟩ := bblock_add v.sb.ninodes hb hj
        have := h.disk.used (b + j) hj'
        rwa [h1, h2] at this
      cases hfc : firstClear (fs.blk (BBLOCK b v.sb.ninodes)) (min BPB (v.sb.size - b)) with
      | some bi =>
          obtain ⟨hlen, hbit, hbefore⟩ := firstClear_eq_some hfc
          have hbi : bi < BPB := by omega
          have hu : A.used (b + bi) = false := by rw [← hbits bi hbi (by omega), hbit]
          have hall : ∀ d < b + bi, d < v.sb.size → A.used d = true := by
            intro d hd hds
            rcases Nat.lt_or_ge d b with hdb | hdb
            · exact hfull d hdb hds
            · obtain ⟨j, rfl⟩ := Nat.exists_eq_add_of_le hdb
              rw [← hbits j (by omega) hds]
              exact hbefore j (by omega)
          rw [holds_bind, holds_emit]
          intro hG
          have hroom : hasRoom fs v.sb = true := by
            rcases hr with hr | ⟨-, c, hc, huc⟩
            · exact hr.2 _ hG
            · refine List.any_eq_true.2 ⟨c, List.mem_range.2 hc, ?_⟩
              rw [h.disk.used c (hc.trans v.logStart_lt_size), huc]
              rfl
          have hlt' := lt_logStart_of_hasRoom h.disk hall hroom
          have hge : v.dataStart ≤ b + bi := by
            by_contra hlt''
            rw [hmeta _ (by omega)] at hu
            exact absurd hu (by decide)
          refine (balloc_take_spec h hbusy hb hbi hlt' hge hu (hr.imp And.left And.left)).mono ?_ fun _ _ => id
          rintro _ fs' ⟨rfl, hrep, hkept, hlh⟩
          exact ⟨hu, hge, hlt', hrep, hkept, hlh⟩
      | none =>
          have hnone := firstClear_eq_none hfc
          have hfull' : ∀ c < b + BPB, c < v.sb.size → A.used c = true := by
            intro c hc hcs
            rcases Nat.lt_or_ge c b with hcb | hcb
            · exact hfull c hcb hcs
            · obtain ⟨j, rfl⟩ := Nat.exists_eq_add_of_le hcb
              rw [← hbits j (by omega) hcs]
              exact hnone j (by omega)
          simp only [holds_bind, holds_brelse, List.erase_cons_head]
          refine ih (b + BPB) (by simpa using hb) hfull' ?_
          rw [Nat.mul_succ] at hfuel
          omega

theorem balloc_spec (h : Rep v A D fs) (hmeta : ∀ c < v.dataStart, A.used c = true)
    (hbusy : fs.log.busy = true) (hr : Tolerant G ok ∨ Ample ok v A fs 1 ∧ ∃ c < v.logStart, A.used c = false) :
    (balloc fs).Holds G
      (fun c fs' => A.used c = false ∧ v.dataStart ≤ c ∧ c < v.logStart ∧ Rep v (A.alloc c) D fs' ∧ Kept fs fs' ∧
        fs'.log.lh = absorb (absorb fs.log.lh (BBLOCK c v.sb.ninodes)) c)
      (fun w _ => ok w) := by
  have hread : Lenient ok ∨ Readable ok fs 1 := by
    refine hr.imp And.left fun ha => ha.1.readable h.log.nodup fun hm => ?_
    have := (ha.1.held _ hm).1
    have := v.one_lt_dataStart
    omega
  simp only [balloc, holds_bind]
  refine (readsb_spec h hread).mono ?_ fun _ _ => id
  rintro _ _ ⟨rfl, rfl⟩
  refine balloc_loop_spec h hmeta hbusy hr _ 0 rfl (by omega) ?_
  have := Nat.div_add_mod v.sb.size BPB
  have := Nat.mod_lt v.sb.size (show 0 < BPB by decide)
  rw [Nat.mul_succ]
  omega

end ArmXv6.BlockAlloc
