import ArmXv6.FsRuns

namespace ArmXv6.OnDisk

open Lib.Exec Lib.Bytes Lib.Count Param Blocks Fs Content Sysfile Vm Kernel Proc Exec Descriptors Syscall
  DiskImage BlockSpecs
  BlockAlloc Ownership BlockMap FileData InodeSpecs Namespace Directory SysfileSpecs FileRefs InodeRefs ProcRefs
    CallRefs OpenFiles OpenCalls FsRuns

variable {v : Volume} {A B : Image} {fs : Fs} {k : Kstate} {i f p : Nat}

/-- The image that the blocks hold, decoded the way the kernel decodes them. -/
def imageOn (v : Volume) (blk : Nat → Block) : Image where
  ino i := dinodeAt (blk (IBLOCK i)) (i % IPB)
  used b := (blk (BBLOCK b v.sb.ninodes)).bit (b % BPB)
  data := blk

/-- The images are the same on the volume. -/
structure Agree (v : Volume) (A B : Image) : Prop where
  ino : ∀ i < v.sb.ninodes, B.ino i = A.ino i
  used : ∀ b < v.sb.size, B.used b = A.used b
  data : ∀ b, v.dataStart ≤ b → b < v.logStart → B.data b = A.data b

theorem agree_imageOn (h : DiskRep v A ∅ fs.blk) : Agree v A (imageOn v fs.blk) :=
  ⟨fun i hi => h.ino i hi (Set.notMem_empty i), h.used, h.data⟩

theorem Agree.live (h : Agree v A B) : Live v B i ↔ Live v A i := by
  unfold Live
  exact and_congr_right fun hi => by rw [h.ino i hi]

theorem Agree.slot (h : Agree v A B) (ho : Owns v A ∅ ∅) (hl : Live v A i) (n : Nat) : slot B i n = slot A i n := by
  refine slot_congr (h.ino i hl.1) (fun hne => ?_) n
  rw [← slot_indirect] at hne ⊢
  obtain ⟨hlo, hhi⟩ := ho.range i NDIRECT hl (Set.notMem_empty i) hne
  exact h.data _ hlo hhi

theorem Agree.owns (h : Agree v A B) (ho : Owns v A ∅ ∅) : Owns v B ∅ ∅ where
  din i hi := by
    rw [h.ino i hi]
    exact ho.din i hi
  range i n hl hS hn := by
    have hl' := h.live.mp hl
    rw [h.slot ho hl'] at hn ⊢
    exact ho.range i n hl' hS hn
  inj i j n m hi hS hj hS' hn he := by
    have hi' := h.live.mp hi
    have hj' := h.live.mp hj
    rw [h.slot ho hi'] at hn he
    rw [h.slot ho hj'] at he
    exact ho.inj i j n m hi' hS hj' hS' hn he
  loose b hb := absurd hb (Set.notMem_empty b)
  used b hb := by
    rw [h.used b hb, ho.used b hb]
    refine or_congr_right (or_congr_right (exists_congr fun i => exists_congr fun n => ?_))
    constructor
    · rintro ⟨hl, hS, he⟩
      exact ⟨h.live.mpr hl, hS, by rw [h.slot ho hl]; exact he⟩
    · rintro ⟨hl, hS, he⟩
      have hl' := h.live.mp hl
      exact ⟨hl', hS, by rw [← h.slot ho hl']; exact he⟩

theorem Agree.full (h : Agree v A B) (ho : Owns v A ∅ ∅) (hl : Live v A i) (hf : Full A i) : Full B i := by
  have hi := h.ino i hl.1
  refine ⟨by rw [hi]; exact hf.size, fun n hn => ?_, ?_⟩
  · rw [h.slot ho hl, hi]
    exact hf.shape.blocks n hn
  · rw [h.slot ho hl, hi]
    exact hf.shape.indirect

theorem Agree.byte (h : Agree v A B) (ho : Owns v A ∅ ∅) (hl : Live v A i) (hf : Full A i) {q : Nat}
    (hq : q < (A.ino i).size) :
    byte B i q = byte A i q := by
  have hne := (block_ne_of_full hf hq).2
  obtain ⟨hlo, hhi⟩ := ho.range i _ hl (Set.notMem_empty i) hne
  unfold FileData.byte
  rw [h.slot ho hl, h.data _ hlo hhi]

theorem Agree.entries (h : Agree v A B) (ho : Owns v A ∅ ∅) (hl : Live v A i) (hf : Full A i) :
    entries B i = entries A i := by
  unfold Directory.entries
  rw [h.ino i hl.1]
  refine List.map_congr_left fun n hn => ?_
  have hn' := List.mem_range.mp hn
  unfold ent FileData.segment
  congr 1
  refine List.map_congr_left fun q hq => h.byte ho hl hf ?_
  have hq' := List.mem_range.mp hq
  have hmul : DESIZE * (n + 1) ≤ (A.ino i).size :=
    (Nat.mul_le_mul_left _ hn').trans (Nat.mul_div_le _ _)
  rw [Nat.mul_succ] at hmul
  omega

theorem Agree.sane (h : Agree v A B) (hs : Sane v A fs) (hd : DiskRep v B ∅ fs.blk) : Sane v B fs := by
  have ho := hs.sound.owns
  have hc := hs.sound.rep.cache
  refine ⟨⟨⟨hs.sound.rep.log, hd, hc.known, hc.inj, fun ip hip hr hv => ?_⟩, h.owns ho, fun i hl => ?_,
    fun ip hip hr hv => ?_⟩,
    fun i hl ht => ?_, fun i hl hn => ?_⟩
  · rw [hc.din ip hip hr hv, h.ino _ (hc.known ip hip hr).2]
  · have hl' := h.live.mp hl
    exact h.full ho hl' (hs.sound.full i hl')
  · exact h.live.mpr (hs.sound.live ip hip hr hv)
  · have hl' := h.live.mp hl
    rw [h.ino i hl.1] at ht ⊢
    rw [h.entries ho hl' (hs.sound.full i hl')]
    exact hs.tidy i hl' ht
  · have hl' := h.live.mp hl
    rw [h.ino i hl.1] at hn
    exact hs.anchored i hl' hn

theorem sane_imageOn (h : Sane v A fs) : Sane v (imageOn v fs.blk) fs := by
  have hd := h.sound.rep.disk
  have hagree := agree_imageOn hd
  exact hagree.sane h ⟨hd.sb, fun i hi _ => rfl, fun b hb => rfl, fun b _ _ => rfl⟩

theorem Fine.imageOn {b : Bool} (h : Fine v A b k) : Fine v (imageOn v k.fs.blk) b k := by
  refine ⟨sane_imageOn h.sane, h.busy, h.closed, h.bound, h.index, h.valid, fun f hf ht hw => ?_⟩
  rw [(agree_imageOn h.sane.sound.rep.disk).ino _ (h.cached hf ht).live.1]
  exact h.writable f hf ht hw

theorem Started.fine (h : Started v k) : Fine v (imageOn v k.fs.blk) false k := by
  obtain ⟨A, hA⟩ := h.good
  exact Fine.imageOn hA

end ArmXv6.OnDisk
