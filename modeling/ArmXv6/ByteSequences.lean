import ArmXv6.DirectoryMap
import ArmXv6.SysfileSpecs

namespace ArmXv6.ByteSequences

open Lib.Exec Param Blocks Fs Content DiskImage BlockSpecs BlockAlloc Ownership BlockMap FileData InodeSpecs Directory
  DirectoryMap SysfileSpecs

def splice (xs : List UInt8) (off n : Nat) (src : Nat → UInt8) : List UInt8 :=
  xs.take off ++ (List.range n).map src ++ xs.drop (off + n)

/-- The writes that fail: past the end of the file, around the end of the integers, or too large. -/
def Refused (size off n : Nat) : Prop := size < off ∨ 2 ^ 32 ≤ off + n ∨ MAXFILE * BSIZE < off + n

instance (size off n : Nat) : Decidable (Refused size off n) :=
  inferInstanceAs (Decidable (size < off ∨ 2 ^ 32 ≤ off + n ∨ MAXFILE * BSIZE < off + n))

/-- Blocks enough for the bytes up to off + n of inode i. -/
def Suffices (v : Volume) (A : Image) (i off n : Nat) : Prop :=
  need (nblocks (A.ino i).size) (max (nblocks (A.ino i).size) (nblocks (off + n))) ≤ freeCount v A

/-- A write is refused and changes nothing, or it splices the bytes into the file and leaves
every other file alone, or it stops for one of the reasons that are given. -/
structure WriteLaw (stops : Stop → Prop) (v : Volume) (A : Image) (fs : Fs) (ip i : Nat) (src : Nat → UInt8)
    (off n : Nat) : Prop where
  run : (writei ip src off n fs).Holds (fun _ => True)
    (fun (r : Int) fs' =>
      if Refused (A.ino i).size off n then r = -1 ∧ fs' = fs
      else r = n ∧ ∃ A', Sound v A' fs' ∧ contents A' i = splice (contents A i) off n src ∧
        (A'.ino i).size = max (A.ino i).size (off + n) ∧
        ∀ j ≠ i, (Live v A' j ↔ Live v A j) ∧
          (Live v A j → contents A' j = contents A j ∧ (A'.ino j).size = (A.ino j).size))
    fun w _ => stops w

/-- A read fails, or it gives the bytes of the file from off on; it changes nothing. -/
structure ReadLaw (A : Image) (fs : Fs) (ip i off n : Nat) : Prop where
  run : (readi ip off n fs).Holds (fun _ => True)
    (fun r fs' => fs' = fs ∧
      if (A.ino i).size < off ∨ 2 ^ 32 ≤ off + n then r = (-1, [])
      else r = (((min n ((A.ino i).size - off) : Nat) : Int), ((contents A i).drop off).take n))
    fun _ _ => False

/-- The write is in a transaction, and the blocks it logs fit there. filewrite passes three blocks' worth at
a time for that: they touch four blocks, besides an indirect block, the bitmap and the inode. -/
structure Fits (v : Volume) (A : Image) (fs : Fs) (i off n : Nat) : Prop where
  busy : fs.log.busy = true
  nlog : 8 < v.sb.nlog
  budget : cost v A i fs.log.lh + nbitmap v + (spans off n + 1) ≤ 7

variable {v : Volume} {A A' : Image} {fs fs' : Fs} {ip i off n : Nat} {src : Nat → UInt8}
  {stops : Stop → Prop}

@[simp] theorem length_segment (A : Image) (i off len : Nat) : (FileData.segment A i off len).length = len := by
  simp [FileData.segment]

theorem getElem?_segment (A : Image) (i off : Nat) {len p : Nat} (hp : p < len) :
    (FileData.segment A i off len)[p]? = some (byte A i (off + p)) := by
  simp [FileData.segment, hp]

theorem segment_eq_drop_take {len : Nat} (h : off ≤ (A.ino i).size) (hlen : len = min n ((A.ino i).size - off)) :
    FileData.segment A i off len = ((contents A i).drop off).take n := by
  apply List.ext_getElem?
  intro p
  rw [List.getElem?_take]
  by_cases hp : p < len
  · rw [getElem?_segment A i off hp, if_pos (by omega), List.getElem?_drop]
    unfold contents
    rw [getElem?_segment A i 0 (by omega), Nat.zero_add]
  · rw [List.getElem?_eq_none (by simpa using hp)]
    split
    · rw [List.getElem?_drop, List.getElem?_eq_none]
      simp only [contents, length_segment]
      omega
    · rfl

theorem contents_written {m : Nat} (hm : m = max (A.ino i).size (off + n)) (hsize : (A'.ino i).size = m)
    (hoff : off ≤ (A.ino i).size)
    (hbytes : ∀ p < m, byte A' i p = if off ≤ p ∧ p < off + n then src (p - off) else byte A i p) :
    contents A' i = splice (contents A i) off n src := by
  apply List.ext_getElem?
  intro p
  have hlen : (contents A i).length = (A.ino i).size := length_segment A i 0 _
  have htake : ((contents A i).take off).length = off := by
    rw [List.length_take, hlen]
    omega
  have hmid : ((contents A i).take off ++ (List.range n).map src).length = off + n := by
    rw [List.length_append, htake, List.length_map, List.length_range]
  have hget : ∀ q < (A.ino i).size, (contents A i)[q]? = some (byte A i q) := by
    intro q hq
    have := getElem?_segment A i 0 hq
    rwa [Nat.zero_add] at this
  unfold splice
  by_cases hp : p < m
  · have hl : (contents A' i)[p]? = some (byte A' i p) := by
      have := getElem?_segment A' i 0 (hsize ▸ hp)
      rwa [Nat.zero_add] at this
    rw [hl, hbytes p hp]
    -- before the written bytes, among them, and after them
    by_cases hlow : p < off
    · rw [if_neg (by omega), List.append_assoc, List.getElem?_append_left (by omega), List.getElem?_take,
        if_pos hlow, hget p (by omega)]
    · by_cases hmidp : p < off + n
      · rw [if_pos ⟨by omega, hmidp⟩, List.getElem?_append_left (by omega),
          List.getElem?_append_right (by omega), htake, List.getElem?_map, List.getElem?_range (by omega)]
        rfl
      · rw [if_neg (by omega), List.getElem?_append_right (by omega), hmid, List.getElem?_drop]
        rw [show off + n + (p - (off + n)) = p by omega, hget p (by omega)]
  · have hl : (contents A' i)[p]? = none := by
      rw [List.getElem?_eq_none]
      simp only [contents, length_segment]
      omega
    rw [hl, eq_comm, List.getElem?_eq_none]
    rw [List.length_append, hmid, List.length_drop, hlen]
    omega

theorem read_law (h : Sound v A fs) (hq : Quiet fs) (hc : Cached v A fs ip i) (hdev : (A.ino i).type ≠ T_DEV)
    (hoff : off < 2 ^ 32) (hn : n < 2 ^ 32) : ReadLaw A fs ip i off n := by
  constructor
  refine (readi_spec h.rep h.owns hc (Set.notMem_empty _) (h.full i hc.live) hdev (.inr hq) hoff hn).mono ?_
    fun _ _ => id
  rintro r fs' ⟨rfl, hr⟩
  refine ⟨rfl, ?_⟩
  by_cases hbad : (A.ino i).size < off ∨ 2 ^ 32 ≤ off + n
  · rw [if_pos hbad] at hr ⊢
    exact hr
  · rw [if_neg hbad] at hr ⊢
    rw [hr, segment_eq_drop_take (by omega) rfl]

/-- A write that is refused looks at nothing but the inode. -/
theorem writei_refused {G : Event → Prop} (h : Sound v A fs) (hc : Cached v A fs ip i) (hdev : (A.ino i).type ≠ T_DEV)
    (hoff : off < 2 ^ 32) (hn : n < 2 ^ 32) (hbad : Refused (A.ino i).size off n) :
    (writei ip src off n fs).Holds G (fun r fs' => r = -1 ∧ fs' = fs) fun _ _ => False := by
  have hwrap : uint (off + n) < off ↔ 2 ^ 32 ≤ off + n := by
    unfold uint
    omega
  unfold writei
  rw [holds_bind, holds_fetch]
  simp only [hc.din h.rep]
  rw [if_neg hdev]
  simp only [holds_ite, holds_pure, hwrap]
  refine ⟨fun _ => ⟨trivial, trivial⟩, fun hgood => ⟨fun _ => ⟨trivial, trivial⟩, fun hfit => ?_⟩⟩
  have hu : uint (off + n) = off + n := Nat.mod_eq_of_lt (by omega)
  rw [hu] at hfit
  unfold Refused at hbad
  tauto

theorem write_law_refused (h : Sound v A fs) (hc : Cached v A fs ip i) (hdev : (A.ino i).type ≠ T_DEV)
    (hoff : off < 2 ^ 32) (hn : n < 2 ^ 32) (hbad : Refused (A.ino i).size off n) :
    WriteLaw stops v A fs ip i src off n := by
  constructor
  refine (writei_refused h hc hdev hoff hn hbad).mono (fun r fs' hr => ?_) fun _ _ => False.elim
  rw [if_pos hbad]
  exact hr

theorem write_law (h : Sound v A fs) (hq : Quiet fs) (hc : Cached v A fs ip i) (hdev : (A.ino i).type ≠ T_DEV)
    (hoff : off < 2 ^ 32) (hn : n < 2 ^ 32) (hgood : ¬Refused (A.ino i).size off n)
    (hbusy : fs.log.busy = true) (hroom : Unbounded stops ∨ Fits v A fs i off n) (hfree : Suffices v A i off n) :
    WriteLaw stops v A fs ip i src off n := by
  have hp : Enough stops v A fs i (spans off n + 1)
      (need (nblocks (A.ino i).size) (max (nblocks (A.ino i).size) (nblocks (off + n)))) :=
    ⟨hroom.imp id fun hfits => ⟨hfits.budget, hfits.nlog⟩, hq.1, hfree⟩
  constructor
  refine (writei_spec src h.rep h.owns hc (Set.notMem_empty _) (h.full i hc.live) hdev hbusy hoff hn (.inr hp)).mono
    ?_ fun _ _ => id
  intro r fs' hr
  rw [if_neg hgood]
  unfold Refused at hgood
  rw [if_neg hgood] at hr
  obtain ⟨hr, A', hw⟩ := hr
  obtain ⟨f, hino⟩ := hw.ino
  have hsize : (A'.ino i).size = max (A.ino i).size (off + n) := by rw [hino]
  refine ⟨hr, A', sound_written h hc hw, contents_written rfl hsize (by omega) hw.bytes, hsize, fun j hj => ?_⟩
  refine ⟨hw.frame.live hj, fun hl => ⟨contents_frame h hw.frame hj hl, ?_⟩⟩
  rw [hw.frame.ino j hj]

theorem fits_chunk (hbusy : fs.log.busy = true) (hlh : fs.log.lh = []) (hnlog : v.sb.nlog = LOGSIZE)
    (hbitmap : nbitmap v ≤ 1) (hn : n ≤ 3 * BSIZE) : Fits v A fs i off n := by
  refine ⟨hbusy, by rw [hnlog]; decide, ?_⟩
  have hspans : spans off n ≤ 4 := by
    simp only [spans, BSIZE] at *
    split <;> omega
  have hcost : cost v A i fs.log.lh ≤ 1 := by
    rw [hlh]
    simp [cost, load]
  omega

theorem WriteLaw.returns (h : WriteLaw (fun _ => False) v A fs ip i src off n) :
    (writei ip src off n fs).returns = true := by
  obtain ⟨h⟩ := h
  cases hrun : writei ip src off n fs with
  | ok => rfl
  | stop =>
      rw [hrun] at h
      exact (h fun _ _ => trivial).elim

/-- The third part has no bound on what a write logs: in a transaction it stops only for a lack of
log slots or buffers. -/
theorem files_refine_byte_sequences (h : Sound v A fs) (hq : Quiet fs) (hc : Cached v A fs ip i)
    (hdev : (A.ino i).type ≠ T_DEV) (src : Nat → UInt8) (off n : Nat) (hoff : off < 2 ^ 32) (hn : n < 2 ^ 32) :
    ReadLaw A fs ip i off n ∧
    (Refused (A.ino i).size off n ∨ Fits v A fs i off n ∧ Suffices v A i off n →
      WriteLaw (fun _ => False) v A fs ip i src off n) ∧
    (fs.log.busy = true → Suffices v A i off n → WriteLaw (· ∈ overflows) v A fs ip i src off n) := by
  refine ⟨read_law h hq hc hdev hoff hn, fun hw => ?_, fun hbusy hfree => ?_⟩
  · by_cases hbad : Refused (A.ino i).size off n
    · exact write_law_refused h hc hdev hoff hn hbad
    · obtain ⟨hfits, hfree⟩ := hw.resolve_left hbad
      exact write_law h hq hc hdev hoff hn hbad hfits.busy (.inr hfits) hfree
  · by_cases hbad : Refused (A.ino i).size off n
    · exact write_law_refused h hc hdev hoff hn hbad
    · exact write_law h hq hc hdev hoff hn hbad hbusy (.inl fun _ hw => hw) hfree

/-- A write of two blocks fits in its transaction; for one of twelve that is left open. -/
theorem files_refine_byte_sequences_root :
    ReadLaw smallImage smallFs 0 ROOTINO 7 100 ∧
    WriteLaw (fun _ => False) smallVolume smallImage smallFs 0 ROOTINO (fun _ => 1) 20 700 ∧
    WriteLaw (· ∈ overflows) smallVolume smallImage smallFs 0 ROOTINO (fun _ => 1) 20 6144 := by
  have hq : Quiet smallFs := ⟨rfl, by decide⟩
  have hdev : (smallImage.ino ROOTINO).type ≠ T_DEV := by
    rw [type_small]
    decide
  have hfits : Fits smallVolume smallImage smallFs ROOTINO 20 700 := ⟨rfl, by decide, by decide +kernel⟩
  have hfree : Suffices smallVolume smallImage ROOTINO 20 700 := by
    unfold Suffices
    decide +kernel
  have hfree' : Suffices smallVolume smallImage ROOTINO 20 6144 := by
    unfold Suffices
    decide +kernel
  have hread := files_refine_byte_sequences sound_small hq cached_small hdev (fun _ => 1) 7 100 (by decide) (by decide)
  have hwrite :=
    files_refine_byte_sequences sound_small hq cached_small hdev (fun _ => 1) 20 700 (by decide) (by decide)
  have hlong :=
    files_refine_byte_sequences sound_small hq cached_small hdev (fun _ => 1) 20 6144 (by decide) (by decide)
  exact ⟨hread.1, hwrite.2.1 (.inr ⟨hfits, hfree⟩), hlong.2.2 rfl hfree'⟩

/-- Twelve blocks in one call are more than a transaction holds, though there is room for them on the disk. -/
theorem twelve_blocks_too_big :
    Sound smallVolume smallImage smallFs ∧ Quiet smallFs ∧ Cached smallVolume smallImage smallFs 0 ROOTINO ∧
    (smallImage.ino ROOTINO).type ≠ T_DEV ∧ smallFs.log.busy = true ∧
    ¬Refused (smallImage.ino ROOTINO).size 0 6144 ∧ Suffices smallVolume smallImage ROOTINO 0 6144 ∧
    ¬WriteLaw (fun _ => False) smallVolume smallImage smallFs 0 ROOTINO (fun _ => 0) 0 6144 := by
  have hstop : (writei 0 (fun _ => 0) 0 6144 smallFs).returns = false := by decide +kernel
  refine ⟨sound_small, ⟨rfl, by decide⟩, cached_small, by rw [type_small]; decide, rfl, by rw [size_small]; decide, ?_,
    fun hlaw => Bool.false_ne_true (hstop.symm.trans hlaw.returns)⟩
  unfold Suffices
  decide +kernel

end ArmXv6.ByteSequences
