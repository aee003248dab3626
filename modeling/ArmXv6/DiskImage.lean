import Mathlib.Data.Set.Basic
import ArmXv6.Fs

namespace ArmXv6.DiskImage

open Lib.Exec Lib.Bytes Param Blocks Fs

/-- The superblock of a mounted file system and the size of its disk. The areas fit on the
disk and follow each other, with the log at the end. -/
structure Volume where
  sb : Superblock
  disksize : Nat
  fits : sb.size ≤ disksize
  small : disksize < 2 ^ 23
  log : 2 ≤ sb.nlog
  order : BBLOCK (sb.size - 1) sb.ninodes + 1 ≤ sb.size - sb.nlog
  inodes : sb.ninodes ≤ 2 ^ 16
  root : ROOTINO < sb.ninodes

namespace Volume

variable (v : Volume)

/-- The first block after the boot, super, inode and bitmap blocks. -/
def dataStart : Nat := BBLOCK (v.sb.size - 1) v.sb.ninodes + 1

def logStart : Nat := v.sb.size - v.sb.nlog

theorem dataStart_le : v.dataStart ≤ v.logStart := v.order

theorem logStart_le : v.logStart + v.sb.nlog ≤ v.disksize := by
  have h := v.order
  have h' := v.fits
  unfold logStart
  omega

theorem logStart_lt_size : v.logStart < v.sb.size := by
  have h := v.order
  have h' := v.log
  unfold logStart
  omega

theorem lt_disksize {b : Nat} (h : b < v.logStart) : b < v.disksize := by
  have h' := v.logStart_le
  omega

theorem bblock_lt {b : Nat} (h : b < v.sb.size) : BBLOCK b v.sb.ninodes < v.dataStart := by
  have hd : b / BPB ≤ (v.sb.size - 1) / BPB := Nat.div_le_div_right (by omega)
  unfold dataStart BBLOCK
  omega

theorem iblock_lt {i b : Nat} (h : i < v.sb.ninodes) : IBLOCK i < BBLOCK b v.sb.ninodes := by
  have hd : i / IPB ≤ v.sb.ninodes / IPB := Nat.div_le_div_right h.le
  have hb := Nat.zero_le (b / BPB)
  unfold IBLOCK BBLOCK
  omega

theorem iblock_lt_dataStart {i : Nat} (h : i < v.sb.ninodes) : IBLOCK i < v.dataStart :=
  Nat.lt_succ_of_lt (v.iblock_lt h)

theorem one_lt_iblock (i : Nat) : 1 < IBLOCK i := by
  have hi := Nat.zero_le (i / IPB)
  unfold IBLOCK
  omega

theorem one_lt_bblock (b : Nat) : 1 < BBLOCK b v.sb.ninodes := by
  have hb := Nat.zero_le (b / BPB)
  have hn := Nat.zero_le (v.sb.ninodes / IPB)
  unfold BBLOCK
  omega

theorem one_lt_dataStart : 1 < v.dataStart := by
  have h := v.one_lt_bblock (v.sb.size - 1)
  unfold dataStart
  omega

end Volume

theorem inode_eq_of_place {i j : Nat} (h : IBLOCK i = IBLOCK j) (h' : i % IPB = j % IPB) : i = j := by
  simp only [IBLOCK, IPB, BSIZE] at h h'
  omega

theorem bit_eq_of_place {b c n : Nat} (h : BBLOCK b n = BBLOCK c n) (h' : b % BPB = c % BPB) : b = c := by
  simp only [BBLOCK, BPB, BSIZE] at h h'
  omega

/-- The fields fit their C types and there are no addresses past the last slot. -/
structure DinodeOk (d : Dinode) : Prop where
  type : d.type < 2 ^ 16
  major : d.major < 2 ^ 16
  minor : d.minor < 2 ^ 16
  nlink : d.nlink < 2 ^ 16
  size : d.size < 2 ^ 32
  addrs : ∀ j, d.addrs j < 2 ^ 32
  none : ∀ j, NDIRECT < j → d.addrs j = 0

theorem length_encodeDinode (d : Dinode) : (encodeDinode d).length = 64 := by
  simp [encodeDinode, length_flatMap_const _ 4 (fun _ => length_leBytes 4 _), NDIRECT]

theorem dinodeAt_ok (b : Block) (k : Nat) : DinodeOk (dinodeAt b k) where
  type := by simpa [dinodeAt] using leNat_lt (b.slice (64 * k) 2)
  major := by simpa [dinodeAt] using leNat_lt (b.slice (64 * k + 2) 2)
  minor := by simpa [dinodeAt] using leNat_lt (b.slice (64 * k + 4) 2)
  nlink := by simpa [dinodeAt] using leNat_lt (b.slice (64 * k + 6) 2)
  size := by simpa [dinodeAt] using leNat_lt (b.slice (64 * k + 8) 4)
  addrs j := by
    by_cases h : j ≤ NDIRECT
    · simpa [dinodeAt, h] using b.word_lt _
    · simp [dinodeAt, h]
  none j hj := by simp [dinodeAt, Nat.not_le.2 hj]

theorem leNat_window (b : Block) (k : Nat) (hk : k < IPB) (d : Dinode) (w v : Nat) (l l' : List UInt8)
    (hv : v < 256 ^ w) (he : encodeDinode d = l ++ (leBytes w v ++ l')) :
    leNat ((setDinode b k d).slice (64 * k + l.length) w) = v := by
  have hl := length_encodeDinode d
  have hlen : l.length + (w + l'.length) = 64 := by
    rw [← hl, he]
    simp
  have hk' : 64 * k + 64 ≤ 512 := by simp [IPB, BSIZE] at hk; omega
  rw [setDinode, Mem.slice_setSlice_within _ _ _ _ _ (by omega) (by omega) (by rw [hl]; exact hk'),
    Nat.add_sub_cancel_left, he, List.drop_left, List.take_left' (length_leBytes w v), leNat_leBytes,
    Nat.mod_eq_of_lt hv]

theorem dinodeAt_setDinode_self (b : Block) (k : Nat) (hk : k < IPB) (d : Dinode) (hd : DinodeOk d) :
    dinodeAt (setDinode b k d) k = d := by
  have e := leNat_window b k hk d
  have htype := e 2 d.type [] _ hd.type (by simp only [encodeDinode, List.append_assoc, List.nil_append]; rfl)
  have hmajor := e 2 d.major (leBytes 2 d.type) _ hd.major (by simp only [encodeDinode, List.append_assoc]; rfl)
  have hminor := e 2 d.minor (leBytes 2 d.type ++ leBytes 2 d.major) _ hd.minor
    (by simp only [encodeDinode, List.append_assoc]; rfl)
  have hnlink := e 2 d.nlink (leBytes 2 d.type ++ leBytes 2 d.major ++ leBytes 2 d.minor) _ hd.nlink
    (by simp only [encodeDinode, List.append_assoc]; rfl)
  have hsize := e 4 d.size
    (leBytes 2 d.type ++ leBytes 2 d.major ++ leBytes 2 d.minor ++ leBytes 2 d.nlink) _ hd.size
    (by simp only [encodeDinode, List.append_assoc]; rfl)
  have haddrs : (dinodeAt (setDinode b k d) k).addrs = d.addrs := by
    funext j
    by_cases hj : j ≤ NDIRECT
    · have hsplit : List.range (NDIRECT + 1) = List.range j ++ (j :: (List.range (NDIRECT - j)).map (j + 1 + ·)) := by
        rw [show NDIRECT + 1 = j + (1 + (NDIRECT - j)) by omega, List.range_add, List.range_add]
        simp [List.map_map, Function.comp_def, Nat.add_assoc]
      have ha := e 4 (d.addrs j) (leBytes 2 d.type ++ leBytes 2 d.major ++ leBytes 2 d.minor ++
        leBytes 2 d.nlink ++ leBytes 4 d.size ++ (List.range j).flatMap fun j => leBytes 4 (d.addrs j)) _
        (hd.addrs j) (by
          simp only [encodeDinode, hsplit, List.flatMap_append, List.flatMap_cons, List.append_assoc]
          rfl)
      simp only [List.length_append, length_leBytes,
        length_flatMap_const _ 4 (fun _ => length_leBytes 4 _), List.length_range] at ha
      simp only [dinodeAt, hj, if_true, Mem.word]
      rw [← ha]
      congr 2
      omega
    · rw [hd.none j (by omega)]
      simp [dinodeAt, hj]
  cases d with
  | mk type major minor nlink size addrs =>
      simp only [dinodeAt, Dinode.mk.injEq] at haddrs ⊢
      exact ⟨by simpa using htype, by simpa using hmajor, by simpa using hminor, by simpa using hnlink,
        by simpa using hsize, haddrs⟩

theorem dinodeAt_congr (b c : Block) (k : Nat)
    (h : ∀ off len, off + len ≤ 64 → b.slice (64 * k + off) len = c.slice (64 * k + off) len) :
    dinodeAt b k = dinodeAt c k := by
  have hw : ∀ j, j ≤ NDIRECT → b.word (64 * k + 12 + 4 * j) = c.word (64 * k + 12 + 4 * j) := by
    intro j hj
    have := h (12 + 4 * j) 4 (by simp [NDIRECT] at hj; omega)
    rw [Mem.word, Mem.word, Nat.add_assoc, this]
  have h0 := h 0 2 (by decide)
  rw [Nat.add_zero] at h0
  simp only [dinodeAt, h0, h 2 2 (by decide), h 4 2 (by decide), h 6 2 (by decide), h 8 4 (by decide),
    Dinode.mk.injEq, true_and]
  funext j
  split
  · exact hw j ‹_›
  · rfl

theorem dinodeAt_setDinode_of_ne (b : Block) (k k' : Nat) (hk : k' ≠ k) (d : Dinode) :
    dinodeAt (setDinode b k d) k' = dinodeAt b k' := by
  apply dinodeAt_congr
  intro off len hlen
  apply Mem.slice_setSlice_of_disjoint
  rw [length_encodeDinode]
  omega

/-- What the file system code stores on the disk: the inodes, which blocks are in use, and the
contents of the blocks of files. -/
structure Image where
  ino : Nat → Dinode
  used : Nat → Bool
  data : Nat → Block

def Image.alloc (A : Image) (b : Nat) : Image :=
  { A with used := Function.update A.used b true, data := Function.update A.data b Mem.zero }

def Image.free (A : Image) (b : Nat) : Image := { A with used := Function.update A.used b false }

def Image.setData (A : Image) (b : Nat) (d : Block) : Image := { A with data := Function.update A.data b d }

def Image.setIno (A : Image) (i : Nat) (d : Dinode) : Image := { A with ino := Function.update A.ino i d }

/-- The sectors hold the image, except for the inodes in D, whose disk copies are out of date. -/
structure DiskRep (v : Volume) (A : Image) (D : Set Nat) (blk : Nat → Block) : Prop where
  sb : decodeSb (blk 1) = v.sb
  ino : ∀ i < v.sb.ninodes, i ∉ D → dinodeAt (blk (IBLOCK i)) (i % IPB) = A.ino i
  used : ∀ b < v.sb.size, (blk (BBLOCK b v.sb.ninodes)).bit (b % BPB) = A.used b
  data : ∀ b, v.dataStart ≤ b → b < v.logStart → blk b = A.data b

namespace DiskRep

variable {v : Volume} {A : Image} {D D' : Set Nat} {blk blk' : Nat → Block}

theorem mono (h : DiskRep v A D blk) (hD : D ⊆ D') : DiskRep v A D' blk :=
  { h with ino := fun i hi hi' => h.ino i hi fun hd => hi' (hD hd) }

theorem congr (h : DiskRep v A D blk) (he : ∀ b < v.logStart, blk' b = blk b) : DiskRep v A D blk' := by
  have hd := v.dataStart_le
  constructor
  · rw [he 1 (by have := v.one_lt_dataStart; omega)]
    exact h.sb
  · intro i hi hi'
    rw [he _ (by have := v.iblock_lt_dataStart hi; omega)]
    exact h.ino i hi hi'
  · intro b hb
    rw [he _ (by have := v.bblock_lt hb; omega)]
    exact h.used b hb
  · intro b hb hb'
    rw [he b hb']
    exact h.data b hb hb'

theorem setData (h : DiskRep v A D blk) {b : Nat} (hb : v.dataStart ≤ b) (d : Block) :
    DiskRep v { A with data := Function.update A.data b d } D (Function.update blk b d) := by
  constructor
  · rw [Function.update_of_ne (by have := v.one_lt_dataStart; omega)]
    exact h.sb
  · intro i hi hi'
    rw [Function.update_of_ne (by have := v.iblock_lt_dataStart hi; omega)]
    exact h.ino i hi hi'
  · intro c hc
    rw [Function.update_of_ne (by have := v.bblock_lt hc; omega)]
    exact h.used c hc
  · intro c hc hc'
    by_cases hcb : c = b
    · subst hcb
      simp
    · simp only [Function.update_of_ne hcb]
      exact h.data c hc hc'

theorem setIno (h : DiskRep v A D blk) {i : Nat} (hi : i < v.sb.ninodes) {d : Dinode} (hd : DinodeOk d) :
    DiskRep v { A with ino := Function.update A.ino i d } (D \ {i})
      (Function.update blk (IBLOCK i) (setDinode (blk (IBLOCK i)) (i % IPB) d)) := by
  have hk : i % IPB < IPB := Nat.mod_lt _ (by decide)
  constructor
  · rw [Function.update_of_ne (by have := Volume.one_lt_iblock i; omega)]
    exact h.sb
  · intro j hj hj'
    by_cases hji : j = i
    · subst hji
      simp only [Function.update_self, dinodeAt_setDinode_self _ _ hk _ hd]
    · have hjD : j ∉ D := fun hjD => hj' ⟨hjD, hji⟩
      simp only [Function.update_of_ne hji]
      by_cases hb : IBLOCK j = IBLOCK i
      · have hne : j % IPB ≠ i % IPB := fun he => hji (inode_eq_of_place hb he)
        rw [hb, Function.update_self, dinodeAt_setDinode_of_ne _ _ _ hne, ← hb]
        exact h.ino j hj hjD
      · rw [Function.update_of_ne hb]
        exact h.ino j hj hjD
  · intro c hc
    rw [Function.update_of_ne (by have := v.iblock_lt (b := c) hi; omega)]
    exact h.used c hc
  · intro c hc hc'
    rw [Function.update_of_ne (by have := v.iblock_lt_dataStart hi; omega)]
    exact h.data c hc hc'

theorem setIno_stale (h : DiskRep v A D blk) (i : Nat) (d : Dinode) :
    DiskRep v (A.setIno i d) (insert i D) blk :=
  { h with
    ino := fun j hj hjD => by
      rw [Set.mem_insert_iff, not_or] at hjD
      simp only [Image.setIno, Function.update_of_ne hjD.1]
      exact h.ino j hj hjD.2 }

theorem setUsed (h : DiskRep v A D blk) {b : Nat} (hb : b < v.sb.size) (d : Block) (x : Bool)
    (hd : ∀ j < BPB, d.bit j = if j = b % BPB then x else (blk (BBLOCK b v.sb.ninodes)).bit j) :
    DiskRep v { A with used := Function.update A.used b x } D
      (Function.update blk (BBLOCK b v.sb.ninodes) d) := by
  constructor
  · rw [Function.update_of_ne (by have := v.one_lt_bblock b; omega)]
    exact h.sb
  · intro i hi hi'
    rw [Function.update_of_ne (by have := v.iblock_lt (b := b) hi; omega)]
    exact h.ino i hi hi'
  · intro c hc
    by_cases hcb : BBLOCK c v.sb.ninodes = BBLOCK b v.sb.ninodes
    · rw [hcb, Function.update_self, hd _ (Nat.mod_lt _ (by decide))]
      by_cases hc' : c % BPB = b % BPB
      · have he := bit_eq_of_place hcb hc'
        subst he
        simp
      · have hne : c ≠ b := fun he => hc' (he ▸ rfl)
        simp only [hc', if_false, Function.update_of_ne hne, ← hcb]
        exact h.used c hc
    · have hne : c ≠ b := fun he => hcb (he ▸ rfl)
      simp only [Function.update_of_ne hcb, Function.update_of_ne hne]
      exact h.used c hc
  · intro c hc hc'
    rw [Function.update_of_ne (by have := v.bblock_lt hb; omega)]
    exact h.data c hc hc'

end DiskRep

end ArmXv6.DiskImage
