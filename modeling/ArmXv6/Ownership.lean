import Mathlib.Data.Finset.Card
import ArmXv6.BlockAlloc

namespace ArmXv6.Ownership

open Lib.Exec Lib.Bytes Param Blocks Fs DiskImage BlockSpecs BlockAlloc

/-- The slots of an inode that can name a block: the direct ones, the one of the indirect
block, and from NDIRECT + 1 on the entries of the indirect block. -/
def slot (A : Image) (i k : Nat) : Nat :=
  if k ≤ NDIRECT then (A.ino i).addrs k
  else if (A.ino i).addrs NDIRECT = 0 ∨ NDIRECT + NINDIRECT < k then 0
  else (A.data ((A.ino i).addrs NDIRECT)).word (4 * (k - (NDIRECT + 1)))

def bslot (n : Nat) : Nat := if n < NDIRECT then n else n + 1

def Live (v : Volume) (A : Image) (i : Nat) : Prop := i < v.sb.ninodes ∧ (A.ino i).type ≠ 0

/-- A block is in use exactly when it is a metadata block, one of the loose blocks X, or named
by a slot of a live inode outside S; and no two slots name the same block. -/
structure Owns (v : Volume) (A : Image) (S X : Set Nat) : Prop where
  din : ∀ i < v.sb.ninodes, DinodeOk (A.ino i)
  range : ∀ i k, Live v A i → i ∉ S → slot A i k ≠ 0 → v.dataStart ≤ slot A i k ∧ slot A i k < v.logStart
  inj : ∀ i j k l, Live v A i → i ∉ S → Live v A j → j ∉ S → slot A i k ≠ 0 → slot A i k = slot A j l →
    i = j ∧ k = l
  loose : ∀ b ∈ X, v.dataStart ≤ b ∧ b < v.logStart ∧ ∀ i k, Live v A i → i ∉ S → slot A i k ≠ b
  used : ∀ b < v.sb.size, A.used b = true ↔
    b < v.dataStart ∨ b ∈ X ∨ ∃ i k, Live v A i ∧ i ∉ S ∧ slot A i k = b

/-- The first nb blocks of the file are there, and no others. -/
structure Shaped (A : Image) (i nb : Nat) : Prop where
  blocks : ∀ n < MAXFILE, slot A i (bslot n) ≠ 0 ↔ n < nb
  indirect : slot A i NDIRECT ≠ 0 ↔ NDIRECT < nb

def nblocks (size : Nat) : Nat := (size + BSIZE - 1) / BSIZE

structure Full (A : Image) (i : Nat) : Prop where
  size : (A.ino i).size ≤ MAXFILE * BSIZE
  shape : Shaped A i (nblocks (A.ino i).size)

def freeCount (v : Volume) (A : Image) : Nat := ((Finset.range v.logStart).filter fun b => A.used b = false).card

variable {v : Volume} {A A' : Image} {S X D : Set Nat} {i k b : Nat}

theorem Owns.metadata (h : Owns v A S X) {b : Nat} (hb : b < v.dataStart) : A.used b = true :=
  (h.used b (hb.trans_le (v.dataStart_le.trans v.logStart_lt_size.le))).2 (.inl hb)

theorem Owns.used_slot (h : Owns v A S X) (hi : Live v A i) (hS : i ∉ S) (hk : slot A i k ≠ 0) :
    A.used (slot A i k) = true := by
  have hr := h.range i k hi hS hk
  exact (h.used _ (hr.2.trans v.logStart_lt_size)).2 (.inr (.inr ⟨i, k, hi, hS, rfl⟩))

theorem Owns.grow (h : Owns v A S X) (hi : Live v A i) (hS : i ∉ S) (hk : slot A i k = 0)
    (hu : A.used b = false) (hb : v.dataStart ≤ b) (hb' : b < v.logStart)
    (hdin : ∀ j < v.sb.ninodes, DinodeOk (A'.ino j)) (hlive : ∀ j, Live v A' j ↔ Live v A j)
    (hslot : ∀ j l, Live v A j → j ∉ S → slot A' j l = if j = i ∧ l = k then b else slot A j l)
    (hused : A'.used = Function.update A.used b true) : Owns v A' S X := by
  have hb0 : b ≠ 0 := by have := v.one_lt_dataStart; omega
  have hfresh : ∀ j l, Live v A j → j ∉ S → slot A j l ≠ b := by
    intro j l hj hjS he
    have := h.used_slot hj hjS (he ▸ hb0)
    rw [he, hu] at this
    exact absurd this (by decide)
  constructor
  · exact hdin
  · intro j l hj hjS hne
    rw [hlive] at hj
    rw [hslot j l hj hjS] at hne ⊢
    by_cases hc : j = i ∧ l = k
    · simp only [hc, and_self, if_true]
      exact ⟨hb, hb'⟩
    · rw [if_neg hc] at hne ⊢
      exact h.range j l hj hjS hne
  · intro j j' l l' hj hjS hj' hjS' hne he
    rw [hlive] at hj hj'
    rw [hslot j l hj hjS] at hne he
    rw [hslot j' l' hj' hjS'] at he
    by_cases hc : j = i ∧ l = k <;> by_cases hc' : j' = i ∧ l' = k
    · exact ⟨hc.1.trans hc'.1.symm, hc.2.trans hc'.2.symm⟩
    · rw [if_pos hc, if_neg hc'] at he
      exact absurd he.symm (hfresh j' l' hj' hjS')
    · rw [if_neg hc, if_pos hc'] at he
      exact absurd he (hfresh j l hj hjS)
    · rw [if_neg hc, if_neg hc'] at he
      rw [if_neg hc] at hne
      exact h.inj j j' l l' hj hjS hj' hjS' hne he
  · intro c hc
    obtain ⟨h1, h2, h3⟩ := h.loose c hc
    refine ⟨h1, h2, fun j l hj hjS => ?_⟩
    rw [hlive] at hj
    rw [hslot j l hj hjS]
    split
    · rintro rfl
      have := (h.used b (hb'.trans v.logStart_lt_size)).2 (.inr (.inl hc))
      rw [hu] at this
      exact absurd this (by decide)
    · exact h3 j l hj hjS
  · intro c hc
    by_cases hcb : c = b
    · subst hcb
      rw [hused, Function.update_self]
      exact ⟨fun _ => .inr (.inr ⟨i, k, (hlive i).2 hi, hS, by simp [hslot i k hi hS]⟩), fun _ => rfl⟩
    · rw [hused, Function.update_of_ne hcb, h.used c hc]
      refine or_congr_right' fun hcd => or_congr Iff.rfl ⟨?_, ?_⟩
      · rintro ⟨j, l, hj, hjS, he⟩
        have hc' : ¬(j = i ∧ l = k) := by
          rintro ⟨rfl, rfl⟩
          rw [hk] at he
          have := v.one_lt_dataStart
          omega
        exact ⟨j, l, (hlive j).2 hj, hjS, by rw [hslot j l hj hjS, if_neg hc']; exact he⟩
      · rintro ⟨j, l, hj, hjS, he⟩
        rw [hlive] at hj
        rw [hslot j l hj hjS] at he
        split at he
        · exact absurd he.symm hcb
        · exact ⟨j, l, hj, hjS, he⟩

theorem Owns.congr (h : Owns v A S X) (hdin : ∀ j < v.sb.ninodes, DinodeOk (A'.ino j))
    (hlive : ∀ j, Live v A' j ↔ Live v A j) (hslot : ∀ j l, Live v A j → j ∉ S → slot A' j l = slot A j l)
    (hused : A'.used = A.used) : Owns v A' S X := by
  refine ⟨hdin, ?_, ?_, ?_, ?_⟩
  · intro j k hj hjS hk
    rw [hlive] at hj
    rw [hslot j k hj hjS] at hk ⊢
    exact h.range j k hj hjS hk
  · intro j j' k k' hj hjS hj' hjS' hk hkk
    rw [hlive] at hj hj'
    rw [hslot j k hj hjS] at hk hkk
    rw [hslot j' k' hj' hjS'] at hkk
    exact h.inj j j' k k' hj hjS hj' hjS' hk hkk
  · intro c hc
    obtain ⟨h1, h2, h3⟩ := h.loose c hc
    refine ⟨h1, h2, fun j k hj hjS => ?_⟩
    rw [hlive] at hj
    rw [hslot j k hj hjS]
    exact h3 j k hj hjS
  · intro c hc
    rw [hused, h.used c hc]
    refine or_congr Iff.rfl (or_congr Iff.rfl (exists_congr fun j => exists_congr fun k => ?_))
    rw [hlive]
    constructor
    · rintro ⟨hj, hjS, hk⟩
      exact ⟨hj, hjS, by rw [hslot j k hj hjS]; exact hk⟩
    · rintro ⟨hj, hjS, hk⟩
      exact ⟨hj, hjS, by rw [← hslot j k hj hjS]; exact hk⟩

theorem slot_congr {i : Nat} (hino : A'.ino i = A.ino i)
    (hdata : (A.ino i).addrs NDIRECT ≠ 0 → A'.data ((A.ino i).addrs NDIRECT) = A.data ((A.ino i).addrs NDIRECT))
    (k : Nat) : slot A' i k = slot A i k := by
  unfold slot
  rw [hino]
  split
  · rfl
  · split
    · rfl
    · rename_i h
      rw [hdata fun h0 => h (.inl h0)]

theorem slot_indirect (A : Image) (i : Nat) : slot A i NDIRECT = (A.ino i).addrs NDIRECT := if_pos le_rfl

theorem slot_direct (A : Image) (i : Nat) {k : Nat} (hk : k ≤ NDIRECT) : slot A i k = (A.ino i).addrs k := if_pos hk

theorem bslot_ne_indirect (n : Nat) : bslot n ≠ NDIRECT := by
  unfold bslot
  split <;> omega

theorem bslot_inj {m n : Nat} (h : bslot m = bslot n) : m = n := by
  unfold bslot at h
  split at h <;> split at h <;> omega

theorem Owns.fresh (h : Owns v A S X) (hu : A.used b = false) {j l : Nat} (hj : Live v A j) (hjS : j ∉ S)
    (hl : slot A j l ≠ 0) : slot A j l ≠ b := by
  rintro rfl
  have := h.used_slot hj hjS hl
  rw [hu] at this
  exact absurd this (by decide)

def attachAddr (A : Image) (i k b : Nat) : Image :=
  (A.alloc b).setIno i { A.ino i with addrs := Function.update (A.ino i).addrs k b }

/-- A new block b under the indirect entry of block n of inode i. -/
def attachEntry (A : Image) (i n b : Nat) : Image :=
  (A.alloc b).setData (slot A i NDIRECT) ((A.data (slot A i NDIRECT)).setWord (4 * (n - NDIRECT)) b)

theorem slot_attachAddr (h : Owns v A S X) (hi : Live v A i) (hS : i ∉ S) (hk : k ≤ NDIRECT)
    (h0 : slot A i k = 0) (hu : A.used b = false) (hb : v.dataStart ≤ b) {j l : Nat} (hj : Live v A j) (hjS : j ∉ S) :
    slot (attachAddr A i k b) j l = if j = i ∧ l = k then b else slot A j l := by
  have hb0 : b ≠ 0 := by have := v.one_lt_dataStart; omega
  have hdata : ∀ j, Live v A j → j ∉ S → (A.ino j).addrs NDIRECT ≠ 0 →
      (attachAddr A i k b).data ((A.ino j).addrs NDIRECT) = A.data ((A.ino j).addrs NDIRECT) := by
    intro j hj hjS hne
    rw [← slot_indirect] at hne ⊢
    exact Function.update_of_ne (h.fresh hu hj hjS hne) _ _
  by_cases hji : j = i
  · subst hji
    have hino : (attachAddr A j k b).ino j = { A.ino j with addrs := Function.update (A.ino j).addrs k b } :=
      Function.update_self ..
    rw [slot_direct A j hk] at h0
    by_cases hl : l ≤ NDIRECT
    · rw [slot_direct _ _ hl, slot_direct _ _ hl, hino]
      by_cases hlk : l = k <;> simp [hlk]
    · have hlk : l ≠ k := by omega
      simp only [hlk, and_false, if_false]
      unfold slot
      rw [if_neg hl, if_neg hl, hino]
      by_cases hkn : k = NDIRECT
      · subst hkn
        have hz : (attachAddr A j NDIRECT b).data b = Mem.zero := Function.update_self ..
        simp [h0, hz]
      · simp only [Function.update_of_ne (Ne.symm hkn)]
        split
        · rfl
        · rename_i hne
          rw [hdata j hj hjS fun h0 => hne (.inl h0)]
  · simp only [hji, false_and, if_false]
    exact slot_congr (Function.update_of_ne hji _ _) (hdata j hj hjS) l

theorem slot_attachEntry (h : Owns v A S X) (hi : Live v A i) (hS : i ∉ S) {n : Nat} (hn : NDIRECT ≤ n)
    (hn' : n < MAXFILE) (hind : slot A i NDIRECT ≠ 0) (hu : A.used b = false) (hb' : b < v.logStart)
    {j l : Nat} (hj : Live v A j) (hjS : j ∉ S) :
    slot (attachEntry A i n b) j l = if j = i ∧ l = bslot n then b else slot A j l := by
  have hb32 : b < 2 ^ 32 := by
    have := v.lt_disksize hb'
    have := v.small
    omega
  have hbs : bslot n = n + 1 := if_neg (by omega)
  have hinob : ∀ j, (attachEntry A i n b).ino j = A.ino j := fun _ => rfl
  have hdata : ∀ j, Live v A j → j ∉ S → j ≠ i → (A.ino j).addrs NDIRECT ≠ 0 →
      (attachEntry A i n b).data ((A.ino j).addrs NDIRECT) = A.data ((A.ino j).addrs NDIRECT) := by
    intro j hj hjS hji hne
    rw [← slot_indirect] at hne ⊢
    have hne' : slot A j NDIRECT ≠ slot A i NDIRECT := fun he => hji (h.inj _ _ _ _ hj hjS hi hS hne he).1
    simp only [attachEntry, Image.setData, Image.alloc, Function.update_of_ne hne',
      Function.update_of_ne (h.fresh hu hj hjS hne)]
  by_cases hji : j = i
  · subst hji
    have hself : (attachEntry A j n b).data (slot A j NDIRECT) =
        (A.data (slot A j NDIRECT)).setWord (4 * (n - NDIRECT)) b := Function.update_self ..
    rw [slot_indirect] at hself hind
    by_cases hl : l ≤ NDIRECT
    · have hne : l ≠ bslot n := by omega
      rw [slot_direct _ _ hl, slot_direct _ _ hl, hinob]
      simp [hne]
    · unfold slot
      rw [if_neg hl, if_neg hl, hinob, hself]
      simp only [hind, false_or]
      have hln : n < NDIRECT + NINDIRECT := hn'
      have h512 : 4 * (n - NDIRECT) + 4 ≤ BSIZE := by
        simp only [NINDIRECT, BSIZE] at hln ⊢
        omega
      by_cases hlb : l = bslot n
      · have he : l - (NDIRECT + 1) = n - NDIRECT := by omega
        rw [if_neg (by omega), he, Mem.word_setWord_self _ _ _ h512 hb32]
        simp [hlb]
      · simp only [hlb, and_false, if_false]
        rw [Mem.word_setWord_of_disjoint]
        omega
  · simp only [hji, false_and, if_false]
    exact slot_congr (hinob j) (hdata j hj hjS hji) l

theorem live_congr {v : Volume} {A A' : Image} (h : ∀ j, (A'.ino j).type = (A.ino j).type) (j : Nat) :
    Live v A' j ↔ Live v A j := by
  unfold Live
  rw [h]

theorem Owns.attachAddr (h : Owns v A S X) (hi : Live v A i) (hS : i ∉ S) (hk : k ≤ NDIRECT)
    (h0 : slot A i k = 0) (hu : A.used b = false) (hb : v.dataStart ≤ b) (hb' : b < v.logStart) :
    Owns v (attachAddr A i k b) S X := by
  have hb32 : b < 2 ^ 32 := by
    have := v.lt_disksize hb'
    have := v.small
    omega
  refine h.grow hi hS h0 hu hb hb' ?_ (live_congr ?_) (fun j l hj hjS => slot_attachAddr h hi hS hk h0 hu hb hj hjS) rfl
  · intro j hj
    by_cases hji : j = i
    · subst hji
      have hd := h.din j hj
      have he : (Ownership.attachAddr A j k b).ino j = { A.ino j with addrs := Function.update (A.ino j).addrs k b } :=
        Function.update_self ..
      rw [he]
      refine { hd with addrs := fun l => ?_, none := fun l hl => ?_ }
      · simp only [Function.update_apply]
        split
        · exact hb32
        · exact hd.addrs l
      · simp only [Function.update_of_ne (show l ≠ k by omega)]
        exact hd.none l hl
    · have he : (Ownership.attachAddr A i k b).ino j = A.ino j := Function.update_of_ne hji _ _
      rw [he]
      exact h.din j hj
  · intro j
    by_cases hji : j = i
    · subst hji
      simp [Ownership.attachAddr, Image.setIno]
    · simp [Ownership.attachAddr, Image.setIno, hji, Image.alloc]

theorem Owns.attachEntry (h : Owns v A S X) (hi : Live v A i) (hS : i ∉ S) {n : Nat} (hn : NDIRECT ≤ n)
    (hn' : n < MAXFILE) (hind : slot A i NDIRECT ≠ 0) (h0 : slot A i (bslot n) = 0) (hu : A.used b = false)
    (hb : v.dataStart ≤ b) (hb' : b < v.logStart) : Owns v (attachEntry A i n b) S X :=
  h.grow hi hS h0 hu hb hb' h.din (live_congr fun _ => rfl)
    (fun _ _ hj hjS => slot_attachEntry h hi hS hn hn' hind hu hb' hj hjS) rfl

theorem freeCount_alloc (hu : A.used b = false) (hb' : b < v.logStart) :
    freeCount v (A.alloc b) + 1 = freeCount v A := by
  have he : ((Finset.range v.logStart).filter fun c => (A.alloc b).used c = false) =
      ((Finset.range v.logStart).filter fun c => A.used c = false).erase b := by
    ext c
    simp only [Finset.mem_filter, Finset.mem_erase]
    by_cases hc : c = b <;> simp [Image.alloc, hc]
  unfold freeCount
  rw [he]
  exact Finset.card_erase_add_one (by simp [hu, hb'])

theorem exists_free (h : 0 < freeCount v A) : ∃ c < v.logStart, A.used c = false := by
  obtain ⟨c, hc⟩ := Finset.card_pos.1 h
  exact ⟨c, by simpa using hc⟩

theorem lt_nblocks {p size : Nat} (h : p < size) : p / BSIZE < nblocks size := by
  simp only [nblocks, BSIZE]
  omega

theorem nblocks_le {size : Nat} (h : size ≤ MAXFILE * BSIZE) : nblocks size ≤ MAXFILE := by
  simp only [nblocks, MAXFILE, NINDIRECT, NDIRECT, BSIZE] at *
  omega

theorem block_ne_of_full (hf : Full A i) {p : Nat} (hp : p < (A.ino i).size) :
    p / BSIZE < MAXFILE ∧ slot A i (bslot (p / BSIZE)) ≠ 0 := by
  have h1 := lt_nblocks hp
  have h2 := nblocks_le hf.size
  exact ⟨by omega, (hf.shape.blocks _ (by omega)).2 h1⟩

end ArmXv6.Ownership
