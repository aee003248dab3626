import ArmXv6.BlockMap
import ArmXv6.Content

namespace ArmXv6.FileData

open Lib.Exec Lib.Bytes Param Blocks Fs Content DiskImage BlockSpecs BlockAlloc Ownership BlockMap

def byte (A : Image) (i p : Nat) : UInt8 := (A.data (slot A i (bslot (p / BSIZE)))).get (p % BSIZE)

def segment (A : Image) (i off len : Nat) : List UInt8 := (List.range len).map fun k => byte A i (off + k)

def contents (A : Image) (i : Nat) : List UInt8 := segment A i 0 (A.ino i).size

variable {v : Volume} {A A' A'' : Image} {S X D : Set Nat} {fs fs' : Fs} {ip i n b off : Nat}
  {ok : Stop → Prop} {G : Event → Prop}

theorem segment_add (A : Image) (i off m n : Nat) :
    segment A i off (m + n) = segment A i off m ++ segment A i (off + m) n := by
  simp [segment, List.range_add, List.map_map, Function.comp_def, Nat.add_assoc]

theorem slice_eq_segment (A : Image) (i off m : Nat) (hm : off % BSIZE + m ≤ BSIZE) :
    (A.data (slot A i (bslot (off / BSIZE)))).slice (off % BSIZE) m = segment A i off m := by
  apply List.map_congr_left
  intro k hk
  have hk' := List.mem_range.1 hk
  have hdiv : (off + k) / BSIZE = off / BSIZE := by simp only [BSIZE] at *; omega
  have hmod : (off + k) % BSIZE = off % BSIZE + k := by simp only [BSIZE] at *; omega
  rw [byte, hdiv, hmod]

/-- What changes to inode i leave alone: the other live inodes and their blocks. -/
structure Frame (v : Volume) (S : Set Nat) (i : Nat) (A A' : Image) : Prop where
  ino : ∀ j, j ≠ i → A'.ino j = A.ino j
  data : ∀ j k, j ≠ i → Live v A j → j ∉ S → slot A j k ≠ 0 → A'.data (slot A j k) = A.data (slot A j k)

theorem Frame.refl (v : Volume) (S : Set Nat) (i : Nat) (A : Image) : Frame v S i A A :=
  ⟨fun _ _ => rfl, fun _ _ _ _ _ _ => rfl⟩

theorem Frame.slot_eq (h : Frame v S i A A') {j : Nat} (hj : j ≠ i) (hl : Live v A j) (hS : j ∉ S) (k : Nat) :
    slot A' j k = slot A j k := by
  refine slot_congr (h.ino j hj) (fun hne => ?_) k
  rw [← slot_indirect] at hne ⊢
  exact h.data j _ hj hl hS hne

theorem Frame.live (h : Frame v S i A A') {j : Nat} (hj : j ≠ i) : Live v A' j ↔ Live v A j := by
  unfold Live
  rw [h.ino j hj]

theorem Frame.trans (h : Frame v S i A A') (h' : Frame v S i A' A'') : Frame v S i A A'' := by
  refine ⟨fun j hj => (h'.ino j hj).trans (h.ino j hj), fun j k hj hl hS hk => ?_⟩
  have he := h.slot_eq hj hl hS k
  rw [← h.data j k hj hl hS hk, ← he]
  exact h'.data j k hj ((h.live hj).2 hl) hS (he ▸ hk)

theorem Frame.full (h : Frame v S i A A') {j : Nat} (hj : j ≠ i) (hl : Live v A j) (hS : j ∉ S) (hf : Full A j) :
    Full A' j := by
  have he := fun k => h.slot_eq hj hl hS k
  refine ⟨by rw [h.ino j hj]; exact hf.size, ⟨fun m hm => ?_, ?_⟩⟩
  · rw [he, h.ino j hj]
    exact hf.shape.blocks m hm
  · rw [he, h.ino j hj]
    exact hf.shape.indirect

theorem Frame.byte_eq (h : Frame v S i A A') {j : Nat} (hj : j ≠ i) (hl : Live v A j) (hS : j ∉ S) {p : Nat}
    (hp : slot A j (bslot (p / BSIZE)) ≠ 0) : byte A' j p = byte A j p := by
  rw [byte, h.slot_eq hj hl hS, h.data j _ hj hl hS hp, byte]

theorem frame_of_grown (ho : Owns v A S X) (hi : Live v A i) (hS : i ∉ S) (hg : Grown A A' i n b) :
    Frame v S i A A' := by
  refine ⟨hg.others, fun j k hj hl hjS hk => hg.data _ (ho.used_slot hl hjS hk) fun he => hj ?_⟩
  exact (ho.inj j i k NDIRECT hl hjS hi hS hk he).1

theorem slot_setData (ho : Owns v A S X) (hi : Live v A i) (hS : i ∉ S) (m : Nat)
    (d : Block) {j : Nat} (hj : Live v A j) (hjS : j ∉ S) (k : Nat) :
    slot (A.setData (slot A i (bslot m)) d) j k = slot A j k := by
  have hino : (A.setData (slot A i (bslot m)) d).ino j = A.ino j := rfl
  refine slot_congr hino (fun hne => ?_) k
  refine Function.update_of_ne (fun he => ?_) _ _
  rw [← slot_indirect] at hne he
  exact bslot_ne_indirect m (ho.inj j i NDIRECT (bslot m) hj hjS hi hS hne he).2.symm

theorem owns_setData (ho : Owns v A S X) (hi : Live v A i) (hS : i ∉ S) (m : Nat) (d : Block) :
    Owns v (A.setData (slot A i (bslot m)) d) S X :=
  ho.congr ho.din (fun _ => Iff.rfl) (fun _ k hj hjS => slot_setData ho hi hS m d hj hjS k) rfl

theorem frame_setData (ho : Owns v A S X) (hi : Live v A i) (hS : i ∉ S) (m : Nat) (d : Block) :
    Frame v S i A (A.setData (slot A i (bslot m)) d) := by
  refine ⟨fun _ _ => rfl, fun j k hj hl hjS hk => Function.update_of_ne (fun he => hj ?_) _ _⟩
  exact (ho.inj j i k (bslot m) hl hjS hi hS hk he).1

theorem shaped_setData (ho : Owns v A S X) (hi : Live v A i) (hS : i ∉ S) {nb : Nat} (m : Nat)
    (d : Block) (hsh : Shaped A i nb) :
    Shaped (A.setData (slot A i (bslot m)) d) i nb := by
  have he := fun k => slot_setData ho hi hS m d hi hS k
  refine ⟨fun p hp => ?_, ?_⟩
  · rw [he]
    exact hsh.blocks p hp
  · rw [he]
    exact hsh.indirect

/-- Reading needs two free buffers at most, one after the other. -/
def Quiet (fs : Fs) : Prop := fs.held = [] ∧ fs.log.lh.length < NBUF

theorem Quiet.readable (h : Quiet fs) (s : Nat) : Readable ok fs s := by
  refine ⟨by simp [h.1], .inr ?_⟩
  rw [h.1]
  simpa using h.2

theorem readi_loop_spec (h : Rep v A D fs) (ho : Owns v A S X) (hc : Cached v A fs ip i) (hS : i ∉ S)
    (hf : Full A i) (hr : Lenient ok ∨ Quiet fs) (fuel tot off : Nat) (acc : List UInt8)
    (hoff : off + (n - tot) ≤ (A.ino i).size) (hfuel : n - tot ≤ fuel) :
    (readi.loop ip n fuel tot off acc fs).Holds G
      (fun l fs' => l = acc ++ segment A i off (n - tot) ∧ fs = fs') (fun w _ => ok w) := by
  induction fuel generalizing tot off acc with
  | zero =>
      have h0 : n - tot = 0 := by omega
      simp [readi.loop, h0, segment]
  | succ fuel ih =>
      simp only [readi.loop, holds_ite, holds_pure]
      refine ⟨fun hlt => ?_, fun hge => ?_⟩
      · obtain ⟨hmax, hb⟩ := block_ne_of_full hf (show off < (A.ino i).size by omega)
        obtain ⟨hlo, hhi⟩ := ho.range i _ hc.live hS hb
        rw [holds_bind]
        refine (bmap_existing h ho hc hS hmax hb (hr.imp id fun hq => hq.readable _)).mono ?_ fun _ _ => id
        rintro _ _ ⟨rfl, rfl⟩
        rw [holds_bind]
        refine (bread_spec h.log (v.lt_disksize hhi) (hr.imp id fun hq => hq.readable _)).mono ?_ fun _ _ => id
        rintro _ _ ⟨rfl, rfl⟩
        have hmod := Nat.mod_lt off (show 0 < BSIZE by decide)
        have hm : min (n - tot) (BSIZE - off % BSIZE) ≤ n - tot := Nat.min_le_left _ _
        have hm' : min (n - tot) (BSIZE - off % BSIZE) ≤ BSIZE - off % BSIZE := Nat.min_le_right _ _
        have hpos : 0 < min (n - tot) (BSIZE - off % BSIZE) := by omega
        simp only [holds_bind, holds_brelse, List.erase_cons_head]
        generalize min (n - tot) (BSIZE - off % BSIZE) = m at *
        refine (ih (tot + m) (off + m) _ (by omega) (by omega)).mono ?_ fun _ _ => id
        rintro _ _ ⟨rfl, rfl⟩
        rw [h.blk_eq hlo hhi, slice_eq_segment _ _ _ _ (by omega), List.append_assoc, ← segment_add,
          show m + (n - (tot + m)) = n - tot by omega]
        exact ⟨rfl, rfl⟩
      · have h0 : n - tot = 0 := by omega
        simp [h0, segment]

theorem readi_spec (h : Rep v A D fs) (ho : Owns v A S X) (hc : Cached v A fs ip i) (hS : i ∉ S)
    (hf : Full A i) (hdev : (A.ino i).type ≠ T_DEV) (hr : Lenient ok ∨ Quiet fs) (hoff : off < 2 ^ 32)
    (hn : n < 2 ^ 32) :
    (readi ip off n fs).Holds G
      (fun (r : Int × List UInt8) fs' => fs = fs' ∧
        if (A.ino i).size < off ∨ 2 ^ 32 ≤ off + n then r = (-1, [])
        else r = (((min n ((A.ino i).size - off) : Nat) : Int), segment A i off (min n ((A.ino i).size - off))))
      (fun w _ => ok w) := by
  have hdin := hc.din h
  have hwrap : uint (off + n) < off ↔ 2 ^ 32 ≤ off + n := by
    unfold uint
    omega
  unfold readi
  rw [holds_bind, holds_fetch]
  simp only [hdin]
  rw [if_neg hdev]
  simp only [holds_ite, holds_bind, holds_pure, hwrap]
  refine ⟨fun hbad => ⟨trivial, by rw [if_pos hbad]; trivial⟩, fun hgood => ?_⟩
  have hu : uint (off + n) = off + n := Nat.mod_eq_of_lt (by omega)
  have hlen : (if (A.ino i).size < uint (off + n) then (A.ino i).size - off else n) =
      min n ((A.ino i).size - off) := by
    rw [hu]
    split <;> omega
  rw [hlen]
  refine (readi_loop_spec h ho hc hS hf hr _ 0 off [] (by omega) (by omega)).mono ?_ fun _ _ => id
  rintro _ _ ⟨rfl, rfl⟩
  exact ⟨rfl, by rw [if_neg hgood]; simp⟩

/-- The blocks that len bytes from off on touch. -/
def spans (off len : Nat) : Nat := if len = 0 then 0 else (off + len - 1) / BSIZE - off / BSIZE + 1

/-- The blocks it takes to bring a file from nb to nb' blocks. -/
def need (nb nb' : Nat) : Nat := nb' - nb + if nb ≤ NDIRECT ∧ NDIRECT < nb' then 1 else 0

theorem spans_step {len m : Nat} (hm : m = min len (BSIZE - off % BSIZE)) (hlen : 0 < len) :
    spans (off + m) (len - m) + 1 = spans off len := by
  simp only [spans, BSIZE] at *
  split <;> split <;> omega

theorem need_step {nb nb' : Nat} (h : nb < nb') : need nb nb' = newBlocks nb + need (nb + 1) nb' := by
  simp only [need, newBlocks]
  split <;> split <;> split <;> omega

theorem need_self (nb : Nat) : need nb nb = 0 := by
  simp only [need]
  split <;> omega

/-- The disk copy of the inode is out of date once blocks were added to it. -/
def staleSet (D : Set Nat) (i nb₀ nb : Nat) : Set Nat := {j | j ∈ D ∨ j = i ∧ nb₀ < nb}

/-- The progress of a write at block m: the block is there, and what was there still is. -/
structure Reached (v : Volume) (S X D : Set Nat) (ip i nb₀ nb m : Nat) (A : Image) (fs : Fs) (b : Nat) (fs' : Fs)
    (A' : Image) (nb' : Nat) : Prop where
  rep : Rep v A' (staleSet D i nb₀ nb') fs'
  owns : Owns v A' S X
  shape : Shaped A' i nb'
  count : nb' = max nb (m + 1)
  block : slot A' i (bslot m) = b
  range : v.dataStart ≤ b ∧ b < v.logStart
  frame : Frame v S i A A'
  ino : ∃ f, A'.ino i = { A.ino i with addrs := f }
  edits : Edits ip fs fs'
  bytes : ∀ p < nb * BSIZE, byte A' i p = byte A i p
  cost : cost v A' i fs'.log.lh ≤ cost v A i fs.log.lh + 1 ∧
    cost v A' i (absorb fs'.log.lh b) ≤ cost v A i fs.log.lh + 1
  free : freeCount v A' + need nb nb' = freeCount v A

theorem cost_absorb_le (A : Image) (i : Nat) (lh : List Nat) (b : Nat) :
    cost v A i (absorb lh b) ≤ cost v A i lh + 1 := by
  have hload := load_absorb_le (v := v) lh b
  simp only [cost]
  by_cases hm : slot A i NDIRECT ≠ 0 ∧ slot A i NDIRECT ∈ lh
  · have hm' : slot A i NDIRECT ≠ 0 ∧ slot A i NDIRECT ∈ absorb lh b := ⟨hm.1, mem_absorb.2 (.inl hm.2)⟩
    rw [if_pos hm, if_pos hm']
    omega
  · rw [if_neg hm]
    split <;> omega

theorem bmap_write_spec {nb₀ nb m : Nat} (h : Rep v A (staleSet D i nb₀ nb) fs) (ho : Owns v A S X)
    (hc : Cached v A fs ip i) (hS : i ∉ S) (hsh : Shaped A i nb) (hnb : nb₀ ≤ nb) (hm : m ≤ nb) (hmax : m < MAXFILE)
    (hbusy : fs.log.busy = true) (hr : Tolerant G ok ∨ Enough ok v A fs i 1 (need nb (max nb (m + 1)))) :
    (bmap ip m fs).Holds G
      (fun b fs' => ∃ A' nb', Reached v S X D ip i nb₀ nb m A fs b fs' A' nb') (fun w _ => ok w) := by
  rcases Nat.lt_or_ge m nb with hlt | hge
  · have hb := (hsh.blocks m hmax).2 hlt
    have hquiet : Enough ok v A fs i 1 (need nb (max nb (m + 1))) → Readable ok fs (slot A i NDIRECT) :=
      fun hp => hp.ample.readable h.log.nodup (by simp [hp.held])
    refine (bmap_existing h ho hc hS hmax hb (hr.imp And.left hquiet)).mono ?_ fun _ _ => id
    rintro _ _ ⟨rfl, rfl⟩
    have hcount : nb = max nb (m + 1) := by omega
    exact ⟨A, nb, h, ho, hsh, hcount, rfl, ho.range i _ hc.live hS hb, Frame.refl .., ⟨_, rfl⟩,
      edits_of_kept (Kept.refl fs) ip, fun _ _ => rfl, ⟨by omega, cost_absorb_le ..⟩, by rw [need_self, Nat.add_zero]⟩
  · have hmn : m = nb := by omega
    subst hmn
    have hcount : max m (m + 1) = m + 1 := by omega
    have hneed : need m (m + 1) = newBlocks m := by
      rw [need_step (by omega), need_self, Nat.add_zero]
    rw [hcount, hneed] at hr
    refine (bmap_grow h ho hc hS hsh hmax hbusy hr).mono ?_ fun _ _ => id
    rintro b fs' ⟨A', he⟩
    have hsub : insert i (staleSet D i nb₀ m) ⊆ staleSet D i nb₀ (m + 1) := by
      rintro j (rfl | hj | ⟨hji, hj⟩)
      · exact .inr ⟨rfl, by omega⟩
      · exact .inl hj
      · exact .inr ⟨hji, by omega⟩
    refine ⟨A', m + 1, ⟨he.rep.log, he.rep.disk.mono hsub, he.rep.cache⟩, he.owns, he.shape, hcount.symm,
      he.grown.block,
      he.range, frame_of_grown ho hc.live hS he.grown, he.grown.self, he.edits, ?_, ⟨he.cost, ?_⟩, ?_⟩
    · intro p hp
      have hpm : p / BSIZE < m := Nat.div_lt_of_lt_mul (by rwa [Nat.mul_comm])
      have hne := (hsh.blocks (p / BSIZE) (by omega)).2 hpm
      have hdata := he.grown.data _ (ho.used_slot hc.live hS hne) fun heq =>
        bslot_ne_indirect _ (ho.inj i i _ _ hc.live hS hc.live hS hne heq).2
      rw [byte, he.grown.keep _ hne, hdata, byte]
    · rw [load_absorb_mem he.logged]
      exact he.cost
    · rw [hneed]
      exact he.free

theorem byte_setData (ho : Owns v A S X) (hi : Live v A i) (hS : i ∉ S) (m : Nat) (d : Block) {p : Nat}
    (hp : slot A i (bslot (p / BSIZE)) ≠ 0) :
    byte (A.setData (slot A i (bslot m)) d) i p = if p / BSIZE = m then d.get (p % BSIZE) else byte A i p := by
  rw [byte, slot_setData ho hi hS m d hi hS]
  by_cases hm : p / BSIZE = m
  · simp [hm, Image.setData]
  · have hne : slot A i (bslot (p / BSIZE)) ≠ slot A i (bslot m) := fun he =>
      hm (bslot_inj (ho.inj i i _ _ hi hS hi hS hp he).2)
    simp [hm, Image.setData, hne, byte]

/-- The state of things after len bytes from off on have been stored. -/
structure Written (v : Volume) (S X D : Set Nat) (ip i nb₀ nb off len : Nat) (src : Nat → UInt8) (A : Image) (fs : Fs)
    (fs' : Fs) (A' : Image) (nb' : Nat) : Prop where
  rep : Rep v A' (staleSet D i nb₀ nb') fs'
  owns : Owns v A' S X
  shape : Shaped A' i nb'
  count : nb' = max nb (nblocks (off + len))
  frame : Frame v S i A A'
  ino : ∃ f, A'.ino i = { A.ino i with addrs := f }
  edits : Edits ip fs fs'
  bytes : ∀ p, p < nb * BSIZE ∨ off ≤ p ∧ p < off + len →
    byte A' i p = if off ≤ p ∧ p < off + len then src (p - off) else byte A i p
  cost : cost v A' i fs'.log.lh ≤ cost v A i fs.log.lh + spans off len
  free : freeCount v A' + need nb nb' = freeCount v A

theorem need_add {nb nb₁ nb₂ : Nat} (h : nb ≤ nb₁) (h' : nb₁ ≤ nb₂) : need nb nb₂ = need nb nb₁ + need nb₁ nb₂ := by
  simp only [need]
  split <;> split <;> split <;> omega

theorem cached_live (hc : Cached v A fs ip i) (hino : ∃ f, A'.ino i = { A.ino i with addrs := f }) : Live v A' i := by
  obtain ⟨f, hf⟩ := hino
  exact ⟨hc.live.1, by rw [hf]; exact hc.live.2⟩

theorem written_nil {nb₀ nb tot : Nat} (src : Nat → UInt8) (h : Rep v A (staleSet D i nb₀ nb) fs)
    (ho : Owns v A S X) (hsh : Shaped A i nb) (hcover : off ≤ nb * BSIZE) (h0 : n - tot = 0) :
    Written v S X D ip i nb₀ nb off (n - tot) (fun q => src (tot + q)) A fs fs A nb := by
  have hcount : nb = max nb (nblocks (off + 0)) := by
    simp only [nblocks, BSIZE] at *
    omega
  rw [h0]
  exact ⟨h, ho, hsh, hcount, Frame.refl .., ⟨_, rfl⟩, edits_of_kept (Kept.refl fs) ip,
    fun p _ => by rw [if_neg (by omega)], by simp [spans], by rw [need_self, Nat.add_zero]⟩

theorem writei_loop_spec {nb₀ : Nat} (src : Nat → UInt8) (hS : i ∉ S) (fuel tot off nb : Nat) (A : Image) (fs : Fs)
    (h : Rep v A (staleSet D i nb₀ nb) fs) (ho : Owns v A S X) (hc : Cached v A fs ip i) (hsh : Shaped A i nb)
    (hnb : nb₀ ≤ nb) (hnbm : nb ≤ MAXFILE) (hcover : off ≤ nb * BSIZE) (hmax : off + (n - tot) ≤ MAXFILE * BSIZE)
    (hbusy : fs.log.busy = true) (hfuel : n - tot ≤ fuel)
    (hr : Tolerant G ok ∨ Enough ok v A fs i (spans off (n - tot) + 1) (need nb (max nb (nblocks (off + (n - tot)))))) :
    (writei.loop ip src n fuel tot off fs).Holds G
      (fun _ fs' => ∃ A' nb', Written v S X D ip i nb₀ nb off (n - tot) (fun q => src (tot + q)) A fs fs' A' nb')
      (fun w _ => ok w) := by
  induction fuel generalizing tot off nb A fs with
  | zero =>
      simp only [writei.loop, holds_pure]
      exact ⟨A, nb, written_nil src h ho hsh hcover (by omega)⟩
  | succ fuel ih =>
      simp only [writei.loop, holds_ite, holds_pure]
      refine ⟨fun hlt => ?_, fun hge => ⟨A, nb, written_nil src h ho hsh hcover (by omega)⟩⟩
      have hmod := Nat.mod_lt off (show 0 < BSIZE by decide)
      have hblock : off / BSIZE ≤ nb := Nat.div_le_of_le_mul (by rwa [Nat.mul_comm])
      have hblock' : off / BSIZE < MAXFILE := Nat.div_lt_of_lt_mul (by rw [Nat.mul_comm]; omega)
      have hfin : off / BSIZE + 1 ≤ nblocks (off + (n - tot)) := by
        simp only [nblocks, BSIZE]
        omega
      have hspan : 1 ≤ spans off (n - tot) := by
        simp only [spans]
        split <;> omega
      have hneed : need nb (max nb (nblocks (off + (n - tot)))) = need nb (max nb (off / BSIZE + 1)) +
          need (max nb (off / BSIZE + 1)) (max nb (nblocks (off + (n - tot)))) :=
        need_add (le_max_left _ _) (by omega)
      have hr₁ : Tolerant G ok ∨ Enough ok v A fs i 1 (need nb (max nb (off / BSIZE + 1))) := by
        refine hr.imp id fun hp => ⟨hp.budget.imp id fun hb => ⟨by omega, hb.2⟩, hp.held, ?_⟩
        have := hp.free
        omega
      rw [holds_bind]
      refine (bmap_write_spec h ho hc hS hsh hnb hblock hblock' hbusy hr₁).mono ?_ fun _ _ => id
      rintro b fs₁ ⟨A₁, nb₁, h₁⟩
      have hc₁ : Cached v A₁ fs₁ ip i := hc.edits h₁.edits (cached_live hc h₁.ino)
      have hb : slot A₁ i (bslot (off / BSIZE)) ≠ 0 := (h₁.shape.blocks _ hblock').2 (by have := h₁.count; omega)
      have hr₂ : Lenient ok ∨ Readable ok fs₁ b ∧ Loggable ok v { fs₁ with held := b :: fs₁.held } := by
        refine hr.imp And.left fun hp => ?_
        have hheld : fs₁.held = [] := h₁.edits.held.trans hp.held
        have ha : Ample ok v A₁ fs₁ 0 := by
          refine ⟨hp.budget.imp id fun hb => ⟨?_, hb.2⟩, by simp [hheld], by simp [hheld]⟩
          have := load_le_cost v A₁ i fs₁.log.lh
          have := h₁.cost.1
          omega
        exact ⟨ha.readable h₁.rep.log.nodup (by simp [hheld]), ha.loggable h₁.rep.log.nodup h₁.range.2⟩
      have hm : min (n - tot) (BSIZE - off % BSIZE) ≤ n - tot := Nat.min_le_left _ _
      have hm' : min (n - tot) (BSIZE - off % BSIZE) ≤ BSIZE - off % BSIZE := Nat.min_le_right _ _
      have hpos : 0 < min (n - tot) (BSIZE - off % BSIZE) := by omega
      have hstep :
          spans (off + min (n - tot) (BSIZE - off % BSIZE)) (n - tot - min (n - tot) (BSIZE - off % BSIZE)) + 1 =
          spans off (n - tot) := spans_step rfl (by omega)
      simp only [holds_bind]
      generalize min (n - tot) (BSIZE - off % BSIZE) = m at *
      refine modify_then h₁.rep.log h₁.range.2 (h₁.edits.busy.trans hbusy)
        (fun bp => bp.setSlice (off % BSIZE) ((List.range m).map fun k => src (tot + k))) hr₂ fun hl => ?_
      rw [h₁.rep.blk_eq h₁.range.1 h₁.range.2] at hl ⊢
      -- The block now holds the new bytes; the rest of the write starts from this image.
      have hblk := h₁.block
      subst hblk
      generalize hd : ((A₁.data (slot A₁ i (bslot (off / BSIZE)))).setSlice (off % BSIZE)
        ((List.range m).map fun k => src (tot + k))) = d at hl ⊢
      have hcount := h₁.count
      have hslot := fun k => slot_setData h₁.owns hc₁.live hS (off / BSIZE) d hc₁.live hS k
      have hrep₂ := h₁.rep.data h₁.range.1 d hl
      have hr₃ : Tolerant G ok ∨ Enough ok v (A₁.setData (slot A₁ i (bslot (off / BSIZE))) d)
          (afterLog fs₁ (slot A₁ i (bslot (off / BSIZE))) d) i (spans (off + m) (n - (tot + m)) + 1)
          (need nb₁ (max nb₁ (nblocks (off + m + (n - (tot + m)))))) := by
        refine hr.imp id fun hp => ⟨?_, h₁.edits.held.trans hp.held, ?_⟩
        · refine hp.budget.imp id fun hb => ⟨?_, hb.2⟩
          have hcost : cost v (A₁.setData (slot A₁ i (bslot (off / BSIZE))) d) i
              (absorb fs₁.log.lh (slot A₁ i (bslot (off / BSIZE)))) ≤ cost v A i fs.log.lh + 1 := by
            have := h₁.cost.2
            simpa only [cost, hslot] using this
          rw [show n - (tot + m) = n - tot - m by omega]
          change cost v _ i (absorb fs₁.log.lh _) + _ + _ ≤ 7
          omega
        · have h1 := h₁.free
          have h2 := hp.free
          rw [show off + m + (n - (tot + m)) = off + (n - tot) by omega]
          rw [hneed] at h2
          rw [hcount] at h1 ⊢
          rw [show max (max nb (off / BSIZE + 1)) (nblocks (off + (n - tot))) =
            max nb (nblocks (off + (n - tot))) by omega]
          change _ ≤ freeCount v A₁
          omega
      have hcover' : off + m ≤ nb₁ * BSIZE := by
        have h1 : (off / BSIZE + 1) * BSIZE ≤ nb₁ * BSIZE := Nat.mul_le_mul_right _ (by omega)
        have h2 := Nat.div_add_mod off BSIZE
        rw [Nat.add_mul, Nat.one_mul, Nat.mul_comm] at h1
        omega
      refine (ih (tot + m) (off + m) nb₁ _ _ hrep₂ (owns_setData h₁.owns hc₁.live hS _ d)
        (hc₁.edits (edits_of_kept (kept_afterLog _ _ _) ip) hc₁.live) (shaped_setData h₁.owns hc₁.live hS _ d h₁.shape)
        (by omega) (by omega) hcover' (by omega) (h₁.edits.busy.trans hbusy) (by omega) hr₃).mono ?_ fun _ _ => id
      rintro _ fs' ⟨A', nb', h'⟩
      refine ⟨A', nb', h'.rep, h'.owns, h'.shape, ?_, ?_, ?_, ?_, ?_, ?_, ?_⟩
      · have := h'.count
        rw [show off + m + (n - (tot + m)) = off + (n - tot) by omega] at this
        omega
      · exact (h₁.frame.trans (frame_setData h₁.owns hc₁.live hS _ d)).trans h'.frame
      · obtain ⟨f, hf⟩ := h'.ino
        obtain ⟨g, hg⟩ := h₁.ino
        refine ⟨f, ?_⟩
        rw [hf]
        change { A₁.ino i with addrs := f } = _
        rw [hg]
      · exact (h₁.edits.trans (edits_of_kept (kept_afterLog _ _ _) ip)).trans h'.edits
      · intro p hp
        have hp₁ : p < nb₁ * BSIZE ∨ off + m ≤ p ∧ p < off + m + (n - (tot + m)) := by
          rcases hp with hp | hp
          · exact .inl (hp.trans_le (Nat.mul_le_mul_right _ (by omega)))
          · omega
        rw [h'.bytes p hp₁]
        by_cases hlate : off + m ≤ p ∧ p < off + m + (n - (tot + m))
        · rw [if_pos hlate, if_pos (by omega)]
          exact congrArg src (by omega)
        · rw [if_neg hlate]
          have hps : slot A₁ i (bslot (p / BSIZE)) ≠ 0 := by
            have hlt₁ : p / BSIZE < nb₁ := Nat.div_lt_of_lt_mul (by rw [Nat.mul_comm]; omega)
            exact (h₁.shape.blocks _ (by omega)).2 hlt₁
          have hdm := Nat.div_add_mod p BSIZE
          have hdo := Nat.div_add_mod off BSIZE
          have hpmod := Nat.mod_lt p (show 0 < BSIZE by decide)
          rw [byte_setData h₁.owns hc₁.live hS _ d hps]
          by_cases hfirst : off ≤ p ∧ p < off + m
          · -- The byte was stored just now.
            have hq : p / BSIZE = off / BSIZE := by
              simp only [BSIZE] at *
              omega
            have hmodq : p % BSIZE - off % BSIZE = p - off := by
              rw [hq] at hdm
              omega
            rw [hq] at hdm
            rw [if_pos hq, if_pos (by omega), ← hd, Mem.get_setSlice, if_pos (by simp; omega), hmodq]
            simp [List.getD, show p - off < m by omega]
          · rw [if_neg (show ¬(off ≤ p ∧ p < off + (n - tot)) by omega), ← h₁.bytes p (by omega)]
            split
            · rename_i hq
              rw [hq] at hdm
              rw [← hd, Mem.get_setSlice, if_neg (by simp; omega), byte, hq]
            · rfl
      · have hcost : cost v (A₁.setData (slot A₁ i (bslot (off / BSIZE))) d) i
            (absorb fs₁.log.lh (slot A₁ i (bslot (off / BSIZE)))) ≤ cost v A i fs.log.lh + 1 := by
          have := h₁.cost.2
          simpa only [cost, hslot] using this
        have h1 := h'.cost
        rw [show n - (tot + m) = n - tot - m by omega] at h1
        change _ ≤ cost v _ i (absorb fs₁.log.lh _) + _ at h1
        omega
      · have hfree₁ := h₁.free
        have hfree' : freeCount v A' + need nb₁ nb' = freeCount v A₁ := h'.free
        have hcount' := h'.count
        have hadd : need nb nb' = need nb nb₁ + need nb₁ nb' := need_add (by omega) (by omega)
        omega

theorem slot_setIno {d : Dinode} (hd : d.addrs = (A.ino i).addrs) (j k : Nat) :
    slot (A.setIno i d) j k = slot A j k := by
  by_cases hj : j = i
  · subst hj
    unfold slot
    simp only [Image.setIno, Function.update_self, hd]
  · have hino : (A.setIno i d).ino j = A.ino j := Function.update_of_ne hj _ _
    exact slot_congr hino (fun _ => rfl) k

theorem byte_setIno {d : Dinode} (hd : d.addrs = (A.ino i).addrs) (j p : Nat) :
    byte (A.setIno i d) j p = byte A j p := by
  rw [byte, slot_setIno hd, byte]
  rfl

theorem owns_setIno (ho : Owns v A S X) {d : Dinode} (hd : DinodeOk d) (haddrs : d.addrs = (A.ino i).addrs)
    (htype : d.type = 0 ↔ (A.ino i).type = 0) : Owns v (A.setIno i d) S X := by
  refine ho.congr ?_ ?_ (fun j l _ _ => slot_setIno haddrs j l) rfl
  · intro j hj
    by_cases hji : j = i
    · simpa [hji, Image.setIno] using hd
    · simpa [hji, Image.setIno] using ho.din j hj
  · intro j
    by_cases hji : j = i
    · simp [Live, hji, Image.setIno, htype]
    · simp [Live, hji, Image.setIno]

theorem frame_setIno (d : Dinode) : Frame v S i A (A.setIno i d) :=
  ⟨fun _ hj => Function.update_of_ne hj _ _, fun _ _ _ _ _ _ => rfl⟩

theorem iupdate_spec (h : Rep v A D fs) (hdin : ∀ j < v.sb.ninodes, DinodeOk (A.ino j)) (hip : ip < NINODE)
    (href : 0 < (fs.icache ip).ref) (hd : (fs.icache ip).din = A.ino (fs.icache ip).inum)
    (hbusy : fs.log.busy = true) (hr : Lenient ok ∨ Ample ok v A fs 1 ∧ fs.held = []) :
    (iupdate ip fs).Holds G
      (fun _ fs' => Rep v A (D \ {(fs.icache ip).inum}) fs' ∧ Kept fs fs') (fun w _ => ok w) := by
  have hi := (h.cache.known ip hip href).2
  have hs : IBLOCK (fs.icache ip).inum < v.logStart := (v.iblock_lt_dataStart hi).trans_le v.dataStart_le
  simp only [iupdate, holds_bind, holds_fetch]
  refine modify_then h.log hs hbusy (fun bp => setDinode bp ((fs.icache ip).inum % IPB) (fs.icache ip).din)
    (hr.imp id fun ha => ⟨ha.1.readable h.log.nodup (by simp [ha.2]), ha.1.loggable h.log.nodup hs⟩) fun hl => ?_
  refine ⟨⟨hl, ?_, h.cache⟩, kept_afterLog _ _ _⟩
  have hset := (h.disk.setIno hi (hdin _ hi)).congr fun _ hc => h.log.afterLog_blk
    (setDinode (fs.blk (IBLOCK (fs.icache ip).inum)) ((fs.icache ip).inum % IPB) (A.ino (fs.icache ip).inum)) hc
  rw [Function.update_eq_self] at hset
  rwa [hd]

/-- The state of things after a write of n bytes at off. -/
structure FileWritten (v : Volume) (S X D : Set Nat) (ip i off n : Nat) (src : Nat → UInt8) (A : Image) (fs : Fs)
    (fs' : Fs) (A' : Image) : Prop where
  rep : Rep v A' D fs'
  owns : Owns v A' S X
  full : Full A' i
  frame : Frame v S i A A'
  ino : ∃ f, A'.ino i = { A.ino i with size := max (A.ino i).size (off + n), addrs := f }
  edits : Edits ip fs fs'
  bytes : ∀ p < max (A.ino i).size (off + n),
    byte A' i p = if off ≤ p ∧ p < off + n then src (p - off) else byte A i p
  free : freeCount v A' + need (nblocks (A.ino i).size) (nblocks (max (A.ino i).size (off + n))) = freeCount v A

theorem staleSet_self (D : Set Nat) (i nb : Nat) : staleSet D i nb nb = D := by
  ext j
  simp [staleSet]

/-- A write replaces the bytes from off on, lengthens the file if need be, and changes no
other file; or it fails at once. -/
theorem writei_spec (src : Nat → UInt8) (h : Rep v A D fs) (ho : Owns v A S X) (hc : Cached v A fs ip i) (hS : i ∉ S)
    (hf : Full A i) (hdev : (A.ino i).type ≠ T_DEV) (hbusy : fs.log.busy = true) (hoff : off < 2 ^ 32) (hn : n < 2 ^ 32)
    (hr : Tolerant G ok ∨ Enough ok v A fs i (spans off n + 1)
      (need (nblocks (A.ino i).size) (max (nblocks (A.ino i).size) (nblocks (off + n))))) :
    (writei ip src off n fs).Holds G
      (fun (r : Int) fs' =>
        if (A.ino i).size < off ∨ 2 ^ 32 ≤ off + n ∨ MAXFILE * BSIZE < off + n then r = -1 ∧ fs = fs'
        else r = n ∧ ∃ A', FileWritten v S X D ip i off n src A fs fs' A')
      (fun w _ => ok w) := by
  have hdin := hc.din h
  have hwrap : uint (off + n) < off ↔ 2 ^ 32 ≤ off + n := by
    unfold uint
    omega
  unfold writei
  rw [holds_bind, holds_fetch]
  simp only [hdin]
  rw [if_neg hdev]
  simp only [holds_ite, holds_pure, hwrap]
  refine ⟨fun hbad => ?_, fun hgood => ⟨fun hbig => ?_, fun hfit => ?_⟩⟩
  · rw [if_pos (by tauto)]
    trivial
  · have hu : uint (off + n) = off + n := Nat.mod_eq_of_lt (by omega)
    rw [hu] at hbig
    rw [if_pos (by tauto)]
    trivial
  have hu : uint (off + n) = off + n := Nat.mod_eq_of_lt (by omega)
  rw [hu] at hfit
  have hneg : ¬((A.ino i).size < off ∨ 2 ^ 32 ≤ off + n ∨ MAXFILE * BSIZE < off + n) := by tauto
  simp only [if_neg hneg]
  rw [holds_bind]
  have hcover : off ≤ nblocks (A.ino i).size * BSIZE := by
    simp only [nblocks, BSIZE]
    omega
  refine (writei_loop_spec src hS n 0 off (nblocks (A.ino i).size) A fs (by rw [staleSet_self]; exact h) ho hc hf.shape
    le_rfl (nblocks_le hf.size) hcover (by omega) hbusy (by omega) (by simpa using hr)).mono ?_ fun _ _ => id
  rintro _ fs₁ ⟨A₁, nb₁, h₁⟩
  have hc₁ : Cached v A₁ fs₁ ip i := hc.edits h₁.edits (cached_live hc h₁.ino)
  have hdin₁ := hc₁.din h₁.rep
  obtain ⟨f, hino⟩ := h₁.ino
  have hcount := h₁.count
  have hbytes := h₁.bytes
  simp only [Nat.sub_zero, Nat.zero_add] at hcount hbytes
  have hlow : ∀ p < (A.ino i).size, p < nblocks (A.ino i).size * BSIZE := by
    intro p hp
    simp only [nblocks, BSIZE]
    omega
  rw [holds_bind, holds_fetch, hdin₁]
  simp only [hino]
  by_cases hgrow : 0 < n ∧ (A.ino i).size < off + n
  · rw [if_pos hgrow]
    simp only [holds_bind, holds_setDin, hdin₁]
    have hmono : nblocks (A.ino i).size ≤ nblocks (off + n) := by
      simp only [nblocks, BSIZE]
      omega
    have haddrs : ({ A₁.ino i with size := off + n } : Dinode).addrs = (A₁.ino i).addrs := rfl
    have hok : DinodeOk { A₁.ino i with size := off + n } :=
      { h₁.owns.din i hc₁.live.1 with size := by change off + n < 2 ^ 32; omega }
    have ho₂ := owns_setIno h₁.owns hok haddrs Iff.rfl
    have hrep₂ := rep_putDin h₁.rep hc₁ { A₁.ino i with size := off + n }
    have hfields := edits_putDin fs₁ ip { A₁.ino i with size := off + n }
    obtain ⟨d, hd⟩ := hfields.self
    have hc₂ : Cached v (A₁.setIno i { A₁.ino i with size := off + n })
        (putDin fs₁ ip { A₁.ino i with size := off + n }) ip i :=
      hc₁.edits hfields ⟨hc.live.1, by simpa [Image.setIno] using hc₁.live.2⟩
    have hr₂ : Lenient ok ∨ Ample ok v (A₁.setIno i { A₁.ino i with size := off + n })
        (putDin fs₁ ip { A₁.ino i with size := off + n }) 1 ∧
        (putDin fs₁ ip { A₁.ino i with size := off + n }).held = [] := by
      refine hr.imp And.left fun hp => ?_
      have hheld : fs₁.held = [] := h₁.edits.held.trans hp.held
      refine ⟨⟨hp.budget.imp id fun hb => ⟨?_, hb.2⟩, by simp [putDin, hheld], by simp [putDin, hheld]⟩, hheld⟩
      have h1 := load_le_cost v A₁ i fs₁.log.lh
      have h2 := h₁.cost
      simp only [Nat.sub_zero] at h2
      change load v fs₁.log.lh + _ + 1 ≤ 7
      omega
    refine (iupdate_spec hrep₂ ho₂.din hc.index hc₂.ref (by rw [hc₂.din hrep₂, hc₂.inum]) (h₁.edits.busy.trans hbusy)
      hr₂).mono ?_ fun _ _ => id
    rintro _ fs₂ ⟨hrep₃, hkept⟩
    rw [hc₂.inum] at hrep₃
    simp only [holds_pure, true_and]
    refine ⟨A₁.setIno i { A₁.ino i with size := off + n }, ⟨hrep₃.log, hrep₃.disk.mono ?_, hrep₃.cache⟩, ho₂, ⟨?_, ?_⟩,
      h₁.frame.trans (frame_setIno _), ⟨f, ?_⟩, (h₁.edits.trans hfields).trans (edits_of_kept hkept ip), ?_, ?_⟩
    · rintro j ⟨rfl | hj, hji⟩
      · exact absurd rfl hji
      · rcases hj with hj | hj
        · exact hj
        · exact absurd hj.1 hji
    · simpa [Image.setIno] using hfit
    · have hsh := h₁.shape
      rw [hcount, max_eq_right hmono] at hsh
      refine ⟨fun m hm => ?_, ?_⟩
      · rw [slot_setIno haddrs]
        simpa [Image.setIno] using hsh.blocks m hm
      · rw [slot_setIno haddrs]
        simpa [Image.setIno] using hsh.indirect
    · simp [Image.setIno, hino, max_eq_right hgrow.2.le]
    · intro p hp
      rw [byte_setIno haddrs]
      apply hbytes
      rw [max_eq_right hgrow.2.le] at hp
      rcases Nat.lt_or_ge p (A.ino i).size with hlt | hge
      · exact .inl (hlow p hlt)
      · exact .inr (by omega)
    · have hfree := h₁.free
      rw [hcount, max_eq_right hmono] at hfree
      rw [max_eq_right hgrow.2.le]
      exact hfree
  · rw [if_neg hgrow]
    simp only [holds_pure, true_and]
    have hle : off + n ≤ (A.ino i).size := by omega
    have hnb : nb₁ = nblocks (A.ino i).size := by
      rw [hcount]
      apply max_eq_left
      simp only [nblocks, BSIZE]
      omega
    have hrep := h₁.rep
    rw [hnb, staleSet_self] at hrep
    have hsh := h₁.shape
    rw [hnb] at hsh
    refine ⟨A₁, hrep, h₁.owns, ⟨by rw [hino]; exact hf.size, by rw [hino]; exact hsh⟩, h₁.frame,
      ⟨f, by rw [hino, max_eq_left hle]⟩, h₁.edits, fun p hp => ?_, ?_⟩
    · rw [max_eq_left hle] at hp
      exact hbytes p (.inl (hlow p hp))
    · have hfree := h₁.free
      rw [hnb] at hfree
      rw [max_eq_left hle]
      exact hfree

end ArmXv6.FileData
