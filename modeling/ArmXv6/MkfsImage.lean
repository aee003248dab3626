import ArmXv6.MkfsLayout

namespace ArmXv6.MkfsImage

open Lib.Exec Lib.Bytes Param Blocks Fs Content DiskImage Ownership Mkfs
open BlockMap (Grown grown_attachAddr grown_attachEntry grown_first)
open FileData
  (byte Frame frame_of_grown owns_setData frame_setData byte_setData byte_setIno owns_setIno slot_setIno frame_setIno)
open InodeSpecs (newborn owns_newborn)
open MkfsLayout (Sound Laid Has inodeOf written taken withInode blocks place)

def volume : Volume where
  sb := ⟨1024, 985, 200, 10⟩
  disksize := 1024
  fits := le_rfl
  small := by decide
  log := by decide
  order := by decide
  inodes := by decide
  root := by decide

theorem volume_consts : volume.dataStart = 29 ∧ volume.logStart = 1014 ∧ volume.sb.ninodes = 200 ∧
    volume.sb.size = 1024 := by decide

def imageOf (s : Tool) : Image where
  ino j := if j < ninodes then inodeOf s j else emptyDinode
  used b := decide (b < s.freeblock)
  data b := if firstFree ≤ b then s.img b else Mem.zero

/-- The same while iappend keeps inode i to itself. -/
def during (s : Tool) (i : Nat) (d : Dinode) : Image := (imageOf s).setIno i d

variable {s t u : Tool} {e e' : List Mkfs.Event} {i j n x b : Nat} {d d' : Dinode}

theorem image_ext {A B : Image} (hi : A.ino = B.ino) (hu : A.used = B.used) (hd : A.data = B.data) : A = B := by
  cases A
  cases B
  cases hi
  cases hu
  cases hd
  rfl

theorem ino_imageOf (s : Tool) (hj : j < ninodes) : (imageOf s).ino j = inodeOf s j := if_pos hj

theorem ino_during (s : Tool) (i : Nat) (d : Dinode) : (during s i d).ino i = d := Function.update_self ..

theorem during_inodeOf (s : Tool) (hi : i < ninodes) : during s i (inodeOf s i) = imageOf s := by
  have hself := ino_imageOf s hi
  refine image_ext ?_ rfl rfl
  change Function.update (imageOf s).ino i (inodeOf s i) = _
  rw [← hself]
  exact Function.update_eq_self i _

theorem setIno_during (s : Tool) (i : Nat) (d d' : Dinode) : (during s i d).setIno i d' = during s i d' :=
  image_ext (Function.update_idem ..) rfl rfl

theorem ino_imageOf_written (s : Tool) (hx : firstFree ≤ x) (b : Block) :
    (imageOf (written s x b)).ino = (imageOf s).ino := by
  funext j
  unfold imageOf
  dsimp only
  split
  · rename_i hj
    exact MkfsLayout.inodeOf_congr hj fun sec hsec => Function.update_of_ne (by omega) _ _
  · rfl

theorem during_written (s : Tool) (hx : firstFree ≤ x) (i : Nat) (d : Dinode) (b : Block) :
    during (written s x b) i d = (during s i d).setData x b := by
  refine image_ext ?_ rfl ?_
  · change Function.update (imageOf (written s x b)).ino i d = Function.update (imageOf s).ino i d
    rw [ino_imageOf_written s hx]
  · funext c
    change (if firstFree ≤ c then Function.update s.img x b c else Mem.zero) =
      Function.update (fun c => if firstFree ≤ c then s.img c else Mem.zero) x b c
    by_cases hc : c = x
    · rw [hc, Function.update_self, Function.update_self, if_pos hx]
    · rw [Function.update_of_ne hc, Function.update_of_ne hc]

theorem during_taken (hs : Sound s) (i : Nat) (d : Dinode) :
    during (taken s) i d = (during s i d).alloc s.freeblock := by
  refine image_ext rfl ?_ ?_
  · funext c
    change decide (c < s.freeblock + 1) = Function.update (fun c => decide (c < s.freeblock)) s.freeblock true c
    by_cases hc : c = s.freeblock
    · rw [hc, Function.update_self]
      exact decide_eq_true (Nat.lt_succ_self _)
    · rw [Function.update_of_ne hc]
      exact decide_eq_decide.mpr (by omega)
  · funext c
    change (if firstFree ≤ c then s.img c else Mem.zero) =
      Function.update (fun c => if firstFree ≤ c then s.img c else Mem.zero) s.freeblock Mem.zero c
    by_cases hc : c = s.freeblock
    · rw [hc, Function.update_self, if_pos hs.low]
      exact hs.fresh _ le_rfl
    · rw [Function.update_of_ne hc]

theorem during_addr (hs : Sound s) (i k : Nat) (d : Dinode) :
    during (taken s) i { d with addrs := Function.update d.addrs k s.freeblock } =
      attachAddr (during s i d) i k s.freeblock := by
  unfold attachAddr
  rw [ino_during, ← during_taken hs, setIno_during]

theorem during_entry (hs : Sound s) (hlo : firstFree ≤ d.addrs NDIRECT) (i n : Nat) :
    during (written (taken s) (d.addrs NDIRECT) ((s.img (d.addrs NDIRECT)).setWord (4 * (n - NDIRECT)) s.freeblock)) i
      d =
      attachEntry (during s i d) i n s.freeblock := by
  have hslot : slot (during s i d) i NDIRECT = d.addrs NDIRECT := by rw [slot_indirect, ino_during]
  have hdata : (during s i d).data (d.addrs NDIRECT) = s.img (d.addrs NDIRECT) := if_pos hlo
  unfold attachEntry
  rw [hslot, hdata, ← during_taken hs, ← during_written _ hlo]

/-- What a new or old block does to the file that it is for. -/
structure Attached (A A' : Image) (i n x : Nat) (d d' : Dinode) : Prop where
  owns : Owns volume A' ∅ ∅
  frame : Frame volume ∅ i A A'
  addrs : ∃ f, d' = { d with addrs := f }
  found : slot A' i (bslot n) = x
  bytes : ∀ p, slot A i (bslot (p / BSIZE)) ≠ 0 → byte A' i p = byte A i p

theorem attached_of_grown {A A' : Image} (ho : Owns volume A ∅ ∅) (hi : Live volume A i) (ho' : Owns volume A' ∅ ∅)
    (hg : Grown A A' i n x)
    (hd : A.ino i = d) (hd' : A'.ino i = d') : Attached A A' i n x d d' where
  owns := ho'
  frame := frame_of_grown ho hi (Set.notMem_empty i) hg
  addrs := by
    obtain ⟨f, hf⟩ := hg.self
    exact ⟨f, by rw [← hd', hf, hd]⟩
  found := hg.block
  bytes p hp := by
    have hne : slot A i (bslot (p / BSIZE)) ≠ slot A i NDIRECT := fun he =>
      bslot_ne_indirect _ (ho.inj i i _ _ hi (Set.notMem_empty i) hi (Set.notMem_empty i) hp he).2
    unfold byte
    rw [hg.keep _ hp, hg.data _ (ho.used_slot hi (Set.notMem_empty i) hp) hne]

theorem shaped_of_laid {off : Nat} (h : Laid s.img s.freeblock off d) (i : Nat) :
    Shaped (during s i d) i (blocks off) := by
  obtain ⟨hf, -, hd, hn, hm, -, -, -⟩ := MkfsLayout.consts
  have hino := ino_during s i d
  constructor
  · intro n hmax
    by_cases hdir : n < NDIRECT
    · have hbs : bslot n = n := if_pos hdir
      rw [hbs, slot_direct _ _ hdir.le, hino, ne_eq, (h.direct n hdir).zero_iff, not_not]
    · have hbs : bslot n = n + 1 := if_neg hdir
      rw [hbs]
      unfold slot
      rw [if_neg (by omega), hino]
      by_cases hind : NDIRECT < blocks off
      · obtain ⟨hlo, -⟩ := h.single.range hind
        have hdata : (during s i d).data (d.addrs NDIRECT) = s.img (d.addrs NDIRECT) := if_pos hlo
        have hz := (h.entries hind (n - NDIRECT) (by omega)).1.zero_iff
        rw [if_neg (by omega), hdata, show n + 1 - (NDIRECT + 1) = n - NDIRECT by omega, ne_eq, hz, not_not]
        omega
      · have hz : d.addrs NDIRECT = 0 := h.single.zero_iff.mpr hind
        rw [if_pos (.inl hz)]
        exact iff_of_false (fun hne => hne rfl) (by omega)
  · rw [slot_indirect, hino, ne_eq, h.single.zero_iff, not_not]

theorem slot_of_laid {off : Nat} (h : Laid s.img s.freeblock off d) (i : Nat) (hn : n < blocks off)
    (hmax : n < MAXFILE) :
    slot (during s i d) i (bslot n) = place s.img d n := by
  obtain ⟨hf, -, hd, hni, hm, -, -, -⟩ := MkfsLayout.consts
  have hino := ino_during s i d
  unfold place
  by_cases hdir : n < NDIRECT
  · have hbs : bslot n = n := if_pos hdir
    rw [hbs, slot_direct _ _ hdir.le, hino, if_pos hdir]
  · have hbs : bslot n = n + 1 := if_neg hdir
    obtain ⟨hlo, -⟩ := h.single.range (by omega)
    have hdata : (during s i d).data (d.addrs NDIRECT) = s.img (d.addrs NDIRECT) := if_pos hlo
    rw [hbs, if_neg hdir]
    unfold slot
    rw [if_neg (by omega), hino, if_neg (by omega), hdata, show n + 1 - (NDIRECT + 1) = n - NDIRECT by omega]

theorem Attached.refl {A : Image} (ho : Owns volume A ∅ ∅) (hx : slot A i (bslot n) = x) : Attached A A i n x d d :=
  ⟨ho, .refl _ _ _ _, ⟨d.addrs, rfl⟩, hx, fun _ _ => rfl⟩

theorem attached_of_placed {off off' : Nat} {r : Nat × Dinode} (hs : Sound s) (h : Laid s.img s.freeblock off d)
    (ho : Owns volume (during s i d) ∅ ∅) (hi : Live volume (during s i d) i)
      (hp : MkfsLayout.Placed s t d off off' r e) (hlt : off < off')
    (hoff : off' ≤ MAXFILE * BSIZE) (htop : t.freeblock ≤ volume.logStart) :
    Attached (during s i d) (during t i r.2) i (off / BSIZE) r.1 d r.2 := by
  obtain ⟨hf, -, hnd, hni, hm, hmb, -, -⟩ := MkfsLayout.consts
  obtain ⟨hds, hls, -, -⟩ := volume_consts
  have hdiv : off / BSIZE = off / 512 := rfl
  have hmax : off / BSIZE < MAXFILE := by omega
  have hlow := hs.low
  have hsh := shaped_of_laid h i
  have hnot : i ∉ (∅ : Set Nat) := Set.notMem_empty i
  have hfree : ∀ b, s.freeblock ≤ b → (during s i d).used b = false := fun b hb => decide_eq_false (by omega)
  rcases hp.change with ⟨hb, rfl, rfl⟩ | ⟨hb, hch⟩
  · refine .refl ho (slot_of_laid h i ?_ hmax)
    rw [← hb]
    unfold blocks
    omega
  · have h0 : slot (during s i d) i (bslot (off / BSIZE)) = 0 := by
      by_contra hne
      have := (hsh.blocks _ hmax).mp hne
      omega
    cases hch with
    | direct hk =>
        have hbs : bslot (off / BSIZE) = off / BSIZE := if_pos hk
        rw [hbs] at h0
        have hroom : s.freeblock + 1 ≤ volume.logStart := htop
        simp only
        rw [during_addr hs]
        exact attached_of_grown ho hi (ho.attachAddr hi hnot hk.le h0 (hfree _ le_rfl) (by omega) (by omega))
          (grown_attachAddr ho hi hnot hk h0 (hfree _ le_rfl) (by omega)) (ino_during ..)
            (by rw [← during_addr hs, ino_during])
    | entry hk =>
        have hroom : s.freeblock + 1 ≤ volume.logStart := htop
        obtain ⟨hlo, -⟩ := h.single.range (by omega)
        have hind : slot (during s i d) i NDIRECT ≠ 0 := by
          rw [slot_indirect, ino_during]
          omega
        simp only
        rw [during_entry hs hlo]
        exact attached_of_grown ho hi (ho.attachEntry hi hnot hk.le hmax hind h0 (hfree _ le_rfl) (by omega) (by omega))
          (grown_attachEntry ho hi hnot hk.le hmax hind h0 (hfree _ le_rfl) (by omega)) (ino_during ..) (ino_during ..)
    | single hk =>
        have hroom : s.freeblock + 1 + 1 ≤ volume.logStart := htop
        have hz : slot (during s i d) i NDIRECT = 0 := by
          by_contra hne
          have := hsh.indirect.mp hne
          omega
        have hs' := MkfsLayout.sound_taken hs
        have ho' := ho.attachAddr hi hnot le_rfl hz (hfree _ le_rfl) (by omega) (by omega)
        have hslot :=
          fun l =>
          slot_attachAddr (l := l) ho hi hnot le_rfl hz (hfree _ le_rfl)
          (by omega : volume.dataStart ≤ s.freeblock) hi hnot
        rw [← during_addr hs] at ho' hslot
        have hi' :
            Live volume (during (taken s) i { d with addrs := Function.update d.addrs NDIRECT s.freeblock }) i := by
          refine ⟨hi.1, ?_⟩
          have ht := hi.2
          rw [ino_during] at ht ⊢
          exact ht
        have hind :
            slot (during (taken s) i { d with addrs := Function.update d.addrs NDIRECT s.freeblock }) i NDIRECT ≠
            0 := by
          rw [hslot, if_pos ⟨rfl, rfl⟩]
          omega
        have h0' : slot (during (taken s) i { d with addrs := Function.update d.addrs NDIRECT s.freeblock }) i
          (bslot (off / BSIZE)) = 0 := by
          rw [hslot, if_neg fun hc => bslot_ne_indirect _ hc.2]
          exact h0
        have hfree' : (during (taken s) i { d with addrs := Function.update d.addrs NDIRECT s.freeblock }).used
          (s.freeblock + 1) = false :=
          decide_eq_false (lt_irrefl _)
        have hg := grown_attachEntry ho' hi' hnot hk.ge hmax hind h0' hfree' (by omega)
        have howns := ho'.attachEntry hi' hnot hk.ge hmax hind h0' hfree' (by omega) (by omega)
        have hempty : (taken s).img s.freeblock = Mem.zero := hs.fresh _ le_rfl
        have hentry := during_entry (d := { d with addrs := Function.update d.addrs NDIRECT s.freeblock }) hs'
          (by simp only [Function.update_self]; exact hlow) i (off / BSIZE)
        simp only [Function.update_self, hempty] at hentry
        simp only
        change Attached _ (during (written (taken (taken s)) s.freeblock
          ((Mem.zero : Block).setWord (4 * (off / BSIZE - NDIRECT)) (taken s).freeblock)) i _) i _ _ _ _
        rw [hentry]
        rw [during_addr hs] at hg
        refine attached_of_grown ho hi howns ?_ (ino_during ..) ?_
        · rw [during_addr hs]
          exact grown_first ho hi hnot hz (hfree _ le_rfl) (by omega) hg
        · rw [← hentry, ino_during]

/-- The bytes p have been appended to file i, which had off bytes. -/
structure Grew (A A' : Image) (i off : Nat) (p : List UInt8) (d d' : Dinode) : Prop where
  owns : Owns volume A' ∅ ∅
  frame : Frame volume ∅ i A A'
  addrs : ∃ f, d' = { d with addrs := f }
  bytes : ∀ q < off + p.length, byte A' i q = if off ≤ q then p.getD (q - off) 0 else byte A i q

theorem live_during {i : Nat} {d : Dinode} : Live volume (during s i d) i ↔ i < volume.sb.ninodes ∧ d.type ≠ 0 := by
  unfold Live
  rw [ino_during]

theorem live_addrs (hi : Live volume (during s i d) i) (ha : ∃ f, d' = { d with addrs := f }) :
    Live volume (during t i d') i := by
  obtain ⟨f, rfl⟩ := ha
  rw [live_during] at hi ⊢
  exact hi

theorem byte_fill {A A' : Image} {off n1 q : Nat} {p : List UInt8} (ha : Attached A A' i (off / BSIZE) x d d')
    (hi : Live volume A' i)
    (hn : n1 ≤ p.length) (hfit : off % BSIZE + n1 ≤ BSIZE) (hold : q < off → slot A i (bslot (q / BSIZE)) ≠ 0)
    (hnew : slot A' i (bslot (q / BSIZE)) ≠ 0) (hq : q < off + n1) :
    byte (A'.setData x ((A'.data x).setSlice (off - off / BSIZE * BSIZE) (p.take n1))) i q =
      if off ≤ q then p.getD (q - off) 0 else byte A i q := by
  have hbs : BSIZE = 512 := rfl
  have hdo := Nat.div_add_mod off BSIZE
  have hdq := Nat.div_add_mod q BSIZE
  have hmod := Nat.mod_lt q (show 0 < BSIZE by decide)
  have hlen : (p.take n1).length = n1 := by
    rw [List.length_take]
    omega
  have hoff : off - off / BSIZE * BSIZE = off % BSIZE := by
    rw [Nat.mul_comm]
    omega
  have hx := ha.found
  rw [hoff, ← hx, byte_setData ha.owns hi (Set.notMem_empty i) _ _ hnew]
  by_cases hle : off ≤ q
  · have hsame : q / BSIZE = off / BSIZE := by
      change q / 512 = off / 512
      change off % 512 + n1 ≤ 512 at hfit
      omega
    have hpos : q % BSIZE - off % BSIZE = q - off := by
      rw [hsame] at hdq
      omega
    rw [if_pos hsame, if_pos hle, Mem.get_setSlice, if_pos (by rw [hlen, hbs] at *; omega), hpos]
    simp only [List.getD_eq_getElem?_getD]
    rw [List.getElem?_take, if_pos (by omega)]
  · rw [if_neg hle]
    by_cases hsame : q / BSIZE = off / BSIZE
    · rw [hsame] at hdq
      rw [if_pos hsame, Mem.get_setSlice, if_neg (by omega)]
      have hbyte := ha.bytes q (hold (by omega))
      rw [← hbyte]
      unfold byte
      rw [hsame]
    · rw [if_neg hsame]
      exact ha.bytes q (hold (by omega))

theorem loop_grew {fuel off : Nat} {p : List UInt8} (hp : p.length ≤ fuel) (hs : Sound s)
    (h : Laid s.img s.freeblock off d)
    (ho : Owns volume (during s i d) ∅ ∅) (hi : Live volume (during s i d) i) (hmax : off + p.length ≤ MAXFILE * BSIZE)
    (hroom : s.freeblock + (MkfsLayout.need (off + p.length) - MkfsLayout.need off) ≤ volume.logStart) :
    (iappend.loop fuel off p d s).Ends False fun r t _ => Grew (during s i d) (during t i r.2) i off p d r.2 := by
  obtain ⟨hf, hsz, -, -, hm, hmb, -, -⟩ := MkfsLayout.consts
  obtain ⟨hds, hls, -, -⟩ := volume_consts
  have hbs : BSIZE = 512 := rfl
  induction fuel generalizing off p d s with
  | zero =>
      unfold iappend.loop
      rw [ends_pure]
      exact ⟨ho, .refl _ _ _ _, ⟨d.addrs, rfl⟩, fun q hq => by rw [if_neg (by omega)]⟩
  | succ fuel ih =>
      unfold iappend.loop
      rw [ends_ite]
      refine ⟨fun hpos => ?_, fun hpos => ?_⟩
      · have hblk : off / BSIZE = off / 512 := rfl
        rw [ends_ite]
        refine ⟨fun hfull => by omega, fun _ => ?_⟩
        obtain ⟨n1, hn1⟩ : ∃ n1, n1 = min p.length ((off / BSIZE + 1) * BSIZE - off) := ⟨_, rfl⟩
        have hsize : n1 = min p.length ((off / 512 + 1) * 512 - off) := hn1
        have hlen := List.length_drop (i := n1) (l := p)
        have hmono := MkfsLayout.need_mono (show off + n1 ≤ off + p.length by omega)
        have hmono' := MkfsLayout.need_mono (show off ≤ off + n1 by omega)
        have hblock : (iappend.block d (off / BSIZE) s).Ends
            (size < s.freeblock + (MkfsLayout.need (off + n1) - MkfsLayout.need off)) fun r t e =>
              MkfsLayout.Placed s t d off (off + n1) r e :=
          MkfsLayout.block_ends hs (by omega) h (by omega) (by omega) (by omega)
        rw [ends_bind, ← hn1]
        refine hblock.mono (fun r t e hpl => ?_) fun hfull => by omega
        have hcount := hpl.count
        have htop : t.freeblock ≤ volume.logStart := by omega
        have hat := attached_of_placed hs h ho hi hpl (by omega) (by omega) htop
        have hlive := live_addrs (t := t) hi hat.addrs
        obtain ⟨x, d'⟩ := r
        have hfound : firstFree ≤ x ∧ x < t.freeblock := hpl.found
        have hx : x < size := by omega
        simp only at hat hlive ⊢
        rw [ends_bind, MkfsLayout.ends_rsect]
        refine ⟨fun hfull => by omega, fun _ => ?_⟩
        rw [ends_bind, MkfsLayout.ends_wsect]
        have hap := hpl.fill (by omega) hx ((t.img x).setSlice (off - off / BSIZE * BSIZE) (p.take n1))
        have hdata : (during t i d').data x = t.img x := if_pos hfound.1
        have himage := during_written t hfound.1 i d' ((t.img x).setSlice (off - off / BSIZE * BSIZE) (p.take n1))
        have hslot : slot (during t i d') i (bslot (off / BSIZE)) = x := hat.found
        have howns := owns_setData hat.owns hlive (Set.notMem_empty i) (off / BSIZE)
          ((t.img x).setSlice (off - off / BSIZE * BSIZE) (p.take n1))
        have hframe := frame_setData hat.owns hlive (Set.notMem_empty i) (off / BSIZE)
          ((t.img x).setSlice (off - off / BSIZE * BSIZE) (p.take n1))
        rw [hslot, ← himage] at howns hframe
        have hcount' : (written t x ((t.img x).setSlice (off - off / BSIZE * BSIZE) (p.take n1))).freeblock =
            t.freeblock := rfl
        refine (ih (by omega) hap.sound hap.laid howns (live_addrs hlive ⟨d'.addrs, rfl⟩) (by omega) (by
          rw [hcount', show off + n1 + (p.drop n1).length = off + p.length by omega]
          omega)).mono (fun r u e' hg => ?_) id
        refine ⟨hg.owns, (hat.frame.trans hframe).trans hg.frame, ?_, fun q hq => ?_⟩
        · obtain ⟨f, hf⟩ := hg.addrs
          obtain ⟨g, hg'⟩ := hat.addrs
          exact ⟨f, by rw [hf, hg']⟩
        · have hbyte := hg.bytes q (by omega)
          rw [hbyte]
          by_cases hlate : off + n1 ≤ q
          · rw [if_pos hlate, if_pos (by omega)]
            simp only [List.getD_eq_getElem?_getD, List.getElem?_drop]
            rw [show n1 + (q - (off + n1)) = q - off by omega]
          · rw [if_neg hlate, himage, ← hdata]
            refine byte_fill hat hlive (by omega) (by rw [hbs]; omega) (fun hlt => ?_) ?_ (by omega)
            · refine ((shaped_of_laid h i).blocks _ (by rw [hbs]; omega)).mpr ?_
              unfold blocks
              rw [hbs]
              omega
            · refine ((shaped_of_laid hpl.laid i).blocks _ (by rw [hbs]; omega)).mpr ?_
              unfold blocks
              rw [hbs]
              omega
      · rw [ends_pure]
        exact ⟨ho, .refl _ _ _ _, ⟨d.addrs, rfl⟩, fun q hq => by rw [if_neg (by omega)]⟩

theorem image_withInode (s : Tool) (hi : i < ninodes) (hd : DinodeOk d) : imageOf (withInode s i d) = during s i d := by
  refine image_ext ?_ rfl ?_
  · funext j
    change (if j < ninodes then inodeOf (withInode s i d) j else emptyDinode) = Function.update (imageOf s).ino i d j
    by_cases hji : j = i
    · rw [hji, if_pos hi, Function.update_self]
      exact MkfsLayout.inodeOf_self s i hd
    · rw [Function.update_of_ne hji, MkfsLayout.inodeOf_other s hji]
      rfl
  · funext c
    change (if firstFree ≤ c then Function.update s.img (IBLOCK i) _ c else Mem.zero) = if firstFree ≤
      c then s.img c else Mem.zero
    split
    · rename_i hc
      have hlt := (MkfsLayout.iblock_lt hi).1
      rw [Function.update_of_ne (by omega)]
    · rfl

theorem full_of_has {sz : Nat} (h : Has s i sz) (hi : i < ninodes) : Full (imageOf s) i := by
  have hself : (imageOf s).ino i = inodeOf s i := if_pos hi
  obtain ⟨hsz, hl⟩ := h
  have hsh := shaped_of_laid hl i
  rw [during_inodeOf s hi] at hsh
  have hnb : nblocks sz = blocks sz := rfl
  refine ⟨?_, ?_⟩
  · rw [hself, hsz]
    exact hl.bound
  · rw [hself, hsz, hnb]
    exact hsh

theorem live_imageOf (hi : i < ninodes) : Live volume (imageOf s) i ↔ (inodeOf s i).type ≠ 0 := by
  have hself : (imageOf s).ino i = inodeOf s i := if_pos hi
  unfold Live
  rw [hself]
  exact ⟨fun h => h.2, fun h => ⟨hi, h⟩⟩

/-- File i has got the bytes p after its sz bytes. -/
structure Longer (s t : Tool) (i sz : Nat) (p : List UInt8) : Prop where
  owns : Owns volume (imageOf t) ∅ ∅
  frame : Frame volume ∅ i (imageOf s) (imageOf t)
  type : (inodeOf t i).type = (inodeOf s i).type
  bytes : ∀ q < sz + p.length, byte (imageOf t) i q = if sz ≤ q then p.getD (q - sz) 0 else byte (imageOf s) i q

theorem Longer.trans {sz : Nat} {p q : List UInt8} (h : Longer s t i sz p) (h' : Longer t u i (sz + p.length) q) :
    Longer s u i sz (p ++ q) where
  owns := h'.owns
  frame := h.frame.trans h'.frame
  type := h'.type.trans h.type
  bytes k hk := by
    rw [List.length_append] at hk
    rw [h'.bytes k (by omega)]
    by_cases hlate : sz + p.length ≤ k
    · rw [if_pos hlate, if_pos (by omega)]
      simp only [List.getD_eq_getElem?_getD]
      rw [List.getElem?_append_right (by omega), show k - sz - p.length = k - (sz + p.length) by omega]
    · rw [if_neg hlate, h.bytes k (by omega)]
      by_cases hsz : sz ≤ k
      · rw [if_pos hsz, if_pos hsz]
        simp only [List.getD_eq_getElem?_getD]
        rw [List.getElem?_append_left (by omega)]
      · rw [if_neg hsz, if_neg hsz]

structure Step (s t : Tool) (i sz : Nat) (p : List UInt8) (e : List Mkfs.Event) : Prop where
  wrote : MkfsLayout.Wrote s t i e
  has : Has t i (sz + p.length)
  count : t.freeblock + MkfsLayout.need sz = s.freeblock + MkfsLayout.need (sz + p.length)
  freeinode : t.freeinode = s.freeinode
  longer : Longer s t i sz p

theorem iappend_step {sz : Nat} {p : List UInt8} (hi : i < ninodes) (hs : Sound s) (h : Has s i sz)
    (hl : (inodeOf s i).type ≠ 0)
    (ho : Owns volume (imageOf s) ∅ ∅) (hmax : sz + p.length ≤ MAXFILE * BSIZE)
    (hroom : s.freeblock + (MkfsLayout.need (sz + p.length) - MkfsLayout.need sz) ≤ volume.logStart) :
    (iappend i p s).Ends False fun _ t e => Step s t i sz p e := by
  obtain ⟨-, hls, -, -⟩ := volume_consts
  have hsize : size = 1024 := rfl
  obtain ⟨hsz, hlaid⟩ := h
  have hd := during_inodeOf s hi
  have hlive := (live_imageOf (s := s) hi).mpr hl
  have hgrew : (iappend i p s).Ends False fun _ t _ => Longer s t i sz p := by
    unfold iappend
    rw [ends_bind, MkfsLayout.ends_rinode hi, ends_bind, hsz]
    rw [← hd] at ho hlive
    refine ((loop_grew le_rfl hs hlaid ho hlive hmax hroom).and
      (MkfsLayout.loop_ends le_rfl hs (by omega) hlaid)).mono (fun r t e hr => ?_) id
    obtain ⟨off, d⟩ := r
    obtain ⟨hg, hoff, ha⟩ := hr
    simp only at hg hoff ha ⊢
    subst hoff
    rw [MkfsLayout.ends_winode hi]
    have hok := ha.laid.resize.ok
    have himage :
        imageOf (withInode t i { d with size := sz + p.length }) = (during t i d).setIno i
        { d with size := sz + p.length } := by
      rw [image_withInode t hi hok, setIno_during]
    have haddrs : ({ d with size := sz + p.length } : Dinode).addrs = ((during t i d).ino i).addrs := by rw [ino_during]
    obtain ⟨f, hf⟩ := hg.addrs
    refine ⟨?_, ?_, ?_, fun q hq => ?_⟩
    · rw [himage]
      exact owns_setIno hg.owns hok haddrs (by rw [ino_during])
    · rw [himage, ← hd]
      exact hg.frame.trans (frame_setIno _)
    · rw [MkfsLayout.inodeOf_self t i hok, hf]
    · rw [himage, byte_setIno haddrs, hg.bytes q hq, hd]
  have hall :=
    (hgrew.and (MkfsLayout.iappend_ends p hi hs (by omega) ⟨hsz, hlaid⟩)).and (MkfsLayout.recording_iappend i p s)
  refine hall.mono (fun _ t e hr => ?_) id
  obtain ⟨⟨hlonger, hw, hhas, hcount⟩, hrec⟩ := hr
  exact ⟨hw, hhas, hcount, hrec.freeinode, hlonger⟩

theorem Step.trans {sz : Nat} {p q : List UInt8} (h : Step s t i sz p e) (h' : Step t u i (sz + p.length) q e') :
    Step s u i sz (p ++ q) (e ++ e') where
  wrote := h.wrote.trans h'.wrote
  has := by
    rw [List.length_append, ← Nat.add_assoc]
    exact h'.has
  count := by
    have hs := h.count
    have ht := h'.count
    rw [List.length_append, ← Nat.add_assoc]
    omega
  freeinode := h'.freeinode.trans h.freeinode
  longer := h.longer.trans h'.longer

theorem Step.refl {sz : Nat} (hs : Sound s) (htop : s.freeblock ≤ size) (h : Has s i sz)
    (ho : Owns volume (imageOf s) ∅ ∅) : Step s s i sz [] [] where
  wrote := ⟨hs, htop, fun _ _ _ => rfl, le_rfl, rfl, MkfsLayout.clean_nil⟩
  has := h
  count := rfl
  freeinode := rfl
  longer := ⟨ho, .refl _ _ _ _, rfl, fun q hq => by rw [if_neg (by simpa using hq)]⟩

theorem appendFile_step {sz fuel : Nat} {data : List UInt8} (hfuel : data.length < fuel) (hi : i < ninodes)
    (hs : Sound s) (h : Has s i sz)
    (hl : (inodeOf s i).type ≠ 0) (ho : Owns volume (imageOf s) ∅ ∅) (hmax : sz + data.length ≤ MAXFILE * BSIZE)
    (hroom : s.freeblock + (MkfsLayout.need (sz + data.length) - MkfsLayout.need sz) ≤ volume.logStart) :
    (appendFile i fuel data s).Ends False fun _ t e => Step s t i sz data e := by
  obtain ⟨-, hls, -, -⟩ := volume_consts
  have hsize : size = 1024 := rfl
  induction fuel generalizing sz data s with
  | zero => omega
  | succ fuel ih =>
      unfold appendFile
      rw [ends_ite]
      refine ⟨fun hnil => ?_, fun hnil => ?_⟩
      · rw [ends_pure, hnil]
        exact .refl hs (by omega) h ho
      · have hpos : 0 < data.length := List.length_pos_iff.mpr hnil
        have htake := List.length_take (i := 512) (l := data)
        have hdrop := List.length_drop (i := 512) (l := data)
        have hmono := MkfsLayout.need_mono (show sz + (data.take 512).length ≤ sz + data.length by omega)
        have hmono' := MkfsLayout.need_mono (show sz ≤ sz + (data.take 512).length by omega)
        rw [ends_bind]
        refine (iappend_step hi hs h hl ho (by omega) (by omega)).mono (fun _ t e hst => ?_) id
        have hcount := hst.count
        have hlen : sz + (data.take 512).length + (data.drop 512).length = sz + data.length := by omega
        have hl' : (inodeOf t i).type ≠ 0 := by
          rw [hst.longer.type]
          exact hl
        refine (ih (by omega) hst.wrote.sound hst.has hl' hst.longer.owns (by omega) (by rw [hlen]; omega)).mono
          (fun _ u e' hst' => ?_) id
        have hall := hst.trans hst'
        rw [List.take_append_drop] at hall
        exact hall

def allocated (type : Nat) : Dinode := { emptyDinode with type := type, nlink := 1 }

theorem dinodeOk_allocated {type : Nat} (ht : type < 2 ^ 16) : DinodeOk (allocated type) :=
  ⟨ht, (by decide : 0 < 2 ^ 16), (by decide : 0 < 2 ^ 16), (by decide : 1 < 2 ^ 16), (by decide : 0 < 2 ^ 32),
    fun _ => (by decide : 0 < 2 ^ 32), fun _ _ => rfl⟩

structure Allocated (s t : Tool) (type : Nat) (e : List Mkfs.Event) : Prop where
  wrote : MkfsLayout.Wrote s t s.freeinode e
  has : Has t s.freeinode 0
  freeblock : t.freeblock = s.freeblock
  freeinode : t.freeinode = s.freeinode + 1
  owns : Owns volume (imageOf t) ∅ ∅
  frame : Frame volume ∅ s.freeinode (imageOf s) (imageOf t)
  type : (inodeOf t s.freeinode).type = type

theorem ialloc_step {type : Nat} (ht : type < 2 ^ 16) (hi : s.freeinode < ninodes) (hs : Sound s)
    (htop : s.freeblock ≤ size) (ho : Owns volume (imageOf s) ∅ ∅) (h0 : (inodeOf s s.freeinode).type = 0) :
    (Mkfs.ialloc type s).Ends False fun r t e => r = s.freeinode ∧ Allocated s t type e := by
  have hok := dinodeOk_allocated ht
  have hself : (imageOf s).ino s.freeinode = inodeOf s s.freeinode := if_pos hi
  have himage : (Mkfs.ialloc type s).Ends False fun r t _ =>
      imageOf t = during s s.freeinode (allocated type) ∧ inodeOf t s.freeinode = allocated type := by
    unfold Mkfs.ialloc
    rw [ends_bind, ends_fetch, ends_bind, ends_emit, ends_bind, ends_update, ends_bind,
      MkfsLayout.ends_winode hi, ends_pure]
    exact ⟨image_withInode { s with freeinode := s.freeinode + 1 } hi hok,
      MkfsLayout.inodeOf_self { s with freeinode := s.freeinode + 1 } s.freeinode hok⟩
  refine (himage.and (MkfsLayout.ialloc_ends type ht hi hs htop)).mono (fun r t e hr => ?_) id
  obtain ⟨⟨himg, hino⟩, rfl, hnext, hfb, hw, hhas⟩ := hr
  refine ⟨rfl, hw, hhas, hfb, hnext, ?_, ?_, by rw [hino]; rfl⟩
  · have hborn : Owns volume ((imageOf s).setIno s.freeinode (newborn type)) ∅ ∅ :=
      owns_newborn ho (by rw [hself]; exact h0) ht
    have hset : during s s.freeinode (allocated type) =
        ((imageOf s).setIno s.freeinode (newborn type)).setIno s.freeinode (allocated type) := by
      symm
      exact image_ext (Function.update_idem ..) rfl rfl
    have hino' : ((imageOf s).setIno s.freeinode (newborn type)).ino s.freeinode = newborn type :=
      Function.update_self ..
    rw [himg, hset]
    exact owns_setIno hborn hok (by rw [hino']; rfl) (by rw [hino']; exact Iff.rfl)
  · rw [himg]
    exact frame_setIno _

structure IsFile (A : Image) (i : Nat) (data : List UInt8) : Prop where
  type : (A.ino i).type = T_FILE
  size : (A.ino i).size = data.length
  full : Full A i
  bytes : ∀ q < data.length, byte A i q = data.getD q 0

theorem IsFile.frame {A A' : Image} {data : List UInt8} (h : IsFile A i data) (hf : Frame volume ∅ j A A') (hne : i ≠ j)
    (hi : i < volume.sb.ninodes) : IsFile A' i data := by
  have hlive : Live volume A i := ⟨hi, by rw [h.type]; decide⟩
  have hnot : i ∉ (∅ : Set Nat) := Set.notMem_empty i
  refine ⟨by rw [hf.ino i hne]; exact h.type, by rw [hf.ino i hne]; exact h.size, hf.full hne hlive hnot h.full,
    fun q hq => ?_⟩
  rw [hf.byte_eq hne hlive hnot (block_ne_of_full h.full (by rw [h.size]; exact hq)).2]
  exact h.bytes q hq

def rootEntries (files : List (List UInt8 × List UInt8)) : List Dirent :=
  Namespace.dots ROOTINO ROOTINO ++ files.mapIdx fun j f => ⟨j + 2, strncpy (entryName f.1) DIRSIZ⟩

theorem length_rootEntries (files : List (List UInt8 × List UInt8)) :
    (rootEntries files).length = files.length + 2 := by
  unfold rootEntries Namespace.dots
  rw [List.length_append, List.length_mapIdx]
  exact Nat.add_comm 2 _

theorem rootEntries_concat (files : List (List UInt8 × List UInt8)) (f : List UInt8 × List UInt8) :
    rootEntries (files ++ [f]) = rootEntries files ++ [⟨files.length + 2, strncpy (entryName f.1) DIRSIZ⟩] := by
  unfold rootEntries
  rw [List.mapIdx_concat, List.append_assoc]

def encoded (l : List Dirent) : List UInt8 := l.flatMap encodeDirent

/-- The image while the files done have been added. -/
structure Built (s : Tool) (done : List (List UInt8 × List UInt8)) : Prop where
  sound : Sound s
  owns : Owns volume (imageOf s) ∅ ∅
  next : s.freeinode = done.length + 2
  free : ∀ i < ninodes, s.freeinode ≤ i → (inodeOf s i).type = 0
  root : Has s ROOTINO (DESIZE * (done.length + 2))
  type : (inodeOf s ROOTINO).type = T_DIR
  entries : ∀ q < DESIZE * (done.length + 2), byte (imageOf s) ROOTINO q = (encoded (rootEntries done)).getD q 0
  files : ∀ j f, done[j]? = some f → IsFile (imageOf s) (j + 2) f.2
  super : s.img 1 = superblock

theorem length_encoded {l : List Dirent} (h : ∀ de ∈ l, de.name.length = DIRSIZ) :
    (encoded l).length = DESIZE * l.length := by
  induction l with
  | nil => rfl
  | cons de l ih =>
      unfold encoded at ih ⊢
      rw [List.flatMap_cons, List.length_append, ih fun d hd => h d (List.mem_cons_of_mem _ hd), List.length_cons,
        Nat.mul_succ, Nat.add_comm]
      unfold encodeDirent
      rw [List.length_append, length_leBytes, h de List.mem_cons_self]
      rfl

theorem names_rootEntries (files : List (List UInt8 × List UInt8)) : ∀ de ∈ rootEntries files,
    de.name.length = DIRSIZ := by
  intro de hde
  unfold rootEntries Namespace.dots at hde
  rcases List.mem_append.mp hde with hde | hde
  · rcases List.mem_cons.mp hde with rfl | hde
    · exact Directory.length_strncpy _ _
    · rw [List.mem_singleton.mp hde]
      exact Directory.length_strncpy _ _
  · obtain ⟨j, hj, rfl⟩ := List.mem_mapIdx.mp hde
    exact Directory.length_strncpy _ _

theorem file_step {done : List (List UInt8 × List UInt8)} {data : List UInt8} (arg : List UInt8) (h : Built s done)
    (hn : done.length + 3 ≤ ninodes)
    (hmax : data.length ≤ MAXFILE * BSIZE)
    (hroom : s.freeblock + (MkfsLayout.need (DESIZE * (done.length + 3)) - MkfsLayout.need
      (DESIZE * (done.length + 2))) +
      MkfsLayout.need data.length ≤ volume.logStart) :
    (do
      let inum ← Mkfs.ialloc T_FILE
      iappend ROOTINO (encodeDirent ⟨inum % 2 ^ 16, strncpy (entryName arg) DIRSIZ⟩)
      appendFile inum (data.length + 1) data : MkM Unit) s |>.Ends False fun _ t _ => Built t (done ++ [(arg, data)]) ∧
        t.freeblock + MkfsLayout.need (DESIZE * (done.length + 2)) =
          s.freeblock + MkfsLayout.need (DESIZE * (done.length + 3)) + MkfsLayout.need data.length := by
  obtain ⟨-, hls, hvn, -⟩ := volume_consts
  have hsize : size = 1024 := rfl
  have hnin : ninodes = 200 := rfl
  have hone : ROOTINO = 1 := rfl
  have hde : DESIZE = 16 := rfl
  have hnext := h.next
  have hsum : DESIZE * (done.length + 2) + DESIZE = DESIZE * (done.length + 3) := (Nat.mul_succ _ _).symm
  have hzero : MkfsLayout.need 0 = 0 := rfl
  have hbig : DESIZE * (done.length + 3) ≤ NDIRECT * BSIZE := by
    change 16 * (done.length + 3) ≤ 6144
    omega
  have hdir : NDIRECT * BSIZE ≤ MAXFILE * BSIZE := by decide
  have hmono := MkfsLayout.need_mono (show DESIZE * (done.length + 2) ≤ DESIZE * (done.length + 3) by omega)
  rw [ends_bind]
  refine (ialloc_step (by decide) (by omega) h.sound (by omega) h.owns (h.free _ (by omega) le_rfl)).mono
    (fun inum t e hr => ?_) id
  obtain ⟨rfl, ha⟩ := hr
  have hrootne : ROOTINO ≠ s.freeinode := by omega
  have hroot :=
    h.root.keep (ha.wrote.others _ (by omega) hrootne) ha.wrote.freeblock (MkfsLayout.blocks_root (by omega))
  have htype : (inodeOf t ROOTINO).type = T_DIR := by
    rw [ha.wrote.others _ (by omega) hrootne]
    exact h.type
  have hfb := ha.freeblock
  have hlen := MkfsLayout.length_entry (s.freeinode % 2 ^ 16) (entryName arg)
  rw [ends_bind]
  refine (iappend_step (p := encodeDirent ⟨s.freeinode % 2 ^ 16, strncpy (entryName arg) DIRSIZ⟩)
    (by omega) ha.wrote.sound hroot
    (by rw [htype]; decide) ha.owns (by rw [hlen]; omega) (by rw [hlen, hsum]; omega)).mono (fun _ t₁ e₁ hst => ?_) id
  have hcount := hst.count
  rw [hlen, hsum] at hcount
  have hfile := ha.has.keep (hst.wrote.others _ (by omega) hrootne.symm) hst.wrote.freeblock (by decide)
  have hftype : (inodeOf t₁ s.freeinode).type = T_FILE := by
    rw [hst.wrote.others _ (by omega) hrootne.symm]
    exact ha.type
  refine (appendFile_step (Nat.lt_succ_self _) (by omega) hst.wrote.sound hfile
    (by rw [hftype]; decide) hst.longer.owns (by omega)
    (by rw [Nat.zero_add]; omega)).mono (fun _ t₂ e₂ hst₂ => ?_) id
  have hcount₂ := hst₂.count
  rw [Nat.zero_add] at hcount₂
  have hlast : (inodeOf t₂ s.freeinode).type = T_FILE := by
    rw [hst₂.longer.type]
    exact hftype
  have hhas₂ := hst₂.has
  rw [Nat.zero_add] at hhas₂
  have hself : (imageOf t₂).ino s.freeinode = inodeOf t₂ s.freeinode := if_pos (by omega)
  have hconcat : (done ++ [(arg, data)]).length = done.length + 1 := by
    rw [List.length_append]
    rfl
  have hrootlive : Live volume (imageOf s) ROOTINO := (live_imageOf (by omega)).mpr (by rw [h.type]; decide)
  have hnot : ROOTINO ∉ (∅ : Set Nat) := Set.notMem_empty _
  refine ⟨⟨hst₂.wrote.sound, hst₂.longer.owns, ?_, fun i hi hle => ?_, ?_, ?_, fun q hq => ?_, fun j f hj => ?_,
    ?_⟩, by omega⟩
  · rw [hst₂.freeinode, hst.freeinode, ha.freeinode, hconcat]
    omega
  · have hle' : s.freeinode + 1 ≤ i := by
      rw [hst₂.freeinode, hst.freeinode, ha.freeinode] at hle
      exact hle
    rw [hst₂.wrote.others i hi (by omega), hst.wrote.others i hi (by omega), ha.wrote.others i hi (by omega)]
    exact h.free i hi (by omega)
  · have hkeep := hst.has.keep (hst₂.wrote.others _ (by omega) hrootne) hst₂.wrote.freeblock
      (MkfsLayout.blocks_root (by rw [hlen]; omega))
    rw [hlen, hsum] at hkeep
    rw [hconcat]
    exact hkeep
  · rw [hst₂.wrote.others _ (by omega) hrootne, hst.longer.type]
    exact htype
  · rw [hconcat] at hq
    have hfull := full_of_has hst.has (by omega)
    have hlive₁ : Live volume (imageOf t₁) ROOTINO :=
      (live_imageOf (by omega)).mpr (by rw [hst.longer.type, htype]; decide)
    have hself₁ : (imageOf t₁).ino ROOTINO = inodeOf t₁ ROOTINO := ino_imageOf t₁ (by decide)
    have hmid : byte (imageOf t₂) ROOTINO q = byte (imageOf t₁) ROOTINO q :=
      hst₂.longer.frame.byte_eq hrootne hlive₁ hnot
        (block_ne_of_full hfull (by rw [hself₁, hst.has.1, hlen, hsum]; exact hq)).2
    have hbytes := hst.longer.bytes q (by rw [hlen, hsum]; exact hq)
    have henc := length_encoded (names_rootEntries done)
    rw [length_rootEntries] at henc
    have hde' : (s.freeinode % 2 ^ 16) = done.length + 2 := by omega
    have happend : encoded (rootEntries (done ++ [(arg, data)])) =
        encoded (rootEntries done) ++ encodeDirent ⟨done.length + 2, strncpy (entryName arg) DIRSIZ⟩ := by
      rw [rootEntries_concat]
      unfold encoded
      rw [List.flatMap_append, List.flatMap_singleton]
    rw [hmid, hbytes, happend, hde']
    simp only [List.getD_eq_getElem?_getD]
    by_cases hlate : DESIZE * (done.length + 2) ≤ q
    · rw [if_pos hlate, List.getElem?_append_right (by omega), henc]
    · rw [if_neg hlate, List.getElem?_append_left (by omega)]
      have hself : (imageOf s).ino ROOTINO = inodeOf s ROOTINO := ino_imageOf s (by decide)
      rw [ha.frame.byte_eq hrootne hrootlive hnot
        (block_ne_of_full (full_of_has h.root (by omega)) (by rw [hself, h.root.1]; omega)).2, h.entries q (by omega)]
      exact List.getD_eq_getElem?_getD ..
  · by_cases hj' : j < done.length
    · rw [List.getElem?_append_left hj'] at hj
      have hold := ((h.files j f hj).frame ha.frame (by omega) (by omega)).frame hst.longer.frame (by omega) (by omega)
      exact hold.frame hst₂.longer.frame (by omega) (by omega)
    · rw [List.getElem?_append_right (by omega)] at hj
      obtain ⟨hj0, hj⟩ := List.getElem?_eq_some_iff.mp hj
      rw [List.length_singleton] at hj0
      have hji : j + 2 = s.freeinode := by omega
      rw [List.getElem_singleton] at hj
      rw [← hj]
      rw [hji]
      refine ⟨by rw [hself]; exact hlast, by rw [hself]; exact hhas₂.1, full_of_has hhas₂ (by omega), fun q hq => ?_⟩
      have hbytes := hst₂.longer.bytes q (by rw [Nat.zero_add]; exact hq)
      rw [hbytes, if_pos (Nat.zero_le _), Nat.sub_zero]
  · rw [hst₂.wrote.super, hst.wrote.super, ha.wrote.super]
    exact h.super

theorem addFiles_built {done files : List (List UInt8 × List UInt8)} (h : Built s done)
    (hn : done.length + files.length + 2 ≤ ninodes)
    (hmax : ∀ f ∈ files, f.2.length ≤ MAXFILE * BSIZE)
    (hroom : s.freeblock + (MkfsLayout.need (DESIZE * (done.length + files.length + 2)) - MkfsLayout.need
      (DESIZE * (done.length + 2))) +
      MkfsLayout.contents files ≤ volume.logStart) :
    (addFiles ROOTINO files s).Ends False fun _ t _ => Built t (done ++ files) ∧ t.freeblock ≤ volume.logStart := by
  induction files generalizing done s with
  | nil =>
      unfold addFiles
      rw [ends_pure, List.append_nil]
      exact ⟨h, by omega⟩
  | cons file rest ih =>
      obtain ⟨arg, data⟩ := file
      rw [List.length_cons] at hn hroom
      have hcontents :
          MkfsLayout.contents ((arg, data) :: rest) = MkfsLayout.need data.length + MkfsLayout.contents rest :=
          List.sum_cons
      have hlen : done.length + (rest.length + 1) + 2 = done.length + 1 + rest.length + 2 := by omega
      have hconcat : (done ++ [(arg, data)]).length = done.length + 1 := by
        rw [List.length_append]
        rfl
      have hmono :=
        MkfsLayout.need_mono
        (show DESIZE * (done.length + 2) ≤ DESIZE * (done.length + 3) from Nat.mul_le_mul_left _ (by omega))
      have hmono' :=
        MkfsLayout.need_mono (show DESIZE * (done.length + 3) ≤ DESIZE * (done.length + 1 + rest.length + 2) from
        Nat.mul_le_mul_left _ (by omega))
      rw [hlen] at hroom
      have hstep := file_step arg h (by omega) (hmax _ List.mem_cons_self) (by simp only; omega)
      unfold addFiles
      simp only [ends_bind] at hstep ⊢
      refine hstep.mono (fun inum t e hstep =>
        hstep.mono (fun _ t₁ e₁ hstep => hstep.mono (fun _ t₂ e₂ hb => ?_) id) id) id
      obtain ⟨hb, hcount⟩ := hb
      have hthree : done.length + 1 + 2 = done.length + 3 := rfl
      refine (ih hb (by omega) (fun f hf => hmax f (List.mem_cons_of_mem _ hf)) (by rw [hconcat, hthree]; omega)).mono
        (fun _ t₃ e₃ hr => ?_) id
      rw [List.append_assoc] at hr
      exact hr

theorem img_written_self (s : Tool) (x : Nat) (b : Block) : (written s x b).img x = b := Function.update_self ..

theorem img_written_of_ne (s : Tool) {c : Nat} (hc : c ≠ x) (b : Block) : (written s x b).img c = s.img c :=
  Function.update_of_ne hc _ _

theorem ino_setIno (A : Image) (i : Nat) (d : Dinode) : (A.setIno i d).ino i = d := Function.update_self ..

theorem bit_bitmap {m : Nat} (hm : m < BPB) (n : Nat) : (Mkfs.bitmap n).bit m = decide (m < n) := by
  induction n with
  | zero => exact Mem.bit_zero m
  | succ n ih =>
      have hsucc : Mkfs.bitmap (n + 1) = (Mkfs.bitmap n).setBit n := by
        unfold Mkfs.bitmap
        rw [List.range_succ, List.foldl_append]
        rfl
      rw [hsucc, BlockAlloc.bit_setBit_block _ _ _ hm, ih]
      split
      · exact (decide_eq_true (by omega)).symm
      · exact decide_eq_decide.mpr (by omega)

theorem decode_superblock : decodeSb superblock = volume.sb := by decide

/-- The image that mkfs leaves. -/
structure Finished (t : Tool) (files : List (List UInt8 × List UInt8)) : Prop where
  disk : DiskRep volume (imageOf t) ∅ t.img
  owns : Owns volume (imageOf t) ∅ ∅
  type : ((imageOf t).ino ROOTINO).type = T_DIR
  size : DESIZE * (files.length + 2) ≤ ((imageOf t).ino ROOTINO).size ∧ ((imageOf t).ino ROOTINO).size ≤ NDIRECT * BSIZE
  there : ∀ q < DESIZE * (files.length + 2), slot (imageOf t) ROOTINO (bslot (q / BSIZE)) ≠ 0
  entries : ∀ q < DESIZE * (files.length + 2), byte (imageOf t) ROOTINO q = (encoded (rootEntries files)).getD q 0
  files : ∀ j f, files[j]? = some f → IsFile (imageOf t) (j + 2) f.2

theorem imageOf_bitmap (s : Tool) (b : Block) : imageOf (written s 28 b) = imageOf s := by
  refine image_ext ?_ rfl ?_
  · funext j
    unfold imageOf
    dsimp only
    split
    · rename_i hj
      have hne : IBLOCK j ≠ 28 := by
        have hj' : j < 200 := hj
        change j / 8 + 2 ≠ 28
        omega
      unfold inodeOf
      rw [img_written_of_ne s hne]
    · rfl
  · funext c
    change (if firstFree ≤ c then Function.update s.img 28 b c else Mem.zero) = if firstFree ≤
      c then s.img c else Mem.zero
    split
    · rename_i hc
      have hc' : 29 ≤ c := hc
      rw [Function.update_of_ne (by omega)]
    · rfl

theorem diskRep_bitmap (hsb : s.img 1 = superblock) :
    DiskRep volume (imageOf s) ∅ (written s 28 (Mkfs.bitmap s.freeblock)).img where
  sb := by
    have hother : (written s 28 (Mkfs.bitmap s.freeblock)).img 1 = s.img 1 := img_written_of_ne s (by decide) _
    rw [hother, hsb]
    exact decode_superblock
  ino i hi _ := by
    rw [← imageOf_bitmap s (Mkfs.bitmap s.freeblock)]
    exact (ino_imageOf _ hi).symm
  used b hb := by
    have hb' : b < 1024 := hb
    have hblock : BBLOCK b volume.sb.ninodes = 28 := by
      change b / 4096 + 25 + 3 = 28
      omega
    have hbit : b % BPB = b := Nat.mod_eq_of_lt (by change b < 4096; omega)
    rw [hblock, hbit, img_written_self, bit_bitmap (by change b < 4096; omega)]
    rfl
  data b hlo _ := by
    have hlo' : 29 ≤ b := hlo
    have hself : (imageOf s).data b = s.img b := if_pos hlo
    rw [hself, img_written_of_ne s (by omega)]

theorem finished_of_built {files : List (List UInt8 × List UInt8)} (h : Built s files) (hn : files.length + 2 ≤ ninodes)
    (d : Dinode)
    (hd : d = { inodeOf s ROOTINO with size := ((inodeOf s ROOTINO).size / BSIZE + 1) * BSIZE }) :
    Finished (written (withInode s ROOTINO d) 28 (Mkfs.bitmap s.freeblock)) files := by
  have hnin : ninodes = 200 := rfl
  have hroot : ROOTINO < ninodes := by decide
  obtain ⟨hsz, hlaid⟩ := h.root
  have hde : DESIZE * (files.length + 2) = 16 * (files.length + 2) := rfl
  have hself := ino_imageOf s hroot
  have hsize : d.size = (DESIZE * (files.length + 2) / 512 + 1) * 512 := by
    rw [hd, ← hsz]
    rfl
  have haddrs : d.addrs = ((imageOf s).ino ROOTINO).addrs := by rw [hself, hd]
  have htype : d.type = ((imageOf s).ino ROOTINO).type := by rw [hself, hd]
  have hok : DinodeOk d := by
    have hk := hlaid.ok
    rw [hd]
    refine ⟨hk.type, hk.major, hk.minor, hk.nlink, ?_, hk.addrs, hk.none⟩
    change ((inodeOf s ROOTINO).size / 512 + 1) * 512 < 2 ^ 32
    omega
  have himage : imageOf (written (withInode s ROOTINO d) 28 (Mkfs.bitmap s.freeblock)) =
      (imageOf s).setIno ROOTINO d := by
    rw [imageOf_bitmap, image_withInode s hroot hok]
    rfl
  have hino := ino_setIno (imageOf s) ROOTINO d
  have hfull := full_of_has h.root hroot
  have hthere : ∀ q < DESIZE * (files.length + 2), slot (imageOf s) ROOTINO (bslot (q / BSIZE)) ≠ 0 := fun q hq =>
    (block_ne_of_full hfull (by rw [hself, hsz]; exact hq)).2
  have hdisk := diskRep_bitmap (s := withInode s ROOTINO d) (by rw [MkfsLayout.super_withInode]; exact h.super)
  refine ⟨?_, ?_, ?_, ?_, ?_, ?_, ?_⟩
  · rw [imageOf_bitmap]
    exact hdisk
  · rw [himage]
    exact owns_setIno h.owns hok haddrs (by rw [htype])
  · rw [himage, hino, htype, hself]
    exact h.type
  · rw [himage, hino, hsize, hde]
    change _ ∧ _ ≤ 6144
    omega
  · intro q hq
    rw [himage, slot_setIno haddrs]
    exact hthere q hq
  · intro q hq
    rw [himage, byte_setIno haddrs]
    exact h.entries q hq
  · intro j f hj
    have hlt := (List.getElem?_eq_some_iff.mp hj).1
    rw [himage]
    refine (h.files j f hj).frame (frame_setIno _) ?_ ?_
    · change j + 2 ≠ 1
      omega
    · change j + 2 < 200
      omega

theorem main_finished {files : List (List UInt8 × List UInt8)} (hn : files.length + 2 ≤ ninodes)
    (hmax : ∀ f ∈ files, f.2.length ≤ MAXFILE * BSIZE) (hfit : MkfsLayout.total files ≤ Mkfs.nblocks) :
    (main files start).Ends False fun _ t _ => Finished t files := by
  obtain ⟨-, hls, -, -⟩ := volume_consts
  have hsizes : size = 1024 ∧ firstFree = 29 ∧ Mkfs.nblocks = 985 ∧ ninodes = 200 := by decide
  have hde : DESIZE = 16 := rfl
  have hone : ROOTINO = 1 := rfl
  have hneed : MkfsLayout.need 0 = 0 ∧ MkfsLayout.need DESIZE = 1 ∧ MkfsLayout.need (DESIZE + DESIZE) = 1 := by decide
  have htotal : MkfsLayout.need (DESIZE * (files.length + 2)) + MkfsLayout.contents files = MkfsLayout.total files :=
    rfl
  have htwo : DESIZE * 2 = DESIZE + DESIZE := rfl
  have hmono := MkfsLayout.need_mono (show DESIZE + DESIZE ≤ DESIZE * (files.length + 2) by rw [hde]; omega)
  have hblank : ∀ i < ninodes, inodeOf start i = dinodeAt Mem.zero (i % IPB) := by
    intro i hi
    have hne : IBLOCK i ≠ 1 := Nat.ne_of_gt (Nat.le_add_left 2 (i / IPB))
    unfold inodeOf
    exact congrArg (fun b => dinodeAt b (i % IPB)) (Function.update_of_ne hne superblock fun _ => Mem.zero)
  have hfree : ∀ i < ninodes, (inodeOf start i).type = 0 := by
    intro i hi
    rw [hblank i hi]
    unfold dinodeAt
    rw [Mem.slice_zero]
    rfl
  have howns : Owns volume (imageOf start) ∅ ∅ := by
    have hdead : ∀ i, ¬Live volume (imageOf start) i := by
      intro i hl
      have hi : i < ninodes := hl.1
      refine hl.2 ?_
      rw [ino_imageOf start hi]
      exact hfree i hi
    refine ⟨fun i hi => ?_, fun i k hl => absurd hl (hdead i), fun i j k l hl => absurd hl (hdead i), fun b hb =>
      absurd hb (Set.notMem_empty b),
      fun b hb => ?_⟩
    · rw [ino_imageOf start hi]
      exact dinodeAt_ok _ _
    · have hused : (imageOf start).used b = true ↔ b < firstFree := decide_eq_true_iff
      rw [hused]
      refine ⟨fun hlt => .inl hlt, fun hb' => ?_⟩
      rcases hb' with hlt | hx | ⟨i, k, hl, -⟩
      · exact hlt
      · exact absurd hx (Set.notMem_empty b)
      · exact absurd hl (hdead i)
  unfold main
  rw [ends_bind]
  refine (ialloc_step (by decide) (by decide) MkfsLayout.sound_start (by decide) howns (hfree _ (by decide))).mono
    (fun r t e hr => ?_) id
  obtain ⟨rfl, ha⟩ := hr
  have hstart : start.freeinode = ROOTINO := rfl
  have hfb : t.freeblock = 29 := ha.freeblock
  have hw : MkfsLayout.Wrote start t ROOTINO e := ha.wrote
  have hhas₀ : Has t ROOTINO 0 := ha.has
  have htype : (inodeOf t ROOTINO).type = T_DIR := ha.type
  have hnext : t.freeinode = 2 := ha.freeinode
  rw [hstart]
  rw [ends_ite]
  refine ⟨fun hne => absurd rfl hne, fun _ => ?_⟩
  have hent := fun name => MkfsLayout.length_entry (ROOTINO % 2 ^ 16) name
  rw [ends_bind]
  refine (iappend_step (p := encodeDirent ⟨ROOTINO % 2 ^ 16, strncpy [46] DIRSIZ⟩) (by decide) hw.sound hhas₀
    (by rw [htype]; decide)
    ha.owns (by rw [hent]; decide) (by rw [hent, Nat.zero_add]; omega)).mono (fun _ t₁ e₁ hst => ?_) id
  have hcount := hst.count
  rw [hent, Nat.zero_add] at hcount
  have hhas := hst.has
  rw [hent, Nat.zero_add] at hhas
  rw [ends_bind]
  refine (iappend_step (p := encodeDirent ⟨ROOTINO % 2 ^ 16, strncpy [46, 46] DIRSIZ⟩) (by decide) hst.wrote.sound hhas
    (by rw [hst.longer.type, htype]; decide) hst.longer.owns (by rw [hent]; decide) (by rw [hent]; omega)).mono
      (fun _ t₂ e₂ hst₂ => ?_) id
  have hcount₂ := hst₂.count
  rw [hent] at hcount₂
  have hhas₂ := hst₂.has
  rw [hent] at hhas₂
  have hbuilt : Built t₂ [] := by
    refine ⟨hst₂.wrote.sound, hst₂.longer.owns, ?_, fun i hi hle => ?_, hhas₂, ?_, fun q hq => ?_, fun j f hj => ?_, ?_⟩
    · rw [hst₂.freeinode, hst.freeinode, hnext]
      rfl
    · have hle' : 2 ≤ i := by
        rw [hst₂.freeinode, hst.freeinode, hnext] at hle
        exact hle
      rw [hst₂.wrote.others i hi (by omega), hst.wrote.others i hi (by omega), hw.others i hi (by omega)]
      exact hfree i hi
    · rw [hst₂.longer.type, hst.longer.type]
      exact htype
    · have hboth := hst.longer.trans (u := t₂) (q := encodeDirent ⟨ROOTINO % 2 ^ 16, strncpy [46, 46] DIRSIZ⟩) (by
        rw [hent, Nat.zero_add]
        exact hst₂.longer)
      rw [hboth.bytes q (by rw [List.length_append, hent, hent]; exact hq), if_pos (Nat.zero_le q)]
      rfl
    · rw [List.getElem?_nil] at hj
      cases hj
    · rw [hst₂.wrote.super, hst.wrote.super, hw.super]
      rfl
  rw [ends_bind]
  refine (addFiles_built hbuilt (by simp only [List.length_nil]; omega) hmax (by
    simp only [List.length_nil, Nat.zero_add, htwo]
    omega)).mono (fun _ t₃ e₃ hr => ?_) id
  obtain ⟨hb, htop⟩ := hr
  rw [List.nil_append] at hb
  have hused := hb.sound.used
  rw [ends_bind, MkfsLayout.ends_rinode (by decide), ends_bind, MkfsLayout.ends_winode (by decide),
    ends_bind, ends_fetch]
  unfold Mkfs.balloc
  rw [ends_ite]
  refine ⟨fun hbad => ?_, fun _ => ?_⟩
  · change 512 * 8 ≤ t₃.usedblocks at hbad
    omega
  · rw [MkfsLayout.ends_wsect]
    have hfin := finished_of_built hb hn _ rfl
    rw [← hused] at hfin
    exact hfin

end ArmXv6.MkfsImage
