import ArmXv6.MkfsReads
import ArmXv6.Mounted

namespace ArmXv6.MkfsTree

open Lib.Exec Lib.Bytes Param Blocks Fs Content DiskImage Ownership Mkfs MkfsImage
open FileData (byte Frame owns_setData frame_setData byte_setData byte_setIno slot_setIno)
open Mounted (Mountable mount)
open MkfsLayout (Sound Laid Has Placed Change inodeOf written taken withInode blocks place)

variable {s t u : Tool} {e e' : List Mkfs.Event} {i x : Nat} {d d' : Dinode} {files : List (List UInt8 × List UInt8)}

/-- The last block of the file is filled up with zeros. -/
def Padded (A : Image) (i off : Nat) : Prop := ∀ q, off ≤ q → q < blocks off * BSIZE → byte A i q = 0

/-- A new block is empty, unless it is the indirect one. -/
theorem new_zero {n : Nat} {r : Nat × Dinode} (hs : Sound s) (h : Change s n d t r)
    (hne : NDIRECT < n → r.1 ≠ d.addrs NDIRECT) : t.img r.1 = Mem.zero := by
  cases h with
  | direct => exact hs.fresh _ le_rfl
  | entry hn => exact (Function.update_of_ne (hne hn) _ _).trans (hs.fresh _ le_rfl)
  | single => exact (Function.update_of_ne (Nat.succ_ne_self _) _ _).trans (hs.fresh _ (Nat.le_succ _))

theorem byte_rest {A A' : Image} {off n1 q : Nat} {p : List UInt8} (ha : Attached A A' i (off / BSIZE) x d d')
    (hi : Live volume A' i)
    (hn : n1 ≤ p.length) (hold : byte A' i q = 0) (hnew : slot A' i (bslot (q / BSIZE)) ≠ 0) (hlo : off + n1 ≤ q)
    (hhi : q / BSIZE = off / BSIZE) :
    byte (A'.setData x ((A'.data x).setSlice (off - off / BSIZE * BSIZE) (p.take n1))) i q = 0 := by
  have hdo := Nat.div_add_mod off BSIZE
  have hdq := Nat.div_add_mod q BSIZE
  have hlen : (p.take n1).length = n1 := by
    rw [List.length_take]
    omega
  have hoff : off - off / BSIZE * BSIZE = off % BSIZE := by
    rw [Nat.mul_comm]
    omega
  have hx := ha.found
  rw [hhi] at hdq
  rw [hoff, ← hx, byte_setData ha.owns hi (Set.notMem_empty i) _ _ hnew, if_pos hhi, Mem.get_setSlice,
    if_neg (by rw [hlen]; omega), ← hold]
  unfold byte
  rw [hhi]

theorem loop_padded {fuel off : Nat} {p : List UInt8} (hp : p.length ≤ fuel) (hs : Sound s)
    (h : Laid s.img s.freeblock off d)
    (ho : Owns volume (during s i d) ∅ ∅) (hi : Live volume (during s i d) i) (hmax : off + p.length ≤ MAXFILE * BSIZE)
    (hroom : s.freeblock + (MkfsLayout.need (off + p.length) - MkfsLayout.need off) ≤ volume.logStart)
    (hpad : Padded (during s i d) i off) :
    (iappend.loop fuel off p d s).Ends False fun r t _ => Padded (during t i r.2) i (off + p.length) := by
  obtain ⟨hf, hsz, hnd, -, hm, hmb, -, -⟩ := MkfsLayout.consts
  obtain ⟨hds, hls, -, -⟩ := volume_consts
  have hbs : BSIZE = 512 := rfl
  induction fuel generalizing off p d s with
  | zero =>
      have hnil : p.length = 0 := by omega
      unfold iappend.loop
      rw [ends_pure, hnil]
      exact hpad
  | succ fuel ih =>
      unfold iappend.loop
      rw [ends_ite]
      refine ⟨fun hpos => ?_, fun hpos => ?_⟩
      · have hblk : off / BSIZE = off / 512 := rfl
        rw [ends_ite]
        refine ⟨fun hfull => by omega, fun _ => ?_⟩
        obtain ⟨n1, hn1⟩ : ∃ n1, n1 = min p.length ((off / BSIZE + 1) * BSIZE - off) := ⟨_, rfl⟩
        have hsize : n1 = min p.length ((off / 512 + 1) * 512 - off) := hn1
        have hlen := List.length_drop (i := n1) (l := p)
        have hmono := MkfsLayout.need_mono (show off + n1 ≤ off + p.length by omega)
        have hmono' := MkfsLayout.need_mono (show off ≤ off + n1 by omega)
        have hblock : (iappend.block d (off / BSIZE) s).Ends
            (size < s.freeblock + (MkfsLayout.need (off + n1) - MkfsLayout.need off)) fun r t e =>
              Placed s t d off (off + n1) r e :=
          MkfsLayout.block_ends hs (by omega) h (by omega) (by omega) (by omega)
        rw [ends_bind, ← hn1]
        refine hblock.mono (fun r t e hpl => ?_) fun hfull => by omega
        have hcount := hpl.count
        have htop : t.freeblock ≤ volume.logStart := by omega
        have hat := attached_of_placed hs h ho hi hpl (by omega) (by omega) htop
        have hlive := live_addrs (t := t) hi hat.addrs
        have hnb : blocks (off + n1) = off / 512 + 1 := MkfsLayout.blocks_at (by omega) (by omega)
        -- a block that was there has zeros from off on, a new one everywhere
        have hzero : ∀ q, off ≤ q → q / BSIZE = off / BSIZE → byte (during t i r.2) i q = 0 := by
          intro q hle hq
          have hq' : q / 512 = off / 512 := hq
          rcases hpl.change with ⟨hb, -, -⟩ | ⟨hb, hch⟩
          · rw [hat.bytes q ?_]
            · exact hpad q hle (by rw [hbs]; omega)
            · rw [hq]
              exact ((shaped_of_laid h i).blocks _ (by omega)).mpr (by omega)
          · have hnew : t.img r.1 = Mem.zero := new_zero hs hch fun hn he => by
              have hap := hpl.apart (by omega)
              obtain ⟨-, hhi⟩ := h.single.range (by omega)
              have hlow : s.freeblock ≤ r.1 := by cases hch <;> simp
              omega
            have hdata : (during t i r.2).data r.1 = t.img r.1 := if_pos hpl.found.1
            unfold byte
            rw [hq, hat.found, hdata, hnew]
            exact Mem.get_zero _
        obtain ⟨x, d'⟩ := r
        have hfound : firstFree ≤ x ∧ x < t.freeblock := hpl.found
        have hx : x < size := by omega
        simp only at hat hlive hzero ⊢
        rw [ends_bind, MkfsLayout.ends_rsect]
        refine ⟨fun hfull => by omega, fun _ => ?_⟩
        rw [ends_bind, MkfsLayout.ends_wsect]
        have hap := hpl.fill (by omega) hx ((t.img x).setSlice (off - off / BSIZE * BSIZE) (p.take n1))
        have hdata : (during t i d').data x = t.img x := if_pos hfound.1
        have himage := during_written t hfound.1 i d' ((t.img x).setSlice (off - off / BSIZE * BSIZE) (p.take n1))
        have hslot : slot (during t i d') i (bslot (off / BSIZE)) = x := hat.found
        have howns := owns_setData hat.owns hlive (Set.notMem_empty i) (off / BSIZE)
          ((t.img x).setSlice (off - off / BSIZE * BSIZE) (p.take n1))
        rw [hslot, ← himage] at howns
        have hcount' : (written t x ((t.img x).setSlice (off - off / BSIZE * BSIZE) (p.take n1))).freeblock =
            t.freeblock := rfl
        have hsum : off + n1 + (p.drop n1).length = off + p.length := by omega
        have hpad' : Padded (during (written t x ((t.img x).setSlice (off - off / BSIZE * BSIZE) (p.take n1))) i d') i
            (off + n1) := by
          intro q hlo hhi
          rw [hnb] at hhi
          have hq : q / BSIZE = off / BSIZE := by
            rw [hbs] at *
            omega
          rw [himage, ← hdata]
          refine byte_rest hat hlive (by omega) (hzero q (by omega) hq) ?_ hlo hq
          rw [hq, hslot]
          omega
        have hrest := ih (p := p.drop n1) (by omega) hap.sound hap.laid howns (live_addrs hlive ⟨d'.addrs, rfl⟩)
          (by omega) (by
          rw [hcount', hsum]
          omega) hpad'
        rw [hsum] at hrest
        exact hrest
      · have hnil : p.length = 0 := by omega
        rw [ends_pure, hnil]
        exact hpad

theorem iappend_padded {sz : Nat} {p : List UInt8} (hi : i < ninodes) (hs : Sound s) (h : Has s i sz)
    (hl : (inodeOf s i).type ≠ 0)
    (ho : Owns volume (imageOf s) ∅ ∅) (hmax : sz + p.length ≤ MAXFILE * BSIZE)
    (hroom : s.freeblock + (MkfsLayout.need (sz + p.length) - MkfsLayout.need sz) ≤ volume.logStart) :
    (iappend i p s).Ends False fun _ t _ => (inodeOf t i).nlink = (inodeOf s i).nlink ∧
      (Padded (imageOf s) i sz → Padded (imageOf t) i (sz + p.length)) := by
  obtain ⟨-, hls, -, -⟩ := volume_consts
  have hsize : size = 1024 := rfl
  obtain ⟨hsz, hlaid⟩ := h
  have hd := during_inodeOf s hi
  have hlive := (live_imageOf (s := s) hi).mpr hl
  unfold iappend
  rw [ends_bind, MkfsLayout.ends_rinode hi, ends_bind, hsz]
  rw [← hd] at ho hlive
  have hgrew := (loop_grew le_rfl hs hlaid ho hlive hmax hroom).and (MkfsLayout.loop_ends le_rfl hs (by omega) hlaid)
  have hpadded : (iappend.loop p.length sz p (inodeOf s i) s).Ends False fun r t _ =>
      Padded (imageOf s) i sz → Padded (during t i r.2) i (sz + p.length) := by
    by_cases hpad : Padded (imageOf s) i sz
    · rw [← hd] at hpad
      exact (loop_padded le_rfl hs hlaid ho hlive hmax hroom hpad).mono (fun _ _ _ hr _ => hr) id
    · exact (loop_grew le_rfl hs hlaid ho hlive hmax hroom).mono (fun _ _ _ _ hr => absurd hr hpad) id
  refine (hgrew.and hpadded).mono (fun r t e hr => ?_) id
  obtain ⟨off, d⟩ := r
  obtain ⟨⟨hg, hoff, ha⟩, hpad⟩ := hr
  simp only at hg hoff ha hpad ⊢
  subst hoff
  rw [MkfsLayout.ends_winode hi]
  have hok := ha.laid.resize.ok
  have himage :
      imageOf (withInode t i { d with size := sz + p.length }) = (during t i d).setIno i
      { d with size := sz + p.length } := by
    rw [image_withInode t hi hok, setIno_during]
  have haddrs : ({ d with size := sz + p.length } : Dinode).addrs = ((during t i d).ino i).addrs := by rw [ino_during]
  obtain ⟨f, hf⟩ := hg.addrs
  refine ⟨?_, fun hp q hlo hhi => ?_⟩
  · rw [MkfsLayout.inodeOf_self t i hok, hf]
  · rw [himage, byte_setIno haddrs]
    exact hpad hp q hlo hhi

theorem appendFile_nlink {sz fuel : Nat} {data : List UInt8} (hfuel : data.length < fuel) (hi : i < ninodes)
    (hs : Sound s) (h : Has s i sz)
    (hl : (inodeOf s i).type ≠ 0) (ho : Owns volume (imageOf s) ∅ ∅) (hmax : sz + data.length ≤ MAXFILE * BSIZE)
    (hroom : s.freeblock + (MkfsLayout.need (sz + data.length) - MkfsLayout.need sz) ≤ volume.logStart) :
    (appendFile i fuel data s).Ends False fun _ t _ => (inodeOf t i).nlink = (inodeOf s i).nlink := by
  induction fuel generalizing sz data s with
  | zero => omega
  | succ fuel ih =>
      unfold appendFile
      rw [ends_ite]
      refine ⟨fun _ => by rw [ends_pure], fun hnil => ?_⟩
      have hpos : 0 < data.length := List.length_pos_iff.mpr hnil
      have htake := List.length_take (i := 512) (l := data)
      have hdrop := List.length_drop (i := 512) (l := data)
      have hmono := MkfsLayout.need_mono (show sz + (data.take 512).length ≤ sz + data.length by omega)
      have hmono' := MkfsLayout.need_mono (show sz ≤ sz + (data.take 512).length by omega)
      rw [ends_bind]
      refine ((iappend_step hi hs h hl ho (by omega) (by omega)).and
        (iappend_padded hi hs h hl ho (by omega) (by omega))).mono (fun _ t e hst => ?_) id
      obtain ⟨hst, hn, -⟩ := hst
      have hcount := hst.count
      have hlen : sz + (data.take 512).length + (data.drop 512).length = sz + data.length := by omega
      refine (ih (by omega) hst.wrote.sound hst.has (by rw [hst.longer.type]; exact hl) hst.longer.owns (by omega)
        (by rw [hlen]; omega)).mono (fun _ u e' hu => ?_) id
      exact hu.trans hn

/-- What mkfs builds is a tree: no inode is in use without a link, and after the entries of the root come zeros. -/
structure Tree (s : Tool) (n : Nat) : Prop where
  linked : ∀ i < ninodes, (inodeOf s i).type ≠ 0 → (inodeOf s i).nlink ≠ 0
  zero : (inodeOf s 0).type = 0
  padded : Padded (imageOf s) ROOTINO (DESIZE * (n + 2))

theorem linked_step {s t : Tool} (hi : i < ninodes) (h : ∀ j < ninodes, (inodeOf s j).type ≠ 0 →
    (inodeOf s j).nlink ≠ 0)
    (hl : (inodeOf s i).type ≠ 0) (hw : ∀ j < ninodes, j ≠ i → inodeOf t j = inodeOf s j)
    (hn : (inodeOf t i).nlink = (inodeOf s i).nlink) : ∀ j < ninodes, (inodeOf t j).type ≠ 0 →
      (inodeOf t j).nlink ≠ 0 := by
  intro j hj ht
  by_cases hji : j = i
  · rw [hji, hn]
    exact h i hi hl
  · rw [hw j hj hji] at ht ⊢
    exact h j hj ht

theorem ialloc_nlink {type : Nat} (ht : type < 2 ^ 16) (hi : s.freeinode < ninodes) :
    (Mkfs.ialloc type s).Ends False fun r t _ => (inodeOf t r).nlink = 1 := by
  unfold Mkfs.ialloc
  rw [ends_bind, ends_fetch, ends_bind, ends_emit, ends_bind, ends_update, ends_bind,
    MkfsLayout.ends_winode hi, ends_pure]
  exact congrArg Dinode.nlink
    (MkfsLayout.inodeOf_self { s with freeinode := s.freeinode + 1 } s.freeinode (dinodeOk_allocated ht))

theorem padded_frame {n : Nat} (hroot : Has s ROOTINO (DESIZE * (n + 2))) (htype : (inodeOf s ROOTINO).type ≠ 0)
    (hf : Frame volume ∅ i (imageOf s) (imageOf t)) (hne : ROOTINO ≠ i)
      (h : Padded (imageOf s) ROOTINO (DESIZE * (n + 2))) :
    Padded (imageOf t) ROOTINO (DESIZE * (n + 2)) := by
  have hfull := full_of_has hroot (by decide)
  have hself := ino_imageOf s (by decide : ROOTINO < ninodes)
  have hlive : Live volume (imageOf s) ROOTINO := (live_imageOf (by decide)).mpr htype
  have hbound := hroot.2.bound
  have hmb : MAXFILE * BSIZE = 71680 := rfl
  have hm : MAXFILE = 140 := rfl
  intro q hlo hhi
  have hhi' : q < blocks (DESIZE * (n + 2)) * 512 := hhi
  have hblock : q / BSIZE < nblocks ((imageOf s).ino ROOTINO).size := by
    rw [hself, hroot.1]
    change q / 512 < blocks _
    omega
  have hmax : q / BSIZE < MAXFILE := by
    have hb : blocks (DESIZE * (n + 2)) ≤ 140 := by
      unfold blocks
      omega
    change q / 512 < 140
    omega
  rw [hf.byte_eq hne hlive (Set.notMem_empty _) ((hfull.shape.blocks _ hmax).mpr hblock)]
  exact h q hlo hhi

theorem file_tree {done : List (List UInt8 × List UInt8)} {data : List UInt8} (arg : List UInt8) (h : Built s done)
    (ht : Tree s done.length)
    (hn : done.length + 3 ≤ ninodes) (hmax : data.length ≤ MAXFILE * BSIZE)
    (hroom : s.freeblock + (MkfsLayout.need (DESIZE * (done.length + 3)) - MkfsLayout.need
      (DESIZE * (done.length + 2))) +
      MkfsLayout.need data.length ≤ volume.logStart) :
    (do
      let inum ← Mkfs.ialloc T_FILE
      iappend ROOTINO (encodeDirent ⟨inum % 2 ^ 16, strncpy (entryName arg) DIRSIZ⟩)
      appendFile inum (data.length + 1) data : MkM Unit) s |>.Ends False fun _ t _ => Tree t (done.length + 1) := by
  obtain ⟨-, hls, hvn, -⟩ := volume_consts
  have hsize : size = 1024 := rfl
  have hnin : ninodes = 200 := rfl
  have hone : ROOTINO = 1 := rfl
  have hde : DESIZE = 16 := rfl
  have hnext := h.next
  have hsum : DESIZE * (done.length + 2) + DESIZE = DESIZE * (done.length + 3) := (Nat.mul_succ _ _).symm
  have hthree : done.length + 1 + 2 = done.length + 3 := rfl
  have hzero : MkfsLayout.need 0 = 0 := rfl
  have hbig : DESIZE * (done.length + 3) ≤ NDIRECT * BSIZE := by
    change 16 * (done.length + 3) ≤ 6144
    omega
  have hdir : NDIRECT * BSIZE ≤ MAXFILE * BSIZE := by decide
  have hmono := MkfsLayout.need_mono (show DESIZE * (done.length + 2) ≤ DESIZE * (done.length + 3) by omega)
  have hrootne : ROOTINO ≠ s.freeinode := by omega
  have hrootlt : ROOTINO < ninodes := by omega
  rw [ends_bind]
  refine ((ialloc_step (by decide) (by omega) h.sound (by omega) h.owns (h.free _ (by omega) le_rfl)).and
    (ialloc_nlink (by decide) (by omega))).mono (fun inum t e hr => ?_) id
  obtain ⟨⟨rfl, ha⟩, hlink⟩ := hr
  have hothers : ∀ j < ninodes, j ≠ s.freeinode → inodeOf t j = inodeOf s j := ha.wrote.others
  have hroot := h.root.keep (hothers _ hrootlt hrootne) ha.wrote.freeblock (MkfsLayout.blocks_root (by omega))
  have hroottype : (inodeOf s ROOTINO).type ≠ 0 := by rw [h.type]; decide
  have htype : (inodeOf t ROOTINO).type ≠ 0 := by rw [hothers _ hrootlt hrootne]; exact hroottype
  have hlinked : ∀ j < ninodes, (inodeOf t j).type ≠ 0 → (inodeOf t j).nlink ≠ 0 := by
    intro j hj hl
    by_cases hji : j = s.freeinode
    · rw [hji, hlink]
      decide
    · rw [hothers j hj hji] at hl ⊢
      exact ht.linked j hj hl
  have hpad := padded_frame h.root hroottype ha.frame hrootne ht.padded
  have hfb := ha.freeblock
  have hlen := MkfsLayout.length_entry (s.freeinode % 2 ^ 16) (entryName arg)
  rw [ends_bind]
  refine ((iappend_step (p := encodeDirent ⟨s.freeinode % 2 ^ 16, strncpy (entryName arg) DIRSIZ⟩) hrootlt
    ha.wrote.sound hroot htype ha.owns
    (by rw [hlen]; omega) (by rw [hlen, hsum]; omega)).and
      (iappend_padded (p := encodeDirent ⟨s.freeinode % 2 ^ 16, strncpy (entryName arg) DIRSIZ⟩)
      hrootlt ha.wrote.sound hroot htype ha.owns (by rw [hlen]; omega) (by rw [hlen, hsum]; omega))).mono
        (fun _ t₁ e₁ hst => ?_) id
  obtain ⟨hst, hlink₁, hpad₁⟩ := hst
  have hpad₁ := hpad₁ hpad
  rw [hlen, hsum] at hpad₁
  have hhas₁ := hst.has
  rw [hlen, hsum] at hhas₁
  have hcount := hst.count
  rw [hlen, hsum] at hcount
  have hlinked₁ := linked_step hrootlt hlinked htype hst.wrote.others hlink₁
  have hfile := ha.has.keep (hst.wrote.others _ (by omega) hrootne.symm) hst.wrote.freeblock (by decide)
  have hftype : (inodeOf t₁ s.freeinode).type ≠ 0 := by
    rw [hst.wrote.others _ (by omega) hrootne.symm, ha.type]
    decide
  refine ((appendFile_step (Nat.lt_succ_self _) (by omega) hst.wrote.sound hfile hftype hst.longer.owns (by omega)
    (by rw [Nat.zero_add]; omega)).and
      (appendFile_nlink (Nat.lt_succ_self _) (by omega) hst.wrote.sound hfile hftype hst.longer.owns
      (by omega) (by rw [Nat.zero_add]; omega))).mono (fun _ t₂ e₂ hst₂ => ?_) id
  obtain ⟨hst₂, hlink₂⟩ := hst₂
  refine ⟨linked_step (by omega) hlinked₁ hftype hst₂.wrote.others hlink₂, ?_, ?_⟩
  · rw [hst₂.wrote.others 0 (by omega) (by omega), hst.wrote.others 0 (by omega) (by omega),
      hothers 0 (by omega) (by omega)]
    exact ht.zero
  · rw [hthree]
    exact padded_frame hhas₁ (by rw [hst.longer.type]; exact htype) hst₂.longer.frame hrootne hpad₁

theorem addFiles_tree {done files : List (List UInt8 × List UInt8)} (h : Built s done) (ht : Tree s done.length)
    (hn : done.length + files.length + 2 ≤ ninodes) (hmax : ∀ f ∈ files, f.2.length ≤ MAXFILE * BSIZE)
    (hroom : s.freeblock + (MkfsLayout.need (DESIZE * (done.length + files.length + 2)) - MkfsLayout.need
      (DESIZE * (done.length + 2))) +
      MkfsLayout.contents files ≤ volume.logStart) :
    (addFiles ROOTINO files s).Ends False fun _ t _ => Tree t (done ++ files).length := by
  induction files generalizing done s with
  | nil =>
      unfold addFiles
      rw [ends_pure, List.append_nil]
      exact ht
  | cons file rest ih =>
      obtain ⟨arg, data⟩ := file
      rw [List.length_cons] at hn hroom
      have hcontents :
          MkfsLayout.contents ((arg, data) :: rest) = MkfsLayout.need data.length + MkfsLayout.contents rest :=
          List.sum_cons
      have hlen : done.length + (rest.length + 1) + 2 = done.length + 1 + rest.length + 2 := by omega
      have hconcat : (done ++ [(arg, data)]).length = done.length + 1 := by
        rw [List.length_append]
        rfl
      have hmono :=
        MkfsLayout.need_mono
        (show DESIZE * (done.length + 2) ≤ DESIZE * (done.length + 3) from Nat.mul_le_mul_left _ (by omega))
      have hmono' :=
        MkfsLayout.need_mono (show DESIZE * (done.length + 3) ≤ DESIZE * (done.length + 1 + rest.length + 2) from
        Nat.mul_le_mul_left _ (by omega))
      rw [hlen] at hroom
      have hstep := (file_step arg h (by omega) (hmax _ List.mem_cons_self) (by simp only; omega)).and
        (file_tree arg h ht (by omega) (hmax _ List.mem_cons_self) (by simp only; omega))
      unfold addFiles
      simp only [ends_bind] at hstep ⊢
      refine hstep.mono (fun inum t e hstep =>
        hstep.mono (fun _ t₁ e₁ hstep => hstep.mono (fun _ t₂ e₂ hb => ?_) id) id) id
      obtain ⟨⟨hb, hcount⟩, htree⟩ := hb
      have hthree : done.length + 1 + 2 = done.length + 3 := rfl
      rw [← hconcat] at htree
      refine (ih hb htree (by omega) (fun f hf => hmax f (List.mem_cons_of_mem _ hf))
        (by rw [hconcat, hthree]; omega)).mono (fun _ t₃ e₃ hr => ?_) id
      rw [List.append_assoc] at hr
      exact hr

/-- The image that mkfs leaves, past what the files need. -/
structure Planted (t : Tool) (n : Nat) : Prop where
  linked : ∀ i < ninodes, (inodeOf t i).type ≠ 0 → (inodeOf t i).nlink ≠ 0
  only : ∀ i < ninodes, (inodeOf t i).type ≠ 0 → i = ROOTINO ∨ 2 ≤ i ∧ i < n + 2
  size : (inodeOf t ROOTINO).size = (DESIZE * (n + 2) / BSIZE + 1) * BSIZE
  shaped : Shaped (imageOf t) ROOTINO (blocks (DESIZE * (n + 2)))
  padded : Padded (imageOf t) ROOTINO (DESIZE * (n + 2))

theorem planted_of_tree (h : Built s files) (ht : Tree s files.length) (hn : files.length + 2 ≤ ninodes) (d : Dinode)
    (hd : d = { inodeOf s ROOTINO with size := ((inodeOf s ROOTINO).size / BSIZE + 1) * BSIZE }) (b : Block) :
    Planted (written (withInode s ROOTINO d) 28 b) files.length := by
  have hnin : ninodes = 200 := rfl
  have hone : ROOTINO = 1 := rfl
  have hroot : ROOTINO < ninodes := by decide
  obtain ⟨hsz, hlaid⟩ := h.root
  have hde : DESIZE * (files.length + 2) = 16 * (files.length + 2) := rfl
  have hok : DinodeOk d := by
    have hk := hlaid.ok
    rw [hd]
    refine ⟨hk.type, hk.major, hk.minor, hk.nlink, ?_, hk.addrs, hk.none⟩
    change ((inodeOf s ROOTINO).size / 512 + 1) * 512 < 2 ^ 32
    omega
  have himage : imageOf (written (withInode s ROOTINO d) 28 b) = (imageOf s).setIno ROOTINO d := by
    rw [imageOf_bitmap, image_withInode s hroot hok]
    rfl
  have hino : ∀ j < ninodes, inodeOf (written (withInode s ROOTINO d) 28 b) j = if j =
      ROOTINO then d else inodeOf s j := by
    intro j hj
    rw [← ino_imageOf _ hj, himage]
    change Function.update (imageOf s).ino ROOTINO d j = _
    by_cases hji : j = ROOTINO
    · rw [hji, Function.update_self, if_pos rfl]
    · rw [Function.update_of_ne hji, if_neg hji, ino_imageOf _ hj]
  have haddrs : d.addrs = ((imageOf s).ino ROOTINO).addrs := by rw [hd, ino_imageOf _ hroot]
  refine ⟨fun i hi hl => ?_, fun i hi hl => ?_, ?_, ?_, fun q hlo hhi => ?_⟩
  · rw [hino i hi] at hl ⊢
    split at hl
    · rename_i he
      rw [if_pos he, hd]
      exact ht.linked ROOTINO hroot (by rw [h.type]; decide)
    · rename_i he
      rw [if_neg he]
      exact ht.linked i hi hl
  · rw [hino i hi] at hl
    split at hl
    · rename_i he
      exact .inl he
    · rename_i he
      have hnot0 : i ≠ 0 := fun h0 => by
        rw [h0] at hl
        exact hl ht.zero
      have hlt : ¬s.freeinode ≤ i := fun hle => hl (h.free i hi hle)
      rw [h.next] at hlt
      omega
  · rw [hino _ hroot, if_pos rfl, hd]
    simp only [hsz]
  · have hshaped := shaped_of_laid hlaid ROOTINO
    rw [during_inodeOf s hroot] at hshaped
    have hslot : ∀ m, slot (imageOf (written (withInode s ROOTINO d) 28 b)) ROOTINO m = slot (imageOf s) ROOTINO m :=
      fun m => by
      rw [himage, slot_setIno haddrs]
    refine ⟨fun m hm => ?_, ?_⟩
    · rw [hslot]
      exact hshaped.blocks m hm
    · rw [hslot]
      exact hshaped.indirect
  · rw [himage, byte_setIno haddrs]
    exact ht.padded q hlo hhi

theorem inodeOf_start (i : Nat) : (inodeOf start i).type = 0 := by
  have hne : IBLOCK i ≠ 1 := Nat.ne_of_gt (Nat.le_add_left 2 (i / IPB))
  have hblank : inodeOf start i = dinodeAt Mem.zero (i % IPB) :=
    congrArg (fun b => dinodeAt b (i % IPB)) (Function.update_of_ne hne superblock fun _ => Mem.zero)
  rw [hblank]
  unfold dinodeAt
  rw [Mem.slice_zero]
  rfl

theorem owns_start : Owns volume (imageOf start) ∅ ∅ := by
  have hdead : ∀ i, ¬Live volume (imageOf start) i := fun i hl =>
    hl.2 (by rw [ino_imageOf start hl.1]; exact inodeOf_start i)
  refine ⟨fun i hi => ?_, fun i k hl => absurd hl (hdead i), fun i j k l hl => absurd hl (hdead i), fun b hb =>
    absurd hb (Set.notMem_empty b),
    fun b hb => ?_⟩
  · rw [ino_imageOf start hi]
    exact dinodeAt_ok _ _
  · have hused : (imageOf start).used b = true ↔ b < firstFree := decide_eq_true_iff
    rw [hused]
    refine ⟨fun hlt => .inl hlt, fun hb' => ?_⟩
    rcases hb' with hlt | hx | ⟨i, k, hl, -⟩
    · exact hlt
    · exact absurd hx (Set.notMem_empty b)
    · exact absurd hl (hdead i)

theorem root_built (hb : Sound t ∧ Owns volume (imageOf t) ∅ ∅ ∧ Has t ROOTINO 0 ∧ t.freeblock = 29 ∧ t.freeinode = 2)
    (htype : (inodeOf t ROOTINO).type = T_DIR) (hlink : (inodeOf t ROOTINO).nlink = 1)
    (hfree : ∀ i < ninodes, i ≠ ROOTINO → (inodeOf t i).type = 0) (hsuper : t.img 1 = superblock) :
    (do
      iappend ROOTINO (encodeDirent ⟨ROOTINO % 2 ^ 16, strncpy [46] DIRSIZ⟩)
      iappend ROOTINO (encodeDirent ⟨ROOTINO % 2 ^ 16, strncpy [46, 46] DIRSIZ⟩) :
        MkM Unit) t |>.Ends False fun _ u _ =>
        Built u [] ∧ Tree u 0 ∧ u.freeblock = 30 := by
  obtain ⟨hsound, howns, hhas, hfb, hnext⟩ := hb
  obtain ⟨-, hls, -, -⟩ := volume_consts
  have hsizes : size = 1024 ∧ ninodes = 200 := by decide
  have hone : ROOTINO = 1 := rfl
  have hde : DESIZE = 16 := rfl
  have hroot : ROOTINO < ninodes := by decide
  have hneed : MkfsLayout.need 0 = 0 ∧ MkfsLayout.need DESIZE = 1 ∧ MkfsLayout.need (DESIZE + DESIZE) = 1 := by decide
  have hent := fun name => MkfsLayout.length_entry (ROOTINO % 2 ^ 16) name
  have hlive : (inodeOf t ROOTINO).type ≠ 0 := by rw [htype]; decide
  have hempty : Padded (imageOf t) ROOTINO 0 := fun q _ hq => by
    have hz : blocks 0 = 0 := rfl
    rw [hz] at hq
    omega
  rw [ends_bind]
  refine ((iappend_step (p := encodeDirent ⟨ROOTINO % 2 ^ 16, strncpy [46] DIRSIZ⟩) hroot hsound hhas hlive howns
    (by rw [hent]; decide)
    (by rw [hent, Nat.zero_add]; omega)).and
      (iappend_padded (p := encodeDirent ⟨ROOTINO % 2 ^ 16, strncpy [46] DIRSIZ⟩) hroot hsound hhas hlive
      howns (by rw [hent]; decide) (by rw [hent, Nat.zero_add]; omega))).mono (fun _ t₁ e₁ hst => ?_) id
  obtain ⟨hst, hlink₁, hpad₁⟩ := hst
  have hpad₁ := hpad₁ hempty
  have hcount := hst.count
  have hhas₁ := hst.has
  rw [hent, Nat.zero_add] at hpad₁ hcount hhas₁
  have hlive₁ : (inodeOf t₁ ROOTINO).type ≠ 0 := by rw [hst.longer.type]; exact hlive
  refine ((iappend_step (p := encodeDirent ⟨ROOTINO % 2 ^ 16, strncpy [46, 46] DIRSIZ⟩) hroot hst.wrote.sound hhas₁
    hlive₁ hst.longer.owns
    (by rw [hent]; decide) (by rw [hent]; omega)).and
      (iappend_padded (p := encodeDirent ⟨ROOTINO % 2 ^ 16, strncpy [46, 46] DIRSIZ⟩) hroot
      hst.wrote.sound hhas₁ hlive₁ hst.longer.owns (by rw [hent]; decide) (by rw [hent]; omega))).mono
        (fun _ t₂ e₂ hst₂ => ?_) id
  obtain ⟨hst₂, hlink₂, hpad₂⟩ := hst₂
  have hpad₂ := hpad₂ hpad₁
  have hcount₂ := hst₂.count
  have hhas₂ := hst₂.has
  rw [hent] at hpad₂ hcount₂ hhas₂
  have hothers : ∀ j < ninodes, j ≠ ROOTINO → inodeOf t₂ j = inodeOf t j := fun j hj hne => by
    rw [hst₂.wrote.others j hj hne, hst.wrote.others j hj hne]
  refine ⟨⟨hst₂.wrote.sound, hst₂.longer.owns, ?_, fun i hi hle => ?_, hhas₂, ?_, fun q hq => ?_, fun j f hj => ?_, ?_⟩,
    ⟨fun j hj hl => ?_, ?_, hpad₂⟩, by omega⟩
  · rw [hst₂.freeinode, hst.freeinode, hnext]
    rfl
  · have hle' : 2 ≤ i := by
      rw [hst₂.freeinode, hst.freeinode, hnext] at hle
      exact hle
    rw [hothers i hi (by omega)]
    exact hfree i hi (by omega)
  · rw [hst₂.longer.type, hst.longer.type]
    exact htype
  · have hboth := hst.longer.trans (u := t₂) (q := encodeDirent ⟨ROOTINO % 2 ^ 16, strncpy [46, 46] DIRSIZ⟩) (by
      rw [hent, Nat.zero_add]
      exact hst₂.longer)
    rw [hboth.bytes q (by rw [List.length_append, hent, hent]; exact hq), if_pos (Nat.zero_le q)]
    rfl
  · rw [List.getElem?_nil] at hj
    cases hj
  · rw [hst₂.wrote.super, hst.wrote.super]
    exact hsuper
  · by_cases hji : j = ROOTINO
    · rw [hji, hlink₂, hlink₁, hlink]
      decide
    · rw [hothers j hj hji] at hl
      exact absurd (hfree j hj hji) hl
  · rw [hothers 0 (by decide) (by decide)]
    exact hfree 0 (by decide) (by decide)

theorem main_planted (hn : files.length + 2 ≤ ninodes) (hmax : ∀ f ∈ files, f.2.length ≤ MAXFILE * BSIZE)
    (hfit : MkfsLayout.total files ≤ Mkfs.nblocks) : (main files start).Ends False fun _ t _ =>
      Planted t files.length := by
  obtain ⟨-, hls, -, -⟩ := volume_consts
  have hsizes : size = 1024 ∧ firstFree = 29 ∧ Mkfs.nblocks = 985 ∧ ninodes = 200 := by decide
  have hde : DESIZE = 16 := rfl
  have hone : MkfsLayout.need (DESIZE * 2) = 1 := by decide
  have htotal : MkfsLayout.need (DESIZE * (files.length + 2)) + MkfsLayout.contents files = MkfsLayout.total files :=
    rfl
  have hmono := MkfsLayout.need_mono (show DESIZE * 2 ≤ DESIZE * (files.length + 2) by rw [hde]; omega)
  unfold main
  rw [ends_bind]
  refine ((ialloc_step (by decide) (by decide) MkfsLayout.sound_start (by decide) owns_start (inodeOf_start _)).and
    (ialloc_nlink (by decide) (by decide))).mono (fun r t e hr => ?_) id
  obtain ⟨⟨rfl, ha⟩, hlink⟩ := hr
  have hstart : start.freeinode = ROOTINO := rfl
  rw [hstart] at hlink ⊢
  rw [ends_ite]
  refine ⟨fun hne => absurd rfl hne, fun _ => ?_⟩
  have hbuilt := root_built ⟨ha.wrote.sound, ha.owns, ha.has, ha.freeblock, ha.freeinode⟩ ha.type hlink
    (fun i hi hne => by rw [ha.wrote.others i hi hne]; exact inodeOf_start i) (by rw [ha.wrote.super]; rfl)
  simp only [ends_bind] at hbuilt ⊢
  refine hbuilt.mono (fun _ t₁ e₁ hbuilt => hbuilt.mono (fun _ t₂ e₂ hb => ?_) id) id
  obtain ⟨hb, ht, hfb⟩ := hb
  have hroom :
      t₂.freeblock + (MkfsLayout.need (DESIZE * (([] : List (List UInt8 × List UInt8)).length + files.length + 2)) -
      MkfsLayout.need (DESIZE * (([] : List (List UInt8 × List UInt8)).length + 2))) + MkfsLayout.contents files ≤
        volume.logStart := by
    simp only [List.length_nil, Nat.zero_add]
    omega
  refine ((addFiles_built hb (by simp only [List.length_nil]; omega) hmax hroom).and
    (addFiles_tree hb ht (by simp only [List.length_nil]; omega) hmax hroom)).mono (fun _ t₃ e₃ hr => ?_) id
  obtain ⟨⟨hb₃, htop⟩, ht₃⟩ := hr
  rw [List.nil_append] at hb₃ ht₃
  have hused := hb₃.sound.used
  rw [MkfsLayout.ends_rinode (by decide), MkfsLayout.ends_winode (by decide), ends_fetch]
  unfold Mkfs.balloc
  rw [ends_ite]
  refine ⟨fun hbad => ?_, fun _ => ?_⟩
  · change 512 * 8 ≤ t₃.usedblocks at hbad
    omega
  · rw [MkfsLayout.ends_wsect]
    exact planted_of_tree hb₃ ht₃ hn _ rfl _

theorem inum_rootEntries (hn : files.length + 2 ≤ ninodes) : ∀ de ∈ rootEntries files, de.inum < volume.sb.ninodes := by
  have hvn : volume.sb.ninodes = 200 := rfl
  have hnin : ninodes = 200 := rfl
  intro de hde
  unfold rootEntries Namespace.dots at hde
  rcases List.mem_append.mp hde with hde | hde
  · rcases List.mem_cons.mp hde with rfl | hde
    · decide
    · rw [List.mem_singleton.mp hde]
      decide
  · obtain ⟨j, hj, rfl⟩ := List.mem_mapIdx.mp hde
    simp only
    omega

theorem ent_planted (hf : Finished t files) (hp : Planted t files.length) (hn : files.length + 2 ≤ ninodes) {m : Nat}
    (hm : m < (imageOf t |>.ino ROOTINO).size / DESIZE) (hhole : (files.length + 2) % 32 ≠ 0) :
    (Directory.ent (imageOf t) ROOTINO m).inum < volume.sb.ninodes := by
  have hde : DESIZE = 16 := rfl
  rw [ino_imageOf t (by decide), hp.size] at hm
  by_cases hlt : m < files.length + 2
  · have hget : (rootEntries files)[m]? = some ((rootEntries files).get ⟨m, by rw [length_rootEntries]; exact hlt⟩) :=
      List.getElem?_eq_getElem _
    have hent := MkfsReads.ent_root hf hn hget
    unfold Directory.ent
    rw [hent]
    exact inum_rootEntries hn _ (List.mem_of_getElem? hget)
  · have hzero : FileData.segment (imageOf t) ROOTINO (DESIZE * m) DESIZE = List.replicate DESIZE 0 := by
      unfold FileData.segment
      refine List.eq_replicate_iff.mpr ⟨by simp, fun x hx => ?_⟩
      obtain ⟨r, hr, rfl⟩ := List.mem_map.mp hx
      have hr' := List.mem_range.mp hr
      refine hp.padded _ ?_ ?_
      · rw [hde] at *
        omega
      · have hm' : m < (16 * (files.length + 2) / 512 + 1) * 512 / 16 := hm
        change 16 * m + r < (16 * (files.length + 2) + 511) / 512 * 512
        rw [hde] at hr'
        omega
    unfold Directory.ent
    rw [hzero]
    decide

/-- The size of the root is rounded up; a last block that is full would leave a hole. -/
theorem mountable_of_finished (hf : Finished t files) (hp : Planted t files.length) (hn : files.length + 2 ≤ ninodes)
    (hhole : (files.length + 2) % 32 ≠ 0) : Mountable volume (imageOf t) t.img := by
  have hnin : ninodes = 200 := rfl
  have hvn : volume.sb.ninodes = 200 := rfl
  have hroot := ino_imageOf t (show ROOTINO < ninodes by decide)
  have hlive : ∀ i, Live volume (imageOf t) i → i = ROOTINO ∨ ∃ data, IsFile (imageOf t) i data := by
    intro i hl
    have hi : i < ninodes := hl.1
    rcases hp.only i hi ((live_imageOf hi).mp hl) with he | ⟨hlo, hhi⟩
    · exact .inl he
    · have hget : ∃ f, files[i - 2]? = some f := ⟨files[i - 2], List.getElem?_eq_getElem (by omega)⟩
      obtain ⟨f, hget⟩ := hget
      have hfile := hf.files _ _ hget
      rw [Nat.sub_add_cancel hlo] at hfile
      exact .inr ⟨_, hfile⟩
  have hsuper : Full (imageOf t) ROOTINO := by
    have hsize : (inodeOf t ROOTINO).size = (16 * (files.length + 2) / 512 + 1) * 512 := hp.size
    have hnb : nblocks (inodeOf t ROOTINO).size = blocks (DESIZE * (files.length + 2)) := by
      rw [hsize]
      change ((16 * (files.length + 2) / 512 + 1) * 512 + 512 - 1) / 512 = (16 * (files.length + 2) + 511) / 512
      omega
    refine ⟨?_, ?_⟩
    · rw [hroot, hsize]
      change _ ≤ 71680
      omega
    · rw [hroot, hnb]
      exact hp.shaped
  refine ⟨hf.disk, hf.owns, fun i hl => ?_, fun i hl htype => ?_, fun i hl => ?_⟩
  · rcases hlive i hl with rfl | ⟨data, hfile⟩
    · exact hsuper
    · exact hfile.full
  · rcases hlive i hl with rfl | ⟨data, hfile⟩
    · refine ⟨?_, fun de hde => ?_⟩
      · rw [hroot, hp.size]
        change (16 * (files.length + 2) / 512 + 1) * 512 % 16 = 0
        omega
      · obtain ⟨m, hm, rfl⟩ := List.mem_map.mp hde
        exact ent_planted hf hp hn (List.mem_range.mp hm) hhole
    · rw [hfile.type] at htype
      exact absurd htype (by decide)
  · have hi : i < ninodes := hl.1
    rw [ino_imageOf t hi]
    exact hp.linked i hi ((live_imageOf hi).mp hl)

/-- Where the entries of the root fill their last block, its size takes in one block more than it has. -/
theorem hole_of_full (hp : Planted t files.length) (hn : files.length + 2 ≤ ninodes)
    (hfull : (files.length + 2) % 32 = 0) :
    ¬Full (imageOf t) ROOTINO := by
  intro h
  have hnin : ninodes = 200 := rfl
  have hroot := ino_imageOf t (show ROOTINO < ninodes by decide)
  have hblocks : blocks (DESIZE * (files.length + 2)) = (files.length + 2) / 32 := by
    change (16 * (files.length + 2) + 511) / 512 = _
    omega
  have hsize : (inodeOf t ROOTINO).size = (16 * (files.length + 2) / 512 + 1) * 512 := hp.size
  have hlast : (files.length + 2) / 32 < nblocks ((imageOf t).ino ROOTINO).size := by
    rw [hroot, hsize]
    change _ < ((16 * (files.length + 2) / 512 + 1) * 512 + 512 - 1) / 512
    omega
  have hmax : (files.length + 2) / 32 < MAXFILE := by
    change _ < 140
    omega
  have hlt := (hp.shaped.blocks _ hmax).mp ((h.shape.blocks _ hmax).mpr hlast)
  omega

/-- The image of mkfs can be mounted, unless the entries of the root directory fill whole blocks;
and then every machine that boots
from it starts a run on a sane file system. -/
theorem mkfs_image_mounts (hn : files.length + 2 ≤ ninodes) (hmax : ∀ f ∈ files, f.2.length ≤ MAXFILE * BSIZE)
    (hfit : MkfsLayout.total files ≤ Mkfs.nblocks) :
    ∃ t e, main files start = .ok () t e ∧ (Mountable volume (imageOf t) t.img ↔ (files.length + 2) % 32 ≠ 0) ∧
      ((files.length + 2) % 32 ≠ 0 → ∀ k initcode k' u, References.Booted k → k.fs = mount volume t.img →
        Proc.userinit initcode k = .ok () k' u → FsRuns.Started volume k') := by
  obtain ⟨r, t, e, hrun, hf, hp⟩ := ((main_finished hn hmax hfit).and (main_planted hn hmax hfit)).total id
  refine ⟨t, e, hrun, ⟨fun hm hfull => ?_, mountable_of_finished hf hp hn⟩, fun hhole k initcode k' u hb hfs hi => ?_⟩
  · exact hole_of_full hp hn hfull (hm.full ROOTINO ⟨volume.root, by rw [hf.type]; decide⟩)
  · exact Mounted.started_mount (mountable_of_finished hf hp hn hhole) hb hfs initcode hi

theorem mkfs_image_mounts_sample : ∃ t e, main MkfsReads.sample start = .ok () t e ∧
    Mountable volume (imageOf t) t.img := by
  have hsmall : ∀ f ∈ MkfsReads.sample, f.2.length ≤ MAXFILE * BSIZE := by decide +kernel
  obtain ⟨t, e, hrun, hm, -⟩ :=
    mkfs_image_mounts (by decide : MkfsReads.sample.length + 2 ≤ ninodes) hsmall (by decide +kernel)
  exact ⟨t, e, hrun, hm.mpr (by decide)⟩

end ArmXv6.MkfsTree
