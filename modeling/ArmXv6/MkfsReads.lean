import ArmXv6.MkfsImage
import ArmXv6.DirectoryMap
import Mathlib.Data.List.GetD

namespace ArmXv6.MkfsReads

open Lib.Exec Lib.Bytes Param Blocks Fs Content DiskImage BlockSpecs BlockAlloc Ownership Namespace MkfsImage
open Mkfs (Tool main start entryName)
open BlockMap (Cached bmap_existing)
open FileData (byte segment Quiet readi_spec slice_eq_segment)
open InodeSpecs (putInode rep_putInode putInode_self holds_setInode)
open Sysfile (dot dotdot)
open DirectoryMap (key matches_iff key_strncpy)

variable {t : Tool} {fs : Fs} {dp ip i k : Nat} {name : List UInt8} {files : List (List UInt8 × List UInt8)}
  {G : Blocks.Event → Prop}

/-- A kernel at work on the image: nothing is held, the root directory is locked in entry dp of the
inode cache, which has
room, and no other inode is locked. -/
structure Serving (t : Tool) (fs : Fs) (dp : Nat) : Prop where
  rep : Rep volume (imageOf t) ∅ fs
  quiet : Quiet fs
  root : Cached volume (imageOf t) fs dp ROOTINO
  free : ∃ ip < NINODE, (fs.icache ip).ref = 0
  idle : ∀ ip < NINODE, ip ≠ dp → (fs.icache ip).busy = false

theorem iget_serving (h : Serving t fs dp) (hi : i < volume.sb.ninodes) (hne : i ≠ ROOTINO) :
    (iget ROOTDEV i fs).Holds G
      (fun ip fs' => ip < NINODE ∧ (fs'.icache ip).inum = i ∧ 0 < (fs'.icache ip).ref ∧ (fs'.icache ip).busy = false ∧
        Rep volume (imageOf t) ∅ fs' ∧ Quiet fs')
      fun _ _ => False := by
  have hcache := h.rep.cache
  simp only [iget, holds_bind, holds_fetch]
  cases hfind : (List.range NINODE).find? fun j =>
      0 < (fs.icache j).ref ∧ (fs.icache j).dev = ROOTDEV ∧ (fs.icache j).inum = i with
  | some ip =>
      have hmem := List.mem_range.1 (List.mem_of_find?_eq_some hfind)
      have hp := List.find?_some hfind
      simp only [decide_eq_true_eq] at hp
      obtain ⟨href, hdev, hinum⟩ := hp
      have hdp : ip ≠ dp := by
        rintro rfl
        exact hne (hinum.symm.trans h.root.inum)
      simp only [holds_bind, holds_setInode, holds_pure]
      refine ⟨hmem, by simpa using hinum, by simp, by simpa using h.idle ip hmem hdp, ?_, h.quiet⟩
      refine rep_putInode h.rep (fun _ => ⟨hdev, (hcache.known ip hmem href).2, hcache.din ip hmem href⟩)
        fun _ jp hjp hj hr he => hj ?_
      exact hcache.inj jp hjp ip hmem hr href he
  | none =>
      cases hfree : (List.range NINODE).find? fun j => (fs.icache j).ref = 0 with
      | some ip =>
          have hmem := List.mem_range.1 (List.mem_of_find?_eq_some hfree)
          simp only [holds_bind, holds_setInode, holds_pure]
          refine ⟨hmem, by simp, by simp, by simp, ?_, h.quiet⟩
          refine rep_putInode h.rep (fun _ => ⟨rfl, hi, fun hv => by simp at hv⟩) fun _ jp hjp _ hr he => ?_
          have hno := List.find?_eq_none.1 hfind jp (List.mem_range.2 hjp)
          simp only [decide_eq_true_eq, not_and] at hno
          exact hno hr (hcache.known jp hjp hr).1 he
      | none =>
          obtain ⟨ip, hip, h0⟩ := h.free
          have hno := List.find?_eq_none.1 hfree ip (List.mem_range.2 hip)
          simp [h0] at hno

theorem ilock_serving (h : Rep volume (imageOf t) ∅ fs) (hq : Quiet fs) (hip : ip < NINODE)
    (href : 0 < (fs.icache ip).ref)
    (hbusy : (fs.icache ip).busy = false) (hl : Live volume (imageOf t) (fs.icache ip).inum) :
    (ilock ip fs).Holds G (fun _ fs' => Cached volume (imageOf t) fs' ip (fs.icache ip).inum ∧
      Rep volume (imageOf t) ∅ fs' ∧ Quiet fs')
      fun _ _ => False := by
  obtain ⟨hdev, hinum⟩ := h.cache.known ip hip href
  have hblock : IBLOCK (fs.icache ip).inum < volume.disksize :=
    volume.lt_disksize ((volume.iblock_lt_dataStart hinum).trans_le volume.dataStart_le)
  have hd := h.disk.ino _ hinum (Set.notMem_empty _)
  have hinj : ∀ jp < NINODE, jp ≠ ip → 0 < (fs.icache jp).ref → (fs.icache jp).inum ≠ (fs.icache ip).inum :=
    fun jp hjp hj hr he => hj (h.cache.inj jp hjp ip hip hr href he)
  have done : ∀ x : Inode, x.ref = (fs.icache ip).ref → x.dev = (fs.icache ip).dev → x.inum = (fs.icache ip).inum →
      x.valid = true →
      x.din = (imageOf t).ino (fs.icache ip).inum →
        Cached volume (imageOf t) (putInode fs ip x) ip (fs.icache ip).inum ∧
        Rep volume (imageOf t) ∅ (putInode fs ip x) ∧ Quiet (putInode fs ip x) := by
    intro x hxr hxd hxi hxv hx
    refine ⟨⟨hip, by rwa [putInode_self, hxr], by rwa [putInode_self], by rwa [putInode_self], hl⟩, ?_, hq⟩
    refine rep_putInode h (fun _ => ⟨hxd.trans hdev, hxi ▸ hinum, fun _ => hxi ▸ hx⟩) fun _ => ?_
    rw [hxi]
    exact hinj
  unfold ilock
  simp only [holds_bind, holds_fetch, holds_ite, holds_panic, holds_sleep, holds_setInode]
  refine ⟨by omega, fun _ => ⟨by simp [hbusy], fun _ => ⟨fun hv => ?_, fun hv => ?_⟩⟩⟩
  · have hlog : LogRep volume (putInode fs ip { fs.icache ip with busy := true }) := h.log.congr rfl rfl rfl rfl
    refine (bread_spec hlog hblock (.inr (hq.readable _))).mono ?_ fun _ _ => id
    rintro _ _ ⟨rfl, rfl⟩
    rw [holds_brelse]
    refine ⟨fun ht => hl.2 (hd ▸ ht), fun _ => ?_⟩
    rw [holds_pure]
    have hfin :=
      done { fs.icache ip with busy := true, din := (imageOf t).ino (fs.icache ip).inum, valid := true } rfl
      rfl rfl rfl rfl
    rw [← hd] at hfin
    simpa [putInode] using hfin
  · rw [holds_pure]
    have hv : (fs.icache ip).valid = true := by simpa using hv
    exact done { fs.icache ip with busy := true } rfl rfl rfl hv (h.cache.din ip hip href hv)

theorem readDirent_serving (h : Serving t fs dp) (hf : Finished t files) (hk : k < files.length + 2) :
    (readi dp (DESIZE * k) DESIZE fs).Holds G
      (fun (r : Int × List UInt8) fs' =>
        r = (((DESIZE : Nat) : Int), segment (imageOf t) ROOTINO (DESIZE * k) DESIZE) ∧ fs = fs')
      fun _ _ => False := by
  obtain ⟨hsize, hbig⟩ := hf.size
  have hdin := h.root.din h.rep
  have hde : DESIZE = 16 := rfl
  have hbs : BSIZE = 512 := rfl
  have hmax : NDIRECT * BSIZE = 6144 := rfl
  have hk16 : DESIZE * k = 16 * k := rfl
  have hn16 : DESIZE * (files.length + 2) = 16 * (files.length + 2) := rfl
  have hdiv : DESIZE * k / BSIZE = 16 * k / 512 := rfl
  have hmod : DESIZE * k % BSIZE = 16 * k % 512 := rfl
  have hfile : MAXFILE = 140 := rfl
  have hb := hf.there (DESIZE * k) (by omega)
  have hnot : ROOTINO ∉ (∅ : Set Nat) := Set.notMem_empty _
  obtain ⟨hlo, hhi⟩ := hf.owns.range ROOTINO _ h.root.live hnot hb
  have hu : uint (DESIZE * k + DESIZE) = DESIZE * k + DESIZE := Nat.mod_eq_of_lt (by omega)
  have hmin : min (DESIZE - 0) (BSIZE - DESIZE * k % BSIZE) = DESIZE := by omega
  unfold readi
  rw [holds_bind, holds_fetch]
  simp only [hdin]
  rw [if_neg (by rw [hf.type]; decide), if_neg (by rw [hu]; omega), if_neg (by rw [hu]; omega), holds_bind]
  -- One round of the loop does it, since an entry lies within a block.
  have hround : readi.loop dp DESIZE DESIZE 0 (DESIZE * k) [] = (do
      let b ← bmap dp (DESIZE * k / BSIZE)
      let bp ← bread b
      brelse b
      pure (bp.slice (DESIZE * k % BSIZE) DESIZE)) := by
    have hone :
        ∀ (bp : Block),
        readi.loop dp DESIZE 15 (0 + DESIZE) (DESIZE * k + DESIZE) ([] ++ bp.slice (DESIZE * k % BSIZE) DESIZE) =
        pure (bp.slice (DESIZE * k % BSIZE) DESIZE) := by
      intro bp
      unfold readi.loop
      rw [if_neg (by omega), List.nil_append]
    change readi.loop dp DESIZE (15 + 1) 0 (DESIZE * k) [] = _
    unfold readi.loop
    rw [if_pos (by decide)]
    simp only [hmin, hone]
  rw [hround, holds_bind]
  refine (bmap_existing h.rep hf.owns h.root hnot (by omega) hb (.inr (h.quiet.readable _))).mono ?_ fun _ _ => id
  rintro _ _ ⟨rfl, rfl⟩
  rw [holds_bind]
  refine (bread_spec h.rep.log (volume.lt_disksize hhi) (.inr (h.quiet.readable _))).mono ?_ fun _ _ => id
  rintro _ _ ⟨rfl, rfl⟩
  simp only [holds_bind, holds_brelse, holds_pure, List.erase_cons_head]
  rw [h.rep.blk_eq hlo hhi, slice_eq_segment _ _ _ _ (by omega)]
  exact ⟨rfl, trivial⟩

theorem getD_encoded {l : List Dirent} {de : Dirent} {r : Nat} (hl : ∀ de ∈ l, de.name.length = DIRSIZ)
    (hget : l[k]? = some de)
    (hr : r < DESIZE) : (encoded l).getD (DESIZE * k + r) 0 = (encodeDirent de).getD r 0 := by
  induction l generalizing k with
  | nil => cases hget
  | cons d l ih =>
      have hlen : (encodeDirent d).length = DESIZE := by
        unfold encodeDirent
        rw [List.length_append, length_leBytes, hl d List.mem_cons_self]
        rfl
      have hsplit : encoded (d :: l) = encodeDirent d ++ encoded l := List.flatMap_cons
      rw [hsplit]
      cases k with
      | zero =>
          rw [List.getElem?_cons_zero, Option.some.injEq] at hget
          rw [Nat.mul_zero, Nat.zero_add, List.getD_append _ _ _ _ (by omega), hget]
      | succ k =>
          have hmul : DESIZE * (k + 1) + r - DESIZE = DESIZE * k + r := by
            rw [Nat.mul_succ]
            omega
          rw [List.getD_append_right _ _ _ _ (by rw [hlen, Nat.mul_succ]; omega), hlen, hmul]
          exact ih (fun d hd => hl d (List.mem_cons_of_mem _ hd)) hget

theorem ent_root (hf : Finished t files) (hn : files.length + 2 ≤ Mkfs.ninodes) {de : Dirent}
    (hget : (rootEntries files)[k]? = some de) :
    decodeDirent (segment (imageOf t) ROOTINO (DESIZE * k) DESIZE) = de := by
  have hnames := names_rootEntries files
  have hk := (List.getElem?_eq_some_iff.mp hget).1
  rw [length_rootEntries] at hk
  have hmem := List.mem_of_getElem? hget
  have hbytes : segment (imageOf t) ROOTINO (DESIZE * k) DESIZE = (List.range DESIZE).map fun r =>
      (encodeDirent de).getD r 0 := by
    unfold FileData.segment
    refine List.map_congr_left fun r hr => ?_
    have hr := List.mem_range.mp hr
    have hk16 : DESIZE * k = 16 * k := rfl
    have hn16 : DESIZE * (files.length + 2) = 16 * (files.length + 2) := rfl
    have hde : DESIZE = 16 := rfl
    rw [hf.entries _ (by omega)]
    exact getD_encoded hnames hget hr
  have hinum : de.inum < 2 ^ 16 := by
    unfold rootEntries Namespace.dots at hmem
    have hnin : Mkfs.ninodes = 200 := rfl
    have hone : ROOTINO = 1 := rfl
    rcases List.mem_append.mp hmem with hde | hde
    · rcases List.mem_cons.mp hde with rfl | hde
      · decide
      · rw [List.mem_singleton.mp hde]
        decide
    · obtain ⟨j, hj, rfl⟩ := List.mem_mapIdx.mp hde
      simp only
      omega
  rw [hbytes]
  exact Directory.decode_encodeDirent hinum (hnames de hmem)

section Search

variable {Q : Option (Nat × Nat) → Fs → Prop} {l : List Dirent} {de : Dirent} {m : Nat} (h : Serving t fs dp)
  (hf : Finished t files)
  (hn : files.length + 2 ≤ Mkfs.ninodes) (hget : (rootEntries files)[m]? = some de) (hm : Matches name de)
  (hno : ∀ j < m, ∀ e, (rootEntries files)[j]? = some e → ¬Matches name e)
  (hQ : (iget ROOTDEV de.inum fs).Holds G (fun ip fs' => Q (some (ip, DESIZE * m)) fs') fun _ _ => False)

include h hf hn hget hm hno hQ

theorem dirlookup_loop_serving (fuel k : Nat) (hk : k ≤ m) (hfuel : m < fuel + k) :
    (dirlookup.loop dp name fuel (DESIZE * k) fs).Holds G Q fun _ _ => False := by
  obtain ⟨hsize, -⟩ := hf.size
  have hlast := (List.getElem?_eq_some_iff.mp hget).1
  rw [length_rootEntries] at hlast
  induction fuel generalizing k with
  | zero => omega
  | succ fuel ih =>
      have hk16 : DESIZE * k = 16 * k := rfl
      have hn16 : DESIZE * (files.length + 2) = 16 * (files.length + 2) := rfl
      unfold dirlookup.loop
      simp only [holds_bind, holds_fetch, holds_ite, h.root.din h.rep]
      refine ⟨fun _ => ?_, fun hge => absurd (show DESIZE * k < _ by omega) hge⟩
      refine (readDirent_serving h hf (by omega)).mono ?_ fun _ _ => id
      rintro _ fs₁ ⟨rfl, rfl⟩
      refine ⟨fun hne => absurd rfl hne, fun _ => ?_⟩
      obtain ⟨d, hsome⟩ : ∃ d, (rootEntries files)[k]? = some d :=
        ⟨_, List.getElem?_eq_getElem (by rw [length_rootEntries]; omega)⟩
      rw [ent_root hf hn hsome]
      refine ⟨fun hyes => ?_, fun hmiss => ?_⟩
      · have hkm : k = m := by
          by_contra hne
          exact hno k (by omega) _ hsome hyes
        subst hkm
        rw [hsome, Option.some.injEq] at hget
        rw [hget]
        obtain ⟨hdev, -⟩ := h.rep.cache.known dp h.root.index h.root.ref
        rw [hdev]
        refine hQ.mono (fun ip fs' hq => ?_) fun _ _ => id
        rw [holds_pure]
        exact hq
      · have hkm : k ≠ m := by
          rintro rfl
          rw [hsome, Option.some.injEq] at hget
          exact hmiss (hget ▸ hm)
        have hstep : DESIZE * k + DESIZE = DESIZE * (k + 1) := (Nat.mul_succ _ _).symm
        rw [hstep]
        exact ih (k + 1) (by omega) (by omega)

theorem dirlookup_serving : (dirlookup dp name fs).Holds G Q fun _ _ => False := by
  have hsize := hf.size.1
  have hlast := (List.getElem?_eq_some_iff.mp hget).1
  rw [length_rootEntries] at hlast
  unfold dirlookup
  simp only [holds_bind, holds_fetch, holds_ite, holds_panic, h.root.din h.rep]
  refine ⟨fun hn => hn hf.type, fun _ => ?_⟩
  have hfuel : files.length + 2 ≤ ((imageOf t).ino ROOTINO).size / DESIZE := by
    rw [Nat.le_div_iff_mul_le (by decide), Nat.mul_comm]
    exact hsize
  exact dirlookup_loop_serving h hf hn hget hm hno hQ _ 0 (Nat.zero_le _) (by omega)

end Search

theorem ok_of_holds {α : Type} {r : Run Blocks.Event Fs α} {Q : α → Fs → Prop}
    (h : r.Holds (fun _ => True) Q fun _ _ => False) :
    ∃ a s e, r = .ok a s e ∧ Q a s := by
  cases r with
  | ok a s e => exact ⟨a, s, e, rfl, h fun _ _ => trivial⟩
  | stop w s e => exact (h fun _ _ => trivial).elim

/-- The name leads to a file with these bytes: it is found in the directory dp, can be locked, has
their number as its size,
and reading it anywhere gives them. -/
def Reads (fs : Fs) (dp : Nat) (name data : List UInt8) : Prop :=
  ∃ ip place fs₁ e₁ fs₂ e₂, dirlookup dp name fs = .ok (some (ip, place)) fs₁ e₁ ∧ ilock ip fs₁ = .ok () fs₂ e₂ ∧
    (fs₂.icache ip).din.type = T_FILE ∧ (fs₂.icache ip).din.size = data.length ∧
    ∀ off n, off ≤ data.length → off + n < 2 ^ 32 →
      ∃ e, readi ip off n fs₂ = .ok ((((data.drop off).take n).length : Int), (data.drop off).take n) fs₂ e

theorem segment_file {A : Image} {data : List UInt8} {off n : Nat} (h : IsFile A i data) (hoff : off ≤ data.length) :
    segment A i off (min n (data.length - off)) = (data.drop off).take n := by
  change ((List.range (min n (data.length - off))).map fun k => byte A i (off + k)) = _
  apply List.ext_getElem
  · rw [List.length_map, List.length_range, List.length_take, List.length_drop]
  · intro k hk hk'
    rw [List.length_take, List.length_drop] at hk'
    rw [List.getElem_map, List.getElem_range, List.getElem_take, List.getElem_drop, h.bytes _ (by omega),
      List.getD_eq_getElem _ _ (by omega)]

theorem finished_reads (h : Serving t fs dp) (hf : Finished t files) (hn : files.length + 2 ≤ Mkfs.ninodes)
    (hdots : ∀ f ∈ files, key (entryName f.1) ≠ dot ∧ key (entryName f.1) ≠ dotdot)
    (hdistinct : (files.map fun f => key (entryName f.1)).Nodup) {f : List UInt8 × List UInt8} (hfile : f ∈ files)
    (hname : key name = key (entryName f.1)) (hsmall : f.2.length ≤ MAXFILE * BSIZE) : Reads fs dp name f.2 := by
  obtain ⟨j, hj⟩ := List.mem_iff_getElem?.mp hfile
  have hlt := (List.getElem?_eq_some_iff.mp hj).1
  have hnin : Mkfs.ninodes = 200 := rfl
  have hdotkey : key (strncpy dot DIRSIZ) = dot ∧ key (strncpy dotdot DIRSIZ) = dotdot := by decide
  have hentry : ∀ k g, files[k]? = some g →
      (rootEntries files)[k + 2]? = some ⟨k + 2, strncpy (entryName g.1) DIRSIZ⟩ := by
    intro k g hk
    unfold rootEntries Namespace.dots
    rw [List.getElem?_append_right (Nat.le_add_left 2 k)]
    change (files.mapIdx fun j f => (⟨j + 2, strncpy (entryName f.1) DIRSIZ⟩ : Dirent))[k]? = _
    rw [List.getElem?_mapIdx, hk]
    rfl
  have hmatch : Matches name ⟨j + 2, strncpy (entryName f.1) DIRSIZ⟩ := by
    rw [matches_iff, key_strncpy]
    exact ⟨by simp, hname⟩
  have hno : ∀ k < j + 2, ∀ e, (rootEntries files)[k]? = some e → ¬Matches name e := by
    intro k hk e he hme
    have hkey := ((matches_iff name e).mp hme).2
    rw [hname] at hkey
    rcases k with _ | _ | k
    · have hdot : e = ⟨ROOTINO, strncpy dot DIRSIZ⟩ := (Option.some.inj he).symm
      rw [hdot, hdotkey.1] at hkey
      exact (hdots f hfile).1 hkey
    · have hdot : e = ⟨ROOTINO, strncpy dotdot DIRSIZ⟩ := (Option.some.inj he).symm
      rw [hdot, hdotkey.2] at hkey
      exact (hdots f hfile).2 hkey
    · obtain ⟨g, hg⟩ : ∃ g, files[k]? = some g := ⟨files[k], List.getElem?_eq_getElem (by omega)⟩
      rw [hentry k g hg, Option.some.injEq] at he
      rw [← he, key_strncpy] at hkey
      have hsame : (files.map fun f => key (entryName f.1))[j]? = (files.map fun f => key (entryName f.1))[k]? := by
        rw [List.getElem?_map, List.getElem?_map, hj, hg, Option.map_some, Option.map_some, hkey]
      have hjk := (List.getElem?_inj (by rw [List.length_map]; exact hlt) hdistinct).mp hsame
      omega
  have hisfile := hf.files j f hj
  have hlive : Live volume (imageOf t) (j + 2) := ⟨by change j + 2 < 200; omega, by rw [hisfile.type]; decide⟩
  have hne : j + 2 ≠ ROOTINO := by
    change j + 2 ≠ 1
    omega
  have hmax : MAXFILE * BSIZE = 71680 := rfl
  obtain ⟨r, fs₁, e₁, hrun₁, ip, place, rfl, hip, hinum, href, hbusy, hrep₁, hq₁⟩ := ok_of_holds
    (dirlookup_serving (Q := fun r fs' => ∃ ip place, r = some (ip, place) ∧ ip < NINODE ∧
      (fs'.icache ip).inum = j + 2 ∧
      0 < (fs'.icache ip).ref ∧ (fs'.icache ip).busy = false ∧ Rep volume (imageOf t) ∅ fs' ∧ Quiet fs')
      h hf hn (hentry j f hj) hmatch hno
        ((iget_serving h hlive.1 hne).mono (fun ip fs' hg => ⟨ip, _, rfl, hg⟩) fun _ _ => id))
  obtain ⟨_, fs₂, e₂, hrun₂, hc, hrep₂, hq₂⟩ :=
    ok_of_holds (ilock_serving hrep₁ hq₁ hip href hbusy (by rw [hinum]; exact hlive))
  rw [hinum] at hc
  have hdin := hc.din hrep₂
  refine ⟨ip, place, fs₁, e₁, fs₂, e₂, hrun₁,
    hrun₂, by rw [hdin]; exact hisfile.type, by rw [hdin]; exact hisfile.size, fun off n hoff hwrap => ?_⟩
  have hread : (readi ip off n fs₂).Holds (fun _ => True) _ fun _ _ => False :=
    readi_spec hrep₂ hf.owns hc (Set.notMem_empty _)
    hisfile.full (by rw [hisfile.type]; decide) (.inr hq₂) (by omega) (by omega)
  obtain ⟨r, fs₃, e₃, hrun₃, rfl, hr⟩ := ok_of_holds hread
  rw [hisfile.size, if_neg (by omega), segment_file hisfile hoff] at hr
  refine ⟨e₃, ?_⟩
  rw [hrun₃, hr, List.length_take, List.length_drop]

/-- The kernel after it has mounted the image and locked the root directory. -/
def mounted (img : Nat → Block) : Fs where
  blk := img
  disksize := Mkfs.size
  held := []
  dirty := []
  log := ⟨(decodeSb (img 1)).size - (decodeSb (img 1)).nlog, (decodeSb (img 1)).nlog, false, []⟩
  icache ip :=
    if ip = 0 then ⟨ROOTDEV, ROOTINO, 1, true, true, dinodeAt (img (IBLOCK ROOTINO)) (ROOTINO % IPB)⟩
    else ⟨0, 0, 0, false, false, emptyDinode⟩
  input := []

theorem serving_mounted (hf : Finished t files) : Serving t (mounted t.img) 0 := by
  have hsb : decodeSb (t.img 1) = volume.sb := hf.disk.sb
  have hroot : ∀ ip, 0 < ((mounted t.img).icache ip).ref → ip = 0 := by
    intro ip href
    by_contra hne
    unfold mounted at href
    simp only [if_neg hne] at href
    omega
  have hino : dinodeAt (t.img (IBLOCK ROOTINO)) (ROOTINO % IPB) = (imageOf t).ino ROOTINO :=
    hf.disk.ino ROOTINO volume.root (Set.notMem_empty _)
  have hlive : Live volume (imageOf t) ROOTINO := ⟨volume.root, by rw [hf.type]; decide⟩
  refine ⟨⟨⟨rfl, ?_, ?_, List.nodup_nil, ?_, Nat.zero_le _, ?_, .refl _⟩, hf.disk, ⟨?_, ?_, ?_⟩⟩,
    ⟨rfl, (show 0 < NBUF by decide)⟩, ⟨by decide, ?_, rfl, rfl, hlive⟩,
    ⟨1, by decide, rfl⟩, ?_⟩
  · change (decodeSb (t.img 1)).size - (decodeSb (t.img 1)).nlog = _
    rw [hsb]
    rfl
  · change (decodeSb (t.img 1)).nlog = _
    rw [hsb]
  · intro s hs
    cases hs
  · intro k s hs
    cases hs
  · intro ip _ href
    rw [hroot ip href]
    exact ⟨rfl, volume.root⟩
  · intro ip _ jp _ href href' _
    rw [hroot ip href, hroot jp href']
  · intro ip _ href _
    rw [hroot ip href]
    exact hino
  · exact Nat.one_pos
  · intro ip _ hne
    unfold mounted
    simp only [if_neg hne]

/-- mkfs writes what the kernel reads. -/
theorem mkfs_reads (hn : files.length + 2 ≤ Mkfs.ninodes) (hsmall : ∀ f ∈ files, f.2.length ≤ MAXFILE * BSIZE)
    (hfit : MkfsLayout.total files ≤ Mkfs.nblocks)
    (hdots : ∀ f ∈ files, key (entryName f.1) ≠ dot ∧ key (entryName f.1) ≠ dotdot)
    (hdistinct : (files.map fun f => key (entryName f.1)).Nodup) :
    ∃ t e, main files start = .ok () t e ∧ DiskRep volume (imageOf t) ∅ t.img ∧ Owns volume (imageOf t) ∅ ∅ ∧
      Serving t (mounted t.img) 0 ∧
      ∀ fs dp, Serving t fs dp → ∀ f ∈ files, ∀ name, key name = key (entryName f.1) → Reads fs dp name f.2 := by
  obtain ⟨r, t, e, hrun, hf⟩ := (main_finished hn hsmall hfit).total id
  exact ⟨t, e, hrun, hf.disk, hf.owns, serving_mounted hf, fun fs dp h f hmem name hname =>
    finished_reads h hf hn hdots hdistinct hmem hname (hsmall f hmem)⟩

/-- An empty file, one of two bytes whose name loses its underscore, and one of two blocks. -/
def sample : List (List UInt8 × List UInt8) := [([98], []), ([95, 97], [104, 105]), ([99], List.replicate 600 7)]

theorem mkfs_reads_sample : ∃ t e, main sample start = .ok () t e ∧ Owns volume (imageOf t) ∅ ∅ ∧
    Reads (mounted t.img) 0 [97] [104, 105] ∧ Reads (mounted t.img) 0 [99] (List.replicate 600 7) := by
  have hsmall : ∀ f ∈ sample, f.2.length ≤ MAXFILE * BSIZE := by decide +kernel
  have hdots : ∀ f ∈ sample, key (entryName f.1) ≠ dot ∧ key (entryName f.1) ≠ dotdot := by decide
  have hnames : (sample.map fun f => key (entryName f.1)).Nodup := by decide
  obtain ⟨t, e, hrun, -, howns, hserving, hreads⟩ :=
    mkfs_reads (by decide : sample.length + 2 ≤ Mkfs.ninodes) hsmall (by decide +kernel) hdots hnames
  have h := fun f hf name hname => hreads (mounted t.img) 0 hserving f hf name hname
  exact ⟨t, e, hrun, howns, h _ (.tail _ (.head _)) [97] (by decide),
    h _ (.tail _ (.tail _ (.head _))) [99] (by decide)⟩

end ArmXv6.MkfsReads
