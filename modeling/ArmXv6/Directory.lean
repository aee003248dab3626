import ArmXv6.InodeSpecs
import ArmXv6.Namespace

namespace ArmXv6.Directory

open Lib.Exec Lib.Bytes Param Blocks Fs Content Sysfile DiskImage BlockSpecs BlockAlloc Ownership BlockMap FileData
  Truncate InodeSpecs Namespace

def ent (A : Image) (i k : Nat) : Dirent := decodeDirent (segment A i (DESIZE * k) DESIZE)

def entries (A : Image) (i : Nat) : List Dirent := (List.range ((A.ino i).size / DESIZE)).map (ent A i)

def view (v : Volume) (A : Image) : Names := fun i =>
  if i < v.sb.ninodes then
    ⟨(A.ino i).type, (A.ino i).nlink, if (A.ino i).type = T_DIR then entries A i else []⟩
  else Node.free

/-- Directories consist of whole entries that name inodes of the disk. -/
def Tidy (v : Volume) (A : Image) : Prop :=
  ∀ i, Live v A i → (A.ino i).type = T_DIR →
    (A.ino i).size % DESIZE = 0 ∧ ∀ de ∈ entries A i, de.inum < v.sb.ninodes

variable {v : Volume} {A A' : Image} {fs fs₀ fs' : Fs} {ip dp i k : Nat} {L : List Nat} {name : List UInt8}
  {ok : Stop → Prop} {G : Event → Prop}

@[simp] theorem length_entries (A : Image) (i : Nat) : (entries A i).length = (A.ino i).size / DESIZE := by
  simp [entries]

theorem getElem?_entries (A : Image) (i : Nat) (hk : k < (A.ino i).size / DESIZE) :
    (entries A i)[k]? = some (ent A i k) := by
  simp [entries, hk]

theorem lt_count_iff {size : Nat} (k : Nat) (h : size % DESIZE = 0) : DESIZE * k < size ↔ k < size / DESIZE := by
  simp only [DESIZE, DIRSIZ] at *
  omega

theorem entry_le {size : Nat} {k : Nat} (h : size % DESIZE = 0) (hk : DESIZE * k < size) :
    DESIZE * k + DESIZE ≤ size := by
  simp only [DESIZE, DIRSIZ] at *
  omega

theorem readDirent_spec (h : Sound v A fs) (hmod : (A.ino i).size % DESIZE = 0) (hr : Lenient ok ∨ Quiet fs)
    (hc : Cached v A fs ip i) (hdir : (A.ino i).type = T_DIR) (hk : DESIZE * k < (A.ino i).size) :
    (readi ip (DESIZE * k) DESIZE fs).Holds G
      (fun (r : Int × List UInt8) fs' => r = (((DESIZE : Nat) : Int), segment A i (DESIZE * k) DESIZE) ∧ fs = fs')
        (fun w _ => ok w) := by
  have hf := h.full i hc.live
  have hmax : MAXFILE * BSIZE < 2 ^ 31 := by decide
  have hsize := hf.size
  have hle := entry_le hmod hk
  refine (readi_spec h.rep h.owns hc (Set.notMem_empty _) hf (by rw [hdir]; decide) hr (by omega)
    (by decide)).mono ?_ fun _ _ h => h
  rintro r fs' ⟨rfl, hr⟩
  rw [if_neg (by omega), Nat.min_eq_left (by omega)] at hr
  exact ⟨hr, rfl⟩

section Search

variable {Q : Option (Nat × Nat) → Fs → Prop} (h : Sound v A fs) (hmod : (A.ino i).size % DESIZE = 0)
  (hr : Lenient ok ∨ Quiet fs) (hc : Cached v A fs dp i) (hdir : (A.ino i).type = T_DIR)
  (hnone : lookup (entries A i) name = none → Q none fs)
  (hsome : ∀ k de, (entries A i)[k]? = some de → Matches name de → lookup (entries A i) name = some de →
    (iget ROOTDEV de.inum fs).Holds G (fun ip fs' => Q (some (ip, DESIZE * k)) fs') fun w _ => ok w)

include h hmod hr hc hdir hnone hsome

theorem dirlookup_loop_search (fuel k : Nat) (hfuel : (A.ino i).size / DESIZE < fuel + k)
    (hno : ∀ j < k, ∀ de, (entries A i)[j]? = some de → ¬Matches name de) :
    (dirlookup.loop dp name fuel (DESIZE * k) fs).Holds G Q (fun w _ => ok w) := by
  have hend : (A.ino i).size / DESIZE ≤ k → Q none fs := by
    refine fun hle => hnone (lookup_eq_none.2 fun de hmem => ?_)
    obtain ⟨j, hj⟩ := List.mem_iff_getElem?.1 hmem
    have hlt := (List.getElem?_eq_some_iff.1 hj).1
    rw [length_entries] at hlt
    exact hno j (by omega) de hj
  induction fuel generalizing k with
  | zero => exact (holds_pure _ _).2 (hend (by omega))
  | succ fuel ih =>
      unfold dirlookup.loop
      simp only [holds_bind, holds_fetch, holds_ite, hc.din h.rep]
      refine ⟨fun hlt => ?_, fun hge => ?_⟩
      · refine (readDirent_spec h hmod hr hc hdir hlt).mono ?_ fun _ _ h => h
        rintro _ fs₁ ⟨rfl, rfl⟩
        have hk := (lt_count_iff k hmod).1 hlt
        have hget := getElem?_entries A i hk
        refine ⟨fun hne => absurd rfl hne, fun _ => ⟨fun hm => ?_, fun hm => ?_⟩⟩
        · obtain ⟨hdev, -⟩ := h.rep.cache.known dp hc.index hc.ref
          rw [hdev]
          refine (hsome k (ent A i k) hget hm (lookup_eq_some hget hm hno)).mono (fun ip fs' hq => ?_) fun _ _ h => h
          exact (holds_pure _ _).2 hq
        · have hstep : DESIZE * k + DESIZE = DESIZE * (k + 1) := (Nat.mul_succ _ _).symm
          have hno' : ∀ j < k + 1, ∀ de, (entries A i)[j]? = some de → ¬Matches name de := by
            intro j hj de hget'
            by_cases hjk : j = k
            · subst hjk
              rw [hget, Option.some.injEq] at hget'
              exact hget' ▸ hm
            · exact hno j (by omega) de hget'
          rw [hstep]
          refine ih (k + 1) (by omega) hno' fun hle => ?_
          refine hnone (lookup_eq_none.2 fun de hmem => ?_)
          obtain ⟨j, hj⟩ := List.mem_iff_getElem?.1 hmem
          have hlt := (List.getElem?_eq_some_iff.1 hj).1
          rw [length_entries] at hlt
          exact hno' j (by omega) de hj
      · rw [lt_count_iff k hmod] at hge
        exact (holds_pure _ _).2 (hend (by omega))

theorem dirlookup_search : (dirlookup dp name fs).Holds G Q (fun w _ => ok w) := by
  unfold dirlookup
  simp only [holds_bind, holds_fetch, holds_ite, holds_panic, hc.din h.rep]
  refine ⟨fun hn => absurd hdir hn, fun _ => ?_⟩
  exact dirlookup_loop_search h hmod hr hc hdir hnone hsome _ 0 (by omega) fun j hj => absurd hj (Nat.not_lt_zero j)

end Search

/-- What a search of a directory finds: nothing, or the first matching entry, whose inode is
then referenced. -/
def Found (v : Volume) (A : Image) (i : Nat) (name : List UInt8) (fs : Fs) :
    Option (Nat × Nat) → Fs → Prop
  | none, fs' => fs = fs' ∧ lookup (entries A i) name = none
  | some (ip, off), fs' => ∃ k de, off = DESIZE * k ∧ (entries A i)[k]? = some de ∧ Matches name de ∧
      lookup (entries A i) name = some de ∧ ip < NINODE ∧ (fs'.icache ip).inum = de.inum ∧ Sound v A fs' ∧
        Refs fs fs' [ip] ∧ Taken fs ip fs'

theorem dirlookup_spec (h : Sound v A fs) (ht : Tidy v A) (hok : Lenient ok) (hc : Cached v A fs dp i)
    (hdir : (A.ino i).type = T_DIR) :
    (dirlookup dp name fs).Holds G (Found v A i name fs) (fun w _ => ok w) := by
  obtain ⟨hmod, hnames⟩ := ht i hc.live hdir
  refine dirlookup_search h hmod (.inl hok) hc hdir (fun hn => ⟨rfl, hn⟩) fun k de hget hm hl => ?_
  refine (iget_spec h hok (hnames de (List.mem_of_getElem? hget))).mono ?_ fun _ _ h => h
  rintro ip fs' ⟨hip, hinum, hs, hr, hx⟩
  exact ⟨k, de, rfl, hget, hm, hl, hip, hinum, hs, hr, hx⟩

theorem dirlink_scan_spec (h : Sound v A fs) (hmod : (A.ino i).size % DESIZE = 0) (hr : Lenient ok ∨ Quiet fs)
    (hc : Cached v A fs dp i) (hdir : (A.ino i).type = T_DIR) (fuel k : Nat) (hk : k ≤ (A.ino i).size / DESIZE)
    (hfuel : (A.ino i).size / DESIZE < fuel + k) (hused : ∀ j < k, ∀ de, (entries A i)[j]? = some de → de.inum ≠ 0) :
    (dirlink.scan dp fuel (DESIZE * k) fs).Holds G
      (fun off fs' => fs = fs' ∧ ∃ k, off = DESIZE * k ∧ k ≤ (A.ino i).size / DESIZE ∧
        (∀ de, (entries A i)[k]? = some de → de.inum = 0) ∧
        ∀ j < k, ∀ de, (entries A i)[j]? = some de → de.inum ≠ 0) (fun w _ => ok w) := by
  induction fuel generalizing k with
  | zero => omega
  | succ fuel ih =>
      unfold dirlink.scan
      simp only [holds_bind, holds_fetch, holds_ite, hc.din h.rep]
      refine ⟨fun hlt => ?_, fun hge => ?_⟩
      · refine (readDirent_spec h hmod hr hc hdir hlt).mono ?_ fun _ _ h => h
        rintro _ fs₁ ⟨rfl, rfl⟩
        have hk := (lt_count_iff k hmod).1 hlt
        refine ⟨fun hne => absurd rfl hne, fun _ => ⟨fun h0 => ?_, fun h0 => ?_⟩⟩
        · refine (holds_pure _ _).2 ⟨rfl, k, rfl, hk.le, fun de hget => ?_, hused⟩
          rw [getElem?_entries A i hk, Option.some.injEq] at hget
          exact hget ▸ h0
        · have hstep : DESIZE * k + DESIZE = DESIZE * (k + 1) := (Nat.mul_succ _ _).symm
          rw [hstep]
          refine ih (k + 1) hk (by omega) fun j hj de hget => ?_
          by_cases hjk : j = k
          · rw [hjk, getElem?_entries A i hk, Option.some.injEq] at hget
            exact hget ▸ h0
          · exact hused j (by omega) de hget
      · rw [lt_count_iff k hmod] at hge
        refine (holds_pure _ _).2 ⟨rfl, k, rfl, hk, fun de hget => ?_, hused⟩
        have hlt := (List.getElem?_eq_some_iff.1 hget).1
        rw [length_entries] at hlt
        omega

theorem sound_written {off n : Nat} {src : Nat → UInt8} (h : Sound v A fs) (hc : Cached v A fs ip i)
    (hw : FileWritten v ∅ ∅ ∅ ip i off n src A fs fs' A') : Sound v A' fs' := by
  obtain ⟨f, hino⟩ := hw.ino
  have hlive : ∀ j, Live v A' j ↔ Live v A j := by
    intro j
    by_cases hj : j = i
    · subst hj
      simp [Live, hino]
    · exact hw.frame.live hj
  refine ⟨hw.rep, hw.owns, fun j hj => ?_, fun jp hjp hr hv => ?_⟩
  · by_cases hji : j = i
    · exact hji ▸ hw.full
    · have hl := (hlive j).1 hj
      exact hw.frame.full hji hl (Set.notMem_empty _) (h.full j hl)
  · rw [hlive]
    by_cases hj : jp = ip
    · subst hj
      obtain ⟨d, hself⟩ := hw.edits.self
      rw [hself]
      exact hc.inum.symm ▸ hc.live
    · rw [hw.edits.others jp hj] at hr hv ⊢
      exact h.live jp hjp hr hv

theorem refs_edits (h : Edits ip fs fs') : Refs fs fs' [] := by
  have hcases : ∀ jp, ∃ d, fs'.icache jp = { fs.icache jp with din := d } := by
    intro jp
    by_cases hj : jp = ip
    · exact hj ▸ h.self
    · exact ⟨(fs.icache jp).din, by rw [h.others jp hj]⟩
  constructor
  · intro jp _
    obtain ⟨d, hd⟩ := hcases jp
    simp [hd]
  · intro jp _ _
    obtain ⟨d, hd⟩ := hcases jp
    simp [hd]

theorem Anchored.edits (ha : Anchored v A fs) (hc : Cached v A fs ip i) (hed : Edits ip fs fs')
    (hino : ∀ j, j ≠ i → A'.ino j = A.ino j) : Anchored v A' fs' := by
  intro j hj hn
  by_cases hji : j = i
  · obtain ⟨d, hself⟩ := hed.self
    refine ⟨ip, hc.index, ?_⟩
    rw [hself]
    exact ⟨hc.ref, hc.valid, hc.inum.trans hji.symm⟩
  · rw [Live, hino j hji] at hj
    rw [hino j hji] at hn
    exact (ha.refs (refs_edits hed)) j hj hn

theorem segment_congr {off len : Nat} (h : ∀ q < len, byte A' i (off + q) = byte A i (off + q)) :
    segment A' i off len = segment A i off len :=
  List.map_congr_left fun q hq => h q (List.mem_range.1 hq)

theorem lt_of_entry {size q : Nat} (hk : k < size / DESIZE) (hq : q < DESIZE) : DESIZE * k + q < size := by
  simp only [DESIZE, DIRSIZ] at *
  omega

theorem view_type {i : Nat} (hi : i < v.sb.ninodes) : (view v A i).type = (A.ino i).type := by
  simp [view, hi]

theorem view_nlink {i : Nat} (hi : i < v.sb.ninodes) : (view v A i).nlink = (A.ino i).nlink := by
  simp [view, hi]

theorem view_entries {i : Nat} (hi : i < v.sb.ninodes) (hd : (A.ino i).type = T_DIR) :
    (view v A i).entries = entries A i := by
  simp [view, hi, hd]

theorem live_iff (v : Volume) (A : Image) (i : Nat) : Live v A i ↔ (view v A i).type ≠ 0 := by
  unfold Live view
  by_cases hi : i < v.sb.ninodes
  · simp [hi]
  · simp [hi, Node.free]

theorem view_frame (h : Sound v A fs) (hf : Frame v ∅ i A A') {j : Nat} (hj : j ≠ i) : view v A' j = view v A j := by
  unfold view
  rw [hf.ino j hj]
  by_cases hlt : j < v.sb.ninodes
  · rw [if_pos hlt, if_pos hlt]
    by_cases hdir : (A.ino j).type = T_DIR
    · have hl : Live v A j := ⟨hlt, by rw [hdir]; decide⟩
      rw [if_pos hdir, if_pos hdir]
      have he : entries A' j = entries A j := by
        unfold entries
        rw [hf.ino j hj]
        refine List.map_congr_left fun k hk => ?_
        rw [List.mem_range] at hk
        unfold ent
        rw [segment_congr fun q hq => hf.byte_eq hj hl (Set.notMem_empty _)
          (block_ne_of_full (h.full j hl) (lt_of_entry hk hq)).2]
      rw [he]
    · rw [if_neg hdir, if_neg hdir]
  · rw [if_neg hlt, if_neg hlt]

theorem view_eq_update (h : Sound v A fs) (hf : Frame v ∅ i A A') :
    view v A' = Function.update (view v A) i (view v A' i) := by
  funext j
  by_cases hj : j = i
  · rw [hj, Function.update_self]
  · rw [Function.update_of_ne hj, view_frame h hf hj]

theorem tidy_frame (h : Sound v A fs) (ht : Tidy v A) (hf : Frame v ∅ i A A')
    (hi : Live v A' i → (A'.ino i).type = T_DIR →
      (A'.ino i).size % DESIZE = 0 ∧ ∀ de ∈ entries A' i, de.inum < v.sb.ninodes) : Tidy v A' := by
  intro j hj hd
  by_cases hji : j = i
  · subst hji
    exact hi hj hd
  · have hl := (hf.live hji).1 hj
    have hv := congrArg Node.entries (view_frame h hf hji)
    rw [view_entries hj.1 hd, view_entries hl.1 (hf.ino j hji ▸ hd)] at hv
    rw [hv, hf.ino j hji]
    exact ht j hl (hf.ino j hji ▸ hd)

theorem entries_written {src : Nat → UInt8} (hmod : (A.ino i).size % DESIZE = 0)
    (hk : k ≤ (A.ino i).size / DESIZE) (hw : FileWritten v ∅ ∅ ∅ ip i (DESIZE * k) DESIZE src A fs fs' A') :
    entries A' i = place (entries A i) k (decodeDirent ((List.range DESIZE).map src)) := by
  obtain ⟨f, hino⟩ := hw.ino
  have hsize : (A'.ino i).size / DESIZE = max ((A.ino i).size / DESIZE) (k + 1) := by
    rw [hino]
    simp only [DESIZE, DIRSIZ] at *
    omega
  have hk' : k ≤ (entries A i).length := by rwa [length_entries]
  apply List.ext_getElem?
  intro j
  rw [getElem?_place hk']
  by_cases hj : j < max ((A.ino i).size / DESIZE) (k + 1)
  · rw [getElem?_entries A' i (hsize ▸ hj)]
    have hbytes : ∀ q < DESIZE, byte A' i (DESIZE * j + q) = if j = k then src q else byte A i (DESIZE * j + q) := by
      intro q hq
      have hlt : DESIZE * j + q < max (A.ino i).size (DESIZE * k + DESIZE) := by
        simp only [DESIZE, DIRSIZ] at *
        omega
      rw [hw.bytes _ hlt]
      by_cases hjk : j = k
      · subst hjk
        rw [if_pos (by omega), if_pos rfl, Nat.add_sub_cancel_left]
      · rw [if_neg hjk, if_neg]
        simp only [DESIZE, DIRSIZ] at *
        omega
    by_cases hjk : j = k
    · rw [if_pos hjk]
      unfold ent FileData.segment
      congr 2
      refine List.map_congr_left fun q hq => ?_
      rw [hbytes q (List.mem_range.1 hq), if_pos hjk]
    · rw [if_neg hjk, getElem?_entries A i (by omega)]
      unfold ent
      rw [segment_congr fun q hq => (hbytes q hq).trans (if_neg hjk)]
  · rw [if_neg (by omega), List.getElem?_eq_none (by rw [length_entries, hsize]; omega),
      List.getElem?_eq_none (by rw [length_entries]; omega)]

theorem decode_encodeDirent {de : Dirent} (hi : de.inum < 2 ^ 16) (hn : de.name.length = DIRSIZ) :
    decodeDirent ((List.range DESIZE).map fun k => (encodeDirent de).getD k 0) = de := by
  have hlen : (encodeDirent de).length = DESIZE := by simp [encodeDirent, hn, DESIZE]
  have hmap : (List.range DESIZE).map (fun k => (encodeDirent de).getD k 0) = encodeDirent de := by
    apply List.ext_getElem
    · simp [hlen]
    · intro j hj hj'
      simp [List.getD_eq_getElem?_getD, hj']
  rw [hmap]
  unfold decodeDirent encodeDirent
  rw [List.take_left' (length_leBytes 2 _), List.drop_left' (length_leBytes 2 _), leNat_leBytes]
  congr 1
  exact Nat.mod_eq_of_lt hi

theorem decode_encodeDirent_mod (inum : Nat) {name : List UInt8} (hn : name.length = DIRSIZ) :
    decodeDirent ((List.range DESIZE).map fun k => (encodeDirent ⟨inum % 2 ^ 16, name⟩).getD k 0) =
      ⟨inum % 2 ^ 16, name⟩ :=
  decode_encodeDirent (Nat.mod_lt _ (by decide)) hn

theorem length_strncpy (t : List UInt8) (n : Nat) : (strncpy t n).length = n := by
  unfold strncpy
  simp only [List.length_append, List.length_replicate, List.length_take]
  omega

structure Placed (v : Volume) (A : Image) (fs : Fs) (dp i k : Nat) (de : Dirent) (fs' : Fs) (A' : Image) : Prop where
  sound : Sound v A' fs'
  tidy : Tidy v A'
  edits : Edits dp fs fs'
  frame : Frame v ∅ i A A'
  fields : (A'.ino i).type = (A.ino i).type ∧ (A'.ino i).nlink = (A.ino i).nlink
  view : view v A' = Function.update (view v A) i { view v A i with entries := place (entries A i) k de }

theorem placed_of_written {src : Nat → UInt8} (h : Sound v A fs) (ht : Tidy v A) (hc : Cached v A fs dp i)
    (hdir : (A.ino i).type = T_DIR) (hk : k ≤ (A.ino i).size / DESIZE)
    (hin : (decodeDirent ((List.range DESIZE).map src)).inum < v.sb.ninodes)
    (hw : FileWritten v ∅ ∅ ∅ dp i (DESIZE * k) DESIZE src A fs fs' A') :
    Placed v A fs dp i k (decodeDirent ((List.range DESIZE).map src)) fs' A' := by
  obtain ⟨hmod, hnames⟩ := ht i hc.live hdir
  obtain ⟨f, hino⟩ := hw.ino
  have hent := entries_written hmod hk hw
  have hs := sound_written h hc hw
  refine ⟨hs, ?_, hw.edits, hw.frame, by simp [hino], ?_⟩
  · refine tidy_frame h ht hw.frame fun _ _ => ⟨?_, fun de hmem => ?_⟩
    · rw [hino]
      simp only [DESIZE, DIRSIZ] at *
      omega
    · rw [hent] at hmem
      rcases mem_place hmem with hmem | rfl
      · exact hnames de hmem
      · exact hin
  · rw [view_eq_update h hw.frame]
    congr 1
    simp [Directory.view, hc.live.1, hino, hdir, hent]

/-- What linking a name does: nothing if the name is there, else an unused place is filled. -/
def Linked (v : Volume) (A : Image) (i inum : Nat) (name : List UInt8) (fs : Fs) (dp : Nat) (r : Int) (fs' : Fs) :
    Prop :=
  r = -1 ∧ Sound v A fs' ∧ Refs fs fs' [] ∧ fs'.log = fs.log ∧ lookup (entries A i) name ≠ none ∨
    r = 0 ∧ lookup (entries A i) name = none ∧ ∃ A' k, k ≤ (entries A i).length ∧
      (∀ de, (entries A i)[k]? = some de → de.inum = 0) ∧ Placed v A fs dp i k ⟨inum, strncpy name DIRSIZ⟩ fs' A'

theorem dirlink_spec {inum : Nat} (h : Sound v A fs) (ht : Tidy v A) (ha : Anchored v A fs) (hok : Tolerant G ok)
    (hc : Cached v A fs dp i) (hdir : (A.ino i).type = T_DIR) (hbusy : fs.log.busy = true)
      (hinum : inum < v.sb.ninodes) :
    (dirlink dp name inum fs).Holds G (Linked v A i inum name fs dp) (fun w _ => ok w) := by
  unfold dirlink
  rw [holds_bind]
  refine (dirlookup_spec h ht hok.1 hc hdir).mono ?_ fun _ _ h => h
  rintro (_ | ⟨ip, off⟩) fs₁ hfound
  · obtain ⟨rfl, hno⟩ := hfound
    simp only [holds_bind, holds_fetch, hc.din h.rep]
    refine (dirlink_scan_spec h (ht i hc.live hdir).1 (.inl hok.1) hc hdir _ 0 (Nat.zero_le _) (by omega)
      fun j hj => absurd hj (Nat.not_lt_zero j)).mono ?_ fun _ _ h => h
    rintro _ fs₂ ⟨rfl, k, rfl, hk, hunused, -⟩
    have hf := h.full i hc.live
    have hmax : MAXFILE * BSIZE < 2 ^ 31 := by decide
    have hoff : DESIZE * k ≤ (A.ino i).size := by
      simp only [DESIZE, DIRSIZ] at *
      omega
    have hsize := hf.size
    refine (writei_spec _ h.rep h.owns hc (Set.notMem_empty _) hf (by rw [hdir]; decide) hbusy (by omega)
      (by decide) (.inl hok)).mono ?_ fun _ _ h => h
    intro r fs₃ hr
    simp only [holds_ite, holds_panic, holds_pure]
    refine ⟨fun _ => hok.1 _ (by decide), fun hrd => ?_⟩
    by_cases hbad : (A.ino i).size < DESIZE * k ∨ 2 ^ 32 ≤ DESIZE * k + DESIZE ∨ MAXFILE * BSIZE < DESIZE * k + DESIZE
    · rw [if_pos hbad] at hr
      exact absurd (hr.1 ▸ hrd) (by decide)
    · rw [if_neg hbad] at hr
      obtain ⟨-, A', hw⟩ := hr
      have hlt : inum < 2 ^ 16 := hinum.trans_le v.inodes
      have hde := decode_encodeDirent_mod inum (length_strncpy name DIRSIZ)
      have hp := placed_of_written h ht hc hdir hk (by rw [hde]; exact (Nat.mod_le _ _).trans_lt hinum) hw
      rw [hde, Nat.mod_eq_of_lt hlt] at hp
      exact .inr ⟨rfl, hno, A', k, by rwa [length_entries], hunused, hp⟩
  · obtain ⟨k, de, -, -, -, hlook, hip, -, hs, hr, x, rfl, -⟩ := hfound
    rw [holds_bind]
    refine (iput_walk hs ha hr hip).mono ?_ fun _ _ h => h
    rintro _ fs' ⟨hs', hr', rfl⟩
    exact (holds_pure _ _).2 (.inl ⟨rfl, hs', hr', rfl, by simp [hlook]⟩)

theorem isdirempty_loop_spec (h : Sound v A fs) (ht : Tidy v A) (hok : Lenient ok) (hc : Cached v A fs dp i)
    (hdir : (A.ino i).type = T_DIR) (fuel k : Nat) (hfuel : (A.ino i).size / DESIZE < fuel + k)
    (hno : ∀ j, 2 ≤ j → j < k → ∀ de, (entries A i)[j]? = some de → de.inum = 0) :
    (isdirempty.loop dp fuel (DESIZE * k) fs).Holds G
      (fun r fs' => fs = fs' ∧ (r = true → ∀ j, 2 ≤ j → ∀ de, (entries A i)[j]? = some de → de.inum = 0))
      (fun w _ => ok w) := by
  have hmod := (ht i hc.live hdir).1
  have hend : (A.ino i).size / DESIZE ≤ k → ∀ j, 2 ≤ j → ∀ de, (entries A i)[j]? = some de → de.inum = 0 := by
    intro hle j hj de hget
    have hlt := (List.getElem?_eq_some_iff.1 hget).1
    rw [length_entries] at hlt
    exact hno j hj (by omega) de hget
  induction fuel generalizing k with
  | zero => exact (holds_pure _ _).2 ⟨rfl, fun _ => hend (by omega)⟩
  | succ fuel ih =>
      unfold isdirempty.loop
      simp only [holds_bind, holds_fetch, holds_ite, hc.din h.rep]
      refine ⟨fun hlt => ?_, fun hge => ?_⟩
      · refine (readDirent_spec h hmod (.inl hok) hc hdir hlt).mono ?_ fun _ _ h => h
        rintro _ fs₁ ⟨rfl, rfl⟩
        have hk := (lt_count_iff k hmod).1 hlt
        refine ⟨fun hne => absurd rfl hne, fun _ => ⟨fun _ => ?_, fun h0 => ?_⟩⟩
        · exact (holds_pure _ _).2 ⟨rfl, fun hf => absurd hf (by decide)⟩
        · have hstep : DESIZE * k + DESIZE = DESIZE * (k + 1) := (Nat.mul_succ _ _).symm
          rw [hstep]
          have hno' : ∀ j, 2 ≤ j → j < k + 1 → ∀ de, (entries A i)[j]? = some de → de.inum = 0 := by
            intro j hj hjk de hget
            by_cases hlast : j = k
            · rw [hlast, getElem?_entries A i hk, Option.some.injEq] at hget
              exact hget ▸ not_not.1 h0
            · exact hno j hj (by omega) de hget
          refine ih (k + 1) (by omega) hno' fun hle j hj de hget => ?_
          have hlt := (List.getElem?_eq_some_iff.1 hget).1
          rw [length_entries] at hlt
          exact hno' j hj (by omega) de hget
      · rw [lt_count_iff k hmod] at hge
        exact (holds_pure _ _).2 ⟨rfl, fun _ => hend (by omega)⟩

theorem isdirempty_spec (h : Sound v A fs) (ht : Tidy v A) (hok : Lenient ok) (hc : Cached v A fs dp i)
    (hdir : (A.ino i).type = T_DIR) :
    (isdirempty dp fs).Holds G
      (fun r fs' => fs = fs' ∧ (r = true → ∀ j, 2 ≤ j → ∀ de, (entries A i)[j]? = some de → de.inum = 0))
      (fun w _ => ok w) := by
  unfold isdirempty
  simp only [holds_bind, holds_fetch, hc.din h.rep]
  rw [Nat.mul_comm 2 DESIZE]
  exact isdirempty_loop_spec h ht hok hc hdir _ 2 (by omega) fun j hj hj' => by omega

end ArmXv6.Directory
