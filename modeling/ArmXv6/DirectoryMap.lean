import ArmXv6.Directory
import Mathlib.Data.List.TakeWhile

namespace ArmXv6.DirectoryMap

open Lib.Exec Lib.Bytes Param Blocks Fs Content Sysfile DiskImage BlockSpecs BlockAlloc Ownership BlockMap FileData
  Truncate InodeSpecs Namespace Directory

/-- What counts of a name: the bytes before the first NUL, fourteen at most. -/
def key (name : List UInt8) : List UInt8 := (name.takeWhile (· ≠ 0)).take DIRSIZ

theorem strncmp_eq_zero (p q : List UInt8) (n : Nat) :
    strncmp p q n = 0 ↔ (p.takeWhile (· ≠ 0)).take n = (q.takeWhile (· ≠ 0)).take n := by
  have hsub : ∀ a b : UInt8, (a.toNat : Int) - b.toNat = 0 ↔ a = b := by
    intro a b
    rw [Int.sub_eq_zero, Int.natCast_inj, UInt8.toNat_inj]
  induction n generalizing p q with
  | zero => simp [strncmp]
  | succ n ih =>
      unfold strncmp
      cases p with
      | nil =>
          cases q with
          | nil => simp
          | cons b q =>
              rw [if_neg (by simp), hsub]
              by_cases hb : b = 0
              · simp [hb]
              · simp [hb, Ne.symm hb]
      | cons a p =>
          cases q with
          | nil =>
              by_cases ha : a = 0
              · simp [ha]
              · rw [if_neg (by simp [ha]), hsub]
                simp [ha]
          | cons b q =>
              by_cases ha : a = 0
              · rw [if_neg (by simp [ha]), hsub]
                by_cases hb : b = 0
                · simp [ha, hb]
                · simp [ha, hb, Ne.symm hb]
              · by_cases hab : a = b
                · subst hab
                  rw [if_pos (by simp [ha])]
                  simpa [ha] using ih p q
                · rw [if_neg (by simp [hab]), hsub]
                  by_cases hb : b = 0
                  · simp [ha, hb]
                  · simp [ha, hb, hab]

theorem namecmp_eq_zero (s t : List UInt8) : namecmp s t = 0 ↔ key s = key t := strncmp_eq_zero s t DIRSIZ

theorem takeWhile_take (l : List UInt8) (n : Nat) : (l.take n).takeWhile (· ≠ 0) = (l.takeWhile (· ≠ 0)).take n := by
  induction l generalizing n with
  | nil => simp
  | cons a l ih =>
      cases n with
      | zero => simp
      | succ n =>
          by_cases ha : a = 0
          · simp [ha]
          · simpa [ha] using ih n

theorem key_strncpy (name : List UInt8) : key (strncpy name DIRSIZ) = key name := by
  have htw : ∀ (u : List UInt8) (n : Nat), (∀ c ∈ u, c ≠ 0) → (u ++ List.replicate n 0).takeWhile (· ≠ 0) = u := by
    intro u n hu
    rw [List.takeWhile_append_of_pos (by simpa using hu)]
    cases n with
    | zero => simp
    | succ n => simp [List.replicate_succ]
  unfold key strncpy
  rw [htw]
  · rw [List.take_take, Nat.min_self]
  · intro c hc
    have := List.mem_of_mem_take hc
    simpa using List.mem_takeWhile_imp this

/-- What a name is bound to. -/
def binding (l : List Dirent) (name : List UInt8) : Option Nat := (lookup l name).map Dirent.inum

/-- No two live entries have equal names. -/
def Distinct (l : List Dirent) : Prop :=
  ∀ (j k : Nat) (d e : Dirent), l[j]? = some d → l[k]? = some e → d.inum ≠ 0 → e.inum ≠ 0 →
    key d.name = key e.name → j = k

theorem matches_iff (name : List UInt8) (de : Dirent) : Matches name de ↔ de.inum ≠ 0 ∧ key name = key de.name := by
  unfold Matches
  rw [namecmp_eq_zero]

theorem lookup_eq_some_iff {l : List Dirent} (hd : Distinct l) {name : List UInt8} {de : Dirent} :
    lookup l name = some de ↔ ∃ k : Nat, l[k]? = some de ∧ Matches name de := by
  constructor
  · intro h
    obtain ⟨k, hk⟩ := List.mem_iff_getElem?.1 (List.mem_of_find?_eq_some h)
    exact ⟨k, hk, by simpa using List.find?_some h⟩
  · rintro ⟨k, hk, hm⟩
    refine lookup_eq_some hk hm fun j hj e he hme => ?_
    rw [matches_iff] at hm hme
    have := hd j k e de he hk hme.1 hm.1 (hme.2.symm.trans hm.2)
    omega

theorem binding_eq_some {l : List Dirent} (hd : Distinct l) {name : List UInt8} {c : Nat} :
    binding l name = some c ↔ ∃ (k : Nat) (de : Dirent), l[k]? = some de ∧ Matches name de ∧ de.inum = c := by
  unfold binding
  rw [Option.map_eq_some_iff]
  constructor
  · rintro ⟨de, h, hc⟩
    obtain ⟨k, hk, hm⟩ := (lookup_eq_some_iff hd).mp h
    exact ⟨k, de, hk, hm, hc⟩
  · rintro ⟨k, de, hk, hm, hc⟩
    exact ⟨de, (lookup_eq_some_iff hd).mpr ⟨k, hk, hm⟩, hc⟩

section Place

variable {l : List Dirent} {k : Nat} (hd : Distinct l) (hk : k ≤ l.length)

include hd hk

theorem distinct_bind {inum : Nat} {name : List UInt8} (hno : lookup l name = none) :
    Distinct (place l k ⟨inum, strncpy name DIRSIZ⟩) := by
  have hnew : ∀ (j : Nat) (e : Dirent), l[j]? = some e → e.inum ≠ 0 → key name ≠ key e.name := by
    intro j e he h0 hkey
    exact lookup_eq_none.1 hno e (List.mem_of_getElem? he) ((matches_iff name e).mpr ⟨h0, hkey⟩)
  intro a b d e ha hb hda heb hkey
  rw [getElem?_place hk] at ha hb
  by_cases hak : a = k <;> by_cases hbk : b = k
  · rw [hak, hbk]
  · rw [if_pos hak, Option.some.injEq] at ha
    rw [if_neg hbk] at hb
    subst ha
    exact absurd ((key_strncpy name).symm.trans hkey) (hnew b e hb heb)
  · rw [if_neg hak] at ha
    rw [if_pos hbk, Option.some.injEq] at hb
    subst hb
    exact absurd ((key_strncpy name).symm.trans hkey.symm) (hnew a d ha hda)
  · rw [if_neg hak] at ha
    rw [if_neg hbk] at hb
    exact hd a b d e ha hb hda heb hkey

theorem binding_bind {inum : Nat} {name : List UInt8} (hno : lookup l name = none) (h0 : inum ≠ 0)
    (hfree : ∀ de, l[k]? = some de → de.inum = 0) (n : List UInt8) :
    binding (place l k ⟨inum, strncpy name DIRSIZ⟩) n = if key n = key name then some inum else binding l n := by
  have hd' : Distinct (place l k ⟨inum, strncpy name DIRSIZ⟩) := distinct_bind hd hk hno
  apply Option.ext
  intro c
  rw [binding_eq_some hd']
  by_cases hn : key n = key name
  · rw [if_pos hn]
    constructor
    · rintro ⟨j, de, hj, hm, rfl⟩
      rw [getElem?_place hk] at hj
      by_cases hjk : j = k
      · rw [if_pos hjk, Option.some.injEq] at hj
        rw [← hj]
      · rw [if_neg hjk] at hj
        rw [matches_iff] at hm
        exact absurd ((matches_iff name de).mpr ⟨hm.1, hn.symm.trans hm.2⟩)
          (lookup_eq_none.1 hno de (List.mem_of_getElem? hj))
    · intro hc
      cases hc
      refine ⟨k, ⟨inum, strncpy name DIRSIZ⟩, by rw [getElem?_place hk, if_pos rfl], ?_, rfl⟩
      rw [matches_iff]
      exact ⟨h0, hn.trans (key_strncpy name).symm⟩
  · rw [if_neg hn, binding_eq_some hd]
    constructor
    · rintro ⟨j, de, hj, hm, rfl⟩
      rw [getElem?_place hk] at hj
      by_cases hjk : j = k
      · rw [if_pos hjk, Option.some.injEq] at hj
        rw [matches_iff, ← hj] at hm
        exact absurd (hm.2.trans (key_strncpy name)) hn
      · rw [if_neg hjk] at hj
        exact ⟨j, de, hj, hm, rfl⟩
    · rintro ⟨j, de, hj, hm, rfl⟩
      have hjk : j ≠ k := by
        rintro rfl
        exact hm.1 (hfree de hj)
      exact ⟨j, de, by rw [getElem?_place hk, if_neg hjk]; exact hj, hm, rfl⟩

theorem distinct_clear : Distinct (place l k blank) := by
  intro a b d e ha hb hda heb hkey
  rw [getElem?_place hk] at ha hb
  by_cases hak : a = k
  · rw [if_pos hak, Option.some.injEq] at ha
    subst ha
    exact absurd rfl hda
  · by_cases hbk : b = k
    · rw [if_pos hbk, Option.some.injEq] at hb
      subst hb
      exact absurd rfl heb
    · rw [if_neg hak] at ha
      rw [if_neg hbk] at hb
      exact hd a b d e ha hb hda heb hkey

theorem binding_clear {name : List UInt8} {de : Dirent} (hget : l[k]? = some de) (hm : Matches name de)
    (n : List UInt8) :
    binding (place l k blank) n = if key n = key name then none else binding l n := by
  have hd' := distinct_clear hd hk
  rw [matches_iff] at hm
  apply Option.ext
  intro c
  rw [binding_eq_some hd']
  by_cases hn : key n = key name
  · rw [if_pos hn]
    constructor
    · rintro ⟨j, e, hj, hme, rfl⟩
      rw [getElem?_place hk] at hj
      rw [matches_iff] at hme
      by_cases hjk : j = k
      · rw [if_pos hjk, Option.some.injEq] at hj
        subst hj
        exact absurd rfl hme.1
      · rw [if_neg hjk] at hj
        exact absurd (hd j k e de hj hget hme.1 hm.1 (hme.2.symm.trans (hn.trans hm.2))) hjk
    · intro hc
      cases hc
  · rw [if_neg hn, binding_eq_some hd]
    constructor
    · rintro ⟨j, e, hj, hme, rfl⟩
      rw [getElem?_place hk] at hj
      by_cases hjk : j = k
      · rw [if_pos hjk, Option.some.injEq] at hj
        subst hj
        exact absurd rfl hme.1
      · rw [if_neg hjk] at hj
        exact ⟨j, e, hj, hme, rfl⟩
    · rintro ⟨j, e, hj, hme, rfl⟩
      have hjk : j ≠ k := by
        rintro rfl
        rw [hget, Option.some.injEq] at hj
        subst hj
        exact hn (((matches_iff n de).mp hme).2.trans hm.2.symm)
      exact ⟨j, e, by rw [getElem?_place hk, if_neg hjk]; exact hj, hme, rfl⟩

end Place

variable {v : Volume} {A A' : Image} {fs fs' : Fs} {dp i k : Nat} {name : List UInt8} {G : Event → Prop}

def Exhausted (fs : Fs) (w : Stop) : Prop := w = .panic "iget: no inodes" ∧ ∀ ip < NINODE, (fs.icache ip).ref ≠ 0

/-- A reference to any inode number: entry ip has one more, or is set up for it. -/
structure Got (fs : Fs) (inum ip : Nat) (x : Inode) : Prop where
  lt : ip < NINODE
  dev : x.dev = ROOTDEV
  inum : x.inum = inum
  again : 0 < (fs.icache ip).ref → x = { fs.icache ip with ref := (fs.icache ip).ref + 1 }
  fresh : (fs.icache ip).ref = 0 → x.ref = 1 ∧ x.valid = false

theorem iget_got (inum : Nat) (fs : Fs) :
    (iget ROOTDEV inum fs).Holds G (fun ip fs' => ∃ x, Got fs inum ip x ∧ fs' = putInode fs ip x)
      fun w _ => Exhausted fs w := by
  simp only [iget, holds_bind, holds_fetch]
  cases hfind : (List.range NINODE).find? fun j =>
      0 < (fs.icache j).ref ∧ (fs.icache j).dev = ROOTDEV ∧ (fs.icache j).inum = inum with
  | some ip =>
      have hlt := List.mem_range.1 (List.mem_of_find?_eq_some hfind)
      have hp := List.find?_some hfind
      simp only [decide_eq_true_eq] at hp
      obtain ⟨href, hdev, hinum⟩ := hp
      simp only [holds_bind, holds_setInode, holds_pure]
      exact ⟨{ fs.icache ip with ref := (fs.icache ip).ref + 1 },
        ⟨hlt, hdev, hinum, fun _ => rfl, fun h0 => by omega⟩, rfl⟩
  | none =>
      cases hfree : (List.range NINODE).find? fun j => (fs.icache j).ref = 0 with
      | some ip =>
          have hlt := List.mem_range.1 (List.mem_of_find?_eq_some hfree)
          have hp := List.find?_some hfree
          simp only [decide_eq_true_eq] at hp
          simp only [holds_bind, holds_setInode, holds_pure]
          exact ⟨_, ⟨hlt, rfl, rfl, fun h0 => by omega, fun _ => ⟨rfl, rfl⟩⟩, rfl⟩
      | none =>
          simp only [holds_panic]
          refine ⟨rfl, fun ip hip h0 => ?_⟩
          have := List.find?_eq_none.1 hfree ip (List.mem_range.2 hip)
          simp [h0] at this

structure Untouched (fs fs' : Fs) : Prop where
  blk : fs'.blk = fs.blk
  log : fs'.log = fs.log
  cache : ∀ ip, 0 < (fs.icache ip).ref → fs'.icache ip = fs.icache ip
  idle : ∀ ip, (fs.icache ip).ref = 0 → (fs'.icache ip).ref = 0

theorem iput_got {inum ip : Nat} {x : Inode} (hg : Got fs inum ip x) :
    (iput ip (putInode fs ip x)).Holds G (fun _ fs' => Untouched fs fs') fun w _ => Exhausted fs w := by
  have hself : (putInode fs ip x).icache ip = x := Function.update_self ..
  have hother : ∀ jp, jp ≠ ip → (putInode fs ip x).icache jp = fs.icache jp := fun jp hj => Function.update_of_ne hj _ _
  have hlast : ¬Last (putInode fs ip x) ip := by
    unfold Last
    rw [hself]
    rcases Nat.eq_zero_or_pos (fs.icache ip).ref with h0 | h0
    · simp [(hg.fresh h0).2]
    · rw [hg.again h0]
      exact fun hl => by have := hl.1; simp only at this; omega
  refine (iput_keep hlast).mono (fun _ fs' hfs => ?_) fun _ _ h => h
  subst hfs
  rw [hself]
  refine ⟨rfl, rfl, fun jp hjp => ?_, fun jp hjp => ?_⟩
  · by_cases hj : jp = ip
    · subst hj
      change Function.update _ jp _ jp = _
      rw [Function.update_self, hg.again hjp]
      rfl
    · exact (Function.update_of_ne hj _ _).trans (hother jp hj)
  · by_cases hj : jp = ip
    · subst hj
      simp [putInode, (hg.fresh hjp).1]
    · simp [putInode, hj, hjp]

/-- The directory of inode i has the entries l from now on, in a sound file system whose
other inodes are as before. -/
structure Becomes (v : Volume) (A : Image) (i : Nat) (l : List Dirent) (fs' : Fs) (A' : Image) : Prop where
  sound : Sound v A' fs'
  dir : (A'.ino i).type = T_DIR
  whole : (A'.ino i).size % DESIZE = 0
  entries : entries A' i = l
  others : Frame v ∅ i A A'

theorem becomes_of_written {src : Nat → UInt8} (h : Sound v A fs) (hc : Cached v A fs dp i)
    (hdir : (A.ino i).type = T_DIR) (hmod : (A.ino i).size % DESIZE = 0) (hk : k ≤ (A.ino i).size / DESIZE)
    (hw : FileWritten v ∅ ∅ ∅ dp i (DESIZE * k) DESIZE src A fs fs' A') :
    Becomes v A i (place (entries A i) k (decodeDirent ((List.range DESIZE).map src))) fs' A' := by
  obtain ⟨f, hino⟩ := hw.ino
  refine ⟨sound_written h hc hw, by simp [hino, hdir], ?_, entries_written hmod hk hw, hw.frame⟩
  rw [hino]
  simp only [DESIZE, DIRSIZ] at *
  omega

/-- An entry never crosses a block, and brings one block and an indirect block at most. -/
theorem entry_room {k size : Nat} (hk : DESIZE * k ≤ size) : spans (DESIZE * k) DESIZE + 1 = 2 ∧
    need (nblocks size) (max (nblocks size) (nblocks (DESIZE * k + DESIZE))) ≤ 2 ∧
    (DESIZE * k + DESIZE ≤ size → need (nblocks size) (max (nblocks size) (nblocks (DESIZE * k + DESIZE))) = 0) := by
  have hle : nblocks (DESIZE * k + DESIZE) ≤ nblocks size + 1 := by
    simp only [DESIZE, DIRSIZ, nblocks, BSIZE] at *
    omega
  refine ⟨?_, ?_, fun h => ?_⟩
  · unfold spans
    rw [if_neg (by decide)]
    simp only [DESIZE, DIRSIZ, BSIZE]
    omega
  · unfold need
    have hmax : max (nblocks size) (nblocks (DESIZE * k + DESIZE)) - nblocks size ≤ 1 := by omega
    split
    case isTrue => omega
    case isFalse => omega
  · have hsame : nblocks (DESIZE * k + DESIZE) ≤ nblocks size := by
      simp only [nblocks, BSIZE]
      omega
    unfold need
    rw [Nat.max_eq_left hsame, Nat.sub_self, if_neg (by omega)]

section Operations

variable (h : Sound v A fs) (hq : Quiet fs) (hc : Cached v A fs dp i) (hdir : (A.ino i).type = T_DIR)
  (hmod : (A.ino i).size % DESIZE = 0)

include h hq hc hdir hmod

/-- A search gives the entry under the name and its offset, and changes only the cache entry it returns. -/
theorem dirlookup_binding :
    (dirlookup dp name fs).Holds G
      (fun r fs' => match r with
        | none => fs' = fs ∧ binding (entries A i) name = none
        | some (ip, off) => ∃ k de x, (entries A i)[k]? = some de ∧ off = DESIZE * k ∧ Matches name de ∧
          binding (entries A i) name = some de.inum ∧ Got fs de.inum ip x ∧ fs' = putInode fs ip x)
      fun w _ => Exhausted fs w := by
  refine dirlookup_search h hmod (.inr hq) hc hdir (fun hn => ⟨rfl, by simp [binding, hn]⟩) fun k de hget hm hl => ?_
  refine (iget_got de.inum fs).mono ?_ fun _ _ h => h
  rintro ip fs' ⟨x, hg, rfl⟩
  exact ⟨k, de, x, hget, rfl, hm, by simp [binding, hl], hg, rfl⟩

/-- Linking a name that is there changes nothing; a new name goes to an entry that is not in use. -/
theorem dirlink_binding {inum : Nat} (hlt : inum < 2 ^ 16) (hbusy : fs.log.busy = true)
    (hroom : binding (entries A i) name = none → Plenty v A fs i 2 2 ∧
      ((∃ de ∈ entries A i, de.inum = 0) ∨ (A.ino i).size < MAXFILE * BSIZE)) :
    (dirlink dp name inum fs).Holds G
      (fun r fs' => r = -1 ∧ binding (entries A i) name ≠ none ∧ Untouched fs fs' ∨
        r = 0 ∧ lookup (entries A i) name = none ∧ ∃ A' k, k ≤ (entries A i).length ∧
          (∀ de, (entries A i)[k]? = some de → de.inum = 0) ∧
          Becomes v A i (place (entries A i) k ⟨inum, strncpy name DIRSIZ⟩) fs' A')
      fun w _ => Exhausted fs w := by
  unfold dirlink
  rw [holds_bind]
  refine dirlookup_search h hmod (.inr hq) hc hdir (fun hn => ?_) fun k de hget hm hl => ?_
  · obtain ⟨hplenty, hspace⟩ := hroom (by simp [binding, hn])
    simp only [holds_bind, holds_fetch, hc.din h.rep]
    refine (dirlink_scan_spec h hmod (.inr hq) hc hdir _ 0 (Nat.zero_le _) (by omega)
      fun j hj => absurd hj (Nat.not_lt_zero j)).mono ?_ fun _ _ h => h
    rintro _ fs₂ ⟨rfl, k, rfl, hk, hunused, hused⟩
    have hf := h.full i hc.live
    have hmax : MAXFILE * BSIZE < 2 ^ 31 := by decide
    have hdvd : MAXFILE * BSIZE % DESIZE = 0 := by decide
    have hoff : DESIZE * k ≤ (A.ino i).size := by
      simp only [DESIZE, DIRSIZ] at *
      omega
    have hsize := hf.size
    -- a place at the end is taken only when every entry is in use
    have hfits : DESIZE * k + DESIZE ≤ MAXFILE * BSIZE := by
      rcases Nat.lt_or_ge k ((A.ino i).size / DESIZE) with hlt' | hge
      · exact (entry_le hmod ((lt_count_iff k hmod).2 hlt')).trans hsize
      · have hall : ¬∃ de ∈ entries A i, de.inum = 0 := by
          rintro ⟨de, hde, h0⟩
          obtain ⟨j, hj⟩ := List.mem_iff_getElem?.1 hde
          have hjlt := (List.getElem?_eq_some_iff.1 hj).1
          rw [length_entries] at hjlt
          exact hused j (by omega) de hj h0
        have hfree := hspace.resolve_left hall
        generalize MAXFILE * BSIZE = m at hfree hdvd
        simp only [DESIZE, DIRSIZ] at *
        omega
    obtain ⟨hspan, hneed, -⟩ := entry_room hoff
    have hp : Plenty v A fs i (spans (DESIZE * k) DESIZE + 1)
        (need (nblocks (A.ino i).size) (max (nblocks (A.ino i).size) (nblocks (DESIZE * k + DESIZE)))) :=
      ⟨by rw [hspan]; exact hplenty.budget, hplenty.nlog, hplenty.held, hneed.trans hplenty.free⟩
    refine (writei_spec _ h.rep h.owns hc (Set.notMem_empty _) hf (by rw [hdir]; decide) hbusy (by omega)
      (by decide) (.inr hp.enough)).mono ?_ fun _ _ h => h
    intro r fs₃ hr
    rw [if_neg (by omega)] at hr
    obtain ⟨rfl, A', hw⟩ := hr
    simp only [holds_ite, holds_panic, holds_pure]
    refine ⟨fun hne => absurd rfl hne, fun _ => ?_⟩
    have hde := decode_encodeDirent_mod inum (length_strncpy name DIRSIZ)
    have hb := becomes_of_written h hc hdir hmod hk hw
    rw [hde, Nat.mod_eq_of_lt hlt] at hb
    exact .inr ⟨trivial, hn, A', k, by rwa [length_entries], hunused, hb⟩
  · refine (iget_got de.inum fs).mono ?_ fun _ _ h => h
    rintro ip fs' ⟨x, hg, rfl⟩
    simp only [holds_bind]
    refine (iput_got hg).mono (fun _ fs'' hu => ?_) fun _ _ h => h
    exact (holds_pure _ _).2 (.inl ⟨rfl, by simp [binding, hl], hu⟩)

omit hq in
/-- The write of zeros with which unlink clears an entry. -/
theorem clear_binding {de : Dirent} (hget : (entries A i)[k]? = some de) (hbusy : fs.log.busy = true)
    (hp : Plenty v A fs i 2 0) :
    (writei dp (fun _ => 0) (DESIZE * k) DESIZE fs).Holds G
      (fun (r : Int) fs' => r = DESIZE ∧ ∃ A', Becomes v A i (place (entries A i) k blank) fs' A') fun _ _ =>
        False := by
  have hk := (List.getElem?_eq_some_iff.1 hget).1
  rw [length_entries] at hk
  have hf := h.full i hc.live
  have hmax : MAXFILE * BSIZE < 2 ^ 31 := by decide
  have hsize := hf.size
  have hle := entry_le hmod ((lt_count_iff k hmod).2 hk)
  obtain ⟨hspan, -, hneed⟩ := entry_room (show DESIZE * k ≤ (A.ino i).size by omega)
  have hp' : Plenty v A fs i (spans (DESIZE * k) DESIZE + 1)
      (need (nblocks (A.ino i).size) (max (nblocks (A.ino i).size) (nblocks (DESIZE * k + DESIZE)))) :=
    ⟨by rw [hspan]; exact hp.budget, hp.nlog, hp.held, by rw [hneed hle]; exact Nat.zero_le _⟩
  refine (writei_spec _ h.rep h.owns hc (Set.notMem_empty _) hf (by rw [hdir]; decide) hbusy (by omega)
    (by decide) (.inr hp'.enough)).mono ?_ fun _ _ h => h
  intro r fs' hr
  rw [if_neg (by omega)] at hr
  obtain ⟨rfl, A', hw⟩ := hr
  exact ⟨rfl, A', becomes_of_written h hc hdir hmod hk.le hw⟩

end Operations

theorem strncmp_take (p q : List UInt8) (n : Nat) : strncmp (p.take n) q n = strncmp p q n := by
  induction n generalizing p q with
  | zero => rfl
  | succ n ih =>
      cases p with
      | nil => rfl
      | cons a p =>
          unfold strncmp
          simp only [List.take_succ_cons, List.headD_cons, List.tail_cons, ih]
          rfl

theorem strncpy_take (name : List UInt8) (n : Nat) : strncpy (name.take n) n = strncpy name n := by
  unfold strncpy
  simp only [takeWhile_take, List.take_take, Nat.min_self]

theorem dirlookup_take (dp : Nat) (name : List UInt8) : dirlookup dp (name.take DIRSIZ) = dirlookup dp name := by
  have hcmp : ∀ t, namecmp (name.take DIRSIZ) t = namecmp name t := fun t => strncmp_take name t DIRSIZ
  have hloop : ∀ fuel off, dirlookup.loop dp (name.take DIRSIZ) fuel off = dirlookup.loop dp name fuel off := by
    intro fuel
    induction fuel with
    | zero => exact fun _ => rfl
    | succ fuel ih =>
        intro off
        unfold dirlookup.loop
        simp only [hcmp, ih]
  unfold dirlookup
  simp only [hloop]

theorem dirlink_take (dp : Nat) (name : List UInt8) (inum : Nat) :
    dirlink dp (name.take DIRSIZ) inum = dirlink dp name inum := by
  unfold dirlink
  rw [dirlookup_take, strncpy_take]

/-- A directory whose entries are distinct is a finite map from names to inode numbers. -/
theorem directory_refines_map (h : Sound v A fs) (hq : Quiet fs) (hc : Cached v A fs dp i)
    (hdir : (A.ino i).type = T_DIR) (hmod : (A.ino i).size % DESIZE = 0) (hd : Distinct (entries A i))
      (name : List UInt8) :
    (dirlookup dp name fs).Holds (fun _ => True)
      (fun r fs' => match r with
        | none => fs' = fs ∧ binding (entries A i) name = none
        | some (ip, off) => ∃ k de x, (entries A i)[k]? = some de ∧ off = DESIZE * k ∧ key de.name = key name ∧
          binding (entries A i) name = some de.inum ∧ Got fs de.inum ip x ∧ fs' = putInode fs ip x)
      (fun w _ => Exhausted fs w) ∧
    (∀ inum, 0 < inum → inum < 65536 → fs.log.busy = true →
      (binding (entries A i) name = none → Plenty v A fs i 2 2 ∧
        ((∃ de ∈ entries A i, de.inum = 0) ∨ (A.ino i).size < MAXFILE * BSIZE)) →
      (dirlink dp name inum fs).Holds (fun _ => True)
        (fun r fs' => if binding (entries A i) name ≠ none then r = -1 ∧ Untouched fs fs'
          else r = 0 ∧ ∃ A' l, Becomes v A i l fs' A' ∧ Distinct l ∧
            ∀ n, binding l n = if key n = key name then some inum else binding (entries A i) n)
        (fun w _ => Exhausted fs w)) ∧
    (∀ k de, (entries A i)[k]? = some de → de.inum ≠ 0 → key de.name = key name → fs.log.busy = true →
      Plenty v A fs i 2 0 →
      (writei dp (fun _ => 0) (DESIZE * k) DESIZE fs).Holds (fun _ => True)
        (fun (r : Int) fs' => r = DESIZE ∧ ∃ A' l, Becomes v A i l fs' A' ∧ Distinct l ∧
          ∀ n, binding l n = if key n = key name then none else binding (entries A i) n)
        (fun _ _ => False)) ∧
    dirlookup dp (name.take DIRSIZ) = dirlookup dp name ∧
    ∀ inum, dirlink dp (name.take DIRSIZ) inum = dirlink dp name inum := by
  refine ⟨?_, fun inum hpos hlt hbusy hroom => ?_, fun k de hget h0 hkey hbusy hp => ?_, dirlookup_take dp name,
    dirlink_take dp name⟩
  · refine (dirlookup_binding h hq hc hdir hmod).mono (fun r fs' hr => ?_) fun _ _ h => h
    cases r with
    | none => exact hr
    | some y =>
        obtain ⟨k, de, x, hget, hoff, hm, hb, hg, hfs⟩ := hr
        exact ⟨k, de, x, hget, hoff, ((matches_iff name de).mp hm).2.symm, hb, hg, hfs⟩
  · refine (dirlink_binding h hq hc hdir hmod hlt hbusy hroom).mono (fun r fs' hr => ?_) fun _ _ h => h
    rcases hr with ⟨hr, hb, hu⟩ | ⟨hr, hno, A', k, hk, hfree, hbec⟩
    · rw [if_pos hb]
      exact ⟨hr, hu⟩
    · rw [if_neg (by simp [binding, hno])]
      exact ⟨hr, A', _, hbec, distinct_bind hd hk hno, binding_bind hd hk hno (by omega) hfree⟩
  · refine (clear_binding h hc hdir hmod hget hbusy hp).mono (fun r fs' hr => ?_) fun _ _ h => h
    obtain ⟨hr, A', hbec⟩ := hr
    have hk := (List.getElem?_eq_some_iff.1 hget).1
    exact ⟨hr, A', _, hbec, distinct_clear hd hk.le,
      binding_clear hd hk.le hget ((matches_iff name de).mpr ⟨h0, hkey.symm⟩)⟩

/-- A volume of forty blocks, with eight inodes and a log of ten blocks. -/
def smallVolume : Volume where
  sb := ⟨40, 25, 8, 10⟩
  disksize := 40
  fits := le_rfl
  small := by decide
  log := by decide
  order := by decide
  inodes := by decide
  root := by decide

/-- The root directory, which has the two entries of an empty directory. -/
def rootDinode : Dinode := ⟨T_DIR, 0, 0, 1, 2 * DESIZE, fun j => if j = 0 then 5 else 0⟩

/-- The blocks of a file system that has only its root. -/
def smallBlocks : Nat → Block := fun b =>
  if b = 1 then Mem.zero.setSlice 0 (leBytes 4 40 ++ leBytes 4 25 ++ leBytes 4 8 ++ leBytes 4 10)
  else if b = 2 then setDinode Mem.zero ROOTINO rootDinode
  else if b = 4 then Mem.zero.setSlice 0 [63]
  else if b = 5 then Mem.zero.setSlice 0 ((dots ROOTINO ROOTINO).flatMap encodeDirent)
  else Mem.zero

def smallImage : Image where
  ino i := dinodeAt (smallBlocks (IBLOCK i)) (i % IPB)
  used b := (smallBlocks (BBLOCK b 8)).bit (b % BPB)
  data := smallBlocks

/-- In a transaction, with the root locked in the first cache entry. -/
def smallFs : Fs where
  blk := smallBlocks
  disksize := 40
  held := []
  dirty := []
  log := ⟨30, 10, true, []⟩
  icache ip := if ip = 0 then ⟨ROOTDEV, ROOTINO, 1, true, true, smallImage.ino ROOTINO⟩ else ⟨0, 0, 0, false, false,
    emptyDinode⟩
  input := []

theorem read_small :
    (∀ i < 8, (smallImage.ino i).type ≠ 0 ↔ i = ROOTINO) ∧
      (∀ k ≤ NDIRECT, (smallImage.ino ROOTINO).addrs k = if k = 0 then 5 else 0) ∧
      (∀ b < 40, smallImage.used b = true ↔ b < 6) ∧
      (smallImage.ino ROOTINO).size = 32 ∧ (smallImage.ino ROOTINO).type = T_DIR ∧
      entries smallImage ROOTINO = dots ROOTINO ROOTINO ∧
      ∀ j < 2, ∀ k < 2, ∀ d ∈ (dots ROOTINO ROOTINO)[j]?, ∀ e ∈ (dots ROOTINO ROOTINO)[k]?,
        key d.name = key e.name → j = k := by
  decide +kernel

theorem live_small (i : Nat) : Live smallVolume smallImage i ↔ i = ROOTINO := by
  have h := read_small.1
  constructor
  · rintro ⟨hi, ht⟩
    exact (h i hi).mp ht
  · rintro rfl
    exact ⟨by decide, (h 1 (by decide)).mpr rfl⟩

theorem slot_small (k : Nat) : slot smallImage ROOTINO k = if k = 0 then 5 else 0 := by
  have h := read_small.2.1
  unfold slot
  by_cases hk : k ≤ NDIRECT
  · rw [if_pos hk, h k hk]
  · rw [if_neg hk, if_pos (.inl (h NDIRECT le_rfl)), if_neg (by omega)]

theorem owns_small : Owns smallVolume smallImage ∅ ∅ where
  din i _ := dinodeAt_ok _ _
  range i k hl _ hk := by
    obtain rfl := (live_small i).mp hl
    rw [slot_small] at hk ⊢
    split at hk
    case isTrue h0 => rw [if_pos h0]; decide
    case isFalse => exact absurd rfl hk
  inj i j k l hi _ hj _ hk he := by
    obtain rfl := (live_small i).mp hi
    obtain rfl := (live_small j).mp hj
    rw [slot_small] at hk he
    rw [slot_small] at he
    refine ⟨rfl, ?_⟩
    split at hk
    case isTrue h0 =>
      rw [if_pos h0] at he
      split at he
      case isTrue h1 => omega
      case isFalse => omega
    case isFalse => exact absurd rfl hk
  loose b hb := absurd hb (Set.notMem_empty b)
  used b hb := by
    rw [read_small.2.2.1 b hb]
    constructor
    · intro hlt
      rcases Nat.lt_or_ge b 5 with h5 | h5
      · exact .inl h5
      · exact .inr
          (.inr ⟨ROOTINO, 0, (live_small _).mpr rfl, Set.notMem_empty _, by rw [slot_small, if_pos rfl]; omega⟩)
    · rintro (h5 | hb | ⟨i, k, hl, -, he⟩)
      · exact Nat.lt_succ_of_lt h5
      · exact absurd hb (Set.notMem_empty b)
      · obtain rfl := (live_small i).mp hl
        rw [slot_small] at he
        split at he <;> omega

theorem size_small : (smallImage.ino ROOTINO).size = 32 := read_small.2.2.2.1

theorem type_small : (smallImage.ino ROOTINO).type = T_DIR := read_small.2.2.2.2.1

theorem full_small : Full smallImage ROOTINO where
  size := by rw [size_small]; decide
  shape := by
    rw [size_small]
    refine ⟨fun n _ => ?_, ?_⟩
    · rw [slot_small]
      have h0 : bslot n = 0 ↔ n = 0 := by
        unfold bslot
        by_cases hn : n < NDIRECT
        · rw [if_pos hn]
        · have h12 : NDIRECT = 12 := rfl
          rw [if_neg hn]
          omega
      change _ ↔ n < 1
      simp only [h0]
      split <;> omega
    · rw [slot_small]
      decide

theorem sound_small : Sound smallVolume smallImage smallFs where
  rep := by
    refine ⟨⟨rfl, rfl, rfl, by decide, by simp [smallFs], by decide, by simp [smallFs], .refl _⟩, ⟨?_, ?_, ?_, ?_⟩,
      ⟨?_, ?_, ?_⟩⟩
    · decide +kernel
    · exact fun _ _ _ => rfl
    · exact fun _ _ => rfl
    · exact fun _ _ _ => rfl
    · intro ip _ hr
      by_cases h : ip = 0
      · subst h
        decide +kernel
      · simp [smallFs, h] at hr
    · intro ip _ jp _ hr hr' _
      by_cases h : ip = 0
      · by_cases h' : jp = 0
        · rw [h, h']
        · simp [smallFs, h'] at hr'
      · simp [smallFs, h] at hr
    · intro ip _ hr _
      by_cases h : ip = 0
      · subst h
        rfl
      · simp [smallFs, h] at hr
  owns := owns_small
  full i hl := by
    obtain rfl := (live_small i).mp hl
    exact full_small
  live ip _ hr _ := by
    by_cases h : ip = 0
    · subst h
      exact (live_small _).mpr rfl
    · simp [smallFs, h] at hr

theorem cached_small : Cached smallVolume smallImage smallFs 0 ROOTINO :=
  ⟨by decide, by decide, rfl, rfl, (live_small _).mpr rfl⟩

theorem entries_small : entries smallImage ROOTINO = dots ROOTINO ROOTINO := read_small.2.2.2.2.2.1

theorem distinct_small : Distinct (dots ROOTINO ROOTINO) := by
  intro j k d e hj hk hd he hkey
  have hlt := (List.getElem?_eq_some_iff.1 hj).1
  have hlt' := (List.getElem?_eq_some_iff.1 hk).1
  have hlen : (dots ROOTINO ROOTINO).length = 2 := rfl
  exact read_small.2.2.2.2.2.2 j (by omega) k (by omega) d hj e hk hkey

theorem directory_refines_map_root :
    (dirlink 0 [97] 3 smallFs).Holds (fun _ => True)
      (fun r fs' => r = 0 ∧ ∃ A' l, Becomes smallVolume smallImage ROOTINO l fs' A' ∧ Distinct l ∧
        ∀ n, binding l n = if key n = key [97] then some 3 else binding (dots ROOTINO ROOTINO) n)
      (fun w _ => Exhausted smallFs w) := by
  have hnone : binding (dots ROOTINO ROOTINO) [97] = none := by decide +kernel
  have hplenty : Plenty smallVolume smallImage smallFs ROOTINO 2 2 := by
    refine ⟨by decide +kernel, by decide, rfl, ?_⟩
    decide +kernel
  have h := directory_refines_map sound_small ⟨rfl, by decide⟩ cached_small (by decide +kernel)
    (by rw [size_small]; decide)
    (by rw [entries_small]; exact distinct_small) [97]
  have h' := h.2.1 3 (by decide) (by decide) rfl fun _ => ⟨hplenty, .inr (by rw [size_small]; decide)⟩
  rw [entries_small] at h'
  simpa [hnone] using h'

end ArmXv6.DirectoryMap
