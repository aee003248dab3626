import ArmXv6.Truncate

namespace ArmXv6.InodeSpecs

open Lib.Exec Lib.Bytes Param Blocks Fs Content DiskImage BlockSpecs BlockAlloc Ownership BlockMap FileData Truncate

/-- A file system between two operations: the disk and the valid cache entries hold the image,
every block in use has one owner, files have no holes, and only live inodes are valid in
the cache. -/
structure Sound (v : Volume) (A : Image) (fs : Fs) : Prop where
  rep : Rep v A ∅ fs
  owns : Owns v A ∅ ∅
  full : ∀ i, Live v A i → Full A i
  live : ∀ ip < NINODE, 0 < (fs.icache ip).ref → (fs.icache ip).valid = true → Live v A (fs.icache ip).inum

/-- Since fs₀, the references in L have been taken; referenced entries kept their inodes. -/
structure Refs (fs₀ fs : Fs) (L : List Nat) : Prop where
  ref : ∀ jp < NINODE, (fs.icache jp).ref = (fs₀.icache jp).ref + L.count jp
  keep : ∀ jp < NINODE, 0 < (fs₀.icache jp).ref →
    (fs.icache jp).inum = (fs₀.icache jp).inum ∧ ((fs₀.icache jp).valid = true → (fs.icache jp).valid = true)

/-- Every live inode without links is valid in the cache and referenced. -/
def Anchored (v : Volume) (A : Image) (fs : Fs) : Prop :=
  ∀ i, Live v A i → (A.ino i).nlink = 0 →
    ∃ ip < NINODE, 0 < (fs.icache ip).ref ∧ (fs.icache ip).valid = true ∧ (fs.icache ip).inum = i

def putInode (fs : Fs) (ip : Nat) (x : Inode) : Fs := { fs with icache := Function.update fs.icache ip x }

variable {v : Volume} {A A' : Image} {fs fs₀ fs' : Fs} {ip i : Nat} {L : List Nat} {x : Inode}
  {ok : Stop → Prop} {G : Event → Prop}

@[simp] theorem holds_setInode {Q : Unit → Fs → Prop} {E : Stop → Fs → Prop} (f : Inode → Inode) :
    (setInode ip f fs).Holds G Q E ↔ Q () (putInode fs ip (f (fs.icache ip))) := by
  simp [setInode, putInode]

@[simp] theorem putInode_self : (putInode fs ip x).icache ip = x := Function.update_self ..

theorem putInode_of_ne {jp : Nat} (h : jp ≠ ip) : (putInode fs ip x).icache jp = fs.icache jp :=
  Function.update_of_ne h _ _

@[simp] theorem putInode_putInode (y : Inode) : putInode (putInode fs ip x) ip y = putInode fs ip y := by
  simp [putInode]

theorem Refs.refl (fs : Fs) : Refs fs fs [] := ⟨fun _ _ => by simp, fun _ _ _ => ⟨rfl, id⟩⟩

theorem rep_putInode {D : Set Nat} (h : Rep v A D fs)
    (hx : 0 < x.ref → x.dev = ROOTDEV ∧ x.inum < v.sb.ninodes ∧ (x.valid = true → x.din = A.ino x.inum))
    (hinj : 0 < x.ref → ∀ jp < NINODE, jp ≠ ip → 0 < (fs.icache jp).ref → (fs.icache jp).inum ≠ x.inum) :
    Rep v A D (putInode fs ip x) := by
  have hc := h.cache
  refine ⟨by simpa [putInode] using h.log, h.disk, ⟨?_, ?_, ?_⟩⟩
  · intro jp hjp hr
    by_cases hj : jp = ip
    · subst hj
      rw [putInode_self] at hr ⊢
      exact ⟨(hx hr).1, (hx hr).2.1⟩
    · rw [putInode_of_ne hj] at hr ⊢
      exact hc.known jp hjp hr
  · intro jp hjp kp hkp hr hr' he
    by_cases hj : jp = ip <;> by_cases hk : kp = ip
    · rw [hj, hk]
    · subst hj
      rw [putInode_self] at hr he
      rw [putInode_of_ne hk] at hr' he
      exact absurd he.symm (hinj hr kp hkp hk hr')
    · subst hk
      rw [putInode_self] at hr' he
      rw [putInode_of_ne hj] at hr he
      exact absurd he (hinj hr' jp hjp hj hr)
    · rw [putInode_of_ne hj] at hr he
      rw [putInode_of_ne hk] at hr' he
      exact hc.inj jp hjp kp hkp hr hr' he
  · intro jp hjp hr hv
    by_cases hj : jp = ip
    · subst hj
      rw [putInode_self] at hr hv ⊢
      exact (hx hr).2.2 hv
    · rw [putInode_of_ne hj] at hr hv ⊢
      exact hc.din jp hjp hr hv

theorem Sound.putInode (h : Sound v A fs)
    (hx : 0 < x.ref → x.dev = ROOTDEV ∧ x.inum < v.sb.ninodes ∧
      (x.valid = true → x.din = A.ino x.inum ∧ Live v A x.inum))
    (hinj : 0 < x.ref → ∀ jp < NINODE, jp ≠ ip → 0 < (fs.icache jp).ref → (fs.icache jp).inum ≠ x.inum) :
    Sound v A (putInode fs ip x) := by
  refine ⟨rep_putInode h.rep (fun hr => ⟨(hx hr).1, (hx hr).2.1, fun hv => ((hx hr).2.2 hv).1⟩) hinj,
    h.owns, h.full, ?_⟩
  intro jp hjp hr hv
  by_cases hj : jp = ip
  · subst hj
    rw [putInode_self] at hr hv ⊢
    exact ((hx hr).2.2 hv).2
  · rw [putInode_of_ne hj] at hr hv ⊢
    exact h.live jp hjp hr hv

theorem Sound.sameInode (h : Sound v A fs) (hip : ip < NINODE) (href : 0 < (fs.icache ip).ref)
    (hdev : x.dev = (fs.icache ip).dev) (hinum : x.inum = (fs.icache ip).inum)
    (hv : x.valid = true → x.din = A.ino x.inum ∧ Live v A x.inum) : Sound v A (InodeSpecs.putInode fs ip x) := by
  obtain ⟨h1, h2⟩ := h.rep.cache.known ip hip href
  refine h.putInode (fun _ => ⟨hdev.trans h1, hinum ▸ h2, hv⟩) fun _ jp hjp hj hr he => hj ?_
  exact h.rep.cache.inj jp hjp ip hip hr href (he.trans hinum)

theorem Refs.putInode (h : Refs fs₀ fs L) (L' : List Nat) (hip : ip < NINODE)
    (hother : ∀ jp, jp ≠ ip → L'.count jp = L.count jp)
    (href : x.ref = (fs₀.icache ip).ref + L'.count ip)
    (hkeep : 0 < (fs₀.icache ip).ref → x.inum = (fs.icache ip).inum ∧ ((fs.icache ip).valid = true → x.valid = true)) :
    Refs fs₀ (InodeSpecs.putInode fs ip x) L' := by
  constructor
  · intro jp hjp
    by_cases hj : jp = ip
    · subst hj
      rw [putInode_self]
      exact href
    · rw [putInode_of_ne hj, hother jp hj]
      exact h.ref jp hjp
  · intro jp hjp hr
    by_cases hj : jp = ip
    · subst hj
      rw [putInode_self]
      obtain ⟨h1, h2⟩ := hkeep hr
      obtain ⟨h3, h4⟩ := h.keep jp hjp hr
      exact ⟨h1.trans h3, fun hv => h2 (h4 hv)⟩
    · rw [putInode_of_ne hj]
      exact h.keep jp hjp hr

theorem Refs.trans {fs₁ : Fs} {M : List Nat} (h : Refs fs₀ fs₁ L) (h' : Refs fs₁ fs M) : Refs fs₀ fs (M ++ L) := by
  constructor
  · intro jp hjp
    rw [h'.ref jp hjp, h.ref jp hjp, List.count_append]
    omega
  · intro jp hjp hr
    have hpos : 0 < (fs₁.icache jp).ref := by
      rw [h.ref jp hjp]
      omega
    obtain ⟨h1, h2⟩ := h.keep jp hjp hr
    obtain ⟨h3, h4⟩ := h'.keep jp hjp hpos
    exact ⟨h3.trans h1, fun hv => h4 (h2 hv)⟩

theorem Refs.pos (h : Refs fs₀ fs (ip :: L)) (hip : ip < NINODE) : 0 < (fs.icache ip).ref := by
  rw [h.ref ip hip, List.count_cons_self]
  omega

theorem Refs.perm {M : List Nat} (h : Refs fs₀ fs L) (hp : L.Perm M) : Refs fs₀ fs M :=
  ⟨fun jp hjp => by rw [h.ref jp hjp, hp.count_eq], h.keep⟩

/-- A cached inode stays so while references are only added or given back. -/
theorem cached_refs (h : Cached v A fs₀ ip i) (hr : Refs fs₀ fs L) : Cached v A fs ip i := by
  obtain ⟨h1, h2⟩ := hr.keep ip h.index h.ref
  refine ⟨h.index, ?_, h2 h.valid, h1.trans h.inum, h.live⟩
  rw [hr.ref ip h.index]
  exact Nat.lt_add_right _ h.ref

theorem Anchored.refs (h : Anchored v A fs₀) (hr : Refs fs₀ fs L) : Anchored v A fs := by
  intro i hi hn
  obtain ⟨ip, hip, href, hv, hinum⟩ := h i hi hn
  obtain ⟨h1, h2⟩ := hr.keep ip hip href
  refine ⟨ip, hip, ?_, h2 hv, h1.trans hinum⟩
  rw [hr.ref ip hip]
  omega

theorem idup_spec (h : Sound v A fs) (hip : ip < NINODE) (href : 0 < (fs.icache ip).ref) :
    (idup ip fs).Holds G
      (fun jp fs' => jp = ip ∧ Sound v A fs' ∧ Refs fs fs' [ip] ∧
        fs' = putInode fs ip { fs.icache ip with ref := (fs.icache ip).ref + 1 })
      (fun w _ => ok w) := by
  simp only [idup, holds_bind, holds_setInode, holds_pure]
  refine ⟨trivial, ?_, ?_, trivial⟩
  · exact h.sameInode hip href rfl rfl fun hv => ⟨h.rep.cache.din ip hip href hv, h.live ip hip href hv⟩
  · refine (Refs.refl fs).putInode [ip] hip (fun jp hj => List.count_cons_of_ne (Ne.symm hj)) ?_ fun _ => ⟨rfl, id⟩
    simp

/-- One more reference to entry ip, which is set up if it was not in use. -/
def Taken (fs : Fs) (ip : Nat) (fs' : Fs) : Prop :=
  ∃ x, fs' = putInode fs ip x ∧ (0 < (fs.icache ip).ref → x = { fs.icache ip with ref := (fs.icache ip).ref + 1 })

theorem iget_spec (h : Sound v A fs) (hok : Lenient ok) (hi : i < v.sb.ninodes) :
    (iget ROOTDEV i fs).Holds G
      (fun ip fs' => ip < NINODE ∧ (fs'.icache ip).inum = i ∧ Sound v A fs' ∧ Refs fs fs' [ip] ∧ Taken fs ip fs')
      (fun w _ => ok w) := by
  simp only [iget, holds_bind, holds_fetch]
  cases hfind : (List.range NINODE).find? fun j =>
      0 < (fs.icache j).ref ∧ (fs.icache j).dev = ROOTDEV ∧ (fs.icache j).inum = i with
  | some ip =>
      have hmem := List.mem_range.1 (List.mem_of_find?_eq_some hfind)
      have hp := List.find?_some hfind
      simp only [decide_eq_true_eq] at hp
      obtain ⟨href, -, hinum⟩ := hp
      simp only [holds_bind, holds_setInode, holds_pure]
      refine ⟨hmem, by simpa using hinum, ?_, ?_, _, rfl, fun _ => rfl⟩
      · exact h.sameInode hmem href rfl rfl fun hv => ⟨h.rep.cache.din ip hmem href hv, h.live ip hmem href hv⟩
      · refine (Refs.refl fs).putInode [ip] hmem (fun jp hj => List.count_cons_of_ne (Ne.symm hj)) ?_ fun _ => ⟨rfl, id⟩
        simp
  | none =>
      cases hfree : (List.range NINODE).find? fun j => (fs.icache j).ref = 0 with
      | some ip =>
          have hmem := List.mem_range.1 (List.mem_of_find?_eq_some hfree)
          have hp := List.find?_some hfree
          simp only [decide_eq_true_eq] at hp
          simp only [holds_bind, holds_setInode, holds_pure]
          refine ⟨hmem, by simp, ?_, ?_, _, rfl, fun hpos => by omega⟩
          · refine h.putInode (fun _ => ⟨rfl, hi, fun hv => by simp at hv⟩) fun _ jp hjp _ hr' he => ?_
            have hno := List.find?_eq_none.1 hfind jp (List.mem_range.2 hjp)
            simp only [decide_eq_true_eq, not_and] at hno
            exact hno hr' (h.rep.cache.known jp hjp hr').1 he
          · refine (Refs.refl fs).putInode [ip] hmem (fun jp hj => List.count_cons_of_ne (Ne.symm hj)) ?_
              fun hpos => by omega
            simp [hp]
      | none =>
          rw [holds_panic]
          exact hok _ (by decide)

/-- The stop of a lock on an inode that is not allocated. -/
def noType : Stop := .panic "ilock: no type"

theorem locked_putInode (h : Sound v A fs) (hip : ip < NINODE) (href : 0 < (fs.icache ip).ref)
    (hl : Live v A (fs.icache ip).inum) (h1 : x.dev = (fs.icache ip).dev) (h2 : x.inum = (fs.icache ip).inum)
    (h3 : x.ref = (fs.icache ip).ref) (h4 : x.valid = true) (h5 : x.din = A.ino (fs.icache ip).inum) :
    Cached v A (putInode fs ip x) ip (fs.icache ip).inum ∧ Sound v A (putInode fs ip x) ∧
      Refs fs (putInode fs ip x) [] := by
  refine ⟨⟨hip, by simpa [h3] using href, by simpa using h4, by simpa using h2, hl⟩, ?_, ?_⟩
  · exact h.sameInode hip href h1 h2 fun _ => ⟨by rw [h5, h2], h2 ▸ hl⟩
  · exact (Refs.refl fs).putInode [] hip (fun _ _ => rfl) (by simp [h3]) fun _ => ⟨h2, fun _ => h4⟩

theorem ilock_spec (h : Sound v A fs) (hok : Lenient ok) (hip : ip < NINODE)
    (hlive : ok noType ∨ Live v A (fs.icache ip).inum) :
    (ilock ip fs).Holds G
      (fun _ fs' => (0 < (fs.icache ip).ref ∧ (fs.icache ip).busy = false) ∧ Cached v A fs' ip (fs.icache ip).inum ∧
        Sound v A fs' ∧ Refs fs fs' [] ∧ ∃ x, fs' = putInode fs ip x ∧ x.busy = true)
      (fun w _ => ok w) := by
  unfold ilock
  simp only [holds_bind, holds_fetch, holds_ite, holds_panic, holds_sleep]
  refine ⟨fun _ => hok _ (by decide), fun href => ⟨fun _ => hok _ (by decide), fun hfree => ?_⟩⟩
  have href : 0 < (fs.icache ip).ref := by omega
  have hfree : (fs.icache ip).busy = false := by simpa using hfree
  rw [holds_setInode]
  refine ⟨fun hv => ?_, fun hv => ?_⟩
  · refine (bread_lenient hok _ _).mono ?_ fun _ _ h => h
    rintro bp fs₁ ⟨rfl, rfl⟩
    have hinum := (h.rep.cache.known ip hip href).2
    have hd : dinodeAt (fs.blk (IBLOCK (fs.icache ip).inum)) ((fs.icache ip).inum % IPB) = A.ino (fs.icache ip).inum :=
      h.rep.disk.ino _ hinum (Set.notMem_empty _)
    rw [holds_brelse, holds_setInode]
    refine ⟨fun ht => hlive.elim id fun hl => absurd (hd ▸ ht) hl.2, fun ht => ?_⟩
    rw [holds_pure]
    have hl : Live v A (fs.icache ip).inum := ⟨hinum, fun h0 => ht (hd.symm ▸ h0)⟩
    have done :
        ∀ fs',
        fs' = putInode fs ip { fs.icache ip with busy := true, din := A.ino (fs.icache ip).inum, valid := true } →
        (0 < (fs.icache ip).ref ∧ (fs.icache ip).busy = false) ∧ Cached v A fs' ip (fs.icache ip).inum ∧ Sound v A fs' ∧
          Refs fs fs' [] ∧ ∃ x, fs' = putInode fs ip x ∧ x.busy = true := by
      rintro fs' rfl
      obtain ⟨h1, h2, h3⟩ := locked_putInode h hip href hl
        (x := { fs.icache ip with busy := true, din := A.ino (fs.icache ip).inum, valid := true }) rfl rfl rfl rfl rfl
      exact ⟨⟨href, hfree⟩, h1, h2, h3, _, rfl, rfl⟩
    refine done _ ?_
    rw [← hd]
    simp [putInode]
  · rw [holds_pure]
    have hv : (fs.icache ip).valid = true := by simpa using hv
    obtain ⟨h1, h2, h3⟩ := locked_putInode h hip href (h.live ip hip href hv)
      (x := { fs.icache ip with busy := true }) rfl rfl rfl hv (h.rep.cache.din ip hip href hv)
    exact ⟨⟨href, hfree⟩, h1, h2, h3, _, rfl, rfl⟩

theorem iunlock_spec (h : Sound v A fs) (hok : Lenient ok) (hip : ip < NINODE) :
    (iunlock ip fs).Holds G
      (fun _ fs' => 0 < (fs.icache ip).ref ∧ Sound v A fs' ∧ Refs fs fs' [] ∧
        fs' = putInode fs ip { fs.icache ip with busy := false })
      (fun w _ => ok w) := by
  unfold iunlock
  simp only [holds_bind, holds_fetch, holds_ite, holds_panic, holds_setInode]
  refine ⟨fun _ => hok _ (by decide), fun hn => ?_⟩
  have href : 0 < (fs.icache ip).ref := by
    rw [not_or] at hn
    omega
  refine ⟨href, ?_, ?_, trivial⟩
  · exact h.sameInode hip href rfl rfl fun hv => ⟨h.rep.cache.din ip hip href hv, h.live ip hip href hv⟩
  · exact (Refs.refl fs).putInode [] hip (fun _ _ => rfl) rfl fun _ => ⟨rfl, id⟩

theorem Sound.drop (h : Sound v A fs) (hip : ip < NINODE) :
    Sound v A (InodeSpecs.putInode fs ip { fs.icache ip with ref := (fs.icache ip).ref - 1 }) := by
  by_cases href : 1 < (fs.icache ip).ref
  · exact h.sameInode hip (by omega) rfl rfl fun hv =>
      ⟨h.rep.cache.din ip hip (by omega) hv, h.live ip hip (by omega) hv⟩
  · exact h.putInode (fun hr => absurd hr (by simp only; omega)) fun hr => absurd hr (by simp only; omega)

theorem Refs.drop (h : Refs fs₀ fs (ip :: L)) (hip : ip < NINODE) :
    Refs fs₀ (InodeSpecs.putInode fs ip { fs.icache ip with ref := (fs.icache ip).ref - 1 }) L := by
  refine h.putInode L hip (fun jp hj => (List.count_cons_of_ne (Ne.symm hj)).symm) ?_ fun _ => ⟨rfl, id⟩
  simp only [h.ref ip hip, List.count_cons_self]
  omega

/-- The condition under which iput frees the inode. -/
def Last (fs : Fs) (ip : Nat) : Prop :=
  (fs.icache ip).ref = 1 ∧ (fs.icache ip).valid = true ∧ (fs.icache ip).din.nlink = 0

/-- A reference taken since a state that anchors all inodes is not the last one of an inode
without links. -/
theorem not_last (h : Sound v A fs) (ha : Anchored v A fs₀) (hr : Refs fs₀ fs (ip :: L)) (hip : ip < NINODE) :
    ¬Last fs ip := by
  rintro ⟨h1, hv, hn⟩
  have h0 : (fs₀.icache ip).ref = 0 := by
    have hc := hr.ref ip hip
    rw [List.count_cons_self] at hc
    omega
  have href : 0 < (fs.icache ip).ref := by omega
  rw [h.rep.cache.din ip hip href hv] at hn
  obtain ⟨jp, hjp, hjr, -, hji⟩ := ha _ (h.live ip hip href hv) hn
  have hjr' : 0 < (fs.icache jp).ref := by
    rw [hr.ref jp hjp]
    omega
  have hj := h.rep.cache.inj jp hjp ip hip hjr' href ((hr.keep jp hjp hjr).1.trans hji)
  subst hj
  omega

theorem iput_keep (hl : ¬Last fs ip) :
    (iput ip fs).Holds G
      (fun _ fs' => fs' = putInode fs ip { fs.icache ip with ref := (fs.icache ip).ref - 1 }) (fun w _ => ok w) := by
  unfold iput
  have hl : ¬((fs.icache ip).ref = 1 ∧ (fs.icache ip).valid ∧ (fs.icache ip).din.nlink = 0) := hl
  simp only [holds_bind, holds_fetch, if_neg hl, holds_pure, holds_setInode]

theorem iput_walk (h : Sound v A fs) (ha : Anchored v A fs₀) (hr : Refs fs₀ fs (ip :: L)) (hip : ip < NINODE) :
    (iput ip fs).Holds G
      (fun _ fs' => Sound v A fs' ∧ Refs fs₀ fs' L ∧
        fs' = putInode fs ip { fs.icache ip with ref := (fs.icache ip).ref - 1 }) (fun w _ => ok w) := by
  refine (iput_keep (not_last h ha hr hip)).mono ?_ fun _ _ h => h
  rintro _ fs' rfl
  exact ⟨h.drop hip, hr.drop hip, rfl⟩

theorem iunlockput_walk (h : Sound v A fs) (hok : Lenient ok) (ha : Anchored v A fs₀) (hr : Refs fs₀ fs (ip :: L))
    (hip : ip < NINODE) :
    (iunlockput ip fs).Holds G
      (fun _ fs' => Sound v A fs' ∧ Refs fs₀ fs' L ∧
        fs' = putInode fs ip { fs.icache ip with busy := false, ref := (fs.icache ip).ref - 1 }) (fun w _ => ok w) := by
  unfold iunlockput
  rw [holds_bind]
  refine (iunlock_spec h hok hip).mono ?_ fun _ _ h => h
  rintro _ fs₁ ⟨-, hs, hr', rfl⟩
  refine (iput_walk hs ha (hr.trans hr') hip).mono ?_ fun _ _ h => h
  rintro _ fs₂ ⟨hs', hr'', rfl⟩
  exact ⟨hs', hr'', by simp⟩

/-- What is left of an inode that has been freed. -/
def dead (d : Dinode) : Dinode := { truncated d with type := 0 }

/-- What giving up a reference does: the last one to an inode without links frees it. -/
structure Dropped (v : Volume) (A : Image) (fs : Fs) (ip : Nat) (fs' : Fs) (A' : Image) : Prop where
  sound : Sound v A' fs'
  others : ∀ jp, jp ≠ ip → fs'.icache jp = fs.icache jp
  ref : (fs'.icache ip).ref = (fs.icache ip).ref - 1
  keep : 1 < (fs.icache ip).ref → (fs'.icache ip).inum = (fs.icache ip).inum ∧
    (fs'.icache ip).valid = (fs.icache ip).valid
  busy : fs'.log.busy = fs.log.busy
  same : ¬Last fs ip → A' = A
  freed : Last fs ip → A'.data = A.data ∧
    A'.ino = Function.update A.ino (fs.icache ip).inum (dead (A.ino (fs.icache ip).inum))

theorem dropped_keep (h : Sound v A fs) (hip : ip < NINODE) (hl : ¬Last fs ip) :
    Dropped v A fs ip (putInode fs ip { fs.icache ip with ref := (fs.icache ip).ref - 1 }) A where
  sound := h.drop hip
  others := fun jp hj => putInode_of_ne hj
  ref := by simp
  keep := fun _ => by simp
  busy := rfl
  same := fun _ => rfl
  freed := fun h => absurd h hl

theorem dinodeOk_dead {d : Dinode} (h : DinodeOk d) : DinodeOk (dead d) where
  type := Nat.two_pow_pos _
  major := h.major
  minor := h.minor
  nlink := h.nlink
  size := Nat.two_pow_pos _
  addrs := fun _ => Nat.two_pow_pos _
  none := fun _ _ => rfl

/-- The image without inode i, which owned the blocks that are gone. -/
theorem Sound.dead (h : Sound v A fs) (hip : ip < NINODE) (href : 0 < (fs.icache ip).ref) (hx : x.ref = 0)
    (hrep : Rep v A' ∅ fs') (howns : Owns v A' ∅ ∅) (hdata : A'.data = A.data)
    (hino : A'.ino = Function.update A.ino (fs.icache ip).inum (InodeSpecs.dead (A.ino (fs.icache ip).inum)))
    (hothers : ∀ jp, jp ≠ ip → fs'.icache jp = fs.icache jp) : Sound v A' (InodeSpecs.putInode fs' ip x) := by
  have hne : ∀ j, Live v A' j → j ≠ (fs.icache ip).inum := by
    rintro j hj rfl
    apply hj.2
    rw [hino, Function.update_self]
    rfl
  have hsame : ∀ j, j ≠ (fs.icache ip).inum → A'.ino j = A.ino j := fun j hj => by rw [hino, Function.update_of_ne hj]
  refine ⟨rep_putInode hrep (fun hr => by omega) (fun hr => by omega), howns, ?_, ?_⟩
  · intro j hj
    have hj' := hsame j (hne j hj)
    have hf := h.full j ⟨hj.1, hj' ▸ hj.2⟩
    have hslot : ∀ k, slot A' j k = slot A j k := fun k => slot_congr hj' (fun _ => by rw [hdata]) k
    refine ⟨hj' ▸ hf.size, ?_, ?_⟩
    · intro n hn
      rw [hslot, hj']
      exact hf.shape.blocks n hn
    · rw [hslot, hj']
      exact hf.shape.indirect
  · intro jp hjp hr hv
    by_cases hj : jp = ip
    · subst hj
      rw [putInode_self] at hr
      omega
    · rw [putInode_of_ne hj, hothers jp hj] at hr hv ⊢
      have hl := h.live jp hjp hr hv
      have hn : (fs.icache jp).inum ≠ (fs.icache ip).inum := fun he => hj (h.rep.cache.inj jp hjp ip hip hr href he)
      exact ⟨hl.1, by rw [hsame _ hn]; exact hl.2⟩

theorem iput_free (h : Sound v A fs) (hok : Lenient ok) (hip : ip < NINODE) (hbusy : fs.log.busy = true)
    (hl : Last fs ip) :
    (iput ip fs).Holds G (fun _ fs' => ∃ A', Dropped v A fs ip fs' A') (fun w _ => ok w) := by
  obtain ⟨hr1, hv, hn⟩ := hl
  have href : 0 < (fs.icache ip).ref := by omega
  have hlive := h.live ip hip href hv
  have hc : Cached v A (putInode fs ip { fs.icache ip with busy := true }) ip (fs.icache ip).inum :=
    ⟨hip, by simpa using href, by simpa using hv, by simp, hlive⟩
  have hs := h.sameInode hip href (x := { fs.icache ip with busy := true }) rfl rfl
    fun hv => ⟨h.rep.cache.din ip hip href hv, hlive⟩
  unfold iput
  simp only [holds_bind, holds_fetch]
  rw [if_pos ⟨hr1, hv, hn⟩]
  simp only [holds_ite, holds_bind, holds_panic, holds_setInode]
  refine ⟨fun _ => hok _ (by decide), fun _ => ?_⟩
  refine (itrunc_spec hok hs.rep hs.owns hc (Set.notMem_empty _) hbusy).mono ?_ fun _ _ h => h
  rintro _ fs₁ ⟨A₁, hrep₁, howns₁, hino₁, hothers₁, hdata₁, hed₁⟩
  rw [holds_setDin]
  have hlive₁ : Live v A₁ (fs.icache ip).inum := ⟨hlive.1, by rw [hino₁]; exact hlive.2⟩
  have hc₁ := hc.edits hed₁ hlive₁
  rw [hc₁.din hrep₁]
  have hd₂ :
      ({ A₁.ino (fs.icache ip).inum with type := 0 } : Dinode) = InodeSpecs.dead (A.ino (fs.icache ip).inum) := by
    rw [hino₁]
    rfl
  rw [hd₂]
  have hrep₂ := rep_putDin hrep₁ hc₁ (InodeSpecs.dead (A.ino (fs.icache ip).inum))
  have howns₂ := owns_setIno_apart howns₁ (Set.mem_insert _ _) (dinodeOk_dead (h.owns.din _ hlive.1))
  have hed₂ := hed₁.trans (edits_putDin fs₁ ip (InodeSpecs.dead (A.ino (fs.icache ip).inum)))
  have hinum₂ : ((putDin fs₁ ip (InodeSpecs.dead (A.ino (fs.icache ip).inum))).icache ip).inum =
      (fs.icache ip).inum := by
    simpa [putDin] using hc₁.inum
  refine (iupdate_spec hrep₂ howns₂.din hip (by simpa [putDin] using hc₁.ref) ?_ (hed₂.busy.trans hbusy)
    (.inl hok)).mono
    ?_ fun _ _ h => h
  · simp [putDin, hc₁.inum, Image.setIno]
  · rintro _ fs₃ ⟨hrep₃, hk₃⟩
    rw [hinum₂] at hrep₃
    have hempty : insert (fs.icache ip).inum ((∅ : Set Nat) \ {(fs.icache ip).inum}) \ {(fs.icache ip).inum} = ∅ := by
      ext j
      simp
    rw [hempty] at hrep₃
    have hino₃ : (A₁.setIno (fs.icache ip).inum (InodeSpecs.dead (A.ino (fs.icache ip).inum))).ino =
        Function.update A.ino (fs.icache ip).inum (InodeSpecs.dead (A.ino (fs.icache ip).inum)) := by
      funext j
      by_cases hj : j = (fs.icache ip).inum
      · simp [Image.setIno, hj]
      · simp [Image.setIno, Function.update_of_ne hj, hothers₁ j hj]
    have hothers₃ : ∀ jp, jp ≠ ip → fs₃.icache jp = fs.icache jp := by
      intro jp hj
      rw [hk₃.icache, hed₂.others jp hj, putInode_of_ne hj]
    have howns₃ : Owns v (A₁.setIno (fs.icache ip).inum (InodeSpecs.dead (A.ino (fs.icache ip).inum))) ∅ ∅ :=
      owns_dead howns₂ fun hl => hl.2 (by simp [Image.setIno, InodeSpecs.dead])
    rw [putInode_putInode]
    have hx : ∀ y : Inode, y.ref = 0 → Dropped v A fs ip (putInode fs₃ ip y)
        (A₁.setIno (fs.icache ip).inum (InodeSpecs.dead (A.ino (fs.icache ip).inum))) := fun y hy =>
      { sound := h.dead hip href hy hrep₃ howns₃ hdata₁ hino₃ hothers₃
        others := fun jp hj => by rw [putInode_of_ne hj, hothers₃ jp hj]
        ref := by rw [putInode_self, hy, hr1]
        keep := fun hlt => by omega
        busy := hk₃.busy.trans hed₂.busy
        same := fun hn => absurd ⟨hr1, hv, ‹_›⟩ hn
        freed := fun _ => ⟨hdata₁, hino₃⟩ }
    obtain ⟨d, hself⟩ := hed₂.self
    refine ⟨_, hx _ ?_⟩
    simp [hk₃.icache, hself, hr1]

section Outside

variable (hall : ∀ w, ok w) {s b : Nat}

include hall

theorem logWrite_outside (hb : fs.log.busy = false) (d : Block) :
    (logWrite s d fs).Holds G (fun _ _ => False) (fun w _ => ok w) := by
  simp only [logWrite, setBlk, holds_bind, holds_update, holds_fetch, holds_ite, holds_panic, hb]
  exact ⟨fun _ => hall _, fun _ => ⟨fun _ => hall _, fun hn => absurd (by decide) hn⟩⟩

theorem bfree_outside (hb : fs.log.busy = false) :
    (bfree b fs).Holds G (fun _ _ => False) (fun w _ => ok w) := by
  have hok : Lenient ok := fun w _ => hall w
  simp only [bfree, readsb, holds_bind, holds_brelse, holds_pure]
  refine (bread_lenient hok _ _).mono ?_ fun _ _ h => h
  rintro _ fs₁ ⟨rfl, rfl⟩
  refine (bread_lenient hok _ _).mono ?_ fun _ _ h => h
  rintro _ fs₂ ⟨rfl, rfl⟩
  simp only [holds_ite, holds_panic, holds_bind]
  exact ⟨fun _ => hall _, fun _ => (logWrite_outside hall (by exact hb) _).mono (fun _ _ h => h.elim) fun _ _ h => h⟩

theorem iupdate_outside (hb : fs.log.busy = false) :
    (iupdate ip fs).Holds G (fun _ _ => False) (fun w _ => ok w) := by
  have hok : Lenient ok := fun w _ => hall w
  simp only [iupdate, holds_bind, holds_fetch]
  refine (bread_lenient hok _ _).mono ?_ fun _ _ h => h
  rintro _ fs₁ ⟨rfl, rfl⟩
  exact (logWrite_outside hall (by exact hb) _).mono (fun _ _ h => h.elim) fun _ _ h => h

theorem itrunc_direct_outside (l : List Nat) (hb : fs.log.busy = false) :
    (itrunc.direct ip l fs).Holds G (fun _ fs' => fs'.log.busy = false) (fun w _ => ok w) := by
  induction l with
  | nil => simpa only [itrunc.direct, holds_pure] using hb
  | cons i rest ih =>
      simp only [itrunc.direct, holds_bind, holds_fetch, holds_ite, holds_pure]
      exact ⟨fun _ => (bfree_outside hall hb).mono (fun _ _ h => h.elim) fun _ _ h => h, fun _ => ih⟩

theorem itrunc_indirect_outside (bp : Block) (l : List Nat) (hb : fs.log.busy = false) :
    (itrunc.indirect bp l fs).Holds G (fun _ fs' => fs'.log.busy = false) (fun w _ => ok w) := by
  induction l with
  | nil => simpa only [itrunc.indirect, holds_pure] using hb
  | cons i rest ih =>
      simp only [itrunc.indirect, holds_bind, holds_ite, holds_pure]
      exact ⟨fun _ => (bfree_outside hall hb).mono (fun _ _ h => h.elim) fun _ _ h => h, fun _ => ih⟩

theorem itrunc_outside (hb : fs.log.busy = false) :
    (itrunc ip fs).Holds G (fun _ _ => False) (fun w _ => ok w) := by
  unfold itrunc
  simp only [holds_bind, holds_fetch, holds_ite, holds_pure, holds_setDin]
  refine (itrunc_direct_outside hall _ hb).mono ?_ fun _ _ h => h
  intro _ fs₁ hb₁
  refine ⟨fun _ => ?_, fun _ => iupdate_outside hall hb₁⟩
  refine (bread_lenient (fun w _ => hall w) _ _).mono ?_ fun _ _ h => h
  rintro _ fs₂ ⟨rfl, rfl⟩
  refine (itrunc_indirect_outside hall _ _ (by exact hb₁)).mono ?_ fun _ _ h => h
  intro _ fs₃ hb₃
  rw [holds_brelse]
  exact (bfree_outside hall (by exact hb₃)).mono (fun _ _ h => h.elim) fun _ _ h => h

end Outside

/-- The end of a reference. Outside a transaction an inode can be freed only where even that
stop is tolerated. -/
theorem iput_spec (h : Sound v A fs) (hok : Lenient ok) (hip : ip < NINODE)
    (hout : ¬Last fs ip ∨ fs.log.busy = true ∨ ∀ w, ok w) :
    (iput ip fs).Holds G (fun _ fs' => ∃ A', Dropped v A fs ip fs' A') (fun w _ => ok w) := by
  by_cases hl : Last fs ip
  · cases hb : fs.log.busy with
    | true => exact iput_free h hok hip hb hl
    | false =>
        have hall : ∀ w, ok w := (hout.resolve_left (not_not.2 hl)).resolve_left (by simp [hb])
        unfold iput
        simp only [holds_bind, holds_fetch]
        rw [if_pos ⟨hl.1, hl.2.1, hl.2.2⟩]
        simp only [holds_ite, holds_bind, holds_panic, holds_setInode]
        exact ⟨fun _ => hall _, fun _ => (itrunc_outside hall (by exact hb)).mono (fun _ _ h => h.elim) fun _ _ h => h⟩
  · refine (iput_keep hl).mono ?_ fun _ _ h => h
    rintro _ fs' rfl
    exact ⟨A, dropped_keep h hip hl⟩

theorem Dropped.refs (h : Dropped v A fs ip fs' A') (hip : ip < NINODE) (hr : Refs fs₀ fs (ip :: L)) :
    Refs fs₀ fs' L := by
  have hcount := hr.ref ip hip
  rw [List.count_cons_self] at hcount
  constructor
  · intro jp hjp
    by_cases hj : jp = ip
    · subst hj
      rw [h.ref, hcount]
      omega
    · rw [h.others jp hj, hr.ref jp hjp, List.count_cons_of_ne (Ne.symm hj)]
  · intro jp hjp hpos
    by_cases hj : jp = ip
    · subst hj
      obtain ⟨h1, h2⟩ := h.keep (by omega)
      rw [h1, h2]
      exact hr.keep jp hjp hpos
    · rw [h.others jp hj]
      exact hr.keep jp hjp hpos

theorem Dropped.anchored (h : Dropped v A fs ip fs' A') (hs : Sound v A fs) (hip : ip < NINODE)
    (href : 0 < (fs.icache ip).ref) (ha : Anchored v A fs) : Anchored v A' fs' := by
  intro i hi hn
  by_cases hl : Last fs ip
  · obtain ⟨-, hino⟩ := h.freed hl
    have hne : i ≠ (fs.icache ip).inum := by
      rintro rfl
      apply hi.2
      rw [hino, Function.update_self]
      rfl
    rw [Live, hino, Function.update_of_ne hne] at hi
    rw [hino, Function.update_of_ne hne] at hn
    obtain ⟨jp, hjp, hr, hv, hinum⟩ := ha i hi hn
    have hj : jp ≠ ip := by
      rintro rfl
      exact hne hinum.symm
    exact ⟨jp, hjp, by rw [h.others jp hj]; exact ⟨hr, hv, hinum⟩⟩
  · rw [h.same hl] at hi hn
    obtain ⟨jp, hjp, hr, hv, hinum⟩ := ha i hi hn
    by_cases hj : jp = ip
    · subst hj
      have hlt : 1 < (fs.icache jp).ref := by
        by_contra hlt
        refine hl ⟨by omega, hv, ?_⟩
        rw [hs.rep.cache.din jp hjp hr hv, hinum]
        exact hn
      obtain ⟨h1, h2⟩ := h.keep hlt
      exact ⟨jp, hjp, by rw [h.ref]; omega, h2.trans hv, h1.trans hinum⟩
    · exact ⟨jp, hjp, by rw [h.others jp hj]; exact ⟨hr, hv, hinum⟩⟩

/-- Changing fields of a locked inode besides its addresses, size and type, on disk too. -/
theorem editDin_spec (f : Dinode → Dinode) (h : Sound v A fs) (hok : Lenient ok) (hc : Cached v A fs ip i)
    (hbusy : fs.log.busy = true) (hd : DinodeOk (f (A.ino i))) (haddrs : (f (A.ino i)).addrs = (A.ino i).addrs)
    (hsize : (f (A.ino i)).size = (A.ino i).size) (htype : (f (A.ino i)).type = (A.ino i).type) :
    (setDin ip f fs).Holds G
      (fun _ fs₁ => (iupdate ip fs₁).Holds G
        (fun _ fs' => Sound v (A.setIno i (f (A.ino i))) fs' ∧ Edits ip fs fs') (fun w _ => ok w))
          (fun w _ => ok w) := by
  rw [holds_setDin, hc.din h.rep]
  have hrep := rep_putDin h.rep hc (f (A.ino i))
  have howns : Owns v (A.setIno i (f (A.ino i))) ∅ ∅ := owns_setIno h.owns hd haddrs (by rw [htype])
  have hinum : ((putDin fs ip (f (A.ino i))).icache ip).inum = i := by simpa [putDin] using hc.inum
  refine (iupdate_spec hrep howns.din hc.index (by simpa [putDin] using hc.ref) ?_ hbusy (.inl hok)).mono ?_
    fun _ _ h => h
  · simp [putDin, hc.inum, Image.setIno]
  rintro _ fs' ⟨hrep', hk⟩
  rw [hinum] at hrep'
  have hempty : insert i (∅ : Set Nat) \ {i} = ∅ := by
    ext j
    simp
  rw [hempty] at hrep'
  have hed := (edits_putDin fs ip (f (A.ino i))).trans (edits_of_kept hk ip)
  have hlive : ∀ j, Live v (A.setIno i (f (A.ino i))) j ↔ Live v A j := live_congr fun j => by
    by_cases hj : j = i
    · simp [Image.setIno, hj, htype]
    · simp [Image.setIno, Function.update_of_ne hj]
  refine ⟨⟨hrep', howns, fun j hj => ?_, ?_⟩, hed⟩
  · have hf := h.full j ((hlive j).1 hj)
    have hsz : ((A.setIno i (f (A.ino i))).ino j).size = (A.ino j).size := by
      by_cases hj : j = i
      · simp [Image.setIno, hj, hsize]
      · simp [Image.setIno, Function.update_of_ne hj]
    refine ⟨hsz ▸ hf.size, ?_, ?_⟩
    · intro n hn
      rw [slot_setIno haddrs, hsz]
      exact hf.shape.blocks n hn
    · rw [slot_setIno haddrs, hsz]
      exact hf.shape.indirect
  · intro jp hjp hr hv
    rw [hlive]
    by_cases hj : jp = ip
    · subst hj
      obtain ⟨d, hself⟩ := hed.self
      rw [hself]
      exact hc.inum.symm ▸ hc.live
    · rw [hed.others jp hj] at hr hv ⊢
      exact h.live jp hjp hr hv

def newborn (type : Nat) : Dinode := { emptyDinode with type := type }

theorem slot_newborn (A : Image) (i type k : Nat) : slot (A.setIno i (newborn type)) i k = 0 := by
  simp [slot, Image.setIno, newborn, emptyDinode]

theorem slot_setIno_of_ne {d : Dinode} {j : Nat} (hj : j ≠ i) (k : Nat) : slot (A.setIno i d) j k = slot A j k := by
  simp [slot, Image.setIno, Function.update_of_ne hj]

theorem live_setIno_of_ne {d : Dinode} {j : Nat} (hj : j ≠ i) : Live v (A.setIno i d) j ↔ Live v A j := by
  simp [Live, Image.setIno, Function.update_of_ne hj]

theorem dinodeOk_newborn {type : Nat} (ht : type < 2 ^ 16) : DinodeOk (newborn type) where
  type := ht
  major := Nat.two_pow_pos _
  minor := Nat.two_pow_pos _
  nlink := Nat.two_pow_pos _
  size := Nat.two_pow_pos _
  addrs := fun _ => Nat.two_pow_pos _
  none := fun _ _ => rfl

theorem owns_newborn {type : Nat} (ho : Owns v A ∅ ∅) (h0 : (A.ino i).type = 0) (ht : type < 2 ^ 16) :
    Owns v (A.setIno i (newborn type)) ∅ ∅ := by
  have hne : ∀ j k, slot (A.setIno i (newborn type)) j k ≠ 0 → j ≠ i := by
    rintro j k hk rfl
    exact hk (slot_newborn A j type k)
  refine ⟨?_, ?_, ?_, fun b hb => absurd hb (Set.notMem_empty b), ?_⟩
  · intro j hj
    by_cases hji : j = i
    · simpa [Image.setIno, hji] using dinodeOk_newborn ht
    · simpa [Image.setIno, Function.update_of_ne hji] using ho.din j hj
  · intro j k hj hS hk
    have hji := hne j k hk
    rw [slot_setIno_of_ne hji] at hk ⊢
    exact ho.range j k ((live_setIno_of_ne hji).1 hj) hS hk
  · intro j j' k k' hj hS hj' hS' hk he
    have hji := hne j k hk
    have hji' := hne j' k' (he ▸ hk)
    rw [slot_setIno_of_ne hji] at hk he
    rw [slot_setIno_of_ne hji'] at he
    exact ho.inj j j' k k' ((live_setIno_of_ne hji).1 hj) hS ((live_setIno_of_ne hji').1 hj') hS' hk he
  · intro b hb
    have hu : (A.setIno i (newborn type)).used b = A.used b := rfl
    rw [hu, ho.used b hb]
    constructor
    · rintro (hlt | hX | ⟨j, k, hj, hS, he⟩)
      · exact .inl hlt
      · exact .inr (.inl hX)
      · have hji : j ≠ i := by
          rintro rfl
          exact hj.2 h0
        exact .inr (.inr ⟨j, k, (live_setIno_of_ne hji).2 hj, hS, by rw [slot_setIno_of_ne hji, he]⟩)
    · rintro (hlt | hX | ⟨j, k, hj, hS, he⟩)
      · exact .inl hlt
      · exact .inr (.inl hX)
      · by_cases hji : j = i
        · subst hji
          rw [slot_newborn] at he
          exact .inl (he ▸ Nat.lt_of_succ_lt v.one_lt_dataStart)
        · rw [slot_setIno_of_ne hji] at he
          exact .inr (.inr ⟨j, k, (live_setIno_of_ne hji).1 hj, hS, he⟩)

theorem full_newborn (A : Image) (i type : Nat) : Full (A.setIno i (newborn type)) i := by
  have h0 : ((A.setIno i (newborn type)).ino i).size = 0 := by simp [Image.setIno, newborn, emptyDinode]
  refine ⟨by rw [h0]; exact Nat.zero_le _, ?_, ?_⟩
  · intro n _
    simp [slot_newborn, h0, nblocks, BSIZE]
  · simp [slot_newborn, h0, nblocks, BSIZE]

theorem Sound.born {type : Nat} (h : Sound v A fs) (h0 : (A.ino i).type = 0) (ht : type < 2 ^ 16)
    (hd : DiskRep v (A.setIno i (newborn type)) ∅ fs'.blk) (hl : LogRep v fs')
    (hcache : fs'.icache = fs.icache) : Sound v (A.setIno i (newborn type)) fs' := by
  have hne : ∀ ip < NINODE, 0 < (fs.icache ip).ref → (fs.icache ip).valid = true → (fs.icache ip).inum ≠ i := by
    rintro ip hip hr hv rfl
    exact (h.live ip hip hr hv).2 h0
  refine ⟨⟨hl, hd, ?_⟩, owns_newborn h.owns h0 ht, fun j hj => ?_, ?_⟩
  · rw [hcache]
    refine ⟨h.rep.cache.known, h.rep.cache.inj, fun ip hip hr hv => ?_⟩
    rw [h.rep.cache.din ip hip hr hv]
    simp [Image.setIno, Function.update_of_ne (hne ip hip hr hv)]
  · by_cases hji : j = i
    · exact hji ▸ full_newborn A j type
    · have hf := h.full j ((live_setIno_of_ne hji).1 hj)
      have hino : (A.setIno i (newborn type)).ino j = A.ino j := Function.update_of_ne hji _ _
      refine ⟨hino ▸ hf.size, ?_, ?_⟩
      · intro n hn
        rw [slot_setIno_of_ne hji, hino]
        exact hf.shape.blocks n hn
      · rw [slot_setIno_of_ne hji, hino]
        exact hf.shape.indirect
  · rw [hcache]
    intro ip hip hr hv
    exact (live_setIno_of_ne (hne ip hip hr hv)).2 (h.live ip hip hr hv)

/-- An inode number that was free, with its cache entry. -/
structure Born (v : Volume) (A : Image) (fs : Fs) (type ip : Nat) (fs' : Fs) (i : Nat) : Prop where
  lo : 1 ≤ i
  hi : i < v.sb.ninodes
  free : (A.ino i).type = 0
  index : ip < NINODE
  inum : (fs'.icache ip).inum = i
  sound : Sound v (A.setIno i (newborn type)) fs'
  refs : Refs fs fs' [ip]
  busy : fs'.log.busy = fs.log.busy

theorem ialloc_loop_spec {type : Nat} (h : Sound v A fs) (hok : Lenient ok) (hbusy : fs.log.busy = true)
    (ht : type < 2 ^ 16) (fuel inum : Nat) (h1 : 1 ≤ inum) :
    (ialloc.loop ROOTDEV type v.sb fuel inum fs).Holds G (fun ip fs' => ∃ i, Born v A fs type ip fs' i)
      (fun w _ => ok w) := by
  induction fuel generalizing inum with
  | zero => exact (holds_panic _ _).2 (hok _ (by decide))
  | succ fuel ih =>
      unfold ialloc.loop
      simp only [holds_ite, holds_panic, holds_bind]
      refine ⟨fun hlt => ?_, fun _ => hok _ (by decide)⟩
      have hs : IBLOCK inum < v.logStart := (v.iblock_lt_dataStart hlt).trans_le v.dataStart_le
      refine (bread_lenient hok _ _).mono ?_ fun _ _ h => h
      rintro _ fs₁ ⟨rfl, rfl⟩
      have hd := h.rep.disk.ino inum hlt (Set.notMem_empty _)
      refine ⟨fun h0 => ?_, fun _ => ?_⟩
      · rw [hd] at h0
        refine logged_then h.rep.log hs hbusy _ (.inl hok) fun hl => ?_
        have hset := (h.rep.disk.setIno hlt (dinodeOk_newborn ht)).congr fun _ hc => h.rep.log.afterLog_blk
          (setDinode (fs.blk (IBLOCK inum)) (inum % IPB) (newborn type)) hc
        rw [Set.empty_sdiff] at hset
        have hs' := h.born h0 ht hset hl rfl
        refine (iget_spec hs' hok hlt).mono ?_ fun _ _ h => h
        rintro ip fs' ⟨hip, hinum, hsound, hrefs, x, rfl, -⟩
        exact ⟨inum, h1, hlt, h0, hip, hinum, hsound, ⟨hrefs.ref, hrefs.keep⟩, rfl⟩
      · simpa only [holds_brelse, List.erase_cons_head] using ih (inum + 1) (by omega)

theorem ialloc_spec {type : Nat} (h : Sound v A fs) (hok : Lenient ok) (hbusy : fs.log.busy = true)
    (ht : type < 2 ^ 16) :
    (ialloc ROOTDEV type fs).Holds G (fun ip fs' => ∃ i, Born v A fs type ip fs' i) (fun w _ => ok w) := by
  unfold ialloc
  rw [holds_bind]
  refine (readsb_spec h.rep (.inl hok)).mono ?_ fun _ _ h => h
  rintro _ fs₁ ⟨rfl, rfl⟩
  exact ialloc_loop_spec h hok hbusy ht _ _ le_rfl

end ArmXv6.InodeSpecs
