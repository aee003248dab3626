import ArmXv6.SysfileSpecs

namespace ArmXv6.CreateSpecs

open Lib.Exec Lib.Bytes Param Blocks Fs Content Sysfile DiskImage BlockSpecs BlockAlloc Ownership BlockMap FileData
  Truncate InodeSpecs Namespace Directory PathWalk SysfileSpecs

variable {v : Volume} {A A' : Image} {fs fs₀ fs' : Fs} {ip dp i d type cwd : Nat} {L : List Nat}
  {path name : List UInt8} {ok : Stop → Prop} {G : Event → Prop}

theorem placed_sane {k : Nat} {de : Dirent} (h : Sane v A fs) (hc : Cached v A fs dp d)
    (hp : Placed v A fs dp d k de fs' A') : Sane v A' fs' :=
  ⟨hp.sound, hp.tidy, Anchored.edits h.anchored hc hp.edits hp.frame.ino⟩

theorem cached_placed {k : Nat} {de : Dirent} (hc : Cached v A fs dp d) (hp : Placed v A fs dp d k de fs' A') :
    Cached v A' fs' dp d := hc.edits hp.edits ⟨hc.live.1, hp.fields.1 ▸ hc.live.2⟩

theorem cached_placed_of_ne {k : Nat} {de : Dirent} (hc : Cached v A fs ip i) (hp : Placed v A fs dp d k de fs' A')
    (hne : ip ≠ dp) (hid : i ≠ d) : Cached v A' fs' ip i :=
  cached_edits_of_ne hc hp.edits hne ((hp.frame.live hid).2 hc.live)

theorem view_placed {k : Nat} {de : Dirent} (hc : Cached v A fs dp d) (hdir : (A.ino d).type = T_DIR)
    (hp : Placed v A fs dp d k de fs' A') : view v A' = setEntry (view v A) d k de := by
  rw [hp.view, setEntry, view_entries hc.live.1 hdir]

theorem create_dots_spec (h : Sane v A fs) (hok : Tolerant G ok) (hd : Cached v A fs dp d) (hi : Cached v A fs ip i)
    (hne : dp ≠ ip) (hdir : (A.ino i).type = T_DIR) (hempty : (view v A i).entries = []) (h0 : i ≠ 0)
    (hbusy : fs.log.busy = true) :
    ((do
        setDin dp incNlink
        iupdate dp
        let r ← dirlink ip dot i
        if r < 0 then .panic "create dots"
        else do
          let r ← dirlink ip dotdot d
          if r < 0 then .panic "create dots" else pure () : FsM Unit) fs).Holds G
      (fun _ fs' => ∃ A', Sane v A' fs' ∧ Cached v A' fs' dp d ∧ Cached v A' fs' ip i ∧ Refs fs fs' [] ∧
        fs'.log.busy = true ∧ (∀ held, Spares v held {i} A A') ∧ view v A' = setNlink
          (Function.update (view v A) i { view v A i with entries := dots i d }) d (up (A.ino d).nlink))
      (fun w _ => ok w) := by
  have hdi : d ≠ i := by
    rintro rfl
    exact hne (h.sound.rep.cache.inj dp hd.index ip hi.index hd.ref hi.ref (hd.inum.trans hi.inum.symm))
  simp only [holds_bind]
  refine (incNlink_spec h hok.1 hd hbusy).mono (fun _ fs₁ h₁ => h₁.mono ?_ fun _ _ h => h) fun _ _ h => h
  rintro _ fs₂ ⟨A₂, hrel⟩
  have hd₂ := hd.edits hrel.edits ((live_relinked hrel d).2 hd.live)
  have hi₂ := cached_edits_of_ne hi hrel.edits (Ne.symm hne) ((live_relinked hrel i).2 hi.live)
  have hdir₂ : (A₂.ino i).type = T_DIR := by rw [hrel.ino i (Ne.symm hdi), hdir]
  have hbusy₂ := hrel.edits.busy.trans hbusy
  have hempty₂ : entries A₂ i = [] := by rw [← view_entries hi.live.1 hdir₂, hrel.view, entries_setNlink, hempty]
  refine (dirlink_spec hrel.sane.sound hrel.sane.tidy hrel.sane.anchored hok hi₂ hdir₂ hbusy₂ hi.live.1).mono ?_
    fun _ _ h => h
  rintro r fs₃ (⟨rfl, -⟩ | ⟨rfl, -, A₃, k, hk, hunused, hp⟩)
  · simp only [holds_ite, holds_panic]
    exact ⟨fun _ => hok.1 _ (by decide), fun hf => absurd (by decide) hf⟩
  simp only [holds_ite, holds_panic, holds_bind]
  refine ⟨fun hf => absurd hf (by decide), fun _ => ?_⟩
  have hs₃ := placed_sane hrel.sane hi₂ hp
  have hi₃ := cached_placed hi₂ hp
  have hd₃ := cached_placed_of_ne hd₂ hp hne hdi
  have hk : k = 0 := by simpa [hempty₂] using hk
  have hdir₃ : (A₃.ino i).type = T_DIR := by rw [hp.fields.1, hdir₂]
  have hbusy₃ := hp.edits.busy.trans hbusy₂
  have hent₃ : entries A₃ i = [⟨i, strncpy dot DIRSIZ⟩] := by
    rw [← view_entries hi.live.1 hdir₃, hp.view, Function.update_self, hempty₂, hk]
    rfl
  refine (dirlink_spec hs₃.sound hs₃.tidy hs₃.anchored hok hi₃ hdir₃ hbusy₃ hd.live.1).mono ?_ fun _ _ h => h
  rintro r fs₄ (⟨rfl, -⟩ | ⟨rfl, -, A₄, l, hl, hunused', hp'⟩)
  · exact ⟨fun _ => hok.1 _ (by decide), fun hf => absurd (by decide) hf⟩
  simp only [holds_pure]
  refine ⟨fun hf => absurd hf (by decide), fun _ => ?_⟩
  have hl : l = 1 := by
    rw [hent₃, List.length_singleton] at hl
    rcases Nat.le_one_iff_eq_zero_or_eq_one.1 hl with rfl | rfl
    · exact absurd (hunused' ⟨i, strncpy dot DIRSIZ⟩ (by rw [hent₃]; rfl)) h0
    · rfl
  refine ⟨A₄, placed_sane hs₃ hi₃ hp', cached_placed_of_ne hd₃ hp' hne hdi, cached_placed hi₃ hp',
    ((refs_edits hrel.edits).trans (refs_edits hp.edits)).trans (refs_edits hp'.edits), hp'.edits.busy.trans hbusy₃,
    fun held => ?_, ?_⟩
  · have hsp := ((hrel.spares held).trans (spares_frame hrel.sane.sound hp.frame hp.fields.1)).trans
      (spares_frame hs₃.sound hp'.frame hp'.fields.1)
    simpa using hsp
  rw [hp'.view, hent₃, hp.view, hrel.view, hl]
  funext j
  by_cases hj : j = i
  · subst hj
    simp [setNlink, Function.update_of_ne (Ne.symm hdi), dots, place]
  · by_cases hjd : j = d
    · subst hjd
      simp [setNlink, Function.update_of_ne hdi]
    · simp [setNlink, Function.update_of_ne hj, Function.update_of_ne hjd]

theorem view_newborn (h : Sound v A fs) (hi : i < v.sb.ninodes) :
    view v (A.setIno i (newborn type)) = Function.update (view v A) i ⟨type, 0, []⟩ := by
  rw [view_eq_update h (frame_setIno _)]
  congr 1
  simp [view, hi, newborn, emptyDinode, entries, Image.setIno]

theorem tidy_newborn (h : Sound v A fs) (ht : Tidy v A) : Tidy v (A.setIno i (newborn type)) := by
  refine tidy_frame h ht (frame_setIno _) fun _ _ => ⟨?_, fun de hmem => ?_⟩
  · rw [ino_setIno_self]
    rfl
  · simp [entries, newborn, emptyDinode, Image.setIno] at hmem

theorem anchored_newborn (h : Anchored v A fs₀) (hr : Refs fs₀ fs L) (hc : Cached v A' fs ip i)
    (hino : ∀ j, j ≠ i → A'.ino j = A.ino j) : Anchored v A' fs := by
  intro j hj hn
  by_cases hji : j = i
  · exact ⟨ip, hc.index, hc.ref, hc.valid, hc.inum.trans hji.symm⟩
  · rw [Live, hino j hji] at hj
    rw [hino j hji] at hn
    exact (h.refs hr) j hj hn

/-- What the creation of a new inode leaves behind: its locked cache entry. -/
structure Created (v : Volume) (A : Image) (held : Nat → Prop) (type d : Nat) (name : List UInt8)
    (ip i k : Nat) (fs' : Fs)
    (A' : Image) : Prop where
  sane : Sane v A' fs'
  cached : Cached v A' fs' ip i
  busy : fs'.log.busy = true
  free : (view v A i).type = 0
  pos : i ≠ 0
  ne : d ≠ i
  vacant : Vacant (view v A) d k name
  view : view v A' = create held (view v A) type d i k name
  spares : Spares v held {d} A A'

theorem create_finish_spec {A₁ : Image} (h : Sane v A₁ fs) (hok : Tolerant G ok) (hd : Cached v A₁ fs dp d)
    (hi : Cached v A₁ fs ip i) (hne : dp ≠ ip) (hdi : d ≠ i) (hdir : (A.ino d).type = T_DIR) (hlive : Live v A d)
    (hr : Refs fs₀ fs [dp, ip]) (hnew : lookup (entries A d) name = none) (hbusy : fs.log.busy = true)
    (hview : view v A₁ = make (view v A) type d i) (hfree : (view v A i).type = 0) (h0 : i ≠ 0)
    (hsp : Spares v (Held fs₀) {i} A A₁) :
    ((do
        let r ← dirlink dp name i
        if r < 0 then .panic "create: dirlink"
        else do
          iunlockput dp
          pure ip : FsM Nat) fs).Holds G
      (fun jp fs' => Refs fs₀ fs' [jp] ∧ ∃ i k A', Created v A (Held fs₀) type d name jp i k fs' A')
      (fun w _ => ok w) := by
  have hmake := make_parent (view v A) type hdi
  have hmt : (make (view v A) type d i d).type = (view v A d).type := by
    rw [hmake]
    split <;> rfl
  have hme : (make (view v A) type d i d).entries = (view v A d).entries := by
    rw [hmake]
    split <;> rfl
  have hdir₁ : (A₁.ino d).type = T_DIR := by rw [← view_type hd.live.1, hview, hmt, view_type hlive.1, hdir]
  have hent : entries A₁ d = entries A d := by
    rw [← view_entries hd.live.1 hdir₁, hview, hme, view_entries hlive.1 hdir]
  simp only [holds_bind]
  refine (dirlink_spec h.sound h.tidy h.anchored hok hd hdir₁ hbusy hi.live.1).mono ?_ fun _ _ h => h
  rintro r fs₁ (⟨rfl, -⟩ | ⟨rfl, -, A₂, k, hk, hunused, hp⟩)
  · simp only [holds_ite, holds_panic]
    exact ⟨fun _ => hok.1 _ (by decide), fun hf => absurd (by decide) hf⟩
  simp only [holds_ite, holds_panic, holds_bind]
  refine ⟨fun hf => absurd hf (by decide), fun _ => ?_⟩
  have hs₁ := placed_sane h hd hp
  have hd₁ := cached_placed hd hp
  have hi₁ := cached_placed_of_ne hi hp (Ne.symm hne) (Ne.symm hdi)
  have hr₁ := hr.trans (refs_edits hp.edits)
  have hbusy₁ := hp.edits.busy.trans hbusy
  refine (iunlockput_spec hs₁.sound hok.1 hd₁.index (.inr (.inl hbusy₁))).mono ?_ fun _ _ h => h
  rintro _ fs₂ ⟨A₃, hdrop⟩
  have hframe := frame_dropped hdrop
  rw [hd₁.inum] at hframe
  refine (holds_pure _ _).2 ⟨hdrop.refs hd₁.index hr₁, i, k, A₃, sane_dropped hs₁ hd₁.index hd₁.ref hdrop,
    cached_dropped_of_ne hi₁ hdrop (Ne.symm hne) ((hframe.live (Ne.symm hdi)).2 hi₁.live), hdrop.busy.trans hbusy₁,
      hfree, h0, hdi,
    ⟨?_, ?_, ?_, ?_⟩, ?_, ?_⟩
  · rw [view_type hlive.1, hdir]
  · rwa [view_entries hlive.1 hdir, ← hent]
  · rwa [view_entries hlive.1 hdir, ← hent]
  · rw [view_entries hlive.1 hdir, hnew]
  · rw [view_dropped hs₁.sound hd₁ hr₁ (by simpa using hne) hdrop, view_placed hd hdir₁ hp, hview]
    rfl
  · have hsp₁ : Spares v (Held fs₀) {d} A₁ A₂ := spares_frame h.sound hp.frame hp.fields.1
    refine ((hsp.trans hsp₁).trans (spares_dropped_refs hs₁.sound hd₁ hr₁ hdrop)).mono fun j hj hl _ => ?_
    rcases hj with (hj | hj) | hj
    · exact absurd hfree (hj ▸ (live_iff v A j).1 hl)
    · exact hj
    · exact absurd hj (Set.notMem_empty j)

theorem create_fresh_spec {major minor : Nat} (h : Sane v A fs) (hok : Tolerant G ok) (hd : Cached v A fs dp d)
    (hdir : (A.ino d).type = T_DIR) (hr : Refs fs₀ fs [dp]) (hnew : lookup (entries A d) name = none)
    (hbusy : fs.log.busy = true) (ht : type < 2 ^ 16) (ht0 : type ≠ 0) :
    (create.fresh dp name type major minor fs).Holds G
      (fun ip fs' => Refs fs₀ fs' [ip] ∧ ∃ i k A', Created v A (Held fs₀) type d name ip i k fs' A')
      (fun w _ => ok w) := by
  unfold create.fresh
  rw [holds_bind, holds_fetch, (h.sound.rep.cache.known dp hd.index hd.ref).1]
  simp only [holds_bind]
  refine (ialloc_spec h.sound hok.1 hbusy ht).mono ?_ fun _ _ h => h
  rintro ip fs₁ ⟨i, hb⟩
  have hdi : d ≠ i := by
    rintro rfl
    exact hd.live.2 hb.free
  have hl₁ : Live v (A.setIno i (newborn type)) i := ⟨hb.hi, by rw [ino_setIno_self]; exact ht0⟩
  have hd₁ : Cached v (A.setIno i (newborn type)) fs dp d :=
    ⟨hd.index, hd.ref, hd.valid, hd.inum, (live_setIno_of_ne hdi).2 hd.live⟩
  refine (ilock_spec hb.sound hok.1 hb.index (.inr (hb.inum.symm ▸ hl₁))).mono ?_ fun _ _ h => h
  rintro _ fs₂ ⟨-, hi₂, hs₂, hr₂, x, hfs₂, -⟩
  rw [hb.inum] at hi₂
  have hr₂ := hb.refs.trans hr₂
  have hd₂ := cached_refs hd₁ hr₂
  have hsane₂ : Sane v (A.setIno i (newborn type)) fs₂ := ⟨hs₂, tidy_newborn h.sound h.tidy,
    anchored_newborn h.anchored hr₂ hi₂ fun j hj => Function.update_of_ne hj _ _⟩
  have hbusy₂ : fs₂.log.busy = true := by
    rw [hfs₂]
    exact hb.busy.trans hbusy
  have hne : dp ≠ ip := by
    rintro rfl
    exact hdi (hd₂.inum.symm.trans hi₂.inum)
  have hok₂ : DinodeOk { (A.setIno i (newborn type)).ino i with
      major := major % 2 ^ 16, minor := minor % 2 ^ 16, nlink := 1 } := by
    have hdin := hs₂.owns.din i hb.hi
    exact ⟨hdin.type, Nat.mod_lt _ (by decide), Nat.mod_lt _ (by decide), (by decide : 1 < 2 ^ 16),
      hdin.size, hdin.addrs,
      hdin.none⟩
  refine (relink_spec (fun e => { e with major := major % 2 ^ 16, minor := minor % 2 ^ 16, nlink := 1 }) hsane₂
    hok.1 hi₂ hbusy₂
    hok₂ rfl rfl rfl).mono (fun _ fs₃ h₃ => h₃.mono ?_ fun _ _ h => h) fun _ _ h => h
  rintro _ fs₄ ⟨A₄, hrel⟩
  have hi₄ := hi₂.edits hrel.edits ((live_relinked hrel i).2 hi₂.live)
  have hd₄ := cached_edits_of_ne hd₂ hrel.edits hne ((live_relinked hrel d).2 hd₂.live)
  have hview₄ : view v A₄ = Function.update (view v A) i ⟨type, 1, []⟩ := by
    rw [hrel.view, view_newborn h.sound hb.hi, setNlink]
    simp
  have hbusy₄ := hrel.edits.busy.trans hbusy₂
  have hr₄ : Refs fs₀ fs₄ [dp, ip] := ((hr.trans hr₂).trans (refs_edits hrel.edits)).perm (List.Perm.swap _ _ _)
  have hfree : (view v A i).type = 0 := by rw [view_type hb.hi, hb.free]
  have hpos : i ≠ 0 := Nat.ne_of_gt hb.lo
  have hsp₄ : Spares v (Held fs₀) {i} A A₄ := by
    refine (Spares.trans (W := {i}) ⟨fun j hl _ => ?_, fun j hl _ hj => ?_⟩ (hrel.spares _)).mono fun j hj _ _ => by
      simpa using hj
    · have hj : j ≠ i := fun e => hl.2 (e ▸ hb.free)
      rw [(frame_setIno (v := v) (S := ∅) (newborn type)).ino j hj]
    · exact contents_frame h.sound (frame_setIno _) hj hl
  rw [holds_fetch, hi₄.inum, hd₄.inum]
  simp only [holds_ite, holds_pure]
  refine ⟨fun hT => ?_, fun hT => ?_⟩
  · subst hT
    have hnode : view v A₄ i = ⟨T_DIR, 1, []⟩ := by rw [hview₄, Function.update_self]
    have hty : (A₄.ino i).type = T_DIR := by rw [← view_type hb.hi, hnode]
    have hdots := create_dots_spec (G := G) hrel.sane hok hd₄ hi₄ hne hty (by rw [hnode]) hpos hbusy₄
    refine hdots.mono ?_ fun _ _ h => h
    rintro _ fs₅ ⟨A₅, hs₅, hd₅, hi₅, hr₅, hbusy₅, hsp₅, hview₅⟩
    have hview₅ : view v A₅ = make (view v A) T_DIR d i := by
      have hn : (A₄.ino d).nlink = (view v A d).nlink := by
        rw [← view_nlink hd₄.live.1, hview₄, Function.update_of_ne hdi]
      rw [hview₅, hnode, hview₄, hn, make, if_pos rfl, Function.update_idem]
    have hfin :=
      create_finish_spec (G := G) hs₅ hok hd₅ hi₅ hne hdi hdir hd.live (hr₄.trans hr₅) hnew hbusy₅ hview₅ hfree hpos
      (by simpa using hsp₄.trans (hsp₅ _))
    simpa only [holds_bind, holds_ite] using hfin
  · have hfin := create_finish_spec (G := G) hrel.sane hok hd₄ hi₄ hne hdi hdir hd.live hr₄ hnew hbusy₄
      (by rw [hview₄, make, if_neg hT]) hfree hpos hsp₄
    simpa only [holds_bind, holds_ite] using hfin

/-- What create does to the name space, and the inode it returns locked. -/
inductive Made (v : Volume) (A : Image) (held : Nat → Prop) (cwd : Nat) (path : List UInt8) (type ip : Nat) (fs' : Fs) :
    Image → Prop
  /-- The file is there. -/
  | found (i : Nat) (sane : Sane v A fs') (cached : Cached v A fs' ip i) (busy : fs'.log.busy = true)
      (file : type = T_FILE ∧ (A.ino i).type = T_FILE) : Made v A held cwd path type ip fs' A
  | new (d i k : Nat) (name : List UInt8) (A' : Image) (parent : resolve (view v A) cwd path true = some (d, name))
      (made : Created v A held type d name ip i k fs' A') : Made v A held cwd path type ip fs' A'

theorem create_spec {major minor : Nat} (h : Sane v A fs) (hok : Tolerant G ok) (hcwd : Caller v A ok fs cwd)
    (hr : Refs fs₀ fs []) (h₀ : Anchored v A fs₀)
    (hbusy : fs.log.busy = true) (ht : type < 2 ^ 16) (ht0 : type ≠ 0) :
    (Sysfile.create cwd path type major minor fs).Holds G
      (fun r fs' => match r with
        | none => Sane v A fs' ∧ Refs fs₀ fs' [] ∧ fs'.log.busy = true
        | some ip => Refs fs₀ fs' [ip] ∧
            ∃ A', Made v A (Held fs₀) (fs.icache cwd).inum path type ip fs' A')
      (fun w _ => ok w) := by
  unfold Sysfile.create
  rw [holds_bind]
  refine (parent_spec h hok.1 hcwd).mono ?_ fun _ _ h => h
  rintro (_ | ⟨dp, name⟩) fs₁ hw
  · obtain ⟨hs₁, hr₁, hlog, -⟩ := hw
    exact (holds_pure _ _).2 ⟨⟨hs₁, h.tidy, h.anchored.refs hr₁⟩, hr.trans hr₁, hlog ▸ hbusy⟩
  obtain ⟨hs₁, hr₁, hlog, hres, hdp, -, hpar⟩ := hw
  obtain ⟨hd₁, hdir⟩ := hpar rfl
  simp only [holds_bind]
  refine (ilock_spec hs₁ hok.1 hdp (.inr hd₁.live)).mono ?_ fun _ _ h => h
  rintro _ fs₂ ⟨-, hd₂, hs₂, hr₂, x, hfs₂, -⟩
  have hr₂ := hr.trans (hr₁.trans hr₂)
  have hbusy₂ : fs₂.log.busy = true := by
    rw [hfs₂]
    exact hlog ▸ hbusy
  refine (dirlookup_spec hs₂ h.tidy hok.1 hd₂ hdir).mono ?_ fun _ _ h => h
  rintro (_ | ⟨ip, off⟩) fs₃ hfound
  · obtain ⟨rfl, hnew⟩ := hfound
    rw [holds_bind]
    refine (create_fresh_spec ⟨hs₂, h.tidy, h₀.refs hr₂⟩ hok hd₂ hdir hr₂ hnew hbusy₂ ht ht0).mono ?_ fun _ _ h => h
    rintro ip fs₄ ⟨hr₄, i, k, A', hmade⟩
    exact (holds_pure _ _).2 ⟨hr₄, A', .new _ i k name A' hres hmade⟩
  obtain ⟨k, de, -, hget, hm, -, hip, hinum, hs₃, hr₃, y, hfs₃, -⟩ := hfound
  have hr₃ : Refs fs₀ fs₃ [dp, ip] := (hr₂.trans hr₃).perm (List.Perm.swap _ _ _)
  simp only [holds_bind]
  refine (iunlockput_walk hs₃ hok.1 h₀ hr₃ hdp).mono ?_ fun _ _ h => h
  rintro _ fs₄ ⟨hs₄, hr₄, hfs₄⟩
  have hinum₄ : (fs₄.icache ip).inum = de.inum := by
    rw [← hinum, hfs₄]
    by_cases hn : ip = dp
    · rw [hn, putInode_self]
    · rw [putInode_of_ne hn]
  have hlive : ok noType ∨ Live v A (fs₄.icache ip).inum := by
    rw [hinum₄]
    exact hcwd.live.imp id fun hl => hl.1 _ hd₁.live hdir de (List.mem_of_getElem? hget) hm.1
  refine (ilock_spec hs₄ hok.1 hip hlive).mono ?_ fun _ _ h => h
  rintro _ fs₅ ⟨-, hc₅, hs₅, hr₅, z, hfs₅, -⟩
  have hr₅ := hr₄.trans hr₅
  have hbusy₅ : fs₅.log.busy = true := by
    rw [hfs₅, hfs₄, hfs₃]
    exact hbusy₂
  rw [holds_fetch, hc₅.din hs₅.rep]
  simp only [holds_ite, holds_bind]
  refine ⟨fun hf => (holds_pure _ _).2 ⟨hr₅, A, .found _ ⟨hs₅, h.tidy, h₀.refs hr₅⟩ hc₅ hbusy₅ hf⟩, fun _ => ?_⟩
  refine (iunlockput_walk hs₅ hok.1 h₀ hr₅ hip).mono ?_ fun _ _ h => h
  rintro _ fs₆ ⟨hs₆, hr₆, rfl⟩
  exact (holds_pure _ _).2 ⟨⟨hs₆, h.tidy, h₀.refs hr₆⟩, hr₆, hbusy₅⟩

/-- What making a directory or a device does to the name space. -/
def NodeMade (held : Nat → Prop) (T : Names) (cwd : Nat) (path : List UInt8) (type : Nat) (r : Int) (T' : Names) :
    Prop :=
  r = -1 ∧ T' = T ∨ r = 0 ∧ ∃ d i k name, resolve T cwd path true = some (d, name) ∧ Vacant T d k name ∧
    (T i).type = 0 ∧ i ≠ 0 ∧ d ≠ i ∧ T' = create held T type d i k name

theorem not_last_created {held : Nat → Prop} {k : Nat} (h : Created v A held type d name ip i k fs A') :
    ¬Last fs ip := by
  rintro ⟨-, -, hn⟩
  rw [h.cached.din h.sane.sound.rep, ← view_nlink h.cached.live.1, h.view, create_self held _ _ _ _ h.ne] at hn
  cases hn

theorem makeNode_spec {major minor : Nat} (h : Sane v A fs) (hok : Tolerant G ok) (hcwd : Caller v A ok fs cwd)
    (ht : type < 2 ^ 16) (ht0 : type ≠ 0) (hfile : type ≠ T_FILE) :
    (makeNode cwd path type major minor fs).Holds G
      (fun r fs' => fs'.log.busy = false ∧ ∃ A', Sane v A' fs' ∧ Refs fs fs' [] ∧
        Spares v (Held fs) (Parent (view v A) (fs.icache cwd).inum path) A A' ∧
        NodeMade (Held fs) (view v A) (fs.icache cwd).inum path type r (view v A')) (fun w _ => ok w) := by
  unfold makeNode
  simp only [holds_bind]
  refine (begin_spec h.sound hok.1).mono ?_ fun _ _ h => h
  rintro _ fs₁ ⟨hs₁, hc, hbusy₁⟩
  have hr₁ : Refs fs fs₁ [] := refs_sameCache hc
  refine (create_spec ⟨hs₁, h.tidy, h.anchored.refs hr₁⟩ hok (hcwd.refs hr₁) hr₁ h.anchored hbusy₁ ht ht0).mono ?_
    fun _ _ h => h
  rintro (_ | ip) fs₂ hres
  · obtain ⟨hs₂, hr₂, -⟩ := hres
    simp only [holds_bind]
    refine (commit_spec hs₂ hok.1).mono ?_ fun _ _ h => h
    rintro _ fs₃ ⟨hs₃, hcache, hb⟩
    exact (holds_pure _ _).2 ⟨hb, A, hs₃, hr₂.trans (refs_sameCache hcache), .refl .., .inl ⟨rfl, rfl⟩⟩
  · obtain ⟨hr₂, A', hmade⟩ := hres
    simp only [holds_bind]
    cases hmade with
    | found i _ _ _ hf => exact absurd hf.1 hfile
    | new d i k name A' hparent hm =>
        have hlast := not_last_created hm
        refine (iunlockput_spec hm.sane.sound hok.1 hm.cached.index (.inl hlast)).mono ?_ fun _ _ h => h
        rintro _ fs₃ ⟨A₃, hd⟩
        have hA := hd.same hlast
        subst hA
        have hs₃ := sane_dropped hm.sane hm.cached.index hm.cached.ref hd
        refine (commit_spec hs₃ hok.1).mono ?_ fun _ _ h => h
        rintro _ fs₄ ⟨hs₄, hcache, hb⟩
        rw [hc] at hparent
        have hsp := hm.spares.mono fun j hj _ _ => (⟨name, Set.mem_singleton_iff.1 hj ▸ hparent⟩ : j ∈ Parent _ _ path)
        exact (holds_pure _ _).2 ⟨hb, _, hs₄, (hd.refs hm.cached.index hr₂).trans (refs_sameCache hcache), hsp,
          .inr ⟨rfl, d, i, k, name, hparent, hm.vacant, hm.free, hm.pos, hm.ne, hm.view⟩⟩

end ArmXv6.CreateSpecs
