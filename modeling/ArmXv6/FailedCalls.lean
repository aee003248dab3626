import ArmXv6.CreateSpecs
import ArmXv6.PathResolution
import ArmXv6.ExecInputs

namespace ArmXv6.FailedCalls

open Lib.Exec Lib.Bytes Param Blocks Fs Content Sysfile DiskImage BlockSpecs BlockAlloc Ownership BlockMap FileData
  Truncate InodeSpecs Namespace Directory PathWalk SysfileSpecs CreateSpecs Kernel Descriptors Syscall
open PathResolution (lenient_true)
open DirectoryMap (smallVolume smallImage smallBlocks)
open UserBuffers (Gives gives_any gives_pure gives_ite gives_stop gives_onFs)

variable {v : Volume} {A : Image} {fs fs₀ : Fs} {ip dp i d cwd : Nat} {L : List Nat} {path name : List UInt8}

theorem holds_some {σ α : Type} {G : Event → Prop} {r : Run Event σ α} {Q : α → σ → Prop}
    (h : r.Holds (fun _ => True) Q fun _ _ => True) :
    r.Holds G Q fun _ _ => True := by
  cases r with
  | ok a s t => exact fun _ => h fun _ _ => trivial
  | stop w s t => exact fun _ => trivial

/-- The tree is the one of A, and the call that began in fs₀ holds the references in L. -/
structure Same (v : Volume) (A : Image) (fs₀ : Fs) (L : List Nat) (fs : Fs) : Prop where
  sane : Sane v A fs
  refs : Refs fs₀ fs L

theorem Same.start (h : Sane v A fs) : Same v A fs [] fs := ⟨h, refs_sameCache rfl⟩

theorem release_spec (h : Same v A fs₀ (ip :: L) fs) (ha : Anchored v A fs₀) (hip : ip < NINODE) :
    (iunlockput ip fs).Holds (fun _ => True) (fun _ fs' => Same v A fs₀ L fs' ∧ fs'.log = fs.log) fun _ _ => True := by
  refine (iunlockput_walk h.sane.sound lenient_true ha h.refs hip).mono ?_ fun _ _ h => h
  rintro _ fs₁ ⟨hs, hr, hfs⟩
  refine ⟨⟨⟨hs, h.sane.tidy, ha.refs hr⟩, hr⟩, ?_⟩
  rw [hfs]
  rfl

theorem commit_same (h : Same v A fs₀ L fs) :
    (commitTrans fs).Holds (fun _ => True) (fun _ fs' => Same v A fs₀ L fs') fun _ _ => True := by
  refine (commit_spec h.sane lenient_true).mono ?_ fun _ _ h => h
  rintro _ fs₁ ⟨hs, hc, -⟩
  exact ⟨hs, h.refs.trans (refs_sameCache hc)⟩

theorem begin_same (h : Same v A fs₀ L fs) :
    (beginTrans fs).Holds (fun _ => True) (fun _ fs' => Same v A fs₀ L fs' ∧ fs'.icache = fs.icache ∧
      fs'.log.busy = true)
      fun _ _ => True := by
  refine (begin_spec h.sane.sound lenient_true).mono ?_ fun _ _ h => h
  rintro _ fs₁ ⟨hs, hc, hb⟩
  have hr := h.refs.trans (refs_sameCache hc)
  exact ⟨⟨⟨hs, h.sane.tidy, h.sane.anchored.refs (refs_sameCache hc)⟩, hr⟩, hc, hb⟩

theorem lock_same (h : Same v A fs₀ L fs) (hip : ip < NINODE) :
    (ilock ip fs).Holds (fun _ => True)
      (fun _ fs' => Same v A fs₀ L fs' ∧ Cached v A fs' ip (fs.icache ip).inum ∧ Refs fs fs' [] ∧
        fs'.log = fs.log) fun _ _ => True := by
  refine (ilock_spec h.sane.sound lenient_true hip (.inl trivial)).mono ?_ fun _ _ h => h
  rintro _ fs₁ ⟨-, hc, hs, hr, x, hx, -⟩
  refine ⟨⟨⟨hs, h.sane.tidy, h.sane.anchored.refs hr⟩, h.refs.trans hr⟩, hc, hr, ?_⟩
  rw [hx]
  rfl

theorem parent_same (h : Same v A fs₀ L fs) (hcwd : cwd < NINODE) (href : 0 < (fs.icache cwd).ref) :
    (nameiparent cwd path fs).Holds (fun _ => True)
      (fun r fs' => fs'.log = fs.log ∧ match r with
        | none => Same v A fs₀ L fs'
        | some (dp, name) => Same v A fs₀ (dp :: L) fs' ∧ dp < NINODE ∧ Cached v A fs' dp (fs'.icache dp).inum ∧
            (A.ino (fs'.icache dp).inum).type = T_DIR ∧
            resolve (view v A) (fs.icache cwd).inum path true = some ((fs'.icache dp).inum, name))
      fun _ _ => True := by
  refine (parent_spec h.sane lenient_true ⟨hcwd, href, .inl trivial⟩).mono ?_ fun _ _ h => h
  rintro (_ | ⟨dp, name⟩) fs₁ hw
  · obtain ⟨hs, hr, hlog, -⟩ := hw
    exact ⟨hlog, ⟨hs, h.sane.tidy, h.sane.anchored.refs hr⟩, h.refs.trans hr⟩
  · obtain ⟨hs, hr, hlog, hres, hdp, -, hpar⟩ := hw
    obtain ⟨hc, hdir⟩ := hpar rfl
    exact ⟨hlog, ⟨⟨hs, h.sane.tidy, h.sane.anchored.refs hr⟩, h.refs.trans hr⟩, hdp, hc, hdir, hres⟩

theorem namei_same (h : Same v A fs₀ L fs) (hcwd : cwd < NINODE) (href : 0 < (fs.icache cwd).ref) :
    (namei cwd path fs).Holds (fun _ => True)
      (fun r fs' => match r with
        | none => Same v A fs₀ L fs'
        | some ip => Same v A fs₀ (ip :: L) fs' ∧ ip < NINODE)
      fun _ _ => True := by
  refine (namei_spec h.sane.tidy h.sane.anchored lenient_true (.inl trivial) path h.sane.sound hcwd href
    (.inl trivial)).mono ?_
    fun _ _ h => h
  rintro (_ | ip) fs₁ ⟨name, hw⟩
  · obtain ⟨hs, hr, -, -⟩ := hw
    exact ⟨⟨hs, h.sane.tidy, h.sane.anchored.refs hr⟩, h.refs.trans hr⟩
  · obtain ⟨hs, hr, -, -, hip, -⟩ := hw
    exact ⟨⟨⟨hs, h.sane.tidy, h.sane.anchored.refs hr⟩, h.refs.trans hr⟩, hip⟩

theorem lookup_same (h : Same v A fs₀ L fs) (hc : Cached v A fs dp d) (hdir : (A.ino d).type = T_DIR) :
    (dirlookup dp name fs).Holds (fun _ => True)
      (fun r fs' => match r with
        | none => Same v A fs₀ L fs' ∧ lookup (entries A d) name = none
        | some (ip, _) => Same v A fs₀ (ip :: L) fs' ∧ ip < NINODE ∧ fs'.log = fs.log)
      fun _ _ => True := by
  refine (dirlookup_spec h.sane.sound h.sane.tidy lenient_true hc hdir).mono ?_ fun _ _ h => h
  rintro (_ | ⟨ip, off⟩) fs₁ hf
  · obtain ⟨rfl, hnone⟩ := hf
    exact ⟨h, hnone⟩
  · obtain ⟨k, de, -, -, -, -, hip, -, hs, hr, y, hfs, -⟩ := hf
    refine ⟨⟨⟨hs, h.sane.tidy, h.sane.anchored.refs hr⟩, h.refs.trans hr⟩, hip, ?_⟩
    rw [hfs]
    rfl

theorem remove_gives (dp ip off : Nat) : Gives (sysUnlink.remove dp ip off) fun r => r = 0 := by
  unfold sysUnlink.remove
  refine .then fun r => gives_ite (fun _ => gives_stop _) fun _ => .then fun _ => .then fun _ => .then fun _ =>
    .then fun _ =>
    .then fun _ => .then fun _ => .then fun _ => gives_pure rfl

theorem unlink_refused (h : Sane v A fs) (hcwd : cwd < NINODE) (href : 0 < (fs.icache cwd).ref) :
    (sysUnlink cwd path fs).Holds (fun _ => True) (fun r fs' => r = -1 → Same v A fs [] fs') fun _ _ => True := by
  have hbad : ∀ {dp : Nat} {fs₁ : Fs}, Same v A fs [dp] fs₁ → dp < NINODE →
      (sysUnlink.bad dp fs₁).Holds (fun _ => True) (fun r fs' => r = -1 → Same v A fs [] fs') fun _ _ => True := by
    intro dp fs₁ hs hdp
    unfold sysUnlink.bad
    rw [holds_bind]
    refine (release_spec hs h.anchored hdp).mono (fun _ fs₂ h₂ => ?_) fun _ _ h => h
    rw [holds_bind]
    refine (commit_same h₂.1).mono (fun _ fs₃ h₃ => ?_) fun _ _ h => h
    rw [holds_pure]
    exact fun _ => h₃
  unfold sysUnlink
  rw [holds_bind]
  refine (parent_same (.start h) hcwd href).mono ?_ fun _ _ h => h
  rintro (_ | ⟨dp, name⟩) fs₁ ⟨-, hw⟩
  · rw [holds_pure]
    exact fun _ => hw
  obtain ⟨h₁, hdp, -, hdir, -⟩ := hw
  dsimp only
  rw [holds_bind]
  refine (begin_same h₁).mono ?_ fun _ _ h => h
  rintro _ fs₂ ⟨h₂, hcache, -⟩
  rw [holds_bind]
  refine (lock_same h₂ hdp).mono ?_ fun _ _ h => h
  rintro _ fs₃ ⟨h₃, hc₃, -, -⟩
  rw [hcache] at hc₃
  rw [holds_ite]
  refine ⟨fun _ => hbad h₃ hdp, fun _ => ?_⟩
  rw [holds_bind]
  refine (lookup_same h₃ hc₃ hdir).mono ?_ fun _ _ h => h
  rintro (_ | ⟨ip, off⟩) fs₄ hf
  · exact hbad hf.1 hdp
  obtain ⟨h₄, hip, -⟩ := hf
  dsimp only
  rw [holds_bind]
  refine (lock_same h₄ hip).mono ?_ fun _ _ h => h
  rintro _ fs₅ ⟨h₅, hc₅, -, -⟩
  have hdin := hc₅.din h₅.sane.sound.rep
  have hremove :
      ∀ fs₆ : Fs, (sysUnlink.remove dp ip off fs₆).Holds (fun _ => True) (fun r fs' => r = -1 → Same v A fs [] fs')
      fun _ _ => True :=
        fun fs₆ => (remove_gives dp ip off fs₆).mono (fun r _ hr hn => by rw [hr] at hn; cases hn) fun _ _ h => h
  rw [holds_bind, holds_fetch, holds_ite]
  refine ⟨fun _ => by rw [holds_panic]; trivial, fun _ => ?_⟩
  rw [holds_bind, holds_ite]
  have hrest : ∀ (empty : Bool) (fs₆ : Fs), (¬empty → Same v A fs [ip, dp] fs₆) →
      ((if ¬empty then do
          iunlockput ip
          sysUnlink.bad dp
        else sysUnlink.remove dp ip off : FsM Int) fs₆).Holds (fun _ => True) (fun r fs' => r = -1 → Same v A fs [] fs')
        fun _ _ => True := by
    intro empty fs₆ h₆
    rw [holds_ite]
    refine ⟨fun he => ?_, fun _ => hremove fs₆⟩
    rw [holds_bind]
    exact (release_spec (h₆ he) h.anchored hip).mono (fun _ fs₇ h₇ => hbad h₇.1 hdp) fun _ _ h => h
  refine ⟨fun ht => ?_, fun _ => ?_⟩
  · rw [hdin] at ht
    refine (isdirempty_spec h₅.sane.sound h₅.sane.tidy lenient_true hc₅ ht).mono ?_ fun _ _ h => h
    rintro empty fs₆ ⟨rfl, -⟩
    exact hrest empty fs₅ fun _ => h₅
  · rw [holds_pure]
    exact hrest true fs₅ fun hf => absurd rfl hf

theorem nlink_same (g : Nat → Nat) (hg : ∀ n, g n < 2 ^ 16) (h : Same v A fs₀ L fs) (hc : Cached v A fs ip i)
    (hbusy : fs.log.busy = true) :
    (setDin ip (fun e => { e with nlink := g e.nlink }) fs).Holds (fun _ => True)
      (fun _ fs₁ => (iupdate ip fs₁).Holds (fun _ => True)
        (fun _ fs' => Same v (A.setIno i { A.ino i with nlink := g (A.ino i).nlink }) fs₀ L fs' ∧
          Edits ip fs fs') fun _ _ => True)
      fun _ _ => True := by
  refine (editDin_spec (fun e => { e with nlink := g e.nlink }) h.sane.sound lenient_true hc hbusy
    (dinodeOk_nlink (h.sane.sound.owns.din i hc.live.1) (hg _)) rfl rfl rfl).mono (fun _ fs₁ h₁ =>
      h₁.mono ?_ fun _ _ h => h) fun _ _ h => h
  rintro _ fs' ⟨hs, hed⟩
  have hino : ∀ j, j ≠ i → (A.setIno i { A.ino i with nlink := g (A.ino i).nlink }).ino j = A.ino j := fun j hj =>
    Function.update_of_ne hj _ _
  have hr := h.refs.trans (refs_edits hed)
  exact ⟨⟨⟨hs, tidy_setIno h.sane.sound h.sane.tidy rfl rfl rfl, Anchored.edits h.sane.anchored hc hed hino⟩, hr⟩, hed⟩

theorem setIno_back {n : Nat} (hn : n = (A.ino i).nlink) (m : Nat) :
    (A.setIno i { A.ino i with nlink := m }).setIno i
      { (A.setIno i { A.ino i with nlink := m }).ino i with nlink := n } = A := by
  subst hn
  rw [ino_setIno_self]
  unfold Image.setIno
  simp only [Function.update_idem]
  rw [Function.update_eq_self]

theorem link_bad_refused (ha : Anchored v A fs₀) (hn : (A.ino i).nlink < 2 ^ 16)
    (h : Same v (A.setIno i { A.ino i with nlink := up (A.ino i).nlink }) fs₀ [ip] fs) (hip : ip < NINODE)
      (hi : (fs.icache ip).inum = i)
    (hbusy : fs.log.busy = true) :
    (sysLink.bad ip fs).Holds (fun _ => True) (fun r fs' => r = -1 → Same v A fs₀ [] fs') fun _ _ => True := by
  unfold sysLink.bad
  rw [holds_bind]
  refine (lock_same h hip).mono ?_ fun _ _ h => h
  rintro _ fs₁ ⟨h₁, hc₁, -, hlog⟩
  rw [hi] at hc₁
  have hf : decNlink = fun e => { e with nlink := down e.nlink } := funext decNlink_eq
  rw [holds_bind, hf]
  refine (nlink_same down down_lt h₁ hc₁ (by rw [hlog]; exact hbusy)).mono (fun _ fs₂ h₂ => ?_) fun _ _ h => h
  rw [holds_bind]
  refine h₂.mono (fun _ fs₃ h₃ => ?_) fun _ _ h => h
  obtain ⟨h₃, -⟩ := h₃
  rw [setIno_back] at h₃
  · rw [holds_bind]
    refine (release_spec h₃ ha hip).mono (fun _ fs₄ h₄ => ?_) fun _ _ h => h
    rw [holds_bind]
    refine (commit_same h₄.1).mono (fun _ fs₅ h₅ => ?_) fun _ _ h => h
    rw [holds_pure]
    exact fun _ => h₅
  · rw [ino_setIno_self]
    exact down_up hn

theorem dirlink_refused (h : Same v A fs₀ L fs) (ha : Anchored v A fs₀) (hc : Cached v A fs dp d)
    (hdir : (A.ino d).type = T_DIR) (inum : Nat) :
    (dirlink dp name inum fs).Holds (fun _ => True) (fun r fs' => r < 0 → Same v A fs₀ L fs' ∧
      fs'.log = fs.log) fun _ _ => True := by
  unfold dirlink
  rw [holds_bind]
  refine (lookup_same h hc hdir).mono ?_ fun _ _ h => h
  rintro (_ | ⟨ip, off⟩) fs₁ hf
  · have hrest : Gives (do
        let fs ← fetch
        let off ← dirlink.scan dp ((fs.icache dp).din.size / DESIZE + 1) 0
        let de := encodeDirent ⟨inum % 2 ^ 16, strncpy name DIRSIZ⟩
        let r ← writei dp (fun k => de.getD k 0) off DESIZE
        if r ≠ DESIZE then .panic "dirlink" else pure 0 : FsM Int) fun r => r = 0 :=
      .then fun _ => .then fun _ => .then fun _ => gives_ite (fun _ => gives_stop _) fun _ => gives_pure rfl
    refine (hrest fs₁).mono (fun r _ hr hn => ?_) fun _ _ h => h
    rw [hr] at hn
    exact absurd hn (by decide)
  · obtain ⟨h₁, hip, hlog⟩ := hf
    dsimp only
    rw [holds_bind]
    refine (iput_walk h₁.sane.sound ha h₁.refs hip).mono ?_ fun _ _ h => h
    rintro _ fs₂ ⟨hs, hr, hfs⟩
    rw [holds_pure]
    refine fun _ => ⟨⟨⟨hs, h₁.sane.tidy, ha.refs hr⟩, hr⟩, ?_⟩
    rw [← hlog, hfs]
    rfl

theorem link_refused {old new : List UInt8} (h : Sane v A fs) (hcwd : cwd < NINODE) (href : 0 < (fs.icache cwd).ref) :
    (sysLink cwd old new fs).Holds (fun _ => True) (fun r fs' => r = -1 → Same v A fs [] fs') fun _ _ => True := by
  unfold sysLink
  rw [holds_bind]
  refine (namei_same (.start h) hcwd href).mono ?_ fun _ _ h => h
  rintro (_ | ip) fs₁ hw
  · rw [holds_pure]
    exact fun _ => hw
  obtain ⟨h₁, hip⟩ := hw
  dsimp only
  rw [holds_bind]
  refine (begin_same h₁).mono ?_ fun _ _ h => h
  rintro _ fs₂ ⟨h₂, -, hbusy₂⟩
  rw [holds_bind]
  refine (lock_same h₂ hip).mono ?_ fun _ _ h => h
  rintro _ fs₃ ⟨h₃, hc₃, -, hlog₃⟩
  have hbusy₃ : fs₃.log.busy = true := by
    rw [hlog₃]
    exact hbusy₂
  rw [holds_bind, holds_fetch, holds_ite]
  refine ⟨fun _ => ?_, fun _ => ?_⟩
  · rw [holds_bind]
    refine (release_spec h₃ h.anchored hip).mono (fun _ fs₄ h₄ => ?_) fun _ _ h => h
    rw [holds_bind]
    refine (commit_same h₄.1).mono (fun _ fs₅ h₅ => ?_) fun _ _ h => h
    rw [holds_pure]
    exact fun _ => h₅
  · generalize (fs₂.icache ip).inum = i at hc₃
    have hf : incNlink = fun e => { e with nlink := up e.nlink } := funext incNlink_eq
    rw [holds_bind, hf]
    refine (nlink_same up up_lt h₃ hc₃ hbusy₃).mono (fun _ fs₄ h₄ => ?_) fun _ _ h => h
    rw [holds_bind]
    refine h₄.mono (fun _ fs₅ h₅ => ?_) fun _ _ h => h
    obtain ⟨h₅, hed⟩ := h₅
    rw [holds_bind]
    refine (iunlock_spec h₅.sane.sound lenient_true hip).mono ?_ fun _ _ h => h
    rintro _ fs₆ ⟨-, hs₆, hr₆, hfs₆⟩
    have h₆ : Same v (A.setIno i { A.ino i with nlink := up (A.ino i).nlink }) fs [ip] fs₆ :=
      ⟨⟨hs₆, h₅.sane.tidy, h₅.sane.anchored.refs hr₆⟩, h₅.refs.trans hr₆⟩
    have hbusy₆ : fs₆.log.busy = true := by
      rw [hfs₆]
      exact hed.busy.trans hbusy₃
    have href₆ : 0 < (fs₆.icache cwd).ref := by
      rw [h₆.refs.ref cwd hcwd]
      exact Nat.lt_add_right _ href
    have hpos₆ : 0 < (fs₆.icache ip).ref := by
      rw [h₆.refs.ref ip hip, List.count_cons_self]
      omega
    have hinum₆ : (fs₆.icache ip).inum = i := (((refs_edits hed).trans hr₆).keep ip hip hc₃.ref).1.trans hc₃.inum
    have hn : (A.ino i).nlink < 2 ^ 16 := (h.sound.owns.din i hc₃.live.1).nlink
    have hbad : ∀ fs₇ : Fs, Same v (A.setIno i { A.ino i with nlink := up (A.ino i).nlink }) fs₆ [] fs₇ →
      fs₇.log.busy = true →
        (sysLink.bad ip fs₇).Holds (fun _ => True) (fun r fs' => r = -1 → Same v A fs [] fs') fun _ _ => True :=
          fun fs₇ h₇ hb₇ =>
      link_bad_refused h.anchored hn ⟨h₇.sane, h₆.refs.trans h₇.refs⟩ hip
        (((h₇.refs.keep ip hip hpos₆).1).trans hinum₆) hb₇
    rw [holds_bind]
    refine (parent_same (.start h₆.sane) hcwd href₆).mono ?_ fun _ _ h => h
    rintro (_ | ⟨dp, name⟩) fs₇ ⟨hlog₇, hw⟩
    · exact hbad fs₇ hw (by rw [hlog₇]; exact hbusy₆)
    obtain ⟨h₇, hdp, hc₇, hdir, -⟩ := hw
    dsimp only
    rw [holds_bind]
    refine (lock_same h₇ hdp).mono ?_ fun _ _ h => h
    rintro _ fs₈ ⟨h₈, hc₈, -, hlog₈⟩
    have hbusy₈ : fs₈.log.busy = true := by
      rw [hlog₈, hlog₇]
      exact hbusy₆
    have hrest : ∀ (r : Int) (fs₉ : Fs),
        (r < 0 → Same v (A.setIno i { A.ino i with nlink := up (A.ino i).nlink }) fs₆ [dp] fs₉ ∧
          fs₉.log = fs₈.log) →
        ((if r < 0 then do
            iunlockput dp
            sysLink.bad ip
          else do
            iunlockput dp
            iput ip
            commitTrans
            pure 0 : FsM Int) fs₉).Holds (fun _ => True) (fun r fs' => r = -1 → Same v A fs [] fs') fun _ _ =>
              True := by
      intro r fs₉ h₉
      rw [holds_ite]
      refine ⟨fun hr => ?_, fun _ => ?_⟩
      · obtain ⟨h₉, hlog₉⟩ := h₉ hr
        rw [holds_bind]
        refine (release_spec h₉ h₆.sane.anchored hdp).mono (fun _ fs' h' => ?_) fun _ _ h => h
        exact hbad fs' h'.1 (by rw [h'.2, hlog₉]; exact hbusy₈)
      · have hz : Gives (do
            iunlockput dp
            iput ip
            commitTrans
            pure 0 : FsM Int) fun r => r = 0 := .then fun _ => .then fun _ => .then fun _ => gives_pure rfl
        refine (hz fs₉).mono (fun r _ hr hn => ?_) fun _ _ h => h
        rw [hr] at hn
        cases hn
    rw [holds_bind, holds_fetch, holds_bind, holds_ite]
    refine ⟨fun _ => ?_, fun _ => ?_⟩
    · rw [holds_pure]
      exact hrest (-1) fs₈ fun _ => ⟨h₈, rfl⟩
    · exact (dirlink_refused h₈ h₆.sane.anchored hc₈ hdir _).mono (fun r fs₉ h₉ => hrest r fs₉ h₉) fun _ _ h => h

/-- The path names no file yet, but its directory is there. -/
def Missing (v : Volume) (A : Image) (cwd : Nat) (path : List UInt8) : Prop :=
  ∃ d name, resolve (view v A) cwd path true = some (d, name) ∧ lookup (view v A d).entries name = none

theorem create_refused {type major minor : Nat} (h : Same v A fs₀ [] fs) (ha : Anchored v A fs₀) (hcwd : cwd < NINODE)
    (href : 0 < (fs.icache cwd).ref) :
    (Sysfile.create cwd path type major minor fs).Holds (fun _ => True)
      (fun r fs' => match r with
        | none => Same v A fs₀ [] fs'
        | some ip => Same v A fs₀ [ip] fs' ∧ ip < NINODE ∨ Missing v A (fs.icache cwd).inum path)
      fun _ _ => True := by
  unfold Sysfile.create
  rw [holds_bind]
  refine (parent_same h hcwd href).mono ?_ fun _ _ h => h
  rintro (_ | ⟨dp, name⟩) fs₁ ⟨-, hw⟩
  · rw [holds_pure]
    exact hw
  obtain ⟨h₁, hdp, hc₁, hdir, hres⟩ := hw
  dsimp only
  rw [holds_bind]
  refine (lock_same h₁ hdp).mono ?_ fun _ _ h => h
  rintro _ fs₂ ⟨h₂, hc₂, -, -⟩
  rw [holds_bind]
  refine (lookup_same h₂ hc₂ hdir).mono ?_ fun _ _ h => h
  rintro (_ | ⟨ip, off⟩) fs₃ hf
  · dsimp only
    rw [holds_bind]
    refine (gives_any _ fs₃).mono (fun ip fs₄ _ => ?_) fun _ _ h => h
    rw [holds_pure]
    refine .inr ⟨_, name, hres, ?_⟩
    rw [view_entries hc₂.live.1 hdir]
    exact hf.2
  obtain ⟨h₃, hip, -⟩ := hf
  have h₃ : Same v A fs₀ [dp, ip] fs₃ := ⟨h₃.sane, h₃.refs.perm (List.Perm.swap _ _ _)⟩
  dsimp only
  rw [holds_bind]
  refine (release_spec h₃ ha hdp).mono (fun _ fs₄ h₄ => ?_) fun _ _ h => h
  rw [holds_bind]
  refine (lock_same h₄.1 hip).mono ?_ fun _ _ h => h
  rintro _ fs₅ ⟨h₅, -, -, -⟩
  rw [holds_bind, holds_fetch, holds_ite]
  refine ⟨fun _ => ?_, fun _ => ?_⟩
  · rw [holds_pure]
    exact .inl ⟨h₅, hip⟩
  · rw [holds_bind]
    refine (release_spec h₅ ha hip).mono (fun _ fs₆ h₆ => ?_) fun _ _ h => h
    rw [holds_pure]
    exact h₆.1

theorem makeNode_refused {type major minor : Nat} (h : Sane v A fs) (hcwd : cwd < NINODE)
    (href : 0 < (fs.icache cwd).ref) :
    (makeNode cwd path type major minor fs).Holds (fun _ => True) (fun r fs' => r = -1 →
      Same v A fs [] fs') fun _ _ => True := by
  unfold makeNode
  rw [holds_bind]
  refine (begin_same (.start h)).mono ?_ fun _ _ h => h
  rintro _ fs₁ ⟨h₁, hcache, -⟩
  rw [holds_bind]
  refine (create_refused h₁ h.anchored hcwd (by rw [hcache]; exact href)).mono ?_ fun _ _ h => h
  rintro (_ | ip) fs₂ hr
  · dsimp only
    rw [holds_bind]
    refine (commit_same hr).mono (fun _ fs₃ h₃ => ?_) fun _ _ h => h
    rw [holds_pure]
    exact fun _ => h₃
  · have hz : Gives (do
        iunlockput ip
        commitTrans
        pure 0 : FsM Int) fun r => r = 0 := .then fun _ => .then fun _ => gives_pure rfl
    refine (hz fs₂).mono (fun r _ hr hn => ?_) fun _ _ h => h
    rw [hr] at hn
    cases hn

theorem find_refused {omode : Nat} (h : Sane v A fs) (hcwd : cwd < NINODE) (href : 0 < (fs.icache cwd).ref) :
    (sysOpen.find cwd path omode fs).Holds (fun _ => True)
      (fun r fs' => match r with
        | none => Same v A fs [] fs'
        | some ip =>
            Same v A fs [ip] fs' ∧ ip < NINODE ∨ omode &&& O_CREATE ≠ 0 ∧ Missing v A (fs.icache cwd).inum path)
      fun _ _ => True := by
  unfold sysOpen.find
  rw [holds_ite]
  refine ⟨fun hcreate => ?_, fun _ => ?_⟩
  · rw [holds_bind]
    refine (begin_same (.start h)).mono ?_ fun _ _ h => h
    rintro _ fs₁ ⟨h₁, hcache, -⟩
    rw [holds_bind]
    refine (create_refused h₁ h.anchored hcwd (by rw [hcache]; exact href)).mono ?_ fun _ _ h => h
    rintro (_ | ip) fs₂ hr
    · rw [holds_bind]
      refine (commit_same hr).mono (fun _ fs₃ h₃ => ?_) fun _ _ h => h
      rw [holds_pure]
      exact h₃
    · rw [hcache] at hr
      rw [holds_bind]
      rcases hr with ⟨h₂, hip⟩ | hmiss
      · refine (commit_same h₂).mono (fun _ fs₃ h₃ => ?_) fun _ _ h => h
        rw [holds_pure]
        exact .inl ⟨h₃, hip⟩
      · refine (gives_any _ fs₂).mono (fun _ fs₃ _ => ?_) fun _ _ h => h
        rw [holds_pure]
        exact .inr ⟨hcreate, hmiss⟩
  · rw [holds_bind]
    refine (namei_same (.start h) hcwd href).mono ?_ fun _ _ h => h
    rintro (_ | ip) fs₁ hw
    · rw [holds_pure]
      exact hw
    obtain ⟨h₁, hip⟩ := hw
    dsimp only
    rw [holds_bind]
    refine (lock_same h₁ hip).mono ?_ fun _ _ h => h
    rintro _ fs₂ ⟨h₂, -, -, -⟩
    rw [holds_bind, holds_fetch, holds_ite]
    refine ⟨fun _ => ?_, fun _ => ?_⟩
    · rw [holds_bind]
      refine (release_spec h₂ h.anchored hip).mono (fun _ fs₃ h₃ => ?_) fun _ _ h => h
      rw [holds_pure]
      exact h₃.1
    · rw [holds_pure]
      exact .inl ⟨h₂, hip⟩

variable {k k' : Kstate}

/-- A file without references is of no type. -/
def Unused (k : Kstate) : Prop := ∀ f, f < NFILE → (k.ftable f).ref = 0 → (k.ftable f).type = .none

/-- There is room for another open file. -/
def Slots (k : Kstate) : Prop := (∃ f, f < NFILE ∧ (k.ftable f).ref = 0) ∧ ∃ fd, fd < NOFILE ∧
    (k.procs k.cur).ofile fd = none

theorem find_range_none {n : Nat} {q : Nat → Bool} (h : (List.range n).find? q = none) {i : Nat} (hi : i < n) :
    q i = false := by
  have hn := List.find?_eq_none.1 h i (List.mem_range.2 hi)
  simpa using hn

theorem release_kernel (h : Same v A fs₀ [ip] k.fs) (ha : Anchored v A fs₀) (hip : ip < NINODE) :
    ((do
      onFs (iunlockput ip)
      pure (-1) : KM Int) k).Holds (fun _ => True) (fun _ k' => Same v A fs₀ [] k'.fs ∧ k'.procs = k.procs) fun _ _ =>
        True := by
  rw [holds_bind]
  unfold onFs
  rw [holds_zoom]
  refine (release_spec h ha hip).mono (fun _ fs' h' => ?_) fun _ _ h => h
  rw [holds_pure]
  exact ⟨h'.1, rfl⟩

theorem fileclose_fresh {f : Nat} (href : (k.ftable f).ref = 1) (htype : (k.ftable f).type = .none) :
    fileclose f k = .ok () { k with ftable := Function.update k.ftable f { k.ftable f with ref := 0, type := .none } }
      [] := by
  unfold fileclose
  rw [bind_apply, fetch_apply]
  dsimp only
  rw [href, if_neg (by decide), if_neg (by decide), htype]
  rfl

/-- Without room for another open file, open gives the inode back and fails; otherwise it does not fail. -/
theorem install_cases {omode : Nat} {G : Event → Prop} {Q : Int → Kstate → Prop} (hu : Unused k)
    (hroom : Slots k → ∀ r k', r ≠ -1 → Q r k')
    (hfull : ¬Slots k → ∀ files, ((do
      onFs (iunlockput ip)
      pure (-1) : KM Int) { k with ftable := files }).Holds G Q fun _ _ => True) :
    (sysOpen.install ip omode k).Holds G Q fun _ _ => True := by
  unfold sysOpen.install filealloc
  rw [holds_bind, holds_bind, holds_fetch]
  cases hf : (List.range NFILE).find? fun f => (k.ftable f).ref = 0 with
  | none =>
      dsimp only
      rw [holds_pure]
      unfold sysOpen.bad
      rw [holds_bind, holds_pure]
      refine hfull (fun hs => ?_) k.ftable
      obtain ⟨f, hlt, href⟩ := hs.1
      simpa [href] using find_range_none hf hlt
  | some f =>
      have hlt : f < NFILE := List.mem_range.1 (List.mem_of_find?_eq_some hf)
      have href : (k.ftable f).ref = 0 := by simpa using List.find?_some hf
      dsimp only
      unfold setFile fdalloc
      rw [holds_bind, holds_update, holds_pure]
      dsimp only
      rw [holds_bind, holds_bind, holds_fetch]
      cases hfd : (List.range NOFILE).find? fun fd => (k.procs k.cur).ofile fd = none with
      | none =>
          have hno : ¬Slots k := by
            rintro ⟨-, fd, hlt, hnone⟩
            simpa [hnone] using find_range_none hfd hlt
          dsimp only
          rw [holds_pure]
          unfold sysOpen.bad
          rw [holds_bind]
          refine holds_some (ExecInputs.holds_of_ok (fileclose_fresh ?_ ?_) (hfull hno _))
          · change (Function.update k.ftable f { k.ftable f with ref := 1 } f).ref = 1
            rw [Function.update_self]
          · change (Function.update k.ftable f { k.ftable f with ref := 1 } f).type = .none
            rw [Function.update_self]
            exact hu f hlt href
      | some fd =>
          have hs : Slots k := by
            refine ⟨⟨f, hlt, href⟩, fd, List.mem_range.1 (List.mem_of_find?_eq_some hfd), ?_⟩
            simpa using List.find?_some hfd
          have hne : (fd : Int) ≠ -1 := by omega
          dsimp only
          rw [holds_bind]
          refine holds_some ((gives_any _ _).mono (fun _ _ _ => ?_) fun _ _ h => h)
          rw [holds_pure]
          exact holds_some
            (Run.Holds.mono (Gives.then (Q := fun r : Int => r ≠ -1) (fun _ => .then fun _ => gives_pure hne) _)
            (fun r k' hr => hroom hs r k' hr) fun _ _ h => h)

/-- A process between two calls, on a file system that is in order. -/
structure Ready (v : Volume) (A : Image) (k : Kstate) : Prop where
  sane : Sane v A k.fs
  cwd : (k.procs k.cur).cwd.getD 0 < NINODE
  ref : 0 < (k.fs.icache ((k.procs k.cur).cwd.getD 0)).ref
  unused : Unused k

/-- open makes no file that it cannot give a descriptor for. -/
def Safe (v : Volume) (A : Image) (k : Kstate) : Call → Prop
  | .open path omode =>
      omode &&& O_CREATE = 0 ∨ ¬Missing v A (k.fs.icache ((k.procs k.cur).cwd.getD 0)).inum path ∨ Slots k
  | _ => True

/-- The tree is the one of A as before and the process table is too. -/
def Left (v : Volume) (A : Image) (k k' : Kstate) : Prop := Same v A k.fs [] k'.fs ∧ k'.procs = k.procs

theorem open_refused {omode : Nat} (h : Ready v A k) (hs : Safe v A k (.open path omode)) :
    (sysOpen path omode k).Holds (fun _ => True) (fun r k' => r = -1 → Left v A k k') fun _ _ => True := by
  unfold sysOpen proc
  rw [holds_bind, holds_bind, holds_fetch, holds_pure, holds_bind]
  unfold onFs
  rw [holds_zoom]
  refine (find_refused h.sane h.cwd h.ref).mono ?_ fun _ _ h => h
  rintro (_ | ip) fs₁ hr
  · rw [holds_pure]
    exact fun _ => ⟨hr, rfl⟩
  · rcases hr with ⟨h₁, hip⟩ | ⟨hcreate, hmiss⟩
    · refine install_cases h.unused (fun _ r _ hr hn => absurd hn hr) fun _ files => ?_
      refine Run.Holds.mono (release_kernel ?_ h.sane.anchored hip) (fun _ _ h _ => h) fun _ _ h => h
      exact h₁
    · have hslots : Slots k := (hs.resolve_left hcreate).resolve_left (not_not.2 hmiss)
      exact install_cases h.unused (fun _ r _ hr hn => absurd hn hr) fun hno => absurd hslots hno

theorem chdir_refused (h : Ready v A k) :
    (sysChdir path k).Holds (fun _ => True) (fun r k' => r = -1 → Left v A k k') fun _ _ => True := by
  unfold sysChdir
  rw [holds_bind, holds_fetch, holds_bind]
  unfold onFs
  rw [holds_zoom]
  refine (namei_same (.start h.sane) h.cwd h.ref).mono ?_ fun _ _ h => h
  rintro (_ | ip) fs₁ hr
  · rw [holds_pure]
    exact fun _ => ⟨hr, rfl⟩
  obtain ⟨h₁, hip⟩ := hr
  dsimp only
  rw [holds_bind, holds_zoom]
  refine (lock_same h₁ hip).mono ?_ fun _ _ h => h
  rintro _ fs₂ ⟨h₂, -, -, -⟩
  rw [holds_bind, holds_fetch, holds_ite]
  refine ⟨fun _ => ?_, fun _ => ?_⟩
  · exact (release_kernel (k := { k with fs := fs₂ }) h₂ h.sane.anchored hip).mono (fun _ _ h _ => h) fun _ _ h => h
  · exact Run.Holds.mono
      (Gives.then (Q := fun r : Int => r ≠ -1) (fun _ => .then fun _ => .then fun _ => gives_pure (by decide)) _)
      (fun r _ hr hn => absurd hn hr) fun _ _ h => h

theorem onFs_refused {m : Nat → FsM Int}
    (h : (m ((k.procs k.cur).cwd.getD 0) k.fs).Holds (fun _ => True) (fun r fs' => r = -1 →
      Same v A k.fs [] fs') fun _ _ => True) :
    ((do
      let p ← proc
      onFs (m (p.cwd.getD 0)) : KM Int) k).Holds (fun _ => True) (fun r k' => r = -1 → Left v A k k') fun _ _ =>
        True := by
  unfold proc
  rw [holds_bind, holds_bind, holds_fetch, holds_pure]
  unfold onFs
  rw [holds_zoom]
  exact h.mono (fun r fs' h' hr => ⟨h' hr, rfl⟩) fun _ _ h => h

/-- The calls that take the name of a file. -/
def Naming : Call → Prop
  | .open .. | .mkdir _ | .mknod .. | .link .. | .unlink _ | .chdir _ => True
  | _ => False

theorem refused_run (h : Ready v A k) {c : Call} (hc : Naming c) (hs : Safe v A k c) :
    (run c k).Holds (fun _ => True) (fun r k' => r = -1 → Left v A k k') fun _ _ => True := by
  cases c with
  | «open» path omode => exact open_refused h hs
  | mkdir path => exact onFs_refused (m := fun cwd => sysMkdir cwd path) (makeNode_refused h.sane h.cwd h.ref)
  | mknod path major minor =>
      exact onFs_refused (m := fun cwd => sysMknod cwd path major minor) (makeNode_refused h.sane h.cwd h.ref)
  | link old new => exact onFs_refused (m := fun cwd => sysLink cwd old new) (link_refused h.sane h.cwd h.ref)
  | unlink path => exact onFs_refused (m := fun cwd => sysUnlink cwd path) (unlink_refused h.sane h.cwd h.ref)
  | chdir path => exact chdir_refused h
  | _ => cases hc

theorem create_made {type major minor : Nat} (h : Same v A fs₀ [] fs) (hcwd : cwd < NINODE)
    (href : 0 < (fs.icache cwd).ref) (hbusy : fs.log.busy = true) (ht : type < 2 ^ 16) (ht0 : type ≠ 0)
    (hmiss : Missing v A (fs.icache cwd).inum path) :
    (Sysfile.create cwd path type major minor fs).Holds Roomy
      (fun r fs' => ∃ ip, r = some ip ∧ Refs fs₀ fs' [ip] ∧ ∃ d name i k A',
        Created v A (Held fs₀) type d name ip i k fs' A')
      fun _ _ => True := by
  obtain ⟨d, name, hres, hnone⟩ := hmiss
  unfold Sysfile.create
  rw [holds_bind]
  refine (holds_some (parent_spec h.sane lenient_true ⟨hcwd, href, .inl trivial⟩)).mono ?_ fun _ _ h => h
  rintro (_ | ⟨dp, name'⟩) fs₁ hw
  · rw [hw.2.2.2] at hres
    cases hres
  obtain ⟨hs₁, hr₁, hlog₁, hres', hdp, -, hpar⟩ := hw
  obtain ⟨hc₁, hdir⟩ := hpar rfl
  rw [hres'] at hres
  cases hres
  have h₁ : Same v A fs₀ [dp] fs₁ := ⟨⟨hs₁, h.sane.tidy, h.sane.anchored.refs hr₁⟩, h.refs.trans hr₁⟩
  dsimp only
  rw [holds_bind]
  refine (holds_some (lock_same h₁ hdp)).mono ?_ fun _ _ h => h
  rintro _ fs₂ ⟨h₂, hc₂, -, hlog₂⟩
  rw [holds_bind]
  refine (holds_some (dirlookup_spec h₂.sane.sound h₂.sane.tidy lenient_true hc₂ hdir)).mono ?_ fun _ _ h => h
  rw [view_entries hc₂.live.1 hdir] at hnone
  rintro (_ | ⟨ip, off⟩) fs₃ hf
  · obtain ⟨rfl, -⟩ := hf
    have hbusy₂ : fs₂.log.busy = true := by
      rw [hlog₂, hlog₁]
      exact hbusy
    dsimp only
    rw [holds_bind]
    refine (create_fresh_spec h₂.sane ⟨lenient_true, fun _ hg => hg⟩ hc₂ hdir h₂.refs hnone hbusy₂ ht ht0).mono ?_
      fun _ _ h => h
    rintro ip fs₄ ⟨hr₄, i, k, A', hmade⟩
    rw [holds_pure]
    exact ⟨ip, rfl, hr₄, _, _, i, k, A', hmade⟩
  · obtain ⟨k, de, -, -, -, hlook, -⟩ := hf
    rw [hnone] at hlook
    cases hlook

theorem find_made {omode : Nat} (h : Sane v A fs) (hcwd : cwd < NINODE) (href : 0 < (fs.icache cwd).ref)
    (hcreate : omode &&& O_CREATE ≠ 0)
    (hmiss : Missing v A (fs.icache cwd).inum path) :
    (sysOpen.find cwd path omode fs).Holds Roomy
      (fun r fs' => ∃ ip i A', r = some ip ∧ Sane v A' fs' ∧ Cached v A' fs' ip i ∧ ¬Last fs' ip ∧ (A.ino i).type = 0)
      fun _ _ => True := by
  unfold sysOpen.find
  rw [if_pos hcreate, holds_bind]
  refine (holds_some (begin_same (.start h))).mono ?_ fun _ _ h => h
  rintro _ fs₁ ⟨h₁, hcache, hbusy⟩
  rw [holds_bind]
  refine (create_made h₁ hcwd (by rw [hcache]; exact href) hbusy (by decide) (by decide)
    (by rw [hcache]; exact hmiss)).mono ?_
    fun _ _ h => h
  rintro r fs₂ ⟨ip, rfl, hr, d, name, i, k, A', hmade⟩
  rw [holds_bind]
  refine (commit_spec hmade.sane lenient_true).mono ?_ fun _ _ h => h
  rintro _ fs₃ ⟨hs₃, hcache₃, -⟩
  rw [holds_pure]
  have hc := hmade.cached
  have hlast : ¬Last fs₃ ip := by
    have hl := not_last_created hmade
    unfold Last at hl ⊢
    rw [hcache₃]
    exact hl
  refine ⟨ip, i, A', rfl, hs₃, ⟨hc.index, ?_, ?_, ?_, hc.live⟩, hlast, ?_⟩
  · rw [hcache₃]
    exact hc.ref
  · rw [hcache₃]
    exact hc.valid
  · rw [hcache₃]
    exact hc.inum
  · rw [← view_type hc.live.1]
    exact hmade.free

theorem release_made {A' : Image} (hs : Sane v A' k.fs) (hc : Cached v A' k.fs ip i) (hl : ¬Last k.fs ip) :
    ((do
      onFs (iunlockput ip)
      pure (-1) : KM Int) k).Holds Roomy (fun _ k' => Sane v A' k'.fs) fun _ _ => True := by
  rw [holds_bind]
  unfold onFs
  rw [holds_zoom]
  refine (iunlockput_spec hs.sound lenient_true hc.index (.inl hl)).mono ?_ fun _ _ h => h
  rintro _ fs' ⟨A'', hd⟩
  have hA := hd.same hl
  subst hA
  rw [holds_pure]
  exact sane_dropped hs hc.index hc.ref hd

theorem open_shows {omode : Nat} (h : Ready v A k) (hs : ¬Safe v A k (.open path omode)) :
    (sysOpen path omode k).Holds Roomy (fun _ k' => ¬Left v A k k') fun _ _ => True := by
  obtain ⟨hcreate, hrest⟩ := not_or.1 hs
  obtain ⟨hmiss, hfull⟩ := not_or.1 hrest
  unfold sysOpen proc
  rw [holds_bind, holds_bind, holds_fetch, holds_pure, holds_bind]
  unfold onFs
  rw [holds_zoom]
  refine (find_made h.sane h.cwd h.ref hcreate (not_not.1 hmiss)).mono ?_ fun _ _ h => h
  rintro r fs₁ ⟨ip, i, A', rfl, hs₁, hc₁, hl₁, htype⟩
  have hnot : ∀ k' : Kstate, Sane v A' k'.fs → ¬Left v A k k' := by
    intro k' hs' hleft
    refine hc₁.live.2 ?_
    rw [← hs'.sound.rep.disk.ino i hc₁.live.1 (Set.notMem_empty i),
      hleft.1.sane.sound.rep.disk.ino i hc₁.live.1 (Set.notMem_empty i)]
    exact htype
  refine install_cases h.unused (fun hslots => absurd hslots hfull) fun _ files => ?_
  refine (release_made (i := i) ?_ ?_ ?_).mono (fun _ k' hs' => hnot k' hs') fun _ _ h => h
  · exact hs₁
  · exact hc₁
  · exact hl₁

/-- A failed call leaves the tree and the process table alone when no file is made in vain, and
only then, as long as allocations find free blocks below the log. -/
theorem failed_calls_leave_tree_iff (h : Ready v A k) (c : Call) (hc : Naming c) (t : List Event)
    (he : run c k = .ok (-1) k' t) :
    (Safe v A k c → Left v A k k') ∧ ((∀ e, e ∈ t → Roomy e) → (Left v A k k' ↔ Safe v A k c)) := by
  have hleft : Safe v A k c → Left v A k k' := fun hs => (refused_run h hc hs).ok he rfl
  refine ⟨hleft, fun ht => ⟨fun hl => ?_, hleft⟩⟩
  by_contra hs
  cases c with
  | «open» path omode =>
      have hshow : (run (.open path omode) k).Holds Roomy (fun _ k' => ¬Left v A k k') fun _ _ => True :=
        open_shows h hs
      rw [he] at hshow
      exact hshow ht hl
  | _ => exact hs trivial

/-- The root is not locked and no transaction runs. -/
def idleFs : Fs where
  blk := smallBlocks
  disksize := 40
  held := []
  dirty := []
  log := ⟨30, 10, false, []⟩
  icache ip := if ip = 0 then ⟨ROOTDEV, ROOTINO, 2, false, true, smallImage.ino ROOTINO⟩ else ⟨0, 0, 0, false, false,
    emptyDinode⟩
  input := []

/-- A process that has opened the root once and used up its descriptors with dup. -/
def fullTable : Kstate where
  mm := ⟨.zero, [], 0⟩
  fs := idleFs
  ftable f := if f = 0 then ⟨.inode, 16, true, false, 0, 0, 0⟩ else ⟨.none, 0, false, false, 0, 0, 0⟩
  pipes _ := ⟨fun _ => 0, 0, 0, false, false⟩
  procs p := if p = 0 then ⟨0, 0, 0, .running, 1, none, Proc.zeroTf, false, fun _ => some 0, some 0, []⟩
    else ⟨0, 0, 0, .unused, 0, none, Proc.zeroTf, false, fun _ => none, none, []⟩
  nextpid := 2
  initproc := 0
  cur := 0
  exstacks := []
  piped _ := 0
  unpiped _ := 0

theorem sound_idle : Sound smallVolume smallImage idleFs where
  rep := by
    refine ⟨⟨rfl, rfl, rfl, by decide, by simp [idleFs], by decide, by simp [idleFs], .refl _⟩,
      DirectoryMap.sound_small.rep.disk, ⟨?_, ?_, ?_⟩⟩
    · intro ip _ hr
      by_cases h : ip = 0
      · subst h
        decide +kernel
      · simp [idleFs, h] at hr
    · intro ip _ jp _ hr hr' _
      by_cases h : ip = 0
      · by_cases h' : jp = 0
        · rw [h, h']
        · simp [idleFs, h'] at hr'
      · simp [idleFs, h] at hr
    · intro ip _ hr _
      by_cases h : ip = 0
      · subst h
        rfl
      · simp [idleFs, h] at hr
  owns := DirectoryMap.sound_small.owns
  full := DirectoryMap.sound_small.full
  live ip _ hr _ := by
    by_cases h : ip = 0
    · subst h
      exact (DirectoryMap.live_small _).mpr rfl
    · simp [idleFs, h] at hr

theorem ready_full : Ready smallVolume smallImage fullTable where
  sane := by
    refine ⟨sound_idle, fun i hl _ => ?_, fun i hl hn => ?_⟩
    · obtain rfl := (DirectoryMap.live_small i).mp hl
      rw [DirectoryMap.entries_small, DirectoryMap.size_small]
      refine ⟨by decide, ?_⟩
      decide +kernel
    · obtain rfl := (DirectoryMap.live_small i).mp hl
      have hlink : (smallImage.ino ROOTINO).nlink = 1 := by decide +kernel
      rw [hlink] at hn
      cases hn
  cwd := by decide
  ref := by decide
  unused f _ href := by
    unfold fullTable at href ⊢
    dsimp only at href ⊢
    split at href
    · cases href
    · rename_i hf
      rw [if_neg hf]

/-- open of a new file a with all descriptors in use: the file is there afterwards, and the call has failed. -/
theorem failed_open_leaves_file : Ready smallVolume smallImage fullTable ∧
    ExecInputs.result (run (.open [97] O_CREATE) fullTable) = some (-1) ∧
    ¬Left smallVolume smallImage fullTable (run (.open [97] O_CREATE) fullTable).state := by
  have hnew : (dinodeAt ((run (.open [97] O_CREATE) fullTable).state.fs.blk (IBLOCK 2)) (2 % IPB)).type = T_FILE := by
    decide +kernel
  have hold : (smallImage.ino 2).type = 0 := by decide +kernel
  refine ⟨ready_full, by decide +kernel, fun hleft => ?_⟩
  rw [hleft.1.sane.sound.rep.disk.ino 2 (by decide) (Set.notMem_empty 2), hold] at hnew
  cases hnew

/-- Without O_CREATE the open fails too, and nothing has changed. -/
theorem failed_calls_leave_tree_root : Left smallVolume smallImage fullTable (run (.open [97] 0) fullTable).state := by
  obtain ⟨r, he⟩ := Run.eq_ok (r := run (.open [97] 0) fullTable) (by decide +kernel)
  have hr : ExecInputs.result (run (.open [97] 0) fullTable) = some (-1) := by decide +kernel
  rw [he] at hr
  cases hr
  exact (failed_calls_leave_tree_iff ready_full (.open [97] 0) trivial _ he).1 (.inl (by decide))

end ArmXv6.FailedCalls
