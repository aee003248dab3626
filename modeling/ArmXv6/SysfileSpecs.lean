import ArmXv6.PathWalk

namespace ArmXv6.SysfileSpecs

open Lib.Exec Lib.Bytes Param Blocks Fs Content Sysfile DiskImage BlockSpecs BlockAlloc Ownership BlockMap FileData
  Truncate InodeSpecs Namespace Directory PathWalk

/-- A file system that system calls can be made on. -/
structure Sane (v : Volume) (A : Image) (fs : Fs) : Prop where
  sound : Sound v A fs
  tidy : Tidy v A
  anchored : Anchored v A fs

/-- The cache has a reference to inode i. -/
def Held (fs : Fs) (i : Nat) : Prop := ∃ ip < NINODE, 0 < (fs.icache ip).ref ∧ (fs.icache ip).inum = i

/-- Inodes that are held stay allocated, and those outside W keep their contents. -/
structure Spares (v : Volume) (held : Nat → Prop) (W : Set Nat) (A A' : Image) : Prop where
  type : ∀ j, Live v A j → held j → (A'.ino j).type = (A.ino j).type
  contents : ∀ j, Live v A j → held j → j ∉ W → contents A' j = contents A j

variable {v : Volume} {A A' : Image} {fs fs₀ fs' : Fs} {ip dp i d : Nat} {L : List Nat} {ok : Stop → Prop}
  {G : Event → Prop} {held : Nat → Prop} {W : Set Nat}

theorem Spares.refl (v : Volume) (held : Nat → Prop) (W : Set Nat) (A : Image) : Spares v held W A A :=
  ⟨fun _ _ _ => rfl, fun _ _ _ _ => rfl⟩

theorem Spares.live (h : Spares v held W A A') {j : Nat} (hl : Live v A j) (hh : held j) : Live v A' j :=
  ⟨hl.1, h.type j hl hh ▸ hl.2⟩

theorem Spares.trans {A'' : Image} {W' : Set Nat} (h : Spares v held W A A') (h' : Spares v held W' A' A'') :
    Spares v held (W ∪ W') A A'' := by
  constructor
  · intro j hl hh
    exact (h'.type j (h.live hl hh) hh).trans (h.type j hl hh)
  · intro j hl hh hW
    rw [Set.mem_union, not_or] at hW
    exact (h'.contents j (h.live hl hh) hh hW.2).trans (h.contents j hl hh hW.1)

theorem Spares.mono {W' : Set Nat} (h : Spares v held W A A') (hW : ∀ j ∈ W, Live v A j → held j → j ∈ W') :
    Spares v held W' A A' :=
  ⟨h.type, fun j hl hh hj => h.contents j hl hh fun hm => hj (hW j hm hl hh)⟩

theorem contents_frame (hs : Sound v A fs) (h : Frame v ∅ i A A') {j : Nat} (hj : j ≠ i) (hl : Live v A j) :
    FileData.contents A' j = FileData.contents A j := by
  have hf := hs.full j hl
  unfold FileData.contents
  rw [h.ino j hj]
  refine segment_congr fun q hq => h.byte_eq hj hl (Set.notMem_empty _) (block_ne_of_full hf ?_).2
  rwa [Nat.zero_add]

theorem spares_frame (hs : Sound v A fs) (h : Frame v ∅ i A A') (ht : (A'.ino i).type = (A.ino i).type) :
    Spares v held {i} A A' := by
  constructor
  · intro j _ _
    by_cases hj : j = i
    · rw [hj, ht]
    · rw [h.ino j hj]
  · intro j hl _ hj
    exact contents_frame hs h hj hl

theorem frame_dropped (h : Dropped v A fs ip fs' A') : Frame v ∅ (fs.icache ip).inum A A' := by
  by_cases hl : Last fs ip
  · obtain ⟨hdata, hino⟩ := h.freed hl
    exact ⟨fun j hj => by rw [hino, Function.update_of_ne hj], fun j k _ _ _ _ => by rw [hdata]⟩
  · rw [h.same hl]
    exact Frame.refl v ∅ _ A

theorem tidy_dropped (hs : Sound v A fs) (ht : Tidy v A) (h : Dropped v A fs ip fs' A') : Tidy v A' := by
  by_cases hl : Last fs ip
  · refine tidy_frame hs ht (frame_dropped h) fun hlive _ => absurd ?_ hlive.2
    rw [(h.freed hl).2, Function.update_self]
    rfl
  · rwa [h.same hl]

theorem sane_dropped (hs : Sane v A fs) (hip : ip < NINODE) (href : 0 < (fs.icache ip).ref)
    (h : Dropped v A fs ip fs' A') : Sane v A' fs' :=
  ⟨h.sound, tidy_dropped hs.sound hs.tidy h, h.anchored hs.sound hip href hs.anchored⟩

theorem spares_dropped (hs : Sound v A fs) (h : Dropped v A fs ip fs' A')
    (hl : Last fs ip → ¬held (fs.icache ip).inum) : Spares v held ∅ A A' := by
  by_cases hlast : Last fs ip
  · have hframe := frame_dropped h
    constructor
    · intro j _ hj
      rw [hframe.ino j fun he => hl hlast (he ▸ hj)]
    · intro j hlive hj _
      exact contents_frame hs hframe (fun he => hl hlast (he ▸ hj)) hlive
  · rw [h.same hlast]
    exact Spares.refl v held ∅ A

/-- The last reference was taken since fs₀. -/
theorem not_held_last (hs : Sound v A fs) (hc : Cached v A fs ip i) (hr : Refs fs₀ fs (ip :: L)) (hlast : Last fs ip) :
    ¬Held fs₀ i := by
  have hcount := hr.ref ip hc.index
  rw [List.count_cons_self] at hcount
  rintro ⟨jp, hjp, hjr, hji⟩
  have hjr' : 0 < (fs.icache jp).ref := by
    rw [hr.ref jp hjp]
    omega
  have hj := hs.rep.cache.inj jp hjp ip hc.index hjr' hc.ref (((hr.keep jp hjp hjr).1.trans hji).trans hc.inum.symm)
  have := hlast.1
  rw [hj] at hjr
  omega

theorem spares_dropped_refs (hs : Sound v A fs) (hc : Cached v A fs ip i) (hr : Refs fs₀ fs (ip :: L))
    (h : Dropped v A fs ip fs' A') : Spares v (Held fs₀) ∅ A A' :=
  spares_dropped hs h fun hlast => hc.inum ▸ not_held_last hs hc hr hlast

/-- Giving up a reference that was taken since fs₀, the only one since, releases the inode. -/
theorem view_dropped (hs : Sound v A fs) (hc : Cached v A fs ip i) (hr : Refs fs₀ fs (ip :: L)) (hL : ip ∉ L)
    (h : Dropped v A fs ip fs' A') : view v A' = release (Held fs₀) i (view v A) := by
  have hcount := hr.ref ip hc.index
  rw [List.count_cons_self, List.count_eq_zero_of_not_mem hL] at hcount
  have hheld : Held fs₀ i ↔ 0 < (fs₀.icache ip).ref := by
    constructor
    · rintro ⟨jp, hjp, hjr, hji⟩
      have hjr' : 0 < (fs.icache jp).ref := by
        rw [hr.ref jp hjp]
        omega
      have hj := hs.rep.cache.inj jp hjp ip hc.index hjr' hc.ref (((hr.keep jp hjp hjr).1.trans hji).trans hc.inum.symm)
      exact hj ▸ hjr
    · intro hpos
      exact ⟨ip, hc.index, hpos, (hr.keep ip hc.index hpos).1.symm.trans hc.inum⟩
  have hlast : Last fs ip ↔ (view v A i).nlink = 0 ∧ ¬Held fs₀ i := by
    unfold Last
    rw [hheld, view_nlink hc.live.1, hc.din hs.rep]
    have := hc.valid
    constructor
    · rintro ⟨h1, -, h3⟩
      exact ⟨h3, by omega⟩
    · rintro ⟨h1, h2⟩
      exact ⟨by omega, this, h1⟩
  unfold release
  by_cases hl : Last fs ip
  · rw [if_pos (hlast.1 hl), view_eq_update hs (frame_dropped h), hc.inum]
    have hn := (hlast.1 hl).1
    rw [view_nlink hc.live.1] at hn
    congr 1
    simp [view, hc.live.1, (h.freed hl).2, hc.inum, InodeSpecs.dead, truncated, Node.free, hn, T_DIR]
  · rw [if_neg fun hn => hl (hlast.2 hn), h.same hl]

theorem iunlockput_spec (h : Sound v A fs) (hok : Lenient ok) (hip : ip < NINODE)
    (hout : ¬Last fs ip ∨ fs.log.busy = true ∨ ∀ w, ok w) :
    (iunlockput ip fs).Holds G (fun _ fs' => ∃ A', Dropped v A fs ip fs' A') (fun w _ => ok w) := by
  unfold iunlockput
  rw [holds_bind]
  refine (iunlock_spec h hok hip).mono ?_ fun _ _ h => h
  rintro _ fs₁ ⟨-, hs, -, rfl⟩
  have hlast : Last (putInode fs ip { fs.icache ip with busy := false }) ip ↔ Last fs ip := by
    unfold Last
    rw [putInode_self]
  refine (iput_spec hs hok hip (hout.imp (fun hn hl => hn (hlast.1 hl)) id)).mono ?_ fun _ _ h => h
  rintro _ fs' ⟨A', hd⟩
  refine ⟨A', hd.sound, fun jp hj => (hd.others jp hj).trans (putInode_of_ne hj), ?_, ?_, hd.busy,
    fun hl => hd.same fun hl' => hl (hlast.1 hl'), fun hl => ?_⟩
  · simpa using hd.ref
  · simpa using hd.keep
  · simpa using hd.freed (hlast.2 hl)

/-- Nothing but log state differs. -/
theorem Sound.sameDisk (h : Sound v A fs) (hl : LogRep v fs') (hc : fs'.icache = fs.icache)
    (hb : ∀ b < v.logStart, fs'.blk b = fs.blk b) : Sound v A fs' :=
  ⟨⟨hl, h.rep.disk.congr hb, hc ▸ h.rep.cache⟩, h.owns, h.full, hc ▸ h.live⟩

theorem refs_sameCache (hc : fs'.icache = fs.icache) : Refs fs fs' [] := by
  constructor
  · intro jp _
    simp [hc]
  · intro jp _ _
    simp [hc]

theorem commit_spec (h : Sane v A fs) (hok : Lenient ok) :
    (commitTrans fs).Holds G
      (fun _ fs' => Sane v A fs' ∧ fs'.icache = fs.icache ∧ fs'.log.busy = false) (fun w _ => ok w) := by
  refine (commitTrans_spec h.sound.rep.log hok).mono ?_ fun _ _ h => h
  rintro _ fs' ⟨hl, -, hb, hc, -, -, hblk⟩
  exact ⟨⟨Sound.sameDisk h.sound hl hc hblk, h.tidy, h.anchored.refs (refs_sameCache hc)⟩, hc, hb⟩

theorem begin_spec (h : Sound v A fs) (hok : Lenient ok) :
    (beginTrans fs).Holds G
      (fun _ fs' => Sound v A fs' ∧ fs'.icache = fs.icache ∧ fs'.log.busy = true) (fun w _ => ok w) := by
  refine (beginTrans_spec hok).mono ?_ fun _ _ h => h
  rintro _ fs' ⟨-, rfl⟩
  exact ⟨Sound.sameDisk h (h.rep.log.busy true) rfl fun _ _ => rfl, rfl, rfl⟩

@[simp] theorem ino_setIno_self (e : Dinode) : (A.setIno i e).ino i = e := Function.update_self ..

theorem entries_setIno {e : Dinode} (haddrs : e.addrs = (A.ino i).addrs) (hsize : e.size = (A.ino i).size) :
    entries (A.setIno i e) i = entries A i := by
  unfold entries
  rw [ino_setIno_self, hsize]
  refine List.map_congr_left fun k _ => ?_
  unfold ent
  rw [segment_congr fun q _ => byte_setIno haddrs i _]

theorem contents_setIno {e : Dinode} (haddrs : e.addrs = (A.ino i).addrs) (hsize : e.size = (A.ino i).size) :
    contents (A.setIno i e) i = contents A i := by
  unfold contents
  rw [ino_setIno_self, hsize]
  exact segment_congr fun q _ => byte_setIno haddrs i _

theorem view_setIno {e : Dinode} (h : Sound v A fs) (hi : i < v.sb.ninodes) (haddrs : e.addrs = (A.ino i).addrs)
    (hsize : e.size = (A.ino i).size) (htype : e.type = (A.ino i).type) :
    view v (A.setIno i e) = setNlink (view v A) i e.nlink := by
  rw [view_eq_update h (frame_setIno e), setNlink]
  congr 1
  simp only [view, if_pos hi, entries_setIno haddrs hsize, ino_setIno_self, htype]

theorem tidy_setIno {e : Dinode} (h : Sound v A fs) (ht : Tidy v A) (haddrs : e.addrs = (A.ino i).addrs)
    (hsize : e.size = (A.ino i).size) (htype : e.type = (A.ino i).type) : Tidy v (A.setIno i e) := by
  refine tidy_frame h ht (frame_setIno e) fun hl hd => ?_
  rw [Live, ino_setIno_self, htype] at hl
  rw [ino_setIno_self, htype] at hd
  rw [entries_setIno haddrs hsize, ino_setIno_self, hsize]
  exact ht i hl hd

/-- The outcome of changing the links of a cached inode. -/
structure Relinked (v : Volume) (A : Image) (fs : Fs) (ip i n : Nat) (fs' : Fs) (A' : Image) : Prop where
  sane : Sane v A' fs'
  edits : Edits ip fs fs'
  ino : ∀ j, j ≠ i → A'.ino j = A.ino j
  type : (A'.ino i).type = (A.ino i).type
  nlink : (A'.ino i).nlink = n
  view : view v A' = setNlink (view v A) i n
  spares : ∀ held, Spares v held ∅ A A'

theorem relink_spec (f : Dinode → Dinode) (h : Sane v A fs) (hok : Lenient ok) (hc : Cached v A fs ip i)
    (hbusy : fs.log.busy = true) (hd : DinodeOk (f (A.ino i))) (haddrs : (f (A.ino i)).addrs = (A.ino i).addrs)
    (hsize : (f (A.ino i)).size = (A.ino i).size) (htype : (f (A.ino i)).type = (A.ino i).type) :
    (setDin ip f fs).Holds G
      (fun _ fs₁ => (iupdate ip fs₁).Holds G
        (fun _ fs' => ∃ A', Relinked v A fs ip i (f (A.ino i)).nlink fs' A') (fun w _ => ok w)) (fun w _ => ok w) := by
  refine (editDin_spec f h.sound hok hc hbusy hd haddrs hsize htype).mono (fun _ fs₁ h₁ => h₁.mono ?_ fun _ _ h => h)
    fun _ _ h => h
  rintro _ fs' ⟨hs, hed⟩
  have hino : ∀ j, j ≠ i → (A.setIno i (f (A.ino i))).ino j = A.ino j := fun j hj => Function.update_of_ne hj _ _
  have hty : ((A.setIno i (f (A.ino i))).ino i).type = (A.ino i).type := by rw [ino_setIno_self, htype]
  refine ⟨_, ⟨hs, tidy_setIno h.sound h.tidy haddrs hsize htype, Anchored.edits h.anchored hc hed hino⟩, hed, hino,
    hty, by rw [ino_setIno_self], view_setIno h.sound hc.live.1 haddrs hsize htype, fun held => ?_⟩
  have hsp : Spares v held {i} A (A.setIno i (f (A.ino i))) := spares_frame h.sound (frame_setIno _) hty
  refine ⟨hsp.type, fun j hl hh _ => ?_⟩
  by_cases hj : j = i
  · rw [hj]
    exact contents_setIno haddrs hsize
  · exact hsp.contents j hl hh hj

theorem incNlink_eq (e : Dinode) : incNlink e = { e with nlink := up e.nlink } := by
  unfold incNlink up
  rfl

theorem decNlink_eq (e : Dinode) : decNlink e = { e with nlink := down e.nlink } := by
  unfold decNlink down
  rfl

theorem dinodeOk_nlink {e : Dinode} (h : DinodeOk e) {n : Nat} (hn : n < 2 ^ 16) : DinodeOk { e with nlink := n } :=
  ⟨h.type, h.major, h.minor, hn, h.size, h.addrs, h.none⟩

theorem incNlink_spec (h : Sane v A fs) (hok : Lenient ok) (hc : Cached v A fs ip i) (hbusy : fs.log.busy = true) :
    (setDin ip incNlink fs).Holds G
      (fun _ fs₁ => (iupdate ip fs₁).Holds G
        (fun _ fs' => ∃ A', Relinked v A fs ip i (up (A.ino i).nlink) fs' A') (fun w _ => ok w)) (fun w _ => ok w) := by
  have hf : incNlink = fun e => { e with nlink := up e.nlink } := funext incNlink_eq
  rw [hf]
  exact relink_spec (fun e => { e with nlink := up e.nlink }) h hok hc hbusy
    (dinodeOk_nlink (h.sound.owns.din i hc.live.1) (up_lt _)) rfl rfl rfl

theorem decNlink_spec (h : Sane v A fs) (hok : Lenient ok) (hc : Cached v A fs ip i) (hbusy : fs.log.busy = true) :
    (setDin ip decNlink fs).Holds G
      (fun _ fs₁ => (iupdate ip fs₁).Holds G
        (fun _ fs' => ∃ A', Relinked v A fs ip i (down (A.ino i).nlink) fs' A') (fun w _ => ok w))
          (fun w _ => ok w) := by
  have hf : decNlink = fun e => { e with nlink := down e.nlink } := funext decNlink_eq
  rw [hf]
  exact relink_spec (fun e => { e with nlink := down e.nlink }) h hok hc hbusy
    (dinodeOk_nlink (h.sound.owns.din i hc.live.1) (down_lt _)) rfl rfl rfl

theorem live_relinked {n : Nat} (h : Relinked v A fs ip i n fs' A') (j : Nat) :
    Live v A' j ↔ Live v A j := by
  refine live_congr (fun j => ?_) j
  by_cases hj : j = i
  · rw [hj, h.type]
  · rw [h.ino j hj]

theorem cached_edits_of_ne (hc : Cached v A fs ip i) (hed : Edits dp fs fs') (hne : ip ≠ dp) (hl : Live v A' i) :
    Cached v A' fs' ip i := by
  have he := hed.others ip hne
  exact ⟨hc.index, he ▸ hc.ref, he ▸ hc.valid, he ▸ hc.inum, hl⟩

theorem cached_dropped_of_ne (hc : Cached v A fs ip i) (h : Dropped v A fs dp fs' A') (hne : ip ≠ dp)
    (hl : Live v A' i) : Cached v A' fs' ip i := by
  have he := h.others ip hne
  exact ⟨hc.index, he ▸ hc.ref, he ▸ hc.valid, he ▸ hc.inum, hl⟩

/-- The current directory of a caller, and that lookups from there find only live inodes unless
the stop on others is tolerated. -/
structure Caller (v : Volume) (A : Image) (ok : Stop → Prop) (fs : Fs) (cwd : Nat) : Prop where
  index : cwd < NINODE
  ref : 0 < (fs.icache cwd).ref
  live : ok noType ∨ NoDangling v A ∧ Live v A (fs.icache cwd).inum ∧ Live v A ROOTINO

variable {cwd : Nat} {path name : List UInt8}

theorem parent_spec (h : Sane v A fs) (hok : Lenient ok) (hcwd : Caller v A ok fs cwd) :
    (nameiparent cwd path fs).Holds G
      (Walked v A ok fs true (resolve (view v A) (fs.icache cwd).inum path true)) (fun w _ => ok w) :=
  namex_spec h.tidy h.anchored hok (hcwd.live.imp id And.left) true path h.sound hcwd.index hcwd.ref
    (hcwd.live.imp id And.right)

theorem unlink_bad_spec (h₀ : Anchored v A fs₀) (ht : Tidy v A) (hs : Sound v A fs) (hr : Refs fs₀ fs [dp])
    (hdp : dp < NINODE) (hok : Lenient ok) :
    (sysUnlink.bad dp fs).Holds G
      (fun r fs' => r = -1 ∧ Sane v A fs' ∧ Refs fs₀ fs' [] ∧ fs'.log.busy = false) (fun w _ => ok w) := by
  simp only [sysUnlink.bad, holds_bind, holds_pure]
  refine (iunlockput_walk hs hok h₀ hr hdp).mono ?_ fun _ _ h => h
  rintro _ fs₁ ⟨hs₁, hr₁, -⟩
  refine (commit_spec ⟨hs₁, ht, h₀.refs hr₁⟩ hok).mono ?_ fun _ _ h => h
  rintro _ fs₂ ⟨hsane, hc, hb⟩
  exact ⟨trivial, hsane, hr₁.trans (refs_sameCache hc), hb⟩

theorem unlink_finish_spec (h : Sane v A fs) (hok : Lenient ok) (hd : Cached v A fs dp d) (hi : Cached v A fs ip i)
    (hne : dp ≠ ip) (hr : Refs fs₀ fs [dp, ip]) (hbusy : fs.log.busy = true) :
    ((do
        iunlockput dp
        setDin ip decNlink
        iupdate ip
        iunlockput ip
        commitTrans
        pure 0 : FsM Int) fs).Holds G
      (fun r fs' => r = 0 ∧ fs'.log.busy = false ∧ ∃ A', Sane v A' fs' ∧ Refs fs₀ fs' [] ∧ Spares v (Held fs₀) ∅ A A' ∧
        view v A' = release (Held fs₀) i (setNlink (release (Held fs₀) d (view v A)) i (down (A.ino i).nlink)))
      (fun w _ => ok w) := by
  have hdi : i ≠ d := by
    rintro rfl
    exact hne (h.sound.rep.cache.inj dp hd.index ip hi.index hd.ref hi.ref (hd.inum.trans hi.inum.symm))
  simp only [holds_bind, holds_pure]
  refine (iunlockput_spec h.sound hok hd.index (.inr (.inl hbusy))).mono ?_ fun _ _ h => h
  rintro _ fs₁ ⟨A₁, hd₁⟩
  have hs₁ := sane_dropped h hd.index hd.ref hd₁
  have hr₁ := hd₁.refs hd.index hr
  have hframe := frame_dropped hd₁
  rw [hd.inum] at hframe
  have hview₁ := view_dropped h.sound hd hr (by simpa using hne) hd₁
  have hi₁ := cached_dropped_of_ne hi hd₁ (Ne.symm hne) ((hframe.live hdi).2 hi.live)
  refine (decNlink_spec hs₁ hok hi₁ (hd₁.busy.trans hbusy)).mono (fun _ fs₂ h₂ => h₂.mono ?_ fun _ _ h =>
    h) fun _ _ h => h
  rintro _ fs₃ ⟨A₃, hrel⟩
  have hi₃ := hi₁.edits hrel.edits ((live_relinked hrel i).2 hi₁.live)
  have hr₃ := hr₁.trans (refs_edits hrel.edits)
  refine (iunlockput_spec hrel.sane.sound hok hi₃.index
    (.inr (.inl (hrel.edits.busy.trans (hd₁.busy.trans hbusy))))).mono
    ?_ fun _ _ h => h
  rintro _ fs₄ ⟨A₄, hd₄⟩
  refine (commit_spec (sane_dropped hrel.sane hi₃.index hi₃.ref hd₄) hok).mono ?_ fun _ _ h => h
  rintro _ fs₅ ⟨hsane, hc, hb⟩
  have hsp := ((spares_dropped_refs h.sound hd hr hd₁).trans (hrel.spares _)).trans
    (spares_dropped_refs hrel.sane.sound hi₃ hr₃ hd₄)
  refine ⟨trivial, hb, A₄, hsane, (hd₄.refs hi₃.index hr₃).trans (refs_sameCache hc), by simpa using hsp, ?_⟩
  rw [view_dropped hrel.sane.sound hi₃ hr₃ (by simp) hd₄, hrel.view, hview₁, hframe.ino i hdi]

theorem spares_then {A₁ : Image} {T : Names} (h : Spares v held W A A₁) :
    (∃ A', Sane v A' fs' ∧ Refs fs₀ fs' [] ∧ Spares v held ∅ A₁ A' ∧ view v A' = T) →
      ∃ A', Sane v A' fs' ∧ Refs fs₀ fs' [] ∧ Spares v held W A A' ∧ view v A' = T := by
  rintro ⟨A', hs, hr, hsp, hv⟩
  exact ⟨A', hs, hr, by simpa using h.trans hsp, hv⟩

/-- Entry k of the locked directory d, which named the locked inode i, goes. -/
theorem unlink_remove_spec {k : Nat} (h : Sane v A fs) (hok : Tolerant G ok) (hd : Cached v A fs dp d)
    (hi : Cached v A fs ip i) (hdir : (A.ino d).type = T_DIR) (hk : k < (entries A d).length) (hne : dp ≠ ip)
    (hr : Refs fs₀ fs [dp, ip]) (hbusy : fs.log.busy = true) :
    (sysUnlink.remove dp ip (DESIZE * k) fs).Holds G
      (fun r fs' => r = 0 ∧ fs'.log.busy = false ∧ ∃ A', Sane v A' fs' ∧ Refs fs₀ fs' [] ∧
        Spares v (Held fs₀) {d} A A' ∧
        view v A' = unlink (Held fs₀) (view v A) d i k) (fun w _ => ok w) := by
  have hdi : d ≠ i := by
    rintro rfl
    exact hne (h.sound.rep.cache.inj dp hd.index ip hi.index hd.ref hi.ref (hd.inum.trans hi.inum.symm))
  have hf := h.sound.full d hd.live
  have hmod := (h.tidy d hd.live hdir).1
  have hmax : MAXFILE * BSIZE < 2 ^ 31 := by decide
  have hsize := hf.size
  rw [length_entries, ← lt_count_iff k hmod] at hk
  have hle := entry_le hmod hk
  unfold sysUnlink.remove
  simp only [holds_bind, holds_ite, holds_panic]
  refine (writei_spec _ h.sound.rep h.sound.owns hd (Set.notMem_empty _) hf (by rw [hdir]; decide) hbusy (by omega)
    (by decide) (.inl hok)).mono ?_ fun _ _ h => h
  intro r fs₁ hres
  refine ⟨fun _ => hok.1 _ (by decide), fun _ => ?_⟩
  rw [if_neg (by omega)] at hres
  obtain ⟨-, A₁, hw⟩ := hres
  have hblank : decodeDirent ((List.range DESIZE).map fun _ => 0) = blank := rfl
  have hin : (decodeDirent ((List.range DESIZE).map fun _ => 0)).inum < v.sb.ninodes := Nat.lt_of_succ_lt v.root
  have hp := placed_of_written h.sound h.tidy hd hdir ((lt_count_iff k hmod).1 hk).le hin hw
  rw [hblank] at hp
  have hs₁ : Sane v A₁ fs₁ := ⟨hp.sound, hp.tidy, Anchored.edits h.anchored hd hp.edits hp.frame.ino⟩
  have hd₁ : Cached v A₁ fs₁ dp d := hd.edits hp.edits ⟨hd.live.1, hp.fields.1 ▸ hd.live.2⟩
  have hi₁ := cached_edits_of_ne hi hp.edits (Ne.symm hne) ((hp.frame.live (Ne.symm hdi)).2 hi.live)
  have hr₁ := hr.trans (refs_edits hp.edits)
  have hbusy₁ := hp.edits.busy.trans hbusy
  have hview₁ : view v A₁ = setEntry (view v A) d k blank := by
    rw [hp.view, setEntry, view_entries hd.live.1 hdir]
  have hsp₁ : Spares v (Held fs₀) {d} A A₁ := spares_frame h.sound hp.frame hp.fields.1
  have hino : A₁.ino i = A.ino i := hp.frame.ino i (Ne.symm hdi)
  rw [holds_fetch, hi₁.din hs₁.sound.rep, hino]
  unfold unlink clear
  rw [view_type hi.live.1, view_nlink hi.live.1, view_nlink hd.live.1, ← hino]
  refine ⟨fun ht => ?_, fun ht => ?_⟩
  · rw [if_pos ht]
    refine (decNlink_spec hs₁ hok.1 hd₁ hbusy₁).mono (fun _ fs₂ h₂ => h₂.mono ?_ fun _ _ h => h) fun _ _ h => h
    rintro _ fs₃ ⟨A₃, hrel⟩
    have hd₃ := hd₁.edits hrel.edits ((live_relinked hrel d).2 hd₁.live)
    have hi₃ := cached_edits_of_ne hi₁ hrel.edits (Ne.symm hne) ((live_relinked hrel i).2 hi₁.live)
    have hsp₃ : Spares v (Held fs₀) {d} A A₃ := by simpa using hsp₁.trans (hrel.spares _)
    have hfin := (unlink_finish_spec (G := G) hrel.sane hok.1 hd₃ hi₃ hne (hr₁.trans (refs_edits hrel.edits))
      (hrel.edits.busy.trans hbusy₁)).mono (fun _ _ => And.imp_right (And.imp_right (spares_then hsp₃))) fun _ _ => id
    rw [hrel.view, hview₁, hrel.ino i (Ne.symm hdi), hp.fields.2] at hfin
    simpa only [holds_bind] using hfin
  · rw [if_neg ht]
    have hfin := (unlink_finish_spec (G := G) hs₁ hok.1 hd₁ hi₁ hne hr₁ hbusy₁).mono
      (fun _ _ => And.imp_right (And.imp_right (spares_then hsp₁))) fun _ _ => id
    rw [hview₁] at hfin
    simpa only [holds_bind, holds_pure] using hfin

/-- The directory that holds the last element of the path. -/
def Parent (T : Names) (cwd : Nat) (path : List UInt8) : Set Nat :=
  { d | ∃ name, resolve T cwd path true = some (d, name) }

/-- What unlink does to the name space. -/
def Unlinked (held : Nat → Prop) (T : Names) (cwd : Nat) (path : List UInt8) (r : Int) (T' : Names) : Prop :=
  r = -1 ∧ T' = T ∨ r = 0 ∧ ∃ d name k de, resolve T cwd path true = some (d, name) ∧ namecmp name dot ≠ 0 ∧
    namecmp name dotdot ≠ 0 ∧ (T d).type = T_DIR ∧ lookup (T d).entries name = some de ∧ (T d).entries[k]? = some de ∧
    Matches name de ∧ d ≠ de.inum ∧ (T de.inum).type ≠ 0 ∧ 1 ≤ (T de.inum).nlink ∧
    ((T de.inum).type = T_DIR → ∀ j, 2 ≤ j → ∀ e, (T de.inum).entries[j]? = some e → e.inum = 0) ∧
    T' = unlink held T d de.inum k

theorem sshort_pos {n : Nat} (h : ¬sshort n < 1) : 1 ≤ n := by
  unfold sshort at h
  split at h <;> omega

theorem sysUnlink_spec (h : Sane v A fs) (hok : Tolerant G ok) (hcwd : Caller v A ok fs cwd)
    (hidle : fs.log.busy = false) :
    (sysUnlink cwd path fs).Holds G
      (fun r fs' => fs'.log.busy = false ∧ ∃ A', Sane v A' fs' ∧ Refs fs fs' [] ∧
        Spares v (Held fs) (Parent (view v A) (fs.icache cwd).inum path) A A' ∧
        Unlinked (Held fs) (view v A) (fs.icache cwd).inum path r (view v A')) (fun w _ => ok w) := by
  unfold sysUnlink
  rw [holds_bind]
  refine (parent_spec h hok.1 hcwd).mono ?_ fun _ _ h => h
  rintro (_ | ⟨dp, name⟩) fs₁ hw
  · obtain ⟨hs₁, hr₁, hlog, -⟩ := hw
    exact (holds_pure _ _).2 ⟨hlog ▸ hidle, A, ⟨hs₁, h.tidy, h.anchored.refs hr₁⟩, hr₁, .refl .., .inl ⟨rfl, rfl⟩⟩
  obtain ⟨hs₁, hr₁, hlog, hres, hdp, -, hpar⟩ := hw
  obtain ⟨hc₁, hdir⟩ := hpar rfl
  have hbad : ∀ {fs₂ : Fs}, Sound v A fs₂ → Refs fs fs₂ [dp] →
      (sysUnlink.bad dp fs₂).Holds G
        (fun r fs' => fs'.log.busy = false ∧ ∃ A', Sane v A' fs' ∧ Refs fs fs' [] ∧
          Spares v (Held fs) (Parent (view v A) (fs.icache cwd).inum path) A A' ∧
          Unlinked (Held fs) (view v A) (fs.icache cwd).inum path r (view v A')) (fun w _ => ok w) := by
    intro fs₂ hs₂ hr₂
    refine (unlink_bad_spec h.anchored h.tidy hs₂ hr₂ hdp hok.1).mono ?_ fun _ _ h => h
    rintro r fs₃ ⟨rfl, hs₃, hr₃, hb⟩
    exact ⟨hb, A, hs₃, hr₃, .refl .., .inl ⟨rfl, rfl⟩⟩
  simp only [holds_bind]
  refine (begin_spec hs₁ hok.1).mono ?_ fun _ _ h => h
  rintro _ fs₂ ⟨hs₂, hc, hbusy₂⟩
  have hr₂ := hr₁.trans (refs_sameCache hc)
  have hc₂ := cached_refs hc₁ (refs_sameCache hc)
  refine (ilock_spec hs₂ hok.1 hdp (.inr (hc₂.inum ▸ hc₂.live))).mono ?_ fun _ _ h => h
  rintro _ fs₃ ⟨-, hc₃, hs₃, hr₃, x, hfs₃, hlocked⟩
  rw [hc₂.inum] at hc₃
  have hr₃ := hr₂.trans hr₃
  simp only [holds_ite, holds_bind]
  refine ⟨fun _ => hbad hs₃ hr₃, fun hdots => ?_⟩
  refine (dirlookup_spec hs₃ h.tidy hok.1 hc₃ hdir).mono ?_ fun _ _ h => h
  rintro (_ | ⟨ip, off⟩) fs₄ hfound
  · obtain ⟨rfl, -⟩ := hfound
    exact hbad hs₃ hr₃
  obtain ⟨k, de, rfl, hget, hm, hlook, hip, hinum, hs₄, hr₄, y, hfs₄, hy⟩ := hfound
  simp only [holds_bind]
  have hlive : ok noType ∨ Live v A (fs₄.icache ip).inum := by
    rw [hinum]
    exact hcwd.live.imp id fun hl => hl.1 _ hc₁.live hdir de (List.mem_of_getElem? hget) hm.1
  refine (ilock_spec hs₄ hok.1 hip hlive).mono ?_ fun _ _ h => h
  rintro _ fs₅ ⟨⟨-, hfree⟩, hc₅, hs₅, hr₅, z, hfs₅, -⟩
  -- the directory is locked, so a second lock on it would have slept
  have hne : dp ≠ ip := by
    rintro rfl
    have hbusy : (fs₃.icache dp).busy = true := by rw [hfs₃, putInode_self, hlocked]
    rw [hfs₄, putInode_self, hy hc₃.ref] at hfree
    simp only [hbusy] at hfree
    cases hfree
  have hd₅ := cached_refs (cached_refs hc₃ hr₄) hr₅
  have hr₅ : Refs fs fs₅ [dp, ip] := ((hr₃.trans hr₄).trans hr₅).perm (List.Perm.swap _ _ _)
  rw [hinum] at hc₅
  have hbusy₅ : fs₅.log.busy = true := by
    rw [hfs₅, hfs₄, hfs₃]
    exact hbusy₂
  rw [holds_fetch, hc₅.din hs₅.rep]
  simp only [holds_ite, holds_bind, holds_panic, holds_pure]
  refine ⟨fun _ => hok.1 _ (by decide), fun hn => ?_⟩
  have hremove : ((A.ino de.inum).type = T_DIR → ∀ j, 2 ≤ j → ∀ e, (entries A de.inum)[j]? = some e → e.inum = 0) →
      (sysUnlink.remove dp ip (DESIZE * k) fs₅).Holds G
        (fun r fs' => fs'.log.busy = false ∧ ∃ A', Sane v A' fs' ∧ Refs fs fs' [] ∧
          Spares v (Held fs) (Parent (view v A) (fs.icache cwd).inum path) A A' ∧
          Unlinked (Held fs) (view v A) (fs.icache cwd).inum path r (view v A')) (fun w _ => ok w) := by
    intro hempty
    have hk := (List.getElem?_eq_some_iff.1 hget).1
    refine (unlink_remove_spec ⟨hs₅, h.tidy, h.anchored.refs hr₅⟩ hok hd₅ hc₅ hdir hk hne hr₅ hbusy₅).mono ?_
      fun _ _ h => h
    rintro r fs₆ ⟨rfl, hb, A', hs', hr', hsp, hview⟩
    have hdi : (fs₁.icache dp).inum ≠ de.inum := fun he =>
      hne (hs₅.rep.cache.inj dp hdp ip hip hd₅.ref hc₅.ref ((hd₅.inum.trans he).trans hc₅.inum.symm))
    have hsp := hsp.mono fun j hj _ _ => (⟨name, Set.mem_singleton_iff.1 hj ▸ hres⟩ : j ∈ Parent _ _ path)
    refine ⟨hb, A', hs', hr', hsp,
      .inr ⟨rfl, _, name, k, de, hres, fun h0 => hdots (.inl h0), fun h0 => hdots (.inr h0), ?_, ?_, ?_, hm,
      hdi, ?_, ?_, ?_, hview⟩⟩
    · rw [view_type hc₁.live.1, hdir]
    · rw [view_entries hc₁.live.1 hdir, hlook]
    · rw [view_entries hc₁.live.1 hdir, hget]
    · rw [view_type hc₅.live.1]
      exact hc₅.live.2
    · rw [view_nlink hc₅.live.1]
      exact sshort_pos hn
    · rw [view_type hc₅.live.1]
      intro ht
      rw [view_entries hc₅.live.1 ht]
      exact hempty ht
  refine ⟨fun ht => ?_, fun ht => ⟨fun hf => absurd trivial hf, fun _ => hremove fun ht' => absurd ht' ht⟩⟩
  refine (isdirempty_spec hs₅ h.tidy hok.1 hc₅ ht).mono ?_ fun _ _ h => h
  rintro empty fs₆ ⟨rfl, hempty⟩
  refine ⟨fun _ => ?_, fun he => hremove fun _ => hempty (by simpa using he)⟩
  refine (iunlockput_walk hs₅ hok.1 h.anchored (hr₅.perm (List.Perm.swap _ _ _)) hip).mono ?_ fun _ _ h => h
  rintro _ fs₆ ⟨hs₆, hr₆, -⟩
  exact hbad hs₆ hr₆

/-- Anchors depend only on which inodes are live and have links. -/
theorem Anchored.congr (h : Anchored v A fs) (ht : ∀ j, (A'.ino j).type = (A.ino j).type)
    (hn : ∀ j, (A'.ino j).nlink = (A.ino j).nlink) : Anchored v A' fs := by
  intro j hj h0
  exact h j ((live_congr ht j).1 hj) (hn j ▸ h0)

theorem noDangling_iff (v : Volume) (A : Image) :
    NoDangling v A ↔ ∀ i, (view v A i).type = T_DIR → ∀ de ∈ (view v A i).entries, de.inum ≠ 0 →
      (view v A de.inum).type ≠ 0 := by
  have hdir : ∀ i, (view v A i).type = T_DIR ↔ Live v A i ∧ (A.ino i).type = T_DIR := by
    intro i
    constructor
    · intro ht
      have hl := (live_iff v A i).2 (by rw [ht]; decide)
      exact ⟨hl, view_type hl.1 ▸ ht⟩
    · rintro ⟨hl, ht⟩
      rw [view_type hl.1, ht]
  constructor
  · intro h i ht de hmem h0
    obtain ⟨hl, ht⟩ := (hdir i).1 ht
    rw [view_entries hl.1 ht] at hmem
    exact (live_iff v A _).1 (h i hl ht de hmem h0)
  · intro h i hl ht de hmem h0
    exact (live_iff v A _).2 (h i ((hdir i).2 ⟨hl, ht⟩) de (by rwa [view_entries hl.1 ht]) h0)

theorem resolve_congr {T T' : Names} (ht : ∀ i, (T' i).type = (T i).type) (he : ∀ i, (T' i).entries = (T i).entries)
    (cwd : Nat) (path : List UInt8) (parent : Bool) : resolve T' cwd path parent = resolve T cwd path parent := by
  have hloop : ∀ fuel i path name,
      resolve.loop T' parent fuel i path name = resolve.loop T parent fuel i path name := by
    intro fuel
    induction fuel with
    | zero => intros; rfl
    | succ fuel ih =>
        intro i path name
        simp only [resolve.loop, ht, he, ih]
  exact hloop ..

theorem setNlink_setNlink (T : Names) (i m : Nat) : setNlink (setNlink T i m) i (T i).nlink = T := by
  simp [setNlink]

theorem caller_relinked {n : Nat} (h : Caller v A ok fs cwd) (hr : Relinked v A fs ip i n fs' A') :
    Caller v A' ok fs' cwd := by
  have hrefs := refs_edits hr.edits
  obtain ⟨hinum, -⟩ := hrefs.keep cwd h.index h.ref
  refine ⟨h.index, ?_, h.live.imp id fun hl => ⟨?_, ?_, (live_relinked hr _).2 hl.2.2⟩⟩
  · rw [hrefs.ref cwd h.index]
    exact Nat.lt_add_right _ h.ref
  · rw [noDangling_iff, hr.view]
    simpa only [type_setNlink, entries_setNlink] using (noDangling_iff v A).1 hl.1
  · rw [hinum]
    exact (live_relinked hr _).2 hl.2.1

theorem Caller.refs (h : Caller v A ok fs cwd) (hr : Refs fs fs' L) : Caller v A ok fs' cwd := by
  obtain ⟨hinum, -⟩ := hr.keep cwd h.index h.ref
  refine ⟨h.index, ?_, hinum ▸ h.live⟩
  rw [hr.ref cwd h.index]
  exact Nat.lt_add_right _ h.ref

theorem link_bad_spec {A₁ : Image} (h₀ : Anchored v A fs₀) (hn : (A.ino i).nlink < 2 ^ 16) (h : Sane v A₁ fs)
    (hok : Lenient ok) (hc : Cached v A₁ fs ip i) (hr : Refs fs₀ fs [ip]) (hbusy : fs.log.busy = true)
    (hino : ∀ j, j ≠ i → A₁.ino j = A.ino j) (htype : (A₁.ino i).type = (A.ino i).type)
    (hup : (A₁.ino i).nlink = up (A.ino i).nlink)
    (hview : view v A₁ = setNlink (view v A) i (up (A.ino i).nlink)) (hsp : Spares v (Held fs₀) ∅ A A₁) :
    (sysLink.bad ip fs).Holds G
      (fun r fs' => r = -1 ∧ fs'.log.busy = false ∧ ∃ A', Sane v A' fs' ∧ Refs fs₀ fs' [] ∧
        Spares v (Held fs₀) ∅ A A' ∧ view v A' = view v A)
      (fun w _ => ok w) := by
  unfold sysLink.bad
  simp only [holds_bind, holds_pure]
  refine (ilock_spec h.sound hok hc.index (.inr (hc.inum ▸ hc.live))).mono ?_ fun _ _ h => h
  rintro _ fs₁ ⟨-, hc₁, hs₁, hr₁, x, hfs₁, -⟩
  rw [hc.inum] at hc₁
  have hbusy₁ : fs₁.log.busy = true := by
    rw [hfs₁]
    exact hbusy
  refine (decNlink_spec ⟨hs₁, h.tidy, h.anchored.refs hr₁⟩ hok hc₁ hbusy₁).mono
    (fun _ fs₂ h₂ => h₂.mono ?_ fun _ _ h => h) fun _ _ h => h
  rintro _ fs₃ ⟨A₃, hrel⟩
  have hn₃ : (A₃.ino i).nlink = (A.ino i).nlink := by rw [hrel.nlink, hup, down_up hn]
  have ha₃ : Anchored v A₃ fs₀ := by
    refine Anchored.congr h₀ (fun j => ?_) fun j => ?_
    · by_cases hj : j = i
      · rw [hj, hrel.type, htype]
      · rw [hrel.ino j hj, hino j hj]
    · by_cases hj : j = i
      · rw [hj, hn₃]
      · rw [hrel.ino j hj, hino j hj]
  have hr₃ := (hr.trans hr₁).trans (refs_edits hrel.edits)
  refine (iunlockput_walk hrel.sane.sound hok ha₃ hr₃ hc.index).mono ?_ fun _ _ h => h
  rintro _ fs₄ ⟨hs₄, hr₄, -⟩
  refine (commit_spec ⟨hs₄, hrel.sane.tidy, ha₃.refs hr₄⟩ hok).mono ?_ fun _ _ h => h
  rintro _ fs₅ ⟨hs₅, hcache, hb⟩
  refine ⟨trivial, hb, A₃, hs₅, hr₄.trans (refs_sameCache hcache), by simpa using hsp.trans (hrel.spares _), ?_⟩
  rw [hrel.view, hview, hup, down_up hn]
  have := setNlink_setNlink (view v A) i (up (A.ino i).nlink)
  rwa [view_nlink hc.live.1] at this

/-- What link does to the name space. -/
def LinkMade (held : Nat → Prop) (T : Names) (cwd : Nat) (old new : List UInt8) (r : Int) (T' : Names) : Prop :=
  r = -1 ∧ T' = T ∨ r = 0 ∧ ∃ i last d k name, resolve T cwd old false = some (i, last) ∧
    resolve T cwd new true = some (d, name) ∧ (T i).type ≠ 0 ∧ (T i).type ≠ T_DIR ∧ Vacant T d k name ∧
    T' = link held T i d k name

theorem link_rest_spec {A₁ : Image} {new : List UInt8} (h₀ : Anchored v A fs₀) (hn : (A.ino i).nlink < 2 ^ 16)
    (h : Sane v A₁ fs) (hok : Tolerant G ok) (hc : Cached v A₁ fs ip i) (hr : Refs fs₀ fs [ip])
    (hbusy : fs.log.busy = true) (hcwd : Caller v A₁ ok fs cwd)
    (hino : ∀ j, j ≠ i → A₁.ino j = A.ino j) (htype : (A₁.ino i).type = (A.ino i).type) (hfile : (A.ino i).type ≠ T_DIR)
    (hup : (A₁.ino i).nlink = up (A.ino i).nlink)
    (hview : view v A₁ = setNlink (view v A) i (up (A.ino i).nlink)) (hsp : Spares v (Held fs₀) ∅ A A₁) :
    (nameiparent cwd new fs).Holds G (fun r fs₁ => ((match r with
        | none => sysLink.bad ip
        | some (dp, name) => do
            ilock dp
            let fs ← fetch
            let r ← (if (fs.icache dp).dev ≠ (fs.icache ip).dev then pure (-1)
              else dirlink dp name (fs.icache ip).inum)
            if r < 0 then do
              iunlockput dp
              sysLink.bad ip
            else do
              iunlockput dp
              iput ip
              commitTrans
              pure 0 : FsM Int) fs₁).Holds G
      (fun r fs' => fs'.log.busy = false ∧ ∃ A', Sane v A' fs' ∧ Refs fs₀ fs' [] ∧
        Spares v (Held fs₀) (Parent (view v A) (fs.icache cwd).inum new) A A' ∧
        (r = -1 ∧ view v A' = view v A ∨ r = 0 ∧ ∃ d k name,
          resolve (view v A) (fs.icache cwd).inum new true = some (d, name) ∧ Vacant (view v A) d k name ∧
          view v A' = link (Held fs₀) (view v A) i d k name))
      (fun w _ => ok w)) (fun w _ => ok w) := by
  have hbad : ∀ {fs₁ : Fs}, Sound v A₁ fs₁ → Refs fs fs₁ [] → fs₁.log.busy = true →
      (sysLink.bad ip fs₁).Holds G
        (fun r fs' => fs'.log.busy = false ∧ ∃ A', Sane v A' fs' ∧ Refs fs₀ fs' [] ∧
          Spares v (Held fs₀) (Parent (view v A) (fs.icache cwd).inum new) A A' ∧
          (r = -1 ∧ view v A' = view v A ∨ r = 0 ∧ ∃ d k name,
            resolve (view v A) (fs.icache cwd).inum new true = some (d, name) ∧ Vacant (view v A) d k name ∧
            view v A' = link (Held fs₀) (view v A) i d k name)) (fun w _ => ok w) := by
    intro fs₁ hs₁ hr₁ hb₁
    refine (link_bad_spec h₀ hn ⟨hs₁, h.tidy, h.anchored.refs hr₁⟩ hok.1 (cached_refs hc hr₁)
      (hr.trans hr₁) hb₁ hino htype
      hup hview hsp).mono ?_ fun _ _ h => h
    rintro r fs' ⟨rfl, hb, A', hs', hr', hsp', hv'⟩
    exact ⟨hb, A', hs', hr', hsp'.mono fun j hj => absurd hj (Set.notMem_empty j), .inl ⟨rfl, hv'⟩⟩
  refine (parent_spec h hok.1 hcwd).mono ?_ fun _ _ h => h
  rintro (_ | ⟨dp, name⟩) fs₁ hw
  · obtain ⟨hs₁, hr₁, hlog, -⟩ := hw
    exact hbad hs₁ hr₁ (hlog ▸ hbusy)
  obtain ⟨hs₁, hr₁, hlog, hres, hdp, -, hpar⟩ := hw
  obtain ⟨hd₁, hdir⟩ := hpar rfl
  simp only [holds_bind, holds_fetch]
  refine (ilock_spec hs₁ hok.1 hdp (.inr hd₁.live)).mono ?_ fun _ _ h => h
  rintro _ fs₂ ⟨-, hd₂, hs₂, hr₂, x, hfs₂, -⟩
  have hr₂ := hr₁.trans hr₂
  have hc₂ := cached_refs hc hr₂
  have hbusy₂ : fs₂.log.busy = true := by
    rw [hfs₂]
    exact hlog ▸ hbusy
  have hdi : i ≠ (fs₁.icache dp).inum := by
    rintro he
    rw [← he, htype] at hdir
    exact hfile hdir
  have hne : ip ≠ dp := by
    rintro rfl
    exact hdi (hc₂.inum.symm.trans hd₂.inum)
  have hdev : (fs₂.icache dp).dev = (fs₂.icache ip).dev := by
    rw [(hs₂.rep.cache.known dp hdp hd₂.ref).1, (hs₂.rep.cache.known ip hc₂.index hc₂.ref).1]
  rw [if_neg (not_not.2 hdev), hc₂.inum]
  refine (dirlink_spec hs₂ h.tidy (h.anchored.refs hr₂) hok hd₂ hdir hbusy₂ hc.live.1).mono ?_ fun _ _ h => h
  rintro r fs₃ (⟨rfl, hs₃, hr₃, hlog₃, -⟩ | ⟨rfl, hnew, A₃, k, hk, hunused, hp⟩)
  · simp only [holds_ite, holds_bind]
    refine ⟨fun _ => ?_, fun hf => absurd (by decide) hf⟩
    have hr₃ := hr₂.trans hr₃
    refine (iunlockput_walk hs₃ hok.1 h.anchored hr₃ hdp).mono ?_ fun _ _ h => h
    rintro _ fs₄ ⟨hs₄, hr₄, rfl⟩
    exact hbad hs₄ hr₄ (by rw [← hbusy₂, ← hlog₃]; rfl)
  · simp only [holds_ite, holds_bind]
    refine ⟨fun hf => absurd hf (by decide), fun _ => ?_⟩
    have hr₃ := hr₂.trans (refs_edits hp.edits)
    have ha₃ : Anchored v A₃ fs := by
      refine Anchored.congr h.anchored (fun j => ?_) fun j => ?_
      · by_cases hj : j = (fs₁.icache dp).inum
        · rw [hj, hp.fields.1]
        · rw [hp.frame.ino j hj]
      · by_cases hj : j = (fs₁.icache dp).inum
        · rw [hj, hp.fields.2]
        · rw [hp.frame.ino j hj]
    refine (iunlockput_walk hp.sound hok.1 ha₃ hr₃ hdp).mono ?_ fun _ _ h => h
    rintro _ fs₄ ⟨hs₄, hr₄, hfs₄⟩
    have hc₃ : Cached v A₃ fs ip i := ⟨hc.index, hc.ref, hc.valid, hc.inum, (hp.frame.live hdi).2 hc.live⟩
    have hc₄ := cached_refs hc₃ hr₄
    have hbusy₄ : fs₄.log.busy = true := by
      rw [hfs₄]
      exact hp.edits.busy.trans hbusy₂
    refine (iput_spec hs₄ hok.1 hc₄.index (.inr (.inl hbusy₄))).mono ?_ fun _ _ h => h
    rintro _ fs₅ ⟨A₅, hd₅⟩
    refine (commit_spec (sane_dropped ⟨hs₄, hp.tidy, ha₃.refs hr₄⟩ hc₄.index hc₄.ref hd₅) hok.1).mono ?_ fun _ _ h => h
    rintro _ fs₆ ⟨hs₆, hcache, hb⟩
    have hent : (view v A (fs₁.icache dp).inum).entries = entries A₁ (fs₁.icache dp).inum := by
      rw [← view_entries hd₁.live.1 hdir, hview, entries_setNlink]
    have hrefs := hr.trans hr₄
    have hres' : resolve (view v A) (fs.icache cwd).inum new true = some ((fs₁.icache dp).inum, name) := by
      rw [← hres, hview]
      exact (resolve_congr (type_setNlink _ _ _) (entries_setNlink _ _ _) _ _ _).symm
    have hsp₃ : Spares v (Held fs₀) {(fs₁.icache dp).inum} A₁ A₃ := spares_frame h.sound hp.frame hp.fields.1
    have hsp₅ := (hsp.trans hsp₃).trans (spares_dropped_refs hs₄ hc₄ hrefs hd₅)
    rw [Set.empty_union, Set.union_empty] at hsp₅
    have hsp₅ := hsp₅.mono fun j hj _ _ => (⟨name, Set.mem_singleton_iff.1 hj ▸ hres'⟩ : j ∈ Parent _ _ new)
    refine (holds_pure _ _).2 ⟨hb, A₅, hs₆, (hd₅.refs hc₄.index hrefs).trans (refs_sameCache hcache), hsp₅,
      .inr ⟨rfl, (fs₁.icache dp).inum, k, name, hres', ⟨?_, ?_, ?_, ?_⟩, ?_⟩⟩
    · rw [← type_setNlink _ i (up (A.ino i).nlink), ← hview, view_type hd₁.live.1, hdir]
    · rwa [hent]
    · rwa [hent]
    · rwa [hent]
    · rw [view_dropped hs₄ hc₄ hrefs (by simp) hd₅, hp.view, hview, link, setEntry, view_nlink]
      · rw [← view_entries hd₁.live.1 hdir, hview]
      · exact hc.live.1

theorem sysLink_spec {old new : List UInt8} (h : Sane v A fs) (hok : Tolerant G ok) (hcwd : Caller v A ok fs cwd)
    (hidle : fs.log.busy = false) :
    (sysLink cwd old new fs).Holds G
      (fun r fs' => fs'.log.busy = false ∧ ∃ A', Sane v A' fs' ∧ Refs fs fs' [] ∧
        Spares v (Held fs) (Parent (view v A) (fs.icache cwd).inum new) A A' ∧
        LinkMade (Held fs) (view v A) (fs.icache cwd).inum old new r (view v A')) (fun w _ => ok w) := by
  unfold sysLink
  rw [holds_bind]
  refine (namei_spec h.tidy h.anchored hok.1 (hcwd.live.imp id And.left) old h.sound hcwd.index hcwd.ref
    (hcwd.live.imp id And.right)).mono ?_ fun _ _ h => h
  rintro (_ | ip) fs₁ ⟨last, hw⟩
  · obtain ⟨hs₁, hr₁, hlog, -⟩ := hw
    exact (holds_pure _ _).2 ⟨hlog ▸ hidle, A, ⟨hs₁, h.tidy, h.anchored.refs hr₁⟩, hr₁, .refl .., .inl ⟨rfl, rfl⟩⟩
  obtain ⟨hs₁, hr₁, hlog, hres, hip, hlive, -⟩ := hw
  simp only [holds_bind]
  refine (begin_spec hs₁ hok.1).mono ?_ fun _ _ h => h
  rintro _ fs₂ ⟨hs₂, hc, hbusy₂⟩
  have hr₂ := hr₁.trans (refs_sameCache hc)
  refine (ilock_spec hs₂ hok.1 hip (hc ▸ hlive)).mono ?_ fun _ _ h => h
  rintro _ fs₃ ⟨-, hc₃, hs₃, hr₃, x, hfs₃, -⟩
  rw [hc] at hc₃
  have hr₃ := hr₂.trans hr₃
  have hbusy₃ : fs₃.log.busy = true := by
    rw [hfs₃]
    exact hbusy₂
  rw [holds_fetch, hc₃.din hs₃.rep]
  simp only [holds_ite, holds_bind]
  refine ⟨fun _ => ?_, fun hfile => ?_⟩
  · refine (iunlockput_walk hs₃ hok.1 h.anchored hr₃ hip).mono ?_ fun _ _ h => h
    rintro _ fs₄ ⟨hs₄, hr₄, -⟩
    refine (commit_spec ⟨hs₄, h.tidy, h.anchored.refs hr₄⟩ hok.1).mono ?_ fun _ _ h => h
    rintro _ fs₅ ⟨hs₅, hcache, hb⟩
    exact (holds_pure _ _).2 ⟨hb, A, hs₅, hr₄.trans (refs_sameCache hcache), .refl .., .inl ⟨rfl, rfl⟩⟩
  · have hsane₃ : Sane v A fs₃ := ⟨hs₃, h.tidy, h.anchored.refs hr₃⟩
    refine (incNlink_spec hsane₃ hok.1 hc₃ hbusy₃).mono (fun _ fs₄ h₄ => h₄.mono ?_ fun _ _ h => h) fun _ _ h => h
    rintro _ fs₅ ⟨A₅, hrel⟩
    have hr₅ := hr₃.trans (refs_edits hrel.edits)
    have hc₅ := hc₃.edits hrel.edits ((live_relinked hrel _).2 hc₃.live)
    refine (iunlock_spec hrel.sane.sound hok.1 hip).mono ?_ fun _ _ h => h
    rintro _ fs₆ ⟨-, hs₆, hr₆, hfs₆⟩
    have hcwd₆ : Caller v A₅ ok fs₆ cwd := (caller_relinked (hcwd.refs hr₃) hrel).refs hr₆
    have hbusy₆ : fs₆.log.busy = true := by
      rw [hfs₆]
      exact hrel.edits.busy.trans hbusy₃
    refine (link_rest_spec h.anchored (h.sound.owns.din _ hc₃.live.1).nlink ⟨hs₆, hrel.sane.tidy,
      hrel.sane.anchored.refs hr₆⟩
      hok (cached_refs hc₅ hr₆) (hr₅.trans hr₆) hbusy₆ hcwd₆ hrel.ino hrel.type hfile hrel.nlink hrel.view
      (hrel.spares _)).mono
      (fun r fs₇ h₇ => h₇.mono ?_ fun _ _ h => h) fun _ _ h => h
    rintro r fs₈ ⟨hb, A', hs', hr', hsp, hcase⟩
    have hcwdi : (fs₆.icache cwd).inum = (fs.icache cwd).inum := ((hr₅.trans hr₆).keep cwd hcwd.index hcwd.ref).1
    rw [hcwdi] at hsp hcase
    refine ⟨hb, A', hs', hr', hsp, hcase.imp id ?_⟩
    rintro ⟨hr0, d, k, name, hresd, hvac, hv'⟩
    refine ⟨hr0, _, last, d, k, name, hres, hresd, ?_, ?_, hvac, hv'⟩
    · rw [view_type hc₃.live.1]
      exact hc₃.live.2
    · rw [view_type hc₃.live.1]
      exact hfile

end ArmXv6.SysfileSpecs
