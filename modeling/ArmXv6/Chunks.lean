import ArmXv6.ByteSequences
import ArmXv6.Proc

namespace ArmXv6.Chunks

open Lib.Exec Param Blocks Fs Content Kernel DiskImage BlockSpecs BlockAlloc Ownership BlockMap FileData
  InodeSpecs Directory
  SysfileSpecs ByteSequences

variable {v : Volume} {A A' : Image} {fs fs' : Fs} {ip i n b off : Nat} {G : Event → Prop} {s : Nat}

theorem bread_returns (hheld : s ∉ fs.held) (hbuf : s ∈ fs.dirty ∨ (fs.held ∪ fs.dirty).length < NBUF)
    (hs : s < fs.disksize) :
    (bread s fs).Holds G (fun d fs' => d = fs.blk s ∧ fs' = { fs with held := s :: fs.held }) fun _ _ => False := by
  simp only [bread, holds_bind, holds_fetch, holds_ite, holds_sleep, holds_panic, holds_update, holds_pure]
  refine ⟨hheld, fun _ => ⟨fun hfull => ?_, fun _ => ⟨fun hle => by omega, fun _ => ⟨trivial, trivial⟩⟩⟩⟩
  rcases hbuf with hbuf | hbuf
  · exact hfull.1 hbuf
  · omega

theorem writeHead_returns (hheld : fs.held = []) (hdirty : fs.dirty.length < NBUF) (hs : fs.log.start < fs.disksize) :
    (writeHead fs).Holds G
      (fun _ fs' => fs'.held = [] ∧ fs'.dirty = fs.dirty.erase fs.log.start ∧ fs'.log = fs.log ∧
        fs'.disksize = fs.disksize)
      fun _ _ => False := by
  simp only [writeHead, holds_bind, holds_fetch]
  refine (bread_returns (by simp [hheld]) (.inr (by simpa [hheld] using hdirty)) hs).mono ?_ fun _ _ => id
  rintro _ _ ⟨-, rfl⟩
  simp [bwrite, setBlk, hheld]

theorem installTrans_loop_returns (l : List Nat) (tail : Nat) (hheld : fs.held = []) (hdirty : fs.dirty.length < NBUF)
    (hl : l.Nodup)
    (hsub : ∀ t ∈ l, t ∈ fs.dirty) (hlog : ∀ t ∈ l, t < fs.log.start)
      (hfit : fs.log.start + tail + l.length < fs.disksize) :
    (installTrans.loop tail l fs).Holds G
      (fun _ fs' => fs'.held = [] ∧ fs'.dirty.length < NBUF ∧ fs'.log = fs.log ∧
        fs'.disksize = fs.disksize) fun _ _ => False := by
  induction l generalizing fs tail with
  | nil => simpa [installTrans.loop] using ⟨hheld, hdirty⟩
  | cons sector rest ih =>
      have hsector := hsub sector List.mem_cons_self
      have hbelow := hlog sector List.mem_cons_self
      rw [List.length_cons] at hfit
      simp only [installTrans.loop, holds_bind, holds_fetch]
      refine (bread_returns (by simp [hheld]) (.inr (by simpa [hheld] using hdirty)) (by omega)).mono ?_ fun _ _ => id
      rintro _ _ ⟨-, rfl⟩
      refine (bread_returns ?_ ?_ ?_).mono ?_ fun _ _ => id
      · rw [hheld, List.mem_singleton]
        omega
      · exact .inl hsector
      · change sector < fs.disksize
        omega
      rintro _ _ ⟨-, rfl⟩
      have herase :
          ((sector :: (fs.log.start + tail + 1) :: fs.held).erase (fs.log.start + tail + 1)).erase sector = [] := by
        rw [List.erase_cons_tail (by simp; omega)]
        simp [hheld]
      simp only [bwrite, setBlk, holds_bind, holds_update, holds_brelse, herase]
      have hnodup := List.nodup_cons.1 hl
      refine (ih (tail + 1) ?_ ?_ hnodup.2 (fun t ht => ?_) (fun t ht => ?_) ?_).mono (fun _ _ h => h) fun _ _ => id
      · rfl
      · exact lt_of_le_of_lt List.length_erase_le hdirty
      · have hne : t ≠ sector := by
          rintro rfl
          exact hnodup.1 ht
        exact (List.mem_erase_of_ne hne).2 (hsub t (List.mem_cons_of_mem _ ht))
      · exact hlog t (List.mem_cons_of_mem _ ht)
      · simp only
        omega

theorem commitTrans_returns (h : LogRep v fs) (hheld : fs.held = []) (hlen : fs.log.lh.length < NBUF) :
    (commitTrans fs).Holds G (fun _ _ => True) fun _ _ => False := by
  have hdirty : fs.dirty.length < NBUF := h.dirty.length_eq ▸ hlen
  have hlog := v.logStart_le
  have hpos : fs.log.start + fs.log.lh.length < fs.disksize := by
    have := h.length
    have := v.log
    rw [h.start, h.disksize]
    omega
  simp only [commitTrans, holds_bind, holds_fetch, holds_ite, holds_pure, setLog, holds_update, installTrans]
  refine ⟨fun _ => ?_, fun _ => trivial⟩
  refine (writeHead_returns hheld hdirty (by omega)).mono ?_ fun _ _ => id
  rintro _ fs₁ ⟨hheld₁, hdirty₁, hlog₁, hsize₁⟩
  have hclean : fs.dirty.erase fs.log.start = fs.dirty := by
    apply List.erase_of_not_mem
    intro hm
    have := h.below _ (h.dirty.mem_iff.1 hm)
    rw [h.start] at this
    omega
  rw [hclean] at hdirty₁
  have hloop := installTrans_loop_returns (G := G) fs₁.log.lh 0 hheld₁ (hdirty₁ ▸ hdirty) (hlog₁ ▸ h.nodup)
    (fun t ht => hdirty₁ ▸ h.dirty.mem_iff.2 (hlog₁ ▸ ht))
      (fun t ht => by rw [hlog₁, h.start]; exact h.below t (hlog₁ ▸ ht))
    (by rw [hlog₁, hsize₁]; exact hpos)
  refine hloop.mono ?_ fun _ _ => id
  rintro _ fs₂ ⟨hheld₂, hdirty₂, hlog₂, hsize₂⟩
  refine (writeHead_returns ?_ ?_ ?_).mono (fun _ _ _ => trivial) fun _ _ => id
  · exact hheld₂
  · exact hdirty₂
  · simp only [hlog₂, hsize₂, hlog₁, hsize₁]
    omega

theorem ilock_returns (h : Sound v A fs) (hq : Quiet fs) (hip : ip < NINODE) (href : 0 < (fs.icache ip).ref)
    (hfree : (fs.icache ip).busy = false) (hl : Live v A (fs.icache ip).inum) :
    (ilock ip fs).Holds G (fun _ _ => True) fun _ _ => False := by
  have hinum := (h.rep.cache.known ip hip href).2
  have hblock : IBLOCK (fs.icache ip).inum < v.disksize :=
    v.lt_disksize ((v.iblock_lt_dataStart hinum).trans_le v.dataStart_le)
  have hd : dinodeAt (fs.blk (IBLOCK (fs.icache ip).inum)) ((fs.icache ip).inum % IPB) = A.ino (fs.icache ip).inum :=
    h.rep.disk.ino _ hinum (Set.notMem_empty _)
  unfold ilock
  simp only [holds_bind, holds_fetch, holds_ite, holds_panic, holds_sleep, holds_setInode]
  refine ⟨by omega, fun _ => ⟨by simp [hfree], fun _ => ⟨fun _ => ?_, fun _ => by rw [holds_pure]; trivial⟩⟩⟩
  have hlog : LogRep v (putInode fs ip { fs.icache ip with busy := true }) := h.rep.log.congr rfl rfl rfl rfl
  refine (bread_spec hlog hblock (.inr ?_)).mono ?_ fun _ _ => id
  · exact hq.readable _
  · rintro _ _ ⟨rfl, rfl⟩
    rw [holds_brelse]
    refine ⟨fun ht => hl.2 (hd ▸ ht), fun _ => ?_⟩
    rw [holds_pure]
    trivial

/-- Between two system calls, with file f open for writing on inode i, which is no device and which nobody
else uses. -/
structure Ready (v : Volume) (A : Image) (k : Kstate) (f i : Nat) : Prop where
  sound : Sound v A k.fs
  held : k.fs.held = []
  log : k.fs.log.lh = []
  idle : k.fs.log.busy = false
  type : (k.ftable f).type = .inode
  writable : (k.ftable f).writable = true
  index : (k.ftable f).ip < NINODE
  ref : 0 < (k.fs.icache (k.ftable f).ip).ref
  free : (k.fs.icache (k.ftable f).ip).busy = false
  inum : (k.fs.icache (k.ftable f).ip).inum = i
  live : Live v A i
  kind : (A.ino i).type ≠ T_DEV

/-- What the superblock of mkfs says: one bitmap block, and a log of LOGSIZE blocks. -/
structure Usual (v : Volume) : Prop where
  nlog : v.sb.nlog = LOGSIZE
  bitmap : nbitmap v ≤ 1

/-- The state of things after n bytes have been written through file f. -/
structure Advanced (v : Volume) (f i n : Nat) (src : Nat → UInt8) (A : Image) (k : Kstate) (A' : Image)
    (k' : Kstate) : Prop where
  ready : Ready v A' k' f i
  bytes : contents A' i = splice (contents A i) (k.ftable f).off n src
  size : (A'.ino i).size = max (A.ino i).size ((k.ftable f).off + n)
  off : (k'.ftable f).off = (k.ftable f).off + n
  room : freeCount v A' + need (nblocks (A.ino i).size) (nblocks (max (A.ino i).size ((k.ftable f).off + n))) =
    freeCount v A

variable {k : Kstate} {f : Nat} {src : Nat → UInt8}

theorem holds_onFs {α : Type} {m : FsM α} {Q : α → Kstate → Prop} {E : Stop → Kstate → Prop} :
    (onFs m k).Holds G Q E ↔ (m k.fs).Holds G (fun a fs => Q a { k with fs := fs }) fun w fs =>
      E w { k with fs := fs } :=
  holds_zoom

theorem beginTrans_returns (hidle : fs.log.busy = false) :
    (beginTrans fs).Holds G (fun _ fs' => fs' = { fs with log := { fs.log with busy := true } }) fun _ _ => False := by
  simp [beginTrans, hidle, setLog]

theorem iunlock_returns (href : 0 < (fs.icache ip).ref) (hbusy : (fs.icache ip).busy = true) :
    (iunlock ip fs).Holds G (fun _ fs' => fs' = putInode fs ip { fs.icache ip with busy := false }) fun _ _ =>
      False := by
  unfold iunlock
  simp only [holds_bind, holds_fetch, holds_ite, holds_panic, holds_setInode]
  exact ⟨by simp [hbusy]; omega, fun _ => trivial⟩

theorem finish_then {α : Type} {Q : α → Kstate → Prop} (hv : Usual v) (h : Sound v A k.fs) (hheld : k.fs.held = [])
    (hip : ip < NINODE) (href : 0 < (k.fs.icache ip).ref) (hbusy : (k.fs.icache ip).busy = true) (rest : KM α)
    (hrest : ∀ fs', Sound v A fs' → fs'.held = [] → fs'.log.lh = [] → fs'.log.busy = false →
      fs'.icache = (putInode k.fs ip { k.fs.icache ip with busy := false }).icache →
      (rest { k with fs := fs' }).Holds G Q fun _ _ => False) :
    ((do
      onFs (iunlock ip)
      onFs commitTrans
      rest : KM α) k).Holds G Q fun _ _ => False := by
  have hlenient : Lenient fun _ => True := fun _ _ => trivial
  rw [holds_bind, holds_onFs]
  refine ((iunlock_returns href hbusy).and (iunlock_spec h hlenient hip)).mono ?_ fun _ _ hf => hf.1
  rintro _ fs₁ ⟨rfl, -, hs₁, -, -⟩
  rw [holds_bind, holds_onFs]
  have hlen : (putInode k.fs ip { k.fs.icache ip with busy := false }).log.lh.length < NBUF := by
    have hle := hs₁.rep.log.length
    rw [hv.nlog] at hle
    exact lt_of_le_of_lt hle (by decide)
  refine ((commitTrans_returns hs₁.rep.log hheld hlen).and (commitTrans_spec hs₁.rep.log hlenient)).mono ?_
    fun _ _ hf => hf.1
  rintro _ fs₂ ⟨-, hl, hlh, hb, hc, hheld₂, -, hblk⟩
  exact hrest fs₂ (Sound.sameDisk hs₁ hl hc hblk) (hheld₂.trans hheld) hlh hb hc

theorem chunk_then {α : Type} {Q : α → Kstate → Prop} (hv : Usual v) (hR : Ready v A k f i)
    (hoff : (k.ftable f).off < 2 ^ 32)
    (hpos : 0 < n) (hn : n ≤ writeMax)
    (hfree : ¬Refused (A.ino i).size (k.ftable f).off n → Suffices v A i (k.ftable f).off n) (rest : Int → KM α)
    (hbad : Refused (A.ino i).size (k.ftable f).off n → ∀ k', Ready v A k' f i → k'.ftable = k.ftable →
      (rest (-1) k').Holds G Q fun _ _ => False)
    (hgood : ¬Refused (A.ino i).size (k.ftable f).off n → ∀ A' k', Advanced v f i n src A k A' k' →
      (rest n k').Holds G Q fun _ _ => False) :
    ((do
      onFs beginTrans
      onFs (ilock (k.ftable f).ip)
      let r ← onFs (writei (k.ftable f).ip src (k.ftable f).off n)
      (if 0 < r then setFile f fun x => { x with off := uint (x.off + r.toNat) } else pure ())
      onFs (iunlock (k.ftable f).ip)
      onFs commitTrans
      rest r : KM α) k).Holds G Q fun _ _ => False := by
  have hlenient : Lenient fun _ => True := fun _ _ => trivial
  have hmax : writeMax = 3 * BSIZE := by decide
  have hn32 : n < 2 ^ 32 := lt_of_le_of_lt hn (by decide)
  rw [holds_bind, holds_onFs]
  refine (beginTrans_returns hR.idle).mono ?_ fun _ _ => id
  rintro _ _ rfl
  have hs₁ : Sound v A { k.fs with log := { k.fs.log with busy := true } } :=
    Sound.sameDisk hR.sound (hR.sound.rep.log.busy true) rfl fun _ _ => rfl
  have hq₁ : Quiet { k.fs with log := { k.fs.log with busy := true } } := ⟨hR.held, by simp [hR.log, NBUF]⟩
  have hlive : Live v A (k.fs.icache (k.ftable f).ip).inum := hR.inum.symm ▸ hR.live
  rw [holds_bind, holds_onFs]
  refine ((ilock_returns hs₁ hq₁ hR.index hR.ref hR.free hlive).and
    (ilock_spec hs₁ hlenient hR.index (.inr hlive))).mono ?_
    fun _ _ hf => hf.1
  rintro _ fs₂ ⟨-, -, hc₂, hs₂, -, x, hx, hxb⟩
  have hinum : (({ k.fs with log := { k.fs.log with busy := true } } : Fs).icache (k.ftable f).ip).inum = i := hR.inum
  rw [hinum] at hc₂
  have hlh : fs₂.log.lh = [] := by
    rw [hx]
    exact hR.log
  have hheld : fs₂.held = [] := by
    rw [hx]
    exact hR.held
  have hbusy : fs₂.log.busy = true := by
    rw [hx]
    rfl
  have hlock : (fs₂.icache (k.ftable f).ip).busy = true := by
    rw [hx, putInode_self]
    exact hxb
  rw [holds_bind, holds_onFs]
  by_cases hr : Refused (A.ino i).size (k.ftable f).off n
  · refine (writei_refused hs₂ hc₂ hR.kind hoff hn32 hr).mono ?_ fun _ _ => id
    rintro _ fs₃ ⟨rfl, rfl⟩
    rw [holds_bind, if_neg (by decide), holds_pure]
    refine finish_then hv hs₂ hheld hR.index hc₂.ref hlock (rest (-1)) fun fs' hs' hheld' hlh' hidle' hc' => ?_
    refine hbad hr _ ⟨hs', hheld', hlh', hidle', hR.type, hR.writable, hR.index, ?_, ?_, ?_, hR.live, hR.kind⟩ rfl
    · change 0 < (fs'.icache (k.ftable f).ip).ref
      rw [hc', putInode_self]
      exact hc₂.ref
    · change (fs'.icache (k.ftable f).ip).busy = false
      rw [hc', putInode_self]
    · change (fs'.icache (k.ftable f).ip).inum = i
      rw [hc', putInode_self]
      exact hc₂.inum
  · have hfits : Fits v A fs₂ i (k.ftable f).off n := fits_chunk hbusy hlh hv.nlog hv.bitmap (hmax ▸ hn)
    have hp : Plenty v A fs₂ i (spans (k.ftable f).off n + 1)
        (need (nblocks (A.ino i).size) (max (nblocks (A.ino i).size) (nblocks ((k.ftable f).off + n)))) :=
      ⟨hfits.budget, hfits.nlog, hheld, hfree hr⟩
    refine (writei_spec src hs₂.rep hs₂.owns hc₂ (Set.notMem_empty _) (hs₂.full i hc₂.live) hR.kind hbusy hoff hn32
      (.inr hp.enough)).mono
      ?_ fun _ _ => id
    intro r fs₃ hw
    unfold Refused at hr
    rw [if_neg hr] at hw
    obtain ⟨rfl, A', hw⟩ := hw
    obtain ⟨d, hino⟩ := hw.ino
    obtain ⟨e, hself⟩ := hw.edits.self
    have hs₃ : Sound v A' fs₃ := sound_written hs₂ hc₂ hw
    have hlive' : Live v A' i := ⟨hc₂.live.1, by rw [hino]; exact hc₂.live.2⟩
    have hsize : (A'.ino i).size = max (A.ino i).size ((k.ftable f).off + n) := by rw [hino]
    have hwide : (k.ftable f).off + n < 2 ^ 32 := by omega
    have hnew : uint ((k.ftable f).off + n) = (k.ftable f).off + n := Nat.mod_eq_of_lt hwide
    rw [holds_bind, if_pos (by omega)]
    simp only [setFile, holds_update]
    refine finish_then hv hs₃ (hw.edits.held.trans hheld) hR.index (by rw [hself]; exact hc₂.ref)
      (by rw [hself]; exact hlock) (rest n)
      fun fs' hs' hheld' hlh' hidle' hc' => ?_
    refine hgood hr A' _ ⟨⟨hs', hheld', hlh', hidle', ?_, ?_, ?_, ?_, ?_, ?_, hlive', ?_⟩, ?_, hsize, ?_, hw.free⟩
    · simpa using hR.type
    · simpa using hR.writable
    · simpa using hR.index
    · simp only [Function.update_self]
      rw [hc', putInode_self]
      change 0 < (fs₃.icache (k.ftable f).ip).ref
      rw [hself]
      exact hc₂.ref
    · simp only [Function.update_self]
      rw [hc', putInode_self]
    · simp only [Function.update_self]
      rw [hc', putInode_self]
      change (fs₃.icache (k.ftable f).ip).inum = i
      rw [hself]
      exact hc₂.inum
    · rw [hino]
      exact hR.kind
    · exact contents_written rfl hsize (by omega) hw.bytes
    · simp only [Function.update_self, Int.toNat_natCast]
      exact hnew

theorem splice_splice {xs : List UInt8} {m : Nat} (hoff : off ≤ xs.length) :
    splice (splice xs off n src) (off + n) m (fun j => src (n + j)) = splice xs off (n + m) src := by
  have hfirst : (xs.take off ++ (List.range n).map src).length = off + n := by
    rw [List.length_append, List.length_take, List.length_map, List.length_range]
    omega
  unfold splice
  rw [List.take_left' hfirst, List.drop_append, hfirst, List.drop_eq_nil_of_le (by omega), List.drop_drop,
    List.range_add,
    List.map_append, List.map_map]
  have hlast : off + n + (off + n + m - (off + n)) = off + (n + m) := by omega
  rw [hlast]
  simp [List.append_assoc, Function.comp_def]

theorem splice_zero (xs : List UInt8) (off : Nat) (src : Nat → UInt8) : splice xs off 0 src = xs := by
  simp [splice]

/-- i bytes of a write from off on, into the bytes xs, are done. -/
structure Progress (v : Volume) (f ino off : Nat) (xs : List UInt8) (src : Nat → UInt8) (i : Nat) (A : Image)
    (k : Kstate) : Prop where
  ready : Ready v A k f ino
  offset : (k.ftable f).off = off + i
  bytes : contents A ino = splice xs off i src
  size : (A.ino ino).size = max xs.length (off + i)

/-- Blocks enough for what a write of n bytes can write. -/
def Enough (v : Volume) (A : Image) (i off n : Nat) : Prop :=
  need (nblocks (A.ino i).size) (nblocks (max (A.ino i).size (min (off + n) (MAXFILE * BSIZE)))) ≤ freeCount v A

theorem nblocks_mono {a b : Nat} (h : a ≤ b) : nblocks a ≤ nblocks b := by
  simp only [nblocks, BSIZE]
  omega

theorem nblocks_max (a b : Nat) : nblocks (max a b) = max (nblocks a) (nblocks b) := by
  simp only [nblocks, BSIZE]
  omega

variable {ino i₀ : Nat} {xs : List UInt8}

theorem Progress.limit (h : Progress v f ino off xs src i A k) : (A.ino ino).size ≤ MAXFILE * BSIZE :=
  (h.ready.sound.full ino h.ready.live).size

theorem Progress.advance {n₁ : Nat} {k' : Kstate} (h : Progress v f ino off xs src i A k) (hoff : off ≤ xs.length)
    (ha : Advanced v f ino n₁ (fun j => src (i + j)) A k A' k') : Progress v f ino off xs src (i + n₁) A' k' where
  ready := ha.ready
  offset := by
    rw [ha.off, h.offset]
    omega
  bytes := by
    rw [ha.bytes, h.bytes, h.offset]
    exact splice_splice hoff
  size := by
    rw [ha.size, h.size, h.offset]
    omega

theorem Enough.advance {n₁ n : Nat} {k' : Kstate} (h : Progress v f ino off xs src i A k)
    (ha : Advanced v f ino n₁ (fun j => src (i + j)) A k A' k') (hle : i + n₁ ≤ n)
      (hlim : off + i + n₁ ≤ MAXFILE * BSIZE)
    (he : Enough v A ino off n) : Enough v A' ino off n := by
  have hroom := ha.room
  have hsize := ha.size
  rw [h.offset] at hroom hsize
  unfold Enough at he ⊢
  rw [hsize]
  have hmax : max (max (A.ino ino).size (off + i + n₁)) (min (off + n) (MAXFILE * BSIZE)) =
      max (A.ino ino).size (min (off + n) (MAXFILE * BSIZE)) := by omega
  have hadd : need (nblocks (A.ino ino).size) (nblocks (max (A.ino ino).size (min (off + n) (MAXFILE * BSIZE)))) =
      need (nblocks (A.ino ino).size) (nblocks (max (A.ino ino).size (off + i + n₁))) +
        need (nblocks (max (A.ino ino).size (off + i + n₁)))
          (nblocks (max (A.ino ino).size (min (off + n) (MAXFILE * BSIZE)))) :=
    need_add (nblocks_mono (by omega)) (nblocks_mono (by omega))
  rw [hmax]
  omega

theorem Enough.suffices {n₁ n : Nat} (h : Progress v f ino off xs src i A k) (hle : i + n₁ ≤ n)
    (hlim : off + i + n₁ ≤ MAXFILE * BSIZE) (he : Enough v A ino off n) : Suffices v A ino (k.ftable f).off n₁ := by
  unfold Enough at he
  unfold Suffices
  rw [h.offset, ← nblocks_max]
  have hadd : need (nblocks (A.ino ino).size) (nblocks (max (A.ino ino).size (min (off + n) (MAXFILE * BSIZE)))) =
      need (nblocks (A.ino ino).size) (nblocks (max (A.ino ino).size (off + i + n₁))) +
        need (nblocks (max (A.ino ino).size (off + i + n₁)))
          (nblocks (max (A.ino ino).size (min (off + n) (MAXFILE * BSIZE)))) :=
    need_add (nblocks_mono (by omega)) (nblocks_mono (by omega))
  omega

/-- The loop of filewrite, from the middle: it writes the rest, or all chunks that fit in a file. -/
theorem loop_spec (hv : Usual v) (hoff : off ≤ xs.length) {fuel : Nat} (hfuel : n - i < fuel) (hle : i ≤ n)
    (h : Progress v f ino off xs src i A k) (he : Enough v A ino off n) :
    (filewrite.loop f src n fuel i k).Holds G
      (fun (r : Int) k' => if off + n ≤ MAXFILE * BSIZE then r = n ∧ ∃ A', Progress v f ino off xs src n A' k'
        else r = -1 ∧ off + i ≤ (k'.ftable f).off ∧
          (off + i + min (n - i) writeMax ≤ MAXFILE * BSIZE → off + i < (k'.ftable f).off))
      fun _ _ => False := by
  induction fuel generalizing i A k with
  | zero => omega
  | succ fuel ih =>
      have hsize := h.size
      have hlimit := h.limit
      unfold filewrite.loop
      by_cases hlt : i < n
      · rw [if_pos (by omega), holds_bind, holds_fetch]
        have hchunk : min ((n : Int).toNat - i) writeMax = min (n - i) writeMax := by rw [Int.toNat_natCast]
        have hpos : 0 < min (n - i) writeMax := by
          have : 0 < writeMax := by decide
          omega
        have hrefused : Refused (A.ino ino).size (k.ftable f).off (min (n - i) writeMax) ↔
            MAXFILE * BSIZE < off + i + min (n - i) writeMax := by
          have hsmall : MAXFILE * BSIZE < 2 ^ 32 := by decide
          have hw : writeMax ≤ 2 ^ 16 := by decide
          unfold Refused
          rw [h.offset]
          omega
        rw [hchunk]
        have hoff32 : (k.ftable f).off < 2 ^ 32 := by
          have hsmall : MAXFILE * BSIZE < 2 ^ 32 := by decide
          rw [h.offset]
          omega
        refine chunk_then hv h.ready hoff32 hpos (Nat.min_le_right _ _) (fun hr => ?_) _ (fun hr k' _ hsame => ?_)
          fun hr A' k' ha => ?_
        · rw [hrefused] at hr
          exact Enough.suffices h (by omega) (by omega) he
        · -- too large a file: the chunks before are written
          rw [hrefused] at hr
          rw [if_pos (by decide), holds_pure, if_neg (by omega), if_neg (by omega)]
          refine ⟨rfl, ?_, fun hfit => by omega⟩
          rw [hsame, h.offset]
        · rw [hrefused] at hr
          rw [if_neg (by omega), if_neg (by simp)]
          refine (ih (by omega) (by omega) (h.advance hoff ha) (Enough.advance h ha (by omega) (by omega) he)).mono ?_
            fun _ _ => id
          intro r k'' hk''
          by_cases hfit : off + n ≤ MAXFILE * BSIZE
          · rw [if_pos hfit] at hk'' ⊢
            exact hk''
          · rw [if_neg hfit] at hk'' ⊢
            exact ⟨hk''.1, by omega, fun _ => by omega⟩
      · have hin : i = n := by omega
        subst hin
        rw [if_neg (by omega), holds_pure, if_pos rfl, if_pos (by omega)]
        exact ⟨rfl, A, h⟩

/-- The result of one writei for all n bytes, with the bytes of the file and the offset afterwards. -/
def unchunked (xs : List UInt8) (off n : Nat) (src : Nat → UInt8) : Int × List UInt8 × Nat :=
  if Refused xs.length off n then (-1, xs, off) else (n, splice xs off n src, off + n)

/-- filewrite does what one writei would do. -/
structure Transparent (v : Volume) (A : Image) (k : Kstate) (f i n : Nat) (src : Nat → UInt8) : Prop where
  run : (filewrite f src n k).Holds (fun _ => True)
    (fun r k' => ∃ A', Sound v A' k'.fs ∧
      (r, contents A' i, (k'.ftable f).off) = unchunked (contents A i) (k.ftable f).off n src)
    fun _ _ => False

/-- No chunk is refused after another one has been written, and there is a chunk to be refused. -/
def Whole (size off n : Nat) : Prop :=
  if n = 0 then off ≤ size
  else size < off ∨ off + n ≤ MAXFILE * BSIZE ∨ MAXFILE * BSIZE < off + min n writeMax

theorem filewrite_eq (hR : Ready v A k f i) (n : Nat) {Q : Int → Kstate → Prop} {E : Stop → Kstate → Prop} :
    (filewrite f src n k).Holds G Q E ↔ (filewrite.loop f src n (n + 1) 0 k).Holds G Q E := by
  unfold filewrite
  rw [holds_bind, holds_fetch]
  simp only [hR.writable, hR.type, Int.toNat_natCast, not_true_eq_false, if_false]

theorem not_holds_both {α : Type} {r : Run Event Kstate α} {Q Q' : α → Kstate → Prop}
    (h : r.Holds (fun _ => True) Q fun _ _ => False)
    (h' : r.Holds (fun _ => True) Q' fun _ _ => False) (hne : ∀ a s, Q a s → Q' a s → False) : False := by
  cases r with
  | ok a s t => exact hne a s (h fun _ _ => trivial) (h' fun _ _ => trivial)
  | stop w s t => exact h fun _ _ => trivial

theorem length_contents (A : Image) (i : Nat) : (contents A i).length = (A.ino i).size := length_segment A i 0 _

theorem transparent_zero (hR : Ready v A k f i) (hoff : (k.ftable f).off < 2 ^ 32) :
    Transparent v A k f i 0 src ↔ (k.ftable f).off ≤ (A.ino i).size := by
  have hlimit := (hR.sound.full i hR.live).size
  have hsmall : MAXFILE * BSIZE < 2 ^ 32 := by decide
  have hrun : (filewrite f src (0 : Nat) k).Holds (fun _ => True) (fun r k' => r = 0 ∧ k' = k) fun _ _ => False := by
    rw [filewrite_eq hR]
    unfold filewrite.loop
    rw [if_neg (by simp), holds_pure, if_pos rfl]
    exact ⟨rfl, rfl⟩
  have hrefused : Refused (contents A i).length (k.ftable f).off 0 ↔ ¬(k.ftable f).off ≤ (A.ino i).size := by
    rw [length_contents]
    unfold Refused
    omega
  constructor
  · intro ht
    by_contra hgt
    refine not_holds_both ht.run hrun fun r k' hQ hr => ?_
    obtain ⟨A', -, he⟩ := hQ
    rw [unchunked, if_pos (hrefused.2 hgt), hr.1] at he
    cases he
  · intro hle
    refine ⟨hrun.mono (fun r k' hr => ⟨A, ?_, ?_⟩) fun _ _ => id⟩
    · rw [hr.2]
      exact hR.sound
    · rw [unchunked, if_neg (fun h => hrefused.1 h hle), splice_zero, hr.1, hr.2]
      rfl

theorem transparent_refused (hv : Usual v) (hR : Ready v A k f i) (hoff : (k.ftable f).off < 2 ^ 32) (hpos : 0 < n)
    (hr : Refused (A.ino i).size (k.ftable f).off (min n writeMax)) : Transparent v A k f i n src := by
  have hw : 0 < writeMax := by decide
  have hwhole : Refused (contents A i).length (k.ftable f).off n := by
    rw [length_contents]
    unfold Refused at hr ⊢
    omega
  constructor
  rw [filewrite_eq hR]
  unfold filewrite.loop
  rw [if_pos (by omega), holds_bind, holds_fetch]
  have hchunk : min ((n : Int).toNat - 0) writeMax = min n writeMax := by rw [Int.toNat_natCast, Nat.sub_zero]
  rw [hchunk]
  refine chunk_then hv hR hoff (by omega) (Nat.min_le_right _ _) (fun hn => absurd hr hn) _
    (fun _ k' hready hsame => ?_)
    fun hn => absurd hr hn
  rw [if_pos (by decide), holds_pure, if_neg (by omega)]
  refine ⟨A, hready.sound, ?_⟩
  rw [unchunked, if_pos hwhole, hsame]

theorem start_progress (src : Nat → UInt8) (hR : Ready v A k f i) (hle : (k.ftable f).off ≤ (A.ino i).size) :
    Progress v f i (k.ftable f).off (contents A i) src 0 A k :=
  ⟨hR, rfl, (splice_zero _ _ _).symm, by rw [length_contents]; omega⟩

theorem transparent_fits (hv : Usual v) (hR : Ready v A k f i) (hle : (k.ftable f).off ≤ (A.ino i).size)
    (hfit : (k.ftable f).off + n ≤ MAXFILE * BSIZE) (he : Enough v A i (k.ftable f).off n) :
      Transparent v A k f i n src := by
  have hsmall : MAXFILE * BSIZE < 2 ^ 32 := by decide
  have hloop := loop_spec (G := fun _ => True) hv (by rwa [length_contents]) (show n - 0 < n + 1 by omega)
    (Nat.zero_le n)
    (start_progress src hR hle) he
  rw [← filewrite_eq hR] at hloop
  refine ⟨hloop.mono (fun r k' hk' => ?_) fun _ _ => id⟩
  rw [if_pos hfit] at hk'
  obtain ⟨rfl, A', hdone⟩ := hk'
  refine ⟨A', hdone.ready.sound, ?_⟩
  have hgood : ¬Refused (contents A i).length (k.ftable f).off n := by
    rw [length_contents]
    unfold Refused
    omega
  rw [unchunked, if_neg hgood, hdone.bytes, hdone.offset]

/-- The first chunk is written and a later one refused: the offset moves, and the result is -1. -/
theorem not_transparent (hv : Usual v) (hR : Ready v A k f i) (hle : (k.ftable f).off ≤ (A.ino i).size)
    (hover : ¬(k.ftable f).off + n ≤ MAXFILE * BSIZE) (hfirst : (k.ftable f).off + min n writeMax ≤ MAXFILE * BSIZE)
    (he : Enough v A i (k.ftable f).off n) : ¬Transparent v A k f i n src := by
  have hloop := loop_spec (G := fun _ => True) hv (by rwa [length_contents]) (show n - 0 < n + 1 by omega)
    (Nat.zero_le n)
    (start_progress src hR hle) he
  rw [← filewrite_eq hR] at hloop
  intro ht
  refine not_holds_both ht.run hloop fun r k' hQ hk' => ?_
  rw [if_neg hover] at hk'
  obtain ⟨A', -, hsame⟩ := hQ
  have hbad : Refused (contents A i).length (k.ftable f).off n := by
    unfold Refused
    omega
  rw [unchunked, if_pos hbad] at hsame
  have hmoved := hk'.2.2 (by rw [Nat.add_zero, Nat.sub_zero]; exact hfirst)
  have hstay : (k'.ftable f).off = (k.ftable f).off := congrArg (fun x => x.2.2) hsame
  omega

theorem chunks_transparent_iff (hv : Usual v) (hR : Ready v A k f i) (hoff : (k.ftable f).off < 2 ^ 32)
    (src : Nat → UInt8)
    (hn : n < 2 ^ 31) (he : Enough v A i (k.ftable f).off n) :
    Transparent v A k f i n src ↔ Whole (A.ino i).size (k.ftable f).off n := by
  have hlimit := (hR.sound.full i hR.live).size
  have hsmall : MAXFILE * BSIZE < 2 ^ 31 := by decide
  unfold Whole
  by_cases hz : n = 0
  · subst hz
    rw [if_pos rfl]
    exact transparent_zero hR hoff
  · rw [if_neg hz]
    by_cases hr : Refused (A.ino i).size (k.ftable f).off (min n writeMax)
    · refine ⟨fun _ => ?_, fun _ => transparent_refused hv hR hoff (by omega) hr⟩
      unfold Refused at hr
      omega
    · unfold Refused at hr
      have hle : (k.ftable f).off ≤ (A.ino i).size := by omega
      by_cases hfit : (k.ftable f).off + n ≤ MAXFILE * BSIZE
      · exact ⟨fun _ => .inr (.inl hfit), fun _ => transparent_fits hv hR hle hfit he⟩
      · refine ⟨fun ht => (not_transparent hv hR hle hfit (by omega) he ht).elim, ?_⟩
        rintro (h | h | h)
        · omega
        · exact absurd h hfit
        · omega

/-- A volume of two hundred blocks, with eight inodes and a log of ten blocks. -/
def roomyVolume : Volume where
  sb := ⟨200, 185, 8, 10⟩
  disksize := 200
  fits := le_rfl
  small := by decide
  log := by decide
  order := by decide
  inodes := by decide
  root := by decide

/-- A regular file without bytes, which was unlinked while it was open. -/
def emptyFile : Dinode := ⟨T_FILE, 0, 0, 0, 0, fun _ => 0⟩

/-- The blocks of a file system with its root and that file. -/
def roomyBlocks : Nat → Block := fun b =>
  if b = 1 then Lib.Bytes.Mem.zero.setSlice 0
    (Lib.Bytes.leBytes 4 200 ++ Lib.Bytes.leBytes 4 185 ++ Lib.Bytes.leBytes 4 8 ++ Lib.Bytes.leBytes 4 10)
  else if b = 2 then setDinode (setDinode Lib.Bytes.Mem.zero ROOTINO DirectoryMap.rootDinode) 2 emptyFile
  else if b = 4 then Lib.Bytes.Mem.zero.setSlice 0 [63]
  else if b = 5 then Lib.Bytes.Mem.zero.setSlice 0 ((Namespace.dots ROOTINO ROOTINO).flatMap encodeDirent)
  else Lib.Bytes.Mem.zero

def roomyImage : Image where
  ino i := dinodeAt (roomyBlocks (IBLOCK i)) (i % IPB)
  used b := (roomyBlocks (BBLOCK b 8)).bit (b % BPB)
  data := roomyBlocks

/-- File 0 is open for writing on that file, and nothing else is going on. -/
def roomy : Kstate where
  mm := ⟨.zero, [], 0⟩
  fs := ⟨roomyBlocks, 200, [], [], ⟨190, 10, false, []⟩,
    fun ip => if ip = 0 then ⟨ROOTDEV, 2, 1, false, true, roomyImage.ino 2⟩ else ⟨0, 0, 0, false, false, emptyDinode⟩,
      []⟩
  ftable _ := ⟨.inode, 1, true, true, 0, 0, 0⟩
  pipes _ := ⟨fun _ => 0, 0, 0, false, false⟩
  procs _ := ⟨0, 0, 0, .unused, 0, none, ArmXv6.Proc.zeroTf, false, fun _ => none, none, []⟩
  nextpid := 1
  initproc := 0
  cur := 0
  exstacks := []
  piped _ := 0
  unpiped _ := 0

theorem live_roomy (i : Nat) : Live roomyVolume roomyImage i ↔ i = 1 ∨ i = 2 := by
  have h : ∀ i < 8, (roomyImage.ino i).type ≠ 0 ↔ i = 1 ∨ i = 2 := by decide +kernel
  constructor
  · rintro ⟨hi, ht⟩
    exact (h i hi).mp ht
  · intro hi
    have hlt : i < 8 := by omega
    exact ⟨hlt, (h i hlt).mpr hi⟩

theorem slot_roomy {i : Nat} (hi : i = 1 ∨ i = 2) (k : Nat) : slot roomyImage i k = if i = 1 ∧ k = 0 then 5 else 0 := by
  have h : ∀ i < 3, 0 < i → ∀ k ≤ NDIRECT, (roomyImage.ino i).addrs k = if i = 1 ∧ k = 0 then 5 else 0 := by
    decide +kernel
  have h₁ := fun k hk => h i (by omega) (by omega) k hk
  unfold slot
  by_cases hk : k ≤ NDIRECT
  · rw [if_pos hk, h₁ k hk]
  · have h12 : NDIRECT = 12 := rfl
    have hz : (roomyImage.ino i).addrs NDIRECT = 0 := by
      rw [h₁ NDIRECT le_rfl, if_neg (by omega)]
    rw [if_neg hk, if_pos (.inl hz), if_neg (by omega)]

theorem owns_roomy : Owns roomyVolume roomyImage ∅ ∅ where
  din i _ := dinodeAt_ok _ _
  range i k hl _ hk := by
    rw [slot_roomy ((live_roomy i).mp hl)] at hk ⊢
    split at hk
    case isTrue h0 => rw [if_pos h0]; decide
    case isFalse => exact absurd rfl hk
  inj i j k l hi _ hj _ hk he := by
    rw [slot_roomy ((live_roomy i).mp hi)] at hk he
    rw [slot_roomy ((live_roomy j).mp hj)] at he
    split at hk
    case isTrue h0 =>
      rw [if_pos h0] at he
      split at he
      case isTrue h1 => omega
      case isFalse => omega
    case isFalse => exact absurd rfl hk
  loose b hb := absurd hb (Set.notMem_empty b)
  used b hb := by
    have h : ∀ b < 200, roomyImage.used b = true ↔ b < 6 := by decide +kernel
    rw [h b hb]
    constructor
    · intro hlt
      rcases Nat.lt_or_ge b 5 with h5 | h5
      · exact .inl h5
      · refine .inr (.inr ⟨1, 0, (live_roomy _).mpr (.inl rfl), Set.notMem_empty _, ?_⟩)
        rw [slot_roomy (.inl rfl), if_pos ⟨rfl, rfl⟩]
        omega
    · rintro (h5 | hb | ⟨i, k, hl, -, he⟩)
      · exact Nat.lt_succ_of_lt h5
      · exact absurd hb (Set.notMem_empty b)
      · rw [slot_roomy ((live_roomy i).mp hl)] at he
        split at he <;> omega

theorem full_roomy {i : Nat} (hi : i = 1 ∨ i = 2) : Full roomyImage i := by
  have hsize : ∀ i < 3, 0 < i → (roomyImage.ino i).size = if i = 1 then 32 else 0 := by decide +kernel
  have hs := hsize i (by omega) (by omega)
  have h12 : NDIRECT = 12 := rfl
  have hslot : ∀ n, bslot n = 0 ↔ n = 0 := by
    intro n
    unfold bslot
    by_cases hn : n < NDIRECT
    · rw [if_pos hn]
    · rw [if_neg hn]
      omega
  refine ⟨?_, fun n _ => ?_, ?_⟩
  · rw [hs]
    rcases hi with rfl | rfl <;> decide
  · rw [slot_roomy hi, hs]
    rcases hi with rfl | rfl
    · change _ ↔ n < 1
      simp only [hslot, true_and]
      split <;> omega
    · change _ ↔ n < 0
      simp
  · rw [slot_roomy hi, hs]
    rcases hi with rfl | rfl <;> decide

theorem ready_roomy : Ready roomyVolume roomyImage roomy 0 2 where
  sound := by
    have hcache : ∀ ip, 0 < (roomy.fs.icache ip).ref → ip = 0 := by
      intro ip hr
      by_contra hne
      simp [roomy, hne] at hr
    refine ⟨⟨⟨rfl, rfl, rfl, by decide, by simp [roomy], by decide, by simp [roomy], .refl _⟩, ⟨?_, ?_, ?_, ?_⟩,
      ⟨?_, ?_, ?_⟩⟩,
      owns_roomy, fun i hl => full_roomy ((live_roomy i).mp hl), ?_⟩
    · decide +kernel
    · exact fun _ _ _ => rfl
    · exact fun _ _ => rfl
    · exact fun _ _ _ => rfl
    · intro ip _ hr
      obtain rfl := hcache ip hr
      decide +kernel
    · intro ip _ jp _ hr hr' _
      rw [hcache ip hr, hcache jp hr']
    · intro ip _ hr _
      obtain rfl := hcache ip hr
      rfl
    · intro ip _ hr _
      obtain rfl := hcache ip hr
      exact (live_roomy _).mpr (.inr rfl)
  held := rfl
  log := rfl
  idle := rfl
  type := rfl
  writable := rfl
  index := by decide
  ref := by decide
  free := rfl
  inum := rfl
  live := (live_roomy 2).mpr (.inr rfl)
  kind := by
    have ht : (roomyImage.ino 2).type = T_FILE := by decide +kernel
    rw [ht]
    decide

theorem usual_roomy : Usual roomyVolume := ⟨rfl, by decide⟩

theorem size_roomy : (roomyImage.ino 2).size = 0 := by decide +kernel

theorem enough_roomy {n : Nat} (hn : n ≤ 80000) : Enough roomyVolume roomyImage 2 0 n := by
  have hfree : freeCount roomyVolume roomyImage = 184 := by decide +kernel
  unfold Enough
  rw [hfree, size_roomy]
  have hle : nblocks (max 0 (min (0 + n) (MAXFILE * BSIZE))) ≤ 140 := by
    have hm : MAXFILE * BSIZE = 71680 := rfl
    rw [hm]
    simp only [nblocks, BSIZE]
    omega
  unfold need
  split <;> omega

theorem chunks_transparent_iff_small : Transparent roomyVolume roomyImage roomy 0 2 5000 (fun _ => 7) := by
  refine (chunks_transparent_iff usual_roomy ready_roomy (by decide) (fun _ => 7) (by decide)
    (enough_roomy (by decide))).2 ?_
  rw [size_roomy]
  exact .inr (.inl (by decide))

/-- One byte more than a file can have, for an empty file. -/
theorem too_long_not_transparent :
    Usual roomyVolume ∧ Ready roomyVolume roomyImage roomy 0 2 ∧ Enough roomyVolume roomyImage 2 0 71681 ∧
    ¬Transparent roomyVolume roomyImage roomy 0 2 71681 (fun _ => 7) := by
  refine ⟨usual_roomy, ready_roomy, enough_roomy (by decide), ?_⟩
  refine not_transparent usual_roomy ready_roomy ?_ (by decide) (by decide) (enough_roomy (by decide))
  exact Nat.zero_le _

end ArmXv6.Chunks
