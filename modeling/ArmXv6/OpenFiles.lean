import ArmXv6.Chunks
import ArmXv6.CreateSpecs
import ArmXv6.References

namespace ArmXv6.OpenFiles

open Lib.Exec Lib.Bytes Lib.Count Param Blocks Fs Content Sysfile Vm Kernel DiskImage BlockSpecs BlockAlloc Ownership
  BlockMap FileData InodeSpecs Directory PathWalk SysfileSpecs FileRefs Chunks

/-- A run is looked at when it returns and every allocation in it finds a free block below the log. -/
abbrev Ran {σ α : Type} (r : Run Event σ α) (Q : α → σ → Prop) : Prop := r.Holds Roomy Q fun _ _ => True

/-- Where every stop is tolerated. -/
abbrev any : Stop → Prop := fun _ => True

theorem lenient_any : Lenient any := fun _ _ => trivial

theorem tolerant_any : Tolerant Roomy any := ⟨lenient_any, fun _ => id⟩

theorem ran_of_holds {σ α : Type} {G : Event → Prop} {r : Run Event σ α} {Q : α → σ → Prop} {E : Stop → σ → Prop}
    (h : r.Holds (fun _ => True) Q E) : r.Holds G Q fun _ _ => True := by
  cases r with
  | ok a s t => exact fun _ => h fun _ _ => trivial
  | stop => exact fun _ => trivial

/-- What code of the file system leaves behind when it has taken the references L. -/
structure Served (v : Volume) (A : Image) (fs : Fs) (L : List Nat) (A' : Image) (fs' : Fs) : Prop where
  sane : Sane v A' fs'
  refs : Refs fs fs' L
  type : ∀ j, Live v A j → Held fs j → (A'.ino j).type = (A.ino j).type

variable {v : Volume} {A A' A'' : Image} {fs fs' fs'' : Fs} {k k' : Kstate} {ip i f : Nat} {b : Bool} {L M : List Nat}
  {G : Event → Prop}

theorem Served.refl (h : Sane v A fs) : Served v A fs [] A fs := ⟨h, Refs.refl fs, fun _ _ _ => rfl⟩

theorem served_same (h : Sane v A fs) (hs : Sound v A fs') (hr : Refs fs fs' L) : Served v A fs L A fs' :=
  ⟨⟨hs, h.tidy, h.anchored.refs hr⟩, hr, fun _ _ _ => rfl⟩

/-- The file system between two steps of the kernel, with the log busy or not, and what the file
table knows of it: no more files keep a cache entry than it has references, an open inode is
valid in the cache, and a directory is not open for writing. -/
structure Fine (v : Volume) (A : Image) (b : Bool) (k : Kstate) : Prop where
  sane : Sane v A k.fs
  busy : k.fs.log.busy = b
  closed : ∀ f < NFILE, (k.ftable f).ref = 0 → (k.ftable f).type = .none
  bound : ∀ i < NINODE, fileUsers k i ≤ (k.fs.icache i).ref
  index : ∀ f < NFILE, (k.ftable f).type = .inode → (k.ftable f).ip < NINODE ∧ (k.ftable f).off < 2 ^ 32
  valid : ∀ f < NFILE, (k.ftable f).type = .inode → (k.fs.icache (k.ftable f).ip).valid = true
  writable : ∀ f < NFILE, (k.ftable f).type = .inode → (k.ftable f).writable = true →
    (A.ino (k.fs.icache (k.ftable f).ip).inum).type ≠ T_DIR

theorem Fine.pos (h : Fine v A b k) (hf : f < NFILE) (ht : (k.ftable f).type = .inode) : 0 < (k.ftable f).ref := by
  rw [Nat.pos_iff_ne_zero]
  intro hz
  have := h.closed f hf hz
  rw [ht] at this
  cases this

theorem Fine.users_pos (h : Fine v A b k) (hf : f < NFILE) (ht : (k.ftable f).type = .inode) :
    0 < fileUsers k (k.ftable f).ip := countP_range_pos hf (by simp [h.pos hf ht, ht])

theorem Fine.ref (h : Fine v A b k) (hf : f < NFILE) (ht : (k.ftable f).type = .inode) :
    0 < (k.fs.icache (k.ftable f).ip).ref :=
  (h.users_pos hf ht).trans_le (h.bound _ (h.index f hf ht).1)

theorem Fine.cached (h : Fine v A b k) (hf : f < NFILE) (ht : (k.ftable f).type = .inode) :
    Cached v A k.fs (k.ftable f).ip (k.fs.icache (k.ftable f).ip).inum :=
  ⟨(h.index f hf ht).1, h.ref hf ht, h.valid f hf ht, rfl,
    h.sane.sound.live _ (h.index f hf ht).1 (h.ref hf ht) (h.valid f hf ht)⟩

theorem Fine.congr (h : Fine v A b k) (hf : k'.ftable = k.ftable) (hfs : k'.fs = k.fs) : Fine v A b k' := by
  have hu : fileUsers k' = fileUsers k := fileUsers_congr hf
  refine ⟨hfs ▸ h.sane, hfs ▸ h.busy, ?_, ?_, ?_, ?_, ?_⟩
  · rw [hf]; exact h.closed
  · rw [hu, hfs]; exact h.bound
  · rw [hf]; exact h.index
  · rw [hf, hfs]; exact h.valid
  · rw [hf, hfs]; exact h.writable

theorem Fine.served {b' : Bool} (h : Fine v A b k) (hs : Served v A k.fs L A' fs') (hb : fs'.log.busy = b') :
    Fine v A' b' { k with fs := fs' } := by
  refine ⟨hs.sane, hb, h.closed, fun i hi => ?_, h.index, fun f hf ht => ?_, fun f hf ht hw => ?_⟩
  · change _ ≤ (fs'.icache i).ref
    rw [hs.refs.ref i hi]
    exact (h.bound i hi).trans (Nat.le_add_right _ _)
  · exact (hs.refs.keep _ (h.index f hf ht).1 (h.ref hf ht)).2 (h.valid f hf ht)
  · have hc := h.cached hf ht
    change (A'.ino (fs'.icache (k.ftable f).ip).inum).type ≠ T_DIR
    rw [(hs.refs.keep _ hc.index hc.ref).1, hs.type _ hc.live ⟨_, hc.index, hc.ref, rfl⟩]
    exact h.writable f hf ht hw

theorem Fine.dropped (h : Fine v A b k) (hip : ip < NINODE) (hu : fileUsers k ip < (k.fs.icache ip).ref)
    (hd : Dropped v A k.fs ip fs' A') : Fine v A' b { k with fs := fs' } := by
  have hpos : 0 < (k.fs.icache ip).ref := by omega
  have hmore : ∀ f < NFILE, (k.ftable f).type = .inode → (k.ftable f).ip = ip → 1 < (k.fs.icache ip).ref := by
    intro f hf ht e
    have := h.users_pos hf ht
    rw [e] at this
    omega
  refine ⟨sane_dropped h.sane hip hpos hd, hd.busy.trans h.busy, h.closed, fun i hi => ?_, h.index, fun f hf ht => ?_,
    fun f hf ht hw => ?_⟩
  · change fileUsers k i ≤ (fs'.icache i).ref
    by_cases e : i = ip
    · subst e
      rw [hd.ref]
      omega
    · rw [hd.others i e]
      exact h.bound i hi
  · change (fs'.icache (k.ftable f).ip).valid = true
    by_cases e : (k.ftable f).ip = ip
    · rw [e, (hd.keep (hmore f hf ht e)).2, ← e]
      exact h.valid f hf ht
    · rw [hd.others _ e]
      exact h.valid f hf ht
  · have hc := h.cached hf ht
    have hinum : (fs'.icache (k.ftable f).ip).inum = (k.fs.icache (k.ftable f).ip).inum := by
      by_cases e : (k.ftable f).ip = ip
      · rw [e, (hd.keep (hmore f hf ht e)).1]
      · rw [hd.others _ e]
    have htype :
        (A'.ino (k.fs.icache (k.ftable f).ip).inum).type = (A.ino (k.fs.icache (k.ftable f).ip).inum).type := by
      by_cases hl : Last k.fs ip
      · have hne : (k.fs.icache (k.ftable f).ip).inum ≠ (k.fs.icache ip).inum := by
          intro e
          have e' := h.sane.sound.rep.cache.inj _ hc.index ip hip hc.ref hpos e
          have := hmore f hf ht e'
          have := hl.1
          omega
        rw [(hd.freed hl).2, Function.update_of_ne hne]
      · rw [hd.same hl]
    change (A'.ino (fs'.icache (k.ftable f).ip).inum).type ≠ T_DIR
    rw [hinum, htype]
    exact h.writable f hf ht hw

theorem Fine.withFile {x : File} (h : Fine v A b k) (hf : f < NFILE) (hclosed : x.ref = 0 → x.type = .none)
    (hnew : x.type = .inode → (k.ftable f).type = .inode ∧ (k.ftable f).ip = x.ip ∧
      (x.writable → (k.ftable f).writable) ∨
      Cached v A k.fs x.ip (k.fs.icache x.ip).inum ∧ fileUsers k x.ip < (k.fs.icache x.ip).ref ∧
        (x.writable = true → (A.ino (k.fs.icache x.ip).inum).type ≠ T_DIR))
    (hoff : x.type = .inode → x.off < 2 ^ 32) : Fine v A b (withFile k f x) := by
  have hindex : x.type = .inode → x.ip < NINODE := by
    intro ht
    rcases hnew ht with ⟨h₁, h₂, -⟩ | ⟨hc, -⟩
    · exact h₂ ▸ (h.index f hf h₁).1
    · exact hc.index
  refine ⟨h.sane, h.busy, fun g hg => ?_, fun i hi => ?_, fun g hg => ?_, fun g hg => ?_, fun g hg => ?_⟩
  · rw [ftable_withFile]
    split
    case isTrue => exact hclosed
    case isFalse => exact h.closed g hg
  · have hcount := fileUsers_withFile (k := k) hf x i
    have hold := h.bound i hi
    change fileUsers (FileRefs.withFile k f x) i ≤ (k.fs.icache i).ref
    cases hk : Keeps x i with
    | false => rw [hk] at hcount; simp only [Bool.false_eq_true, if_false] at hcount; omega
    | true =>
        rw [hk, if_pos rfl] at hcount
        unfold Keeps at hk
        simp only [decide_eq_true_eq] at hk
        obtain ⟨-, ht, rfl⟩ := hk
        rcases hnew ht with ⟨h₁, h₂, -⟩ | ⟨-, h₂, -⟩
        · rw [if_pos (by simp [Keeps, h.pos hf h₁, h₁, h₂])] at hcount
          omega
        · omega
  · rw [ftable_withFile]
    split
    case isTrue => exact fun ht => ⟨hindex ht, hoff ht⟩
    case isFalse => exact h.index g hg
  · rw [ftable_withFile]
    split
    case isTrue =>
        intro ht
        rcases hnew ht with ⟨h₁, h₂, -⟩ | ⟨hc, -⟩
        · exact h₂ ▸ h.valid f hf h₁
        · exact hc.valid
    case isFalse => exact h.valid g hg
  · rw [ftable_withFile]
    split
    case isTrue =>
        intro ht hw
        rcases hnew ht with ⟨h₁, h₂, h₃⟩ | ⟨-, -, h₃⟩
        · exact h₂ ▸ h.writable f hf h₁ (h₃ hw)
        · exact h₃ hw
    case isFalse => exact h.writable g hg

theorem ran_onMm {α : Type} {m : MmM α} {Q : α → Kstate → Prop} (hq : ∀ a mm, Q a { k with mm := mm }) :
    (onMm m k).Holds G Q fun _ _ => True := by
  unfold onMm
  rw [holds_zoom]
  cases m k.mm with
  | ok a mm t => exact fun _ => hq a mm
  | stop => exact fun _ => trivial

theorem consoleread_loop_spec (n : Nat) (acc : List UInt8) :
    (consoleread.loop n acc fs).Holds G (fun _ fs' => ∃ inp, fs' = { fs with input := inp }) fun _ _ => True := by
  induction n generalizing fs acc with
  | zero =>
      unfold consoleread.loop
      rw [holds_pure]
      exact ⟨fs.input, rfl⟩
  | succ n ih =>
      unfold consoleread.loop
      rw [holds_bind, holds_fetch]
      cases hin : fs.input with
      | nil => dsimp only; rw [holds_sleep]; trivial
      | cons c rest =>
          cases c with
          | none =>
              dsimp only
              rw [holds_bind, holds_update, holds_pure]
              exact ⟨rest, rfl⟩
          | some c =>
              dsimp only
              rw [holds_ite]
              refine ⟨fun _ => ?_, fun _ => ?_⟩
              · rw [holds_bind, holds_ite]
                refine ⟨fun _ => ?_, fun _ => ?_⟩
                · rw [holds_update, holds_pure]
                  exact ⟨rest, rfl⟩
                · rw [holds_pure, holds_pure]
                  exact ⟨fs.input, rfl⟩
              · rw [holds_bind, holds_update, holds_ite]
                refine ⟨fun _ => ?_, fun _ => ?_⟩
                · rw [holds_pure]
                  exact ⟨rest, rfl⟩
                · refine (ih _).mono ?_ fun _ _ => id
                  rintro _ _ ⟨inp, rfl⟩
                  exact ⟨inp, rfl⟩

/-- Nothing is written, to the blocks or to the log. -/
structure Unwritten (fs fs' : Fs) : Prop where
  blk : fs'.blk = fs.blk
  log : fs'.log = fs.log

theorem Unwritten.refl (fs : Fs) : Unwritten fs fs := ⟨rfl, rfl⟩

theorem Unwritten.trans (h : Unwritten fs fs') (h' : Unwritten fs' fs'') : Unwritten fs fs'' :=
  ⟨h'.blk.trans h.blk, h'.log.trans h.log⟩

theorem Unwritten.busy (h : Unwritten fs fs') : fs'.log.busy = fs.log.busy := congrArg (·.busy) h.log

theorem unwritten_putInode (fs : Fs) (ip : Nat) (x : Inode) : Unwritten fs (putInode fs ip x) := ⟨rfl, rfl⟩

/-- What a read or the console driver leaves of a locked inode. -/
structure Looked (v : Volume) (A : Image) (fs : Fs) (ip i : Nat) (fs' : Fs) : Prop where
  sound : Sound v A fs'
  refs : Refs fs fs' []
  cached : Cached v A fs' ip i
  unwritten : Unwritten fs fs'

theorem relock_spec {α : Type} {m : FsM α} (h : Sound v A fs) (hc : Cached v A fs ip i)
    (hm : ∀ fs, (m fs).Holds G (fun _ fs' => ∃ inp, fs' = { fs with input := inp }) fun _ _ => True) :
    ((do iunlock ip; let a ← m; ilock ip; pure a : FsM α) fs).Holds G (fun _ fs' => Looked v A fs ip i fs') fun _ _ =>
      True := by
  rw [holds_bind]
  refine (iunlock_spec h lenient_any hc.index).mono ?_ fun _ _ => id
  rintro _ fs₁ ⟨-, hs₁, hr₁, rfl⟩
  rw [holds_bind]
  refine (hm _).mono ?_ fun _ _ => id
  rintro a _ ⟨inp, rfl⟩
  have hs₂ : Sound v A { putInode fs ip { fs.icache ip with busy := false } with input := inp } :=
    Sound.sameDisk hs₁ ⟨hs₁.rep.log.disksize, hs₁.rep.log.start, hs₁.rep.log.size, hs₁.rep.log.nodup, hs₁.rep.log.below,
      hs₁.rep.log.length, hs₁.rep.log.synced, hs₁.rep.log.dirty⟩ rfl fun _ _ => rfl
  have hsame : Refs (putInode fs ip { fs.icache ip with busy := false })
      { putInode fs ip { fs.icache ip with busy := false } with input := inp } [] := refs_sameCache rfl
  have hr₂ := hr₁.trans hsame
  have hc₂ := cached_refs hc hr₂
  rw [holds_bind]
  refine (ilock_spec hs₂ lenient_any hc.index (.inl trivial)).mono ?_ fun _ _ => id
  rintro _ fs₃ ⟨-, hc₃, hs₃, hr₃, x, rfl, -⟩
  rw [hc₂.inum] at hc₃
  rw [holds_pure]
  exact ⟨hs₃, hr₂.trans hr₃, hc₃, rfl, rfl⟩

theorem looked_refl (h : Sound v A fs) (hc : Cached v A fs ip i) : Looked v A fs ip i fs :=
  ⟨h, Refs.refl fs, hc, .refl fs⟩

theorem readi_any (h : Sound v A fs) (hc : Cached v A fs ip i) (off : Nat) {n : Nat} (hn : n < 2 ^ 32) :
    (readi ip off n fs).Holds G (fun _ fs' => Looked v A fs ip i fs') fun _ _ => True := by
  have hdin := hc.din h.rep
  by_cases hdev : (A.ino i).type = T_DEV
  · unfold readi
    rw [holds_bind, holds_fetch, hdin, if_pos hdev, holds_ite]
    refine ⟨fun _ => ?_, fun _ => by rw [holds_pure]; exact looked_refl h hc⟩
    have hread := relock_spec (G := G) h hc fun fs => consoleread_loop_spec (sint n).toNat []
    unfold consoleread at *
    simp only [holds_bind, holds_pure] at hread ⊢
    exact hread
  · by_cases hoff : off < 2 ^ 32
    · refine (readi_spec h.rep h.owns hc (Set.notMem_empty _) (h.full i hc.live) hdev (.inl lenient_any) hoff hn).mono
        ?_
        fun _ _ => id
      rintro _ _ ⟨rfl, -⟩
      exact looked_refl h hc
    · have hsize := (h.owns.din i hc.live.1).size
      unfold readi
      rw [holds_bind, holds_fetch, hdin, if_neg hdev, if_pos (.inl (by omega)), holds_pure]
      exact looked_refl h hc

theorem writei_any (h : Sane v A fs) (hc : Cached v A fs ip i) (hdir : (A.ino i).type ≠ T_DIR)
    (hbusy : fs.log.busy = true)
    (src : Nat → UInt8) {off n : Nat} (hoff : off < 2 ^ 32) (hn : n < 2 ^ 32) :
    Ran (writei ip src off n fs) fun _ fs' => ∃ A', Served v A fs [] A' fs' ∧ fs'.log.busy = true := by
  have hdin := hc.din h.sound.rep
  by_cases hdev : (A.ino i).type = T_DEV
  · unfold writei Ran
    rw [holds_bind, holds_fetch, hdin, if_pos hdev, holds_ite]
    refine ⟨fun _ => ?_, fun _ => by rw [holds_pure]; exact ⟨A, Served.refl h, hbusy⟩⟩
    have hrelock := relock_spec (G := Roomy) (m := (pure () : FsM Unit)) h.sound hc fun fs => by
      rw [holds_pure]
      exact ⟨fs.input, rfl⟩
    unfold consolewrite at *
    simp only [holds_bind, holds_pure] at hrelock ⊢
    refine hrelock.mono (fun _ fs₁ h₁ => h₁.mono (fun _ fs₂ h₂ => ?_) fun _ _ => id) fun _ _ => id
    exact ⟨A, served_same h h₂.sound h₂.refs, h₂.unwritten.busy.trans hbusy⟩
  · refine (writei_spec src h.sound.rep h.sound.owns hc (Set.notMem_empty _) (h.sound.full i hc.live) hdev hbusy hoff hn
      (.inl tolerant_any)).mono ?_ fun _ _ => id
    intro r fs' hw
    split at hw
    case isTrue =>
        obtain ⟨-, rfl⟩ := hw
        exact ⟨A, Served.refl h, hbusy⟩
    case isFalse =>
        obtain ⟨-, A', hw⟩ := hw
        obtain ⟨g, hino⟩ := hw.ino
        have htype : (A'.ino i).type = (A.ino i).type := by rw [hino]
        have hs := sound_written h.sound hc hw
        have htidy : Tidy v A' := tidy_frame h.sound h.tidy hw.frame fun _ hd => absurd (htype ▸ hd) hdir
        refine ⟨A', ⟨⟨hs, htidy, Anchored.edits h.anchored hc hw.edits hw.frame.ino⟩, refs_edits hw.edits,
          fun j _ _ => ?_⟩,
          hw.edits.busy.trans hbusy⟩
        by_cases e : j = i
        · rw [e, htype]
        · rw [hw.frame.ino j e]

end ArmXv6.OpenFiles
