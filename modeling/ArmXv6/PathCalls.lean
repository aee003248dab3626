import ArmXv6.OpenCalls

namespace ArmXv6.PathCalls

open Lib.Exec Lib.Bytes Lib.Count Param Blocks Fs Content Sysfile Vm Kernel Proc Exec Descriptors Syscall
  DiskImage BlockSpecs
  BlockAlloc Ownership BlockMap FileData InodeSpecs Namespace Directory PathWalk SysfileSpecs CreateSpecs
    FileRefs CallRefs
  ProcRefs References Chunks FileAccess OpenFiles OpenCalls

variable {t : Prop} {v : Volume} {A A' : Image} {fs fs' : Fs} {k k' : Kstate} {ip i f p np cwd : Nat}
  {b : Bool} {L : List Nat}
  {G : Event → Prop}

/-- The running call has a reference of its own to the entry ip. -/
def Spare (k : Kstate) (ip : Nat) : Prop := ip < NINODE ∧ fileUsers k ip < (k.fs.icache ip).ref

/-- The running call works on an inode that it has locked. -/
def Working (v : Volume) (ip : Nat) (k : Kstate) : Prop :=
  ∃ A, Fine v A false k ∧ Spare k ip ∧ Cached v A k.fs ip (k.fs.icache ip).inum

theorem Working.congr (h : Working v ip k) (hf : k'.ftable = k.ftable) (hfs : k'.fs = k.fs) : Working v ip k' := by
  obtain ⟨A, h, hs, hc⟩ := h
  refine ⟨A, h.congr hf hfs, ?_, hfs ▸ hc⟩
  rw [Spare, fileUsers_congr hf, hfs]
  exact hs

theorem Spare.refs (h : Spare k ip) (hr : Refs k.fs fs' L) : Spare { k with fs := fs' } ip := by
  refine ⟨h.1, ?_⟩
  change fileUsers k ip < (fs'.icache ip).ref
  rw [hr.ref ip h.1]
  exact Nat.lt_add_right _ h.2

theorem spare_taken (hu : fileUsers k ip ≤ (fs.icache ip).ref) (hr : Refs fs fs' [ip]) (hip : ip < NINODE) :
    Spare { k with fs := fs' } ip := by
  refine ⟨hip, ?_⟩
  change fileUsers k ip < (fs'.icache ip).ref
  rw [hr.ref ip hip, List.count_singleton_self]
  exact Nat.lt_succ_of_le hu

theorem ilock_fine (h : Fine v A b k) (hip : ip < NINODE) :
    (ilock ip k.fs).Holds G (fun _ fs' => Fine v A b { k with fs := fs' } ∧ Cached v A fs' ip (k.fs.icache ip).inum ∧
      Refs k.fs fs' [] ∧ Unwritten k.fs fs') fun _ _ => True := by
  refine (ilock_spec h.sane.sound lenient_any hip (.inl trivial)).mono ?_ fun _ _ => id
  rintro _ fs' ⟨-, hc, hsound, hr, x, hx, -⟩
  have hw : Unwritten k.fs fs' := by rw [hx]; exact unwritten_putInode _ _ _
  exact ⟨h.served (served_same h.sane hsound hr) (hw.busy.trans h.busy), hc, hr, hw⟩

theorem ilock_working (h : Fine v A false k) (hs : Spare k ip) :
    Ran (ilock ip k.fs) fun _ fs' => Working v ip { k with fs := fs' } ∧ Refs k.fs fs' [] := by
  refine (ilock_fine h hs.1).mono ?_ fun _ _ => id
  rintro _ fs' ⟨hf, hc, hr, -⟩
  have hinum : (fs'.icache ip).inum = (k.fs.icache ip).inum := hc.inum
  exact ⟨⟨A, hf, hs.refs hr, hinum ▸ hc⟩, hr⟩

theorem iunlock_fine (h : Fine v A b k) (hip : ip < NINODE) :
    (iunlock ip k.fs).Holds G (fun _ fs' => Fine v A b { k with fs := fs' } ∧ Refs k.fs fs' [] ∧ Unwritten k.fs fs')
      fun _ _ => True := by
  refine (iunlock_spec h.sane.sound lenient_any hip).mono ?_ fun _ _ => id
  rintro _ fs' ⟨-, hsound, hr, hx⟩
  have hw : Unwritten k.fs fs' := by rw [hx]; exact unwritten_putInode _ _ _
  exact ⟨h.served (served_same h.sane hsound hr) (hw.busy.trans h.busy), hr, hw⟩

theorem readi_fine (h : Fine v A b k) (hc : Cached v A k.fs ip i) (off : Nat) {n : Nat} (hn : n < 2 ^ 32) :
    (readi ip off n k.fs).Holds G (fun _ fs' => Fine v A b { k with fs := fs' } ∧ Cached v A fs' ip i ∧
      Refs k.fs fs' [] ∧
      Unwritten k.fs fs') fun _ _ => True := by
  refine (readi_any h.sane.sound hc off hn).mono ?_ fun _ _ => id
  intro _ fs' hl
  exact ⟨h.served (served_same h.sane hl.sound hl.refs) (hl.unwritten.busy.trans h.busy), hl.cached, hl.refs,
    hl.unwritten⟩

theorem readi_working (h : Working v ip k) (off : Nat) {n : Nat} (hn : n < 2 ^ 32) :
    Ran (readi ip off n k.fs) fun _ fs' => Working v ip { k with fs := fs' } := by
  obtain ⟨A, h, hs, hc⟩ := h
  refine (readi_fine h hc off hn).mono ?_ fun _ _ => id
  rintro _ fs' ⟨hf, hc', hr, -⟩
  have hinum : (fs'.icache ip).inum = (k.fs.icache ip).inum := hc'.inum
  exact ⟨A, hf, hs.refs hr, hinum ▸ hc'⟩

theorem iput_good (h : Good v k) (hs : Spare k ip) : Ran (iput ip k.fs) fun _ fs' => Good v { k with fs := fs' } := by
  obtain ⟨A, h⟩ := h
  refine (iput_spec h.sane.sound lenient_any hs.1 (.inr (.inr fun _ => trivial))).mono ?_ fun _ _ => id
  rintro _ fs' ⟨A', hd⟩
  exact ⟨A', Fine.dropped h hs.1 hs.2 hd⟩

theorem iunlockput_good (h : Good v k) (hs : Spare k ip) :
    Ran (iunlockput ip k.fs) fun _ fs' => Good v { k with fs := fs' } := by
  obtain ⟨A, h⟩ := h
  refine (iunlockput_spec h.sane.sound lenient_any hs.1 (.inr (.inr fun _ => trivial))).mono ?_ fun _ _ => id
  rintro _ fs' ⟨A', hd⟩
  exact ⟨A', Fine.dropped h hs.1 hs.2 hd⟩

theorem caller_cwd (hb : Between t k) (hr : Running k) (A : Image) :
    Caller v A any k.fs ((k.procs k.cur).cwd.getD 0) := by
  obtain ⟨i, hi⟩ := Option.ne_none_iff_exists'.mp ((hb.procs _ hr.cur).home hr.unused hr.embryo hr.zombie)
  have hlt := (hb.procs _ hr.cur).cwd i hi
  have hpos := procUsers_pos hr.cur hr.unused hr.zombie hi
  have href := hb.at.ref i hlt
  rw [hi]
  refine ⟨hlt, ?_, .inl trivial⟩
  unfold users at href
  change 0 < (k.fs.icache i).ref
  omega

theorem spare_cwd (hb : Between t k) (hr : Running k) (hi : (k.procs k.cur).cwd = some i) : Spare k i := by
  have hlt := (hb.procs _ hr.cur).cwd i hi
  have hpos := procUsers_pos hr.cur hr.unused hr.zombie hi
  have href := hb.at.ref i hlt
  unfold users at href
  exact ⟨hlt, by omega⟩

theorem namei_fine (h : Fine v A false k) (hcwd : Caller v A any k.fs cwd) (path : List UInt8) :
    Ran (namei cwd path k.fs) fun a fs' => Fine v A false { k with fs := fs' } ∧
      match a with
      | none => Refs k.fs fs' []
      | some ip => ip < NINODE ∧ Refs k.fs fs' [ip] := by
  refine (namei_spec h.sane.tidy h.sane.anchored lenient_any (.inl trivial) path h.sane.sound hcwd.index hcwd.ref
    (.inl trivial)).mono ?_ fun _ _ => id
  rintro (_ | ip) fs' ⟨last, hw⟩
  · obtain ⟨hs, hr, hlog, -⟩ := hw
    exact ⟨h.served (served_same h.sane hs hr) (by rw [hlog]; exact h.busy), hr⟩
  · obtain ⟨hs, hr, hlog, -, hip, -⟩ := hw
    exact ⟨h.served (served_same h.sane hs hr) (by rw [hlog]; exact h.busy), hip, hr⟩

theorem names_good {m : Nat → FsM Int} (h : Good v k) (hb : Between t k) (hr : Running k)
    (hm : ∀ A cwd fs, Sane v A fs → Caller v A any fs cwd → fs.log.busy = false →
      Ran (m cwd fs) fun _ fs' => ∃ A', Served v A fs [] A' fs' ∧ fs'.log.busy = false) :
    Ran ((do
      let p ← proc
      onFs (m (p.cwd.getD 0)) : KM Int) k) fun _ k' => Good v k' := by
  obtain ⟨A, h⟩ := h
  unfold proc Ran
  rw [holds_bind, holds_bind, holds_fetch, holds_pure, holds_onFs]
  refine (hm A _ k.fs h.sane (caller_cwd hb hr A) h.busy).mono ?_ fun _ _ => id
  rintro _ fs' ⟨A', hs, hbusy⟩
  exact ⟨A', h.served hs hbusy⟩

theorem sysUnlink_served (h : Sane v A fs) (hcwd : Caller v A any fs cwd) (hidle : fs.log.busy = false)
    (path : List UInt8) :
    Ran (sysUnlink cwd path fs) fun _ fs' => ∃ A', Served v A fs [] A' fs' ∧ fs'.log.busy = false := by
  refine (sysUnlink_spec h tolerant_any hcwd hidle).mono ?_ fun _ _ => id
  rintro _ fs' ⟨hb, A', hs, hr, hsp, -⟩
  exact ⟨A', ⟨hs, hr, hsp.type⟩, hb⟩

theorem sysLink_served (h : Sane v A fs) (hcwd : Caller v A any fs cwd) (hidle : fs.log.busy = false)
    (old new : List UInt8) :
    Ran (sysLink cwd old new fs) fun _ fs' => ∃ A', Served v A fs [] A' fs' ∧ fs'.log.busy = false := by
  refine (sysLink_spec h tolerant_any hcwd hidle).mono ?_ fun _ _ => id
  rintro _ fs' ⟨hb, A', hs, hr, hsp, -⟩
  exact ⟨A', ⟨hs, hr, hsp.type⟩, hb⟩

theorem makeNode_served {type : Nat} (h : Sane v A fs) (hcwd : Caller v A any fs cwd) (ht : type < 2 ^ 16)
    (ht0 : type ≠ 0) (hfile : type ≠ T_FILE) (path : List UInt8) (major minor : Nat) :
    Ran (makeNode cwd path type major minor fs) fun _ fs' => ∃ A', Served v A fs [] A' fs' ∧ fs'.log.busy = false := by
  refine (makeNode_spec h tolerant_any hcwd ht ht0 hfile).mono ?_ fun _ _ => id
  rintro _ fs' ⟨hb, A', hs, hr, hsp, -⟩
  exact ⟨A', ⟨hs, hr, hsp.type⟩, hb⟩

theorem sysChdir_good (h : Good v k) (hb : Between t k) (hr : Running k) (path : List UInt8) :
    Ran (sysChdir path k) fun _ k' => Good v k' := by
  obtain ⟨A, h⟩ := h
  obtain ⟨c, hc⟩ := Option.ne_none_iff_exists'.mp ((hb.procs _ hr.cur).home hr.unused hr.embryo hr.zombie)
  have hspare := spare_cwd hb hr hc
  have hcaller := caller_cwd (v := v) hb hr A
  unfold sysChdir Ran
  rw [holds_bind, holds_fetch, holds_bind, holds_onFs]
  refine (namei_fine h hcaller path).mono ?_ fun _ _ => id
  rintro (_ | ip) fs₁ ⟨h₁, hr₁⟩
  · dsimp only; rw [holds_pure]; exact ⟨A, h₁⟩
  · obtain ⟨hip, hr₁⟩ := hr₁
    dsimp only
    rw [holds_bind, holds_onFs]
    refine (ilock_working h₁ (spare_taken (h.bound ip hip) hr₁ hip)).mono ?_ fun _ _ => id
    rintro _ fs₂ ⟨h₂, hr₂⟩
    rw [holds_bind, holds_fetch, holds_ite]
    refine ⟨fun _ => ?_, fun _ => ?_⟩
    · obtain ⟨A₂, hf₂, hs₂, -⟩ := h₂
      rw [holds_bind, holds_onFs]
      refine (iunlockput_good ⟨A₂, hf₂⟩ hs₂).mono (fun _ fs₃ h₃ => ?_) fun _ _ => id
      rw [holds_pure]
      exact h₃
    · obtain ⟨A₂, hf₂, hs₂, -⟩ := h₂
      rw [holds_bind, holds_onFs]
      refine (iunlock_fine hf₂ hs₂.1).mono ?_ fun _ _ => id
      rintro _ fs₃ ⟨h₃, hr₃, -⟩
      have hs₃ : Spare { k with fs := fs₃ } c := ((hspare.refs hr₁).refs hr₂).refs hr₃
      rw [hc, holds_bind, holds_onFs]
      refine (iput_good ⟨A₂, h₃⟩ hs₃).mono (fun _ fs₄ h₄ => ?_) fun _ _ => id
      rw [holds_bind, ran_setProc, holds_pure]
      exact h₄.withProc

/-- The locked inode that open found or made is open for writing only where it may be. -/
theorem sysOpen_find_good (h : Fine v A false k) (hcwd : Caller v A any k.fs cwd) (path : List UInt8) (omode : Nat) :
    Ran (sysOpen.find cwd path omode k.fs) fun a fs' => match a with
      | none => Good v { k with fs := fs' }
      | some ip => ∃ A', Fine v A' false { k with fs := fs' } ∧ Spare { k with fs := fs' } ip ∧
          Cached v A' fs' ip (fs'.icache ip).inum ∧
          (omode &&& O_WRONLY ≠ 0 ∨ omode &&& O_RDWR ≠ 0 → (A'.ino (fs'.icache ip).inum).type ≠ T_DIR) := by
  unfold sysOpen.find Ran
  rw [holds_ite]
  refine ⟨fun _ => ?_, fun _ => ?_⟩
  · rw [holds_bind]
    refine (begin_fine h).mono ?_ fun _ _ => id
    rintro _ fs₁ ⟨h₁, hc₁⟩
    have hr₁ : Refs k.fs fs₁ [] := refs_sameCache hc₁
    rw [holds_bind]
    refine (create_spec h₁.sane tolerant_any (hcwd.refs hr₁) (Refs.refl _) h₁.sane.anchored h₁.busy
      (show T_FILE < 2 ^ 16 by decide) (by decide)).mono ?_ fun _ _ => id
    rintro (_ | ip) fs₂ hres
    · obtain ⟨hs₂, hr₂, hb₂⟩ := hres
      have h₂ : Fine v A true { k with fs := fs₂ } := h₁.served ⟨hs₂, hr₂, fun _ _ _ => rfl⟩ hb₂
      rw [holds_bind]
      refine (commit_fine h₂).mono ?_ fun _ _ => id
      rintro _ fs₃ ⟨h₃, -⟩
      rw [holds_pure]
      exact ⟨A, h₃⟩
    · obtain ⟨hr₂, A', hmade⟩ := hres
      have hout : Served v A fs₁ [ip] A' fs₂ ∧ fs₂.log.busy = true ∧
          ∃ i, Cached v A' fs₂ ip i ∧ (A'.ino i).type = T_FILE := by
        cases hmade with
        | found i sane cached busy file => exact ⟨⟨sane, hr₂, fun _ _ _ => rfl⟩, busy, i, cached, file.2⟩
        | new d i j name A' parent made =>
            refine ⟨⟨made.sane, hr₂, made.spares.type⟩, made.busy, i, made.cached, ?_⟩
            rw [← view_type made.cached.live.1, made.view, create_self _ _ _ _ _ made.ne]
      obtain ⟨hserved, hb₂, i, hcached, htype⟩ := hout
      have h₂ : Fine v A' true { k with fs := fs₂ } := h₁.served hserved hb₂
      have hspare : Spare { k with fs := fs₂ } ip := spare_taken (h₁.bound ip hcached.index) hr₂ hcached.index
      rw [holds_bind]
      refine (commit_fine h₂).mono ?_ fun _ _ => id
      rintro _ fs₃ ⟨h₃, hc₃⟩
      have hr₃ : Refs fs₂ fs₃ [] := refs_sameCache hc₃
      have hcached₃ := cached_refs hcached hr₃
      rw [holds_pure]
      refine ⟨A', h₃, hspare.refs hr₃, hcached₃.inum.symm ▸ hcached₃, fun _ => ?_⟩
      rw [hcached₃.inum, htype]
      decide
  · rw [holds_bind]
    refine (namei_fine h hcwd path).mono ?_ fun _ _ => id
    rintro (_ | ip) fs₁ ⟨h₁, hr₁⟩
    · dsimp only; rw [holds_pure]; exact ⟨A, h₁⟩
    · obtain ⟨hip, hr₁⟩ := hr₁
      dsimp only
      rw [holds_bind]
      refine (ilock_working h₁ (spare_taken (h.bound ip hip) hr₁ hip)).mono ?_ fun _ _ => id
      rintro _ fs₂ ⟨⟨A₂, h₂, hs₂, hc₂⟩, -⟩
      rw [holds_bind, holds_fetch, holds_ite, hc₂.din h₂.sane.sound.rep]
      refine ⟨fun _ => ?_, fun hmode => ?_⟩
      · rw [holds_bind]
        refine (iunlockput_good ⟨A₂, h₂⟩ hs₂).mono (fun _ fs₃ h₃ => ?_) fun _ _ => id
        rw [holds_pure]
        exact h₃
      · rw [holds_pure]
        refine ⟨A₂, h₂, hs₂, hc₂, fun hw hdir => hmode ⟨hdir, ?_⟩⟩
        rintro rfl
        exact absurd hw (by decide)

theorem fileclose_fresh (hr : (k.ftable f).ref = 1) (ht : (k.ftable f).type = .none) :
    fileclose f k = .ok () (withFile k f (closedFile (k.ftable f))) [] := by
  unfold fileclose
  rw [bind_apply, fetch_apply]
  dsimp only
  rw [if_neg (by omega), if_neg (by omega), ht]
  rfl

theorem sysOpen_install_good (h : Fine v A false k) (hs : Spare k ip) (hc : Cached v A k.fs ip (k.fs.icache ip).inum)
    (omode : Nat)
    (hdir : omode &&& O_WRONLY ≠ 0 ∨ omode &&& O_RDWR ≠ 0 → (A.ino (k.fs.icache ip).inum).type ≠ T_DIR) :
    Ran (sysOpen.install ip omode k) fun _ k' => Good v k' := by
  have hput : ∀ {k}, Good v k → Spare k ip → Ran ((do
      onFs (iunlockput ip)
      pure (-1) : KM Int) k) fun _ k' => Good v k' := by
    intro k h hs
    unfold Ran
    rw [holds_bind, holds_onFs]
    refine (iunlockput_good h hs).mono (fun _ fs' h' => ?_) fun _ _ => id
    rw [holds_pure]
    exact h'
  unfold sysOpen.install Ran
  rw [holds_bind]
  refine (filealloc_fine h).mono (fun a k₁ h₁ => ?_) fun _ _ => id
  obtain ⟨-, hfs, hf₁, h₁⟩ := h₁
  cases a with
  | none =>
      obtain rfl := h₁
      dsimp only
      unfold sysOpen.bad
      rw [holds_bind, holds_pure]
      exact hput ⟨A, hf₁⟩ hs
  | some f =>
      obtain ⟨hf, hz, hr₁, ht₁, hkeep, hu₁⟩ := h₁
      have hs₁ : Spare k₁ ip := by
        rw [Spare, hu₁, hfs]
        exact hs
      dsimp only
      rw [holds_bind]
      rcases fdalloc_cases f k₁ with e | ⟨fd, hfd, hnone, e⟩ <;> rw [e] <;> intro _
      · dsimp only
        unfold sysOpen.bad
        rw [holds_bind]
        dsimp only
        rw [fileclose_fresh hr₁ ht₁]
        intro _
        have hk : ∀ i, Keeps (closedFile (k₁.ftable f)) i = Keeps (k₁.ftable f) i := fun i => by
          simp [Keeps, closedFile, ht₁]
        have hf₂ : Fine v A false (withFile k₁ f (closedFile (k₁.ftable f))) :=
          hf₁.withFile hf (fun _ => rfl) (fun e => by simp [closedFile] at e) fun e => by simp [closedFile] at e
        refine hput ⟨A, hf₂⟩ ⟨hs₁.1, ?_⟩
        rw [fileUsers_withFile_of_eq hf hk]
        exact hs₁.2
      · dsimp only
        have hf₂ : Fine v A false (withProc k₁ k₁.cur (withFd (k₁.procs k₁.cur) fd (some f))) := hf₁.congr rfl rfl
        rw [holds_bind, holds_onFs]
        refine (iunlock_fine hf₂ hs₁.1).mono ?_ fun _ _ => id
        rintro _ fs₃ ⟨hf₃, hr₃, -⟩
        have hc₁ : Cached v A k₁.fs ip (k.fs.icache ip).inum := hfs ▸ hc
        have hc₃ := cached_refs hc₁ hr₃
        have hs₃ := hs₁.refs hr₃
        unfold setFile
        rw [holds_bind, holds_update, holds_pure]
        refine ⟨A, hf₃.withFile hf (fun e => ?_) (fun _ => .inr ⟨hc₃.inum.symm ▸ hc₃, hs₃.2, fun hw => ?_⟩) fun _ => ?_⟩
        · change (k₁.ftable f).ref = 0 at e
          omega
        · change (A.ino (fs₃.icache ip).inum).type ≠ T_DIR
          rw [hc₃.inum]
          exact hdir (by simpa using hw)
        · exact Nat.two_pow_pos 32

theorem sysOpen_good (h : Good v k) (hb : Between t k) (hr : Running k) (path : List UInt8) (omode : Nat) :
    Ran (sysOpen path omode k) fun _ k' => Good v k' := by
  obtain ⟨A, h⟩ := h
  unfold sysOpen proc Ran
  rw [holds_bind, holds_bind, holds_fetch, holds_pure, holds_bind, holds_onFs]
  refine (sysOpen_find_good h (caller_cwd hb hr A) path omode).mono ?_ fun _ _ => id
  rintro (_ | ip) fs₁ h₁
  · dsimp only; rw [holds_pure]; exact h₁
  · obtain ⟨A₁, hf, hs, hc, hdir⟩ := h₁
    exact sysOpen_install_good hf hs hc omode hdir

/-- The descriptors of the running process refer to entries of the file table. -/
def FdsOk (k : Kstate) : Prop := ∀ i < NOFILE, ∀ f, (k.procs k.cur).ofile i = some f → f < NFILE

theorem fdsOk_running (hb : Between t k) (hr : Running k) : FdsOk k := (hb.procs _ hr.cur).slots

theorem dupFiles_good (l : List Nat) (hl : ∀ i ∈ l, i < NOFILE) (h : Good v k) (hfds : FdsOk k) (hn : np ≠ k.cur) :
    Ran (fork.dupFiles np l k) fun _ k' => Good v k' ∧ k'.fs = k.fs := by
  induction l generalizing k with
  | nil =>
      unfold fork.dupFiles Ran
      rw [holds_pure]
      exact ⟨h, rfl⟩
  | cons i l ih =>
      have hl' : ∀ j ∈ l, j < NOFILE := fun j hj => hl j (List.mem_cons_of_mem _ hj)
      unfold fork.dupFiles Ran
      rw [holds_bind, holds_fetch, holds_bind]
      cases hf : (k.procs k.cur).ofile i with
      | none =>
          dsimp only
          rw [holds_pure]
          exact ih hl' h hfds hn
      | some f =>
          dsimp only
          rw [holds_bind]
          refine (filedup_good h (hfds i (hl i List.mem_cons_self) f hf)).mono ?_ fun _ _ => id
          rintro _ k₁ ⟨rfl, h₁, hs₁, hfs₁⟩
          rw [ran_setProc]
          have hfds₁ : ∀ x, FdsOk (withProc k₁ np x) := by
            intro x j hj g hg
            have hcur : (withProc k₁ np x).cur = k.cur := hs₁.cur
            rw [hcur, procs_withProc, if_neg (Ne.symm hn), hs₁.procs] at hg
            exact hfds j hj g hg
          refine (ih hl' h₁.withProc (hfds₁ _) ?_).mono (fun _ k₂ h₂ => ⟨h₂.1, h₂.2.trans hfs₁⟩) fun _ _ => id
          change np ≠ k₁.cur
          rw [hs₁.cur]
          exact hn

theorem fork_good (h : Good v k) (hb : Between t k) (hr : Running k) : Ran (Proc.fork k) fun _ k' => Good v k' := by
  unfold Proc.fork Ran
  rw [holds_bind]
  have ha : (allocproc k).Holds (fun _ => True) _ fun w _ => any w := allocproc_going hb
  refine ((ran_of_holds ha).and (ran_of_holds (aloof_allocproc k))).mono ?_ fun _ _ _ => trivial
  rintro a k₁ ⟨ha, he⟩
  have hfs₁ : k₁.fs = k.fs := congrArg Prod.fst he
  have h₁ : Good v k₁ := h.congr (congrArg Prod.snd he) hfs₁
  cases a with
  | none => dsimp only; rw [holds_pure]; exact h₁
  | some np =>
      obtain ⟨hg₁, he₁, hu, ho₁, -, -⟩ := ha
      have hn : np ≠ k.cur := by
        rintro rfl
        exact hr.unused hu
      have hr₁ := ho₁.running hr hn
      obtain ⟨i, hi⟩ := Option.ne_none_iff_exists'.mp ((hg₁.procs _ hr₁.cur).home hr₁.unused hr₁.embryo hr₁.zombie)
      have hspare := spare_cwd hg₁ hr₁ hi
      dsimp only
      rw [holds_bind, holds_fetch, holds_bind]
      refine ran_onMm fun a mm => ?_
      cases a with
      | none =>
          dsimp only
          rw [holds_bind]
          refine ran_onMm fun _ mm' => ?_
          rw [holds_bind, ran_setProc, holds_pure]
          exact Good.withProc (h₁.congr rfl rfl)
      | some pgdir =>
          dsimp only
          rw [holds_bind, ran_setProc, holds_bind]
          have hfds : ∀ x, FdsOk (withProc { k₁ with mm := mm } np x) := by
            intro x j hj g hg
            have hne : k₁.cur ≠ np := by rw [ho₁.cur]; exact Ne.symm hn
            change ((withProc { k₁ with mm := mm } np x).procs k₁.cur).ofile j = some g at hg
            rw [procs_withProc, if_neg hne] at hg
            exact (hg₁.procs _ hr₁.cur).slots j hj g hg
          have h₂ : ∀ x, Good v (withProc { k₁ with mm := mm } np x) := fun x => h₁.congr rfl rfl
          refine (dupFiles_good (List.range NOFILE) (fun _ => List.mem_range.mp) (h₂ _) (hfds _) ?_).mono ?_
            fun _ _ => id
          · change np ≠ k₁.cur
            rw [ho₁.cur]
            exact hn
          rintro _ k₃ ⟨⟨A₃, h₃⟩, hfs₃⟩
          have hfs : k₃.fs = k₁.fs := hfs₃
          rw [hi]
          dsimp only
          rw [holds_bind, holds_bind, holds_onFs]
          have hpos : 0 < (k₃.fs.icache i).ref := by
            rw [hfs]
            exact Nat.zero_lt_of_lt hspare.2
          have hdup : (idup i k₃.fs).Holds Roomy _ fun w _ => any w := idup_spec h₃.sane.sound hspare.1 hpos
          refine hdup.mono ?_ fun _ _ => id
          rintro _ fs' ⟨rfl, hs, hrefs, hx⟩
          have hb' : fs'.log.busy = false := by rw [hx]; exact h₃.busy
          have h₄ := h₃.served (served_same h₃.sane hs hrefs) hb'
          rw [ran_setProc, holds_bind, ran_setProc, holds_bind, ran_setProc, holds_pure]
          exact Good.withProc (Good.withProc (Good.withProc ⟨A₃, h₄⟩))

theorem closeFiles_good (l : List Nat) (hl : ∀ i ∈ l, i < NOFILE) (h : Good v k) (hfds : FdsOk k) :
    Ran (exit.closeFiles l k) fun _ k' => Good v k' := by
  induction l generalizing k with
  | nil =>
      unfold exit.closeFiles Ran
      rw [holds_pure]
      exact h
  | cons i l ih =>
      have hl' : ∀ j ∈ l, j < NOFILE := fun j hj => hl j (List.mem_cons_of_mem _ hj)
      unfold exit.closeFiles Ran
      rw [holds_bind, holds_fetch, holds_bind]
      cases hf : (k.procs k.cur).ofile i with
      | none =>
          dsimp only
          rw [holds_pure]
          exact ih hl' h hfds
      | some f =>
          dsimp only
          rw [holds_bind]
          refine (fileclose_good h (hfds i (hl i List.mem_cons_self) f hf)).mono ?_ fun _ _ => id
          rintro _ k₁ ⟨h₁, hs₁⟩
          rw [ran_setProc]
          refine ih hl' h₁.withProc fun j hj g hg => ?_
          change ((withProc k₁ k.cur _).procs k₁.cur).ofile j = some g at hg
          rw [hs₁.cur, procs_withProc, if_pos rfl, hs₁.procs] at hg
          by_cases e : j = i
          · subst e
            simp at hg
          · exact hfds j hj g (by simpa [e] using hg)

theorem exit_good (h : Good v k) (hb : Between t k) (hr : Running k) : Ran (Proc.exit k) fun _ k' => Good v k' := by
  unfold Proc.exit Ran
  rw [holds_bind, holds_fetch, holds_ite]
  refine ⟨fun _ => by rw [holds_panic]; trivial, fun _ => ?_⟩
  have hl : ∀ i ∈ List.range NOFILE, i < NOFILE := fun _ => List.mem_range.mp
  rw [holds_bind]
  refine ((ran_of_holds (closeFiles_going below_true (List.range NOFILE) hl hb hr)).and
    (closeFiles_good (List.range NOFILE) hl h (fdsOk_running hb hr))).mono ?_ fun _ _ _ => trivial
  rintro _ k₁ ⟨⟨hg₁, hr₁, hcur₁, -, hcwd₁, -, -⟩, h₁⟩
  obtain ⟨i, hi⟩ := Option.ne_none_iff_exists'.mp ((hb.procs _ hr.cur).home hr.unused hr.embryo hr.zombie)
  have hspare : Spare k₁ i := spare_cwd hg₁ hr₁ (by rw [hcur₁, hcwd₁, hi])
  rw [hi]
  dsimp only
  rw [holds_bind, holds_onFs]
  refine (iput_good h₁ hspare).mono (fun _ fs' h₂ => ?_) fun _ _ => id
  rw [holds_bind, ran_setProc, holds_bind, holds_update, ran_setProc]
  exact Good.withProc (h₂.congr rfl rfl)

theorem loaduvm_working (h : Working v ip k) (pgdir addr offset sz : Nat) :
    Ran (loaduvm pgdir addr ip offset sz k) fun _ k' => Working v ip k' := by
  have hloop : ∀ fuel i k, Working v ip k →
      Ran (loaduvm.loop pgdir addr ip offset sz fuel i k) fun _ k' => Working v ip k' := by
    intro fuel
    induction fuel with
    | zero =>
        intro i k h
        unfold loaduvm.loop Ran
        rw [holds_pure]
        exact h
    | succ fuel ih =>
        intro i k h
        unfold loaduvm.loop Ran
        rw [holds_ite]
        refine ⟨fun _ => ?_, fun _ => by rw [holds_pure]; exact h⟩
        rw [holds_bind]
        refine ran_onMm fun a mm => ?_
        cases a with
        | none => dsimp only; rw [holds_panic]; trivial
        | some pte =>
            have h₁ : Working v ip { k with mm := mm } := h.congr rfl rfl
            dsimp only
            rw [holds_bind, holds_fetch, holds_bind, holds_onFs]
            refine (readi_working h₁ _ ?_).mono (fun a fs' h₂ => ?_) fun _ _ => id
            · exact lt_of_le_of_lt (min_le_right _ _) (by decide)
            rw [holds_bind]
            refine ran_onMm fun _ mm' => ?_
            have h₃ : Working v ip { { { k with mm := mm } with fs := fs' } with mm := mm' } := h₂.congr rfl rfl
            rw [holds_ite]
            exact ⟨fun _ => by rw [holds_pure]; exact h₃, fun _ => ih _ _ h₃⟩
  unfold loaduvm Ran
  rw [holds_ite]
  exact ⟨fun _ => by rw [holds_panic]; trivial, fun _ => hloop _ _ k h⟩

theorem segments_working (pgdir : Nat) (ph0 : List UInt8) (count off sz : Nat) (h : Working v ip k) :
    Ran (exec.segments pgdir ip ph0 count off sz k) fun _ k' => Working v ip k' := by
  induction count generalizing k ph0 off sz with
  | zero =>
      unfold exec.segments Ran
      rw [holds_pure]
      exact h
  | succ count ih =>
      unfold exec.segments Ran
      rw [holds_bind, holds_onFs]
      refine (readi_working h off (by decide)).mono (fun a fs' h₁ => ?_) fun _ _ => id
      rw [holds_ite]
      refine ⟨fun _ => by rw [holds_pure]; exact h₁, fun _ => ?_⟩
      rw [holds_ite]
      refine ⟨fun _ => ih _ _ _ h₁, fun _ => ?_⟩
      rw [holds_ite]
      refine ⟨fun _ => by rw [holds_pure]; exact h₁, fun _ => ?_⟩
      rw [holds_bind]
      refine ran_onMm fun sz' mm => ?_
      have h₂ : Working v ip { { k with fs := fs' } with mm := mm } := h₁.congr rfl rfl
      rw [holds_ite]
      refine ⟨fun _ => by rw [holds_pure]; exact h₂, fun _ => ?_⟩
      rw [holds_bind]
      refine (loaduvm_working h₂ _ _ _ _).mono (fun a k₃ h₃ => ?_) fun _ _ => id
      rw [holds_ite]
      exact ⟨fun _ => by rw [holds_pure]; exact h₃, fun _ => ih _ _ _ h₃⟩

theorem exec_bad_good (h : Good v k) (pgdir : Option Nat) (j : Option Nat) (hs : ∀ ip, j = some ip → Spare k ip) :
    Ran (exec.bad pgdir j k) fun _ k' => Good v k' := by
  have hput : ∀ k, Good v k → (∀ ip, j = some ip → Spare k ip) → Ran (exec.bad none j k) fun _ k' => Good v k' := by
    intro k h hs
    unfold exec.bad Ran
    dsimp only
    rw [holds_bind, holds_pure, holds_bind]
    cases j with
    | none => dsimp only; rw [holds_pure, holds_pure]; exact h
    | some ip =>
        dsimp only
        rw [holds_onFs]
        refine (iunlockput_good h (hs ip rfl)).mono (fun _ fs' h' => ?_) fun _ _ => id
        rw [holds_pure]
        exact h'
  cases pgdir with
  | none => exact hput k h hs
  | some d =>
      unfold exec.bad Ran
      rw [holds_bind]
      refine ran_onMm fun _ mm => ?_
      have h' := hput { k with mm := mm } (h.congr rfl rfl) hs
      unfold exec.bad Ran at h'
      dsimp only at h'
      rw [holds_bind, holds_pure] at h'
      exact h'

theorem exec_commit_good (h : Good v k) (path : List UInt8) (argv : List (List UInt8)) (elf : List UInt8)
    (pgdir sz : Nat) :
    Ran (exec.commit path argv elf pgdir sz k) fun _ k' => Good v k' := by
  have hbad : ∀ {k}, Good v k → Ran (exec.bad (some pgdir) none k) fun _ k' => Good v k' := fun h =>
    exec_bad_good h (some pgdir) none fun _ e => by cases e
  unfold exec.commit Ran
  generalize uint (ALIGNUP sz PTE_SZ + 2 * PTE_SZ) = z
  rw [holds_bind]
  refine ran_onMm fun sz' mm => ?_
  have h₁ : Good v { k with mm := mm } := h.congr rfl rfl
  rw [holds_ite]
  refine ⟨fun _ => hbad h₁, fun _ => ?_⟩
  rw [holds_bind]
  refine ran_onMm fun _ mm₂ => ?_
  rw [holds_bind, holds_fetch, holds_bind]
  refine ran_onMm fun a mm₃ => ?_
  have h₃ : Good v { { { k with mm := mm } with mm := mm₂ } with mm := mm₃ } := h.congr rfl rfl
  cases a with
  | none => exact hbad h₃
  | some y =>
      obtain ⟨sp, ustack⟩ := y
      dsimp only
      rw [holds_bind, ran_setProc, holds_bind]
      refine ran_onMm fun r mm₄ => ?_
      rw [holds_ite]
      refine ⟨fun _ => hbad (h₃.congr rfl rfl), fun _ => ?_⟩
      rw [holds_bind, ran_setProc, holds_bind]
      refine Run.Holds.mono (Aloof.good (v := v) (aloof_switchuvm _) ?_) (fun _ k₅ h₅ => ?_) fun _ _ => id
      · exact h₃.congr rfl rfl
      rw [holds_bind]
      refine ran_onMm fun _ mm₆ => ?_
      rw [holds_pure]
      exact h₅.congr rfl rfl

theorem exec_good (h : Good v k) (hb : Between t k) (hr : Running k) (path : List UInt8) (argv : List (List UInt8))
    (elf0 ph0 : List UInt8) : Ran (Exec.exec path argv elf0 ph0 k) fun _ k' => Good v k' := by
  obtain ⟨A, h⟩ := h
  unfold Exec.exec proc Ran
  rw [holds_bind, holds_bind, holds_fetch, holds_pure, holds_bind, holds_onFs]
  refine (namei_fine h (caller_cwd hb hr A) path).mono ?_ fun _ _ => id
  rintro (_ | ip) fs₁ ⟨h₁, hr₁⟩
  · dsimp only; rw [holds_pure]; exact ⟨A, h₁⟩
  · obtain ⟨hip, hr₁⟩ := hr₁
    have hbad : ∀ {k} (d : Option Nat), Working v ip k → Ran (exec.bad d (some ip) k) fun _ k' => Good v k' := by
      intro k d hw
      obtain ⟨A', hf, hs, -⟩ := hw
      exact exec_bad_good ⟨A', hf⟩ d (some ip) fun j e => by cases e; exact hs
    dsimp only
    rw [holds_bind, holds_onFs]
    refine (ilock_working h₁ (spare_taken (h.bound ip hip) hr₁ hip)).mono ?_ fun _ _ => id
    rintro _ fs₂ ⟨h₂, -⟩
    rw [holds_bind, holds_onFs]
    refine (readi_working h₂ 0 (by decide)).mono ?_ fun _ _ => id
    intro r fs₃ h₃
    rw [holds_ite]
    refine ⟨fun _ => hbad none h₃, fun _ => ?_⟩
    rw [holds_ite]
    refine ⟨fun _ => hbad none h₃, fun _ => ?_⟩
    rw [holds_bind]
    refine ran_onMm fun a mm => ?_
    have h₄ : Working v ip { { k with fs := fs₃ } with mm := mm } := h₃.congr rfl rfl
    cases a with
    | none => exact hbad none h₄
    | some pgdir =>
        dsimp only
        rw [holds_bind]
        refine (segments_working pgdir ph0 _ _ _ h₄).mono (fun a k₅ h₅ => ?_) fun _ _ => id
        cases a with
        | none => exact hbad (some pgdir) h₅
        | some sz =>
            obtain ⟨A₅, hf₅, hs₅, -⟩ := h₅
            dsimp only
            rw [holds_bind, holds_onFs]
            refine (iunlockput_good ⟨A₅, hf₅⟩ hs₅).mono (fun _ fs₆ h₆ => ?_) fun _ _ => id
            exact exec_commit_good h₆ path argv _ pgdir sz

end ArmXv6.PathCalls
