import ArmXv6.PathCalls
import ArmXv6.Runs

namespace ArmXv6.FsRuns

open Lib.Exec Lib.Bytes Lib.Count Param Blocks Fs Content Sysfile Vm Kernel Proc Exec Descriptors Syscall
  DiskImage BlockSpecs
  BlockAlloc Ownership BlockMap FileData InodeSpecs Namespace Directory PathWalk SysfileSpecs CreateSpecs
    FileRefs CallRefs
  ProcRefs References Chunks FileAccess OpenFiles OpenCalls PathCalls Runs

variable {t : Prop} {v : Volume} {A A' : Image} {fs fs' : Fs} {k k' : Kstate} {ip i f p cwd : Nat} {b : Bool} {c : Call}
  {G : Event → Prop}

theorem aloof_setPipe (q : Nat) (g : Pipe → Pipe) : Aloof (setPipe q g) := .update fun _ => rfl

theorem aloof_piperead (q : Nat) (n : Int) : Aloof (piperead q n) := by
  have hloop : ∀ fuel acc, Aloof (piperead.loop q n fuel acc) := by
    intro fuel
    induction fuel with
    | zero => exact fun _ => .pure _
    | succ fuel ih => exact fun acc => .bind .fetch fun _ => .ite (.bind (aloof_setPipe _ _) fun _ => ih _) (.pure _)
  exact .bind .fetch fun _ => .ite (.ite (.pure _) (.sleep trivial)) (.bind (hloop _ _) fun _ => .pure _)

theorem aloof_pipewrite (q : Nat) (src : Nat → UInt8) (n : Int) : Aloof (pipewrite q src n) := by
  have hloop : ∀ fuel i, Aloof (pipewrite.loop q src n fuel i) := by
    intro fuel
    induction fuel with
    | zero => exact fun _ => .pure _
    | succ fuel ih =>
        intro i
        refine .bind .fetch fun _ => .ite (.ite (.ite (.pure _) (.sleep trivial)) ?_) (.pure _)
        exact .bind (aloof_setPipe _ _) fun _ => ih _
  exact hloop _ _

theorem Fine.moved (h : Fine v A b k) (hf : f < NFILE) (off : Nat) :
    Fine v A b (withFile k f { k.ftable f with off := uint off }) :=
  h.withFile hf (fun hz => h.closed f hf hz) (fun ht => .inl ⟨ht, rfl, id⟩) fun _ => Nat.mod_lt _ (by decide)

/-- A call that only looks at the file system. -/
def Reading (v : Volume) (A : Image) (k k' : Kstate) : Prop := Fine v A false k' ∧ Unwritten k.fs k'.fs

theorem Aloof.reading {α : Type} {m : KM α} (h : Fine v A false k) (hm : Aloof m) :
    (m k).Holds G (fun _ k' => Reading v A k k') fun _ _ => True := by
  refine ran_of_holds (hm.holds k fun _ e => ?_)
  have hfs := congrArg Prod.fst e
  exact ⟨h.congr (congrArg Prod.snd e) hfs, congrArg Fs.blk hfs, congrArg Fs.log hfs⟩

theorem fileread_reading (h : Fine v A false k) (hf : f < NFILE) (n : Int) :
    (fileread f n k).Holds G (fun _ k' => Reading v A k k') fun _ _ => True := by
  unfold fileread
  rw [holds_bind, holds_fetch, holds_ite]
  refine ⟨fun _ => by rw [holds_pure]; exact ⟨h, .refl _⟩, fun _ => ?_⟩
  cases ht : (k.ftable f).type with
  | pipe => exact Aloof.reading h (aloof_piperead _ n)
  | none => dsimp only; rw [holds_panic]; trivial
  | inode =>
      have hip := (h.index f hf ht).1
      dsimp only
      rw [holds_bind, holds_onFs]
      refine (ilock_fine h hip).mono ?_ fun _ _ => id
      rintro _ fs₁ ⟨h₁, hc₁, -, hw₁⟩
      rw [holds_bind, holds_onFs]
      refine (readi_fine h₁ hc₁ _ (bits_lt n)).mono ?_ fun _ _ => id
      rintro a fs₂ ⟨h₂, -, -, hw₂⟩
      have hend : ∀ k', Fine v A false k' → Unwritten k.fs k'.fs → ((do
          onFs (iunlock (k.ftable f).ip)
          pure a : KM (Int × List UInt8)) k').Holds G (fun _ k'' => Reading v A k k'') fun _ _ => True := by
        intro k' h' hw'
        rw [holds_bind, holds_onFs]
        refine (iunlock_fine h' hip).mono (fun _ fs₃ h₃ => ?_) fun _ _ => id
        rw [holds_pure]
        exact ⟨h₃.1, hw'.trans h₃.2.2⟩
      rw [holds_bind, holds_ite]
      refine ⟨fun _ => ?_, fun _ => ?_⟩
      · unfold setFile
        rw [holds_update]
        exact hend _ (Fine.moved h₂ hf _) (hw₁.trans hw₂)
      · rw [holds_pure]
        exact hend _ h₂ (hw₁.trans hw₂)

theorem filestat_reading (h : Fine v A false k) (hf : f < NFILE) :
    (filestat f k).Holds G (fun _ k' => Reading v A k k') fun _ _ => True := by
  unfold filestat
  rw [holds_bind, holds_fetch]
  cases ht : (k.ftable f).type with
  | pipe => dsimp only; rw [holds_pure]; exact ⟨h, .refl _⟩
  | none => dsimp only; rw [holds_pure]; exact ⟨h, .refl _⟩
  | inode =>
      have hip := (h.index f hf ht).1
      dsimp only
      rw [holds_bind, holds_onFs]
      refine (ilock_fine h hip).mono ?_ fun _ _ => id
      rintro _ fs₁ ⟨h₁, -, -, hw₁⟩
      rw [holds_bind, holds_fetch, holds_bind, holds_onFs]
      refine (iunlock_fine h₁ hip).mono (fun _ fs₂ h₂ => ?_) fun _ _ => id
      rw [holds_pure]
      exact ⟨h₂.1, hw₁.trans h₂.2.2⟩

theorem look_reading (h : Fine v A false k) (hb : Between t k) (hr : Running k) (fd : Int) (addr : Nat) (n : Int) :
    ((run (.read fd addr n) k).Holds G (fun _ k' => Reading v A k k') fun _ _ => True) ∧
      (run (.fstat fd addr) k).Holds G (fun _ k' => Reading v A k k') fun _ _ => True := by
  constructor
  · unfold run
    rw [holds_bind, holds_fetch]
    cases ha : argfd k fd with
    | none => dsimp only; rw [holds_pure]; exact ⟨h, .refl _⟩
    | some f =>
        dsimp only
        rw [holds_bind]
        refine (fileread_reading h (argfd_file hb hr ha).1 n).mono (fun r k₁ h₁ => ?_) fun _ _ => id
        rw [holds_bind]
        refine ran_onMm fun _ mm => ?_
        rw [holds_pure]
        exact ⟨h₁.1.congr rfl rfl, h₁.2⟩
  · unfold run
    rw [holds_bind, holds_fetch]
    cases ha : argfd k fd with
    | none => dsimp only; rw [holds_pure]; exact ⟨h, .refl _⟩
    | some f =>
        dsimp only
        rw [holds_bind]
        refine (filestat_reading h (argfd_file hb hr ha).1).mono (fun st k₁ h₁ => ?_) fun _ _ => id
        cases st with
        | none => dsimp only; rw [holds_pure]; exact h₁
        | some st =>
            dsimp only
            rw [holds_bind]
            refine ran_onMm fun _ mm => ?_
            rw [holds_pure]
            exact ⟨h₁.1.congr rfl rfl, h₁.2⟩

/-- An inode that is open for writing. -/
def Writing (k : Kstate) (f : Nat) : Prop := (k.ftable f).type = .inode ∧ (k.ftable f).writable = true

theorem filewrite_loop_good (hf : f < NFILE) (src : Nat → UInt8) (n : Int) (fuel i : Nat) (h : Good v k)
    (hw : Writing k f) : Ran (filewrite.loop f src n fuel i k) fun _ k' => Good v k' := by
  induction fuel generalizing i k with
  | zero =>
      unfold filewrite.loop Ran
      rw [holds_pure]
      exact h
  | succ fuel ih =>
      unfold filewrite.loop Ran
      rw [holds_ite]
      refine ⟨fun _ => ?_, fun _ => by rw [holds_pure]; exact h⟩
      obtain ⟨A, h⟩ := h
      obtain ⟨hip, hoff⟩ := h.index f hf hw.1
      have hn : min (n.toNat - i) writeMax < 2 ^ 32 := lt_of_le_of_lt (min_le_right _ _) (by decide)
      generalize min (n.toNat - i) writeMax = n₁ at *
      rw [holds_bind, holds_fetch, holds_bind, holds_onFs]
      refine (begin_fine h).mono ?_ fun _ _ => id
      rintro _ fs₁ ⟨h₁, -⟩
      rw [holds_bind, holds_onFs]
      refine (ilock_fine h₁ hip).mono ?_ fun _ _ => id
      rintro _ fs₂ ⟨h₂, hc₂, -⟩
      have hdir := h₂.writable f hf hw.1 hw.2
      have hinum : (fs₂.icache (k.ftable f).ip).inum = (fs₁.icache (k.ftable f).ip).inum := hc₂.inum
      change (A.ino (fs₂.icache (k.ftable f).ip).inum).type ≠ T_DIR at hdir
      rw [hinum] at hdir
      rw [holds_bind, holds_onFs]
      refine (writei_any h₂.sane hc₂ hdir h₂.busy _ hoff hn).mono ?_ fun _ _ => id
      rintro r fs₃ ⟨A₃, hs₃, hb₃⟩
      have h₃ : Fine v A₃ true { k with fs := fs₃ } := h₂.served hs₃ hb₃
      have hend : ∀ k', Fine v A₃ true k' → Writing k' f → Ran ((do
          onFs (iunlock (k.ftable f).ip)
          onFs commitTrans
          if r < 0 then pure (if (i : Int) = n then n else -1)
          else if r ≠ n₁ then .panic "short filewrite"
          else filewrite.loop f src n fuel (i + n₁) : KM Int) k') fun _ k'' => Good v k'' := by
        intro k' h' hw'
        unfold Ran
        rw [holds_bind, holds_onFs]
        refine (iunlock_fine h' hip).mono ?_ fun _ _ => id
        rintro _ fs₄ ⟨h₄, -⟩
        rw [holds_bind, holds_onFs]
        refine (commit_fine h₄).mono ?_ fun _ _ => id
        rintro _ fs₅ ⟨h₅, -⟩
        rw [holds_ite]
        refine ⟨fun _ => by rw [holds_pure]; exact ⟨A₃, h₅⟩, fun _ => ?_⟩
        rw [holds_ite]
        exact ⟨fun _ => by rw [holds_panic]; trivial, fun _ => ih _ ⟨A₃, h₅⟩ hw'⟩
      rw [holds_bind, holds_ite]
      refine ⟨fun _ => ?_, fun _ => ?_⟩
      · unfold setFile
        rw [holds_update]
        refine hend _ (Fine.moved h₃ hf _) ?_
        simpa [Writing] using hw
      · rw [holds_pure]
        exact hend _ h₃ hw

theorem filewrite_good (h : Good v k) (hf : f < NFILE) (src : Nat → UInt8) (n : Int) :
    Ran (filewrite f src n k) fun _ k' => Good v k' := by
  unfold filewrite Ran
  rw [holds_bind, holds_fetch, holds_ite]
  refine ⟨fun _ => by rw [holds_pure]; exact h, fun hw => ?_⟩
  cases ht : (k.ftable f).type with
  | pipe => exact (aloof_pipewrite _ src n).good h
  | none => dsimp only; rw [holds_panic]; trivial
  | inode => exact filewrite_loop_good hf src n _ 0 h ⟨ht, by simpa using hw⟩

theorem call_good (h : Good v k) (hb : Between t k) (hr : Running k) (c : Call) : Ran (run c k) fun _ k' =>
    Good v k' := by
  cases c with
  | fork => exact fork_good h hb hr
  | exit =>
      unfold run Ran
      rw [holds_bind]
      refine (exit_good h hb hr).mono (fun _ k' h' => ?_) fun _ _ => id
      rw [holds_pure]
      exact h'
  | wait => exact aloof_wait.good h
  | pipe addr => exact sysPipe_good h addr
  | read fd addr n =>
      obtain ⟨A, hA⟩ := h
      exact (look_reading hA hb hr fd addr n).1.mono (fun _ _ h' => ⟨A, h'.1⟩) fun _ _ => id
  | kill pid => exact (aloof_kill pid).good h
  | exec path argv elf0 ph0 => exact exec_good h hb hr path argv elf0 ph0
  | fstat fd addr =>
      obtain ⟨A, hA⟩ := h
      exact (look_reading hA hb hr fd addr 0).2.mono (fun _ _ h' => ⟨A, h'.1⟩) fun _ _ => id
  | chdir path => exact sysChdir_good h hb hr path
  | dup fd => exact sysDup_good h hb hr fd
  | getpid =>
      unfold run proc Ran
      rw [holds_bind, holds_bind, holds_fetch, holds_pure, holds_pure]
      exact h
  | sbrk n => exact (aloof_sysSbrk n).good h
  | «open» path omode => exact sysOpen_good h hb hr path omode
  | write fd src n =>
      unfold run Ran
      rw [holds_bind, holds_fetch]
      cases ha : argfd k fd with
      | none => dsimp only; rw [holds_pure]; exact h
      | some f => exact filewrite_good h (argfd_file hb hr ha).1 src n
  | mknod path major minor =>
      exact names_good h hb hr fun A cwd fs hs hc _ =>
        makeNode_served hs hc (by decide) (by decide) (by decide) path major minor
  | unlink path => exact names_good h hb hr fun A cwd fs hs hc hi => sysUnlink_served hs hc hi path
  | link old new => exact names_good h hb hr fun A cwd fs hs hc hi => sysLink_served hs hc hi old new
  | mkdir path =>
      exact names_good h hb hr fun A cwd fs hs hc _ =>
        makeNode_served hs hc (by decide) (by decide) (by decide) path 0 0
  | close fd => exact sysClose_good h hb hr fd

theorem Booted.fine (hb : Booted k) (hs : Sane v A k.fs) (hidle : k.fs.log.busy = false) : Fine v A false k := by
  have htype : ∀ f < NFILE, (k.ftable f).type ≠ .inode := fun f hf => by rw [(hb.files f hf).2]; decide
  refine ⟨hs, hidle, fun f hf _ => (hb.files f hf).2, fun i _ => ?_, fun f hf ht => absurd ht (htype f hf),
    fun f hf ht => absurd ht (htype f hf), fun f hf ht => absurd ht (htype f hf)⟩
  unfold fileUsers
  rw [List.countP_eq_zero.mpr]
  · exact Nat.zero_le _
  · intro f hf
    simp [(hb.files f (List.mem_range.mp hf)).1]

theorem namei_root_fine (h : Fine v A false k) :
    (namei 0 [slash] k.fs).Holds G (fun _ fs' => Fine v A false { k with fs := fs' }) fun _ _ => True := by
  unfold namei namex
  rw [holds_bind, holds_bind, if_pos (by rfl)]
  refine (iget_spec h.sane.sound lenient_any v.root).mono ?_ fun _ _ => id
  rintro ip fs' ⟨-, -, hs, hr, x, hx, -⟩
  have hskip : skipelem [slash] = none := by decide
  have hb : fs'.log.busy = false := by rw [hx]; exact h.busy
  unfold namex.loop
  rw [hskip]
  dsimp only
  rw [if_neg (by simp), holds_pure, holds_pure]
  exact h.served (served_same h.sane hs hr) hb

theorem userinit_good (h : Good v k) (initcode : List UInt8) :
    (userinit initcode k).Holds G (fun _ k' => Good v k') fun _ _ => True := by
  unfold userinit
  rw [holds_bind]
  refine (aloof_allocproc.good h).mono (fun a k₁ h₁ => ?_) fun _ _ => id
  cases a with
  | none => dsimp only; rw [holds_panic]; trivial
  | some p =>
      dsimp only
      rw [holds_bind, holds_update, holds_bind]
      refine ran_onMm fun a mm => ?_
      cases a with
      | none => dsimp only; rw [holds_panic]; trivial
      | some pgdir =>
          dsimp only
          rw [holds_bind, ran_setProc, holds_bind]
          refine ran_onMm fun _ mm' => ?_
          rw [holds_bind, ran_setProc, holds_bind, holds_onFs]
          obtain ⟨A, h₂⟩ := h₁
          refine (namei_root_fine (h₂.congr rfl rfl)).mono (fun cwd fs' h₃ => ?_) fun _ _ => id
          rw [holds_bind, ran_setProc, ran_setProc]
          exact ⟨A, h₃.congr rfl rfl⟩

/-- The states between system calls of a machine that was started on a sane file system, while
every allocation of a block finds one below the log. -/
inductive Started (v : Volume) : Kstate → Prop
  | boot {k k' : Kstate} {A : Image} {u : List Event} (initcode : List UInt8) (hb : Booted k) (hs : Sane v A k.fs)
      (hidle : k.fs.log.busy = false) (hi : userinit initcode k = .ok () k' u) : Started v k'
  | call {k k' : Kstate} {u : List Event} {r : Int} (p : Nat) (c : Call) (hr : Started v k) (hp : Live k p)
      (he : run c { k with cur := p } = .ok r k' u) (hroom : ∀ e ∈ u, Roomy e) : Started v k'

theorem Started.reachable (h : Started v k) : Runs.Reachable False k := by
  induction h with
  | boot initcode hb _ _ hi => exact .boot initcode hb hi
  | call p c _ hp he _ ih => exact .call p c ih hp False.elim he

theorem Good.switch (h : Good v k) (p : Nat) : Good v { k with cur := p } := h.congr rfl rfl

theorem Started.good (h : Started v k) : Good v k := by
  induction h with
  | boot initcode hb hs hidle hi => exact (userinit_good ⟨_, Booted.fine hb hs hidle⟩ initcode).ok hi
  | call p c hr hp he hroom ih =>
      have hb := hr.reachable.between
      have hrun := call_good (Good.switch ih p) (Between.switch hb p) (Live.running hp) c
      rw [he] at hrun
      exact hrun hroom

end ArmXv6.FsRuns
