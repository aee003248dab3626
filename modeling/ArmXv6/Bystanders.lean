import ArmXv6.Descriptors
import ArmXv6.Exec

namespace ArmXv6.Bystanders

open Lib.Exec Param Blocks Fs Content Vm Kernel Proc Exec Descriptors

/-- A property that files, memory and descriptors do not matter to: only who runs, and each
process's trap frame, state and name. -/
structure Steady (I : Kstate → Prop) : Prop where
  update : ∀ g : Kstate → Kstate, (∀ k, (g k).cur = k.cur) → (∀ k, (g k).procs = k.procs) → ∀ k, I k → I (g k)
  setProc : ∀ (p : Nat) (g : Kernel.Proc → Kernel.Proc), (∀ x, (g x).tf = x.tf) → (∀ x, (g x).state = x.state) →
    (∀ x, (g x).name = x.name) →
    ∀ k : Kstate, I k → I { k with procs := Function.update k.procs p (g (k.procs p)) }

/-- The code keeps whatever is steady. -/
def Harmless {α : Type} (m : KM α) : Prop := ∀ I, Steady I → Preserves I m

section Harmless

variable {α β : Type}

theorem Harmless.pure (a : α) : Harmless (Pure.pure a : KM α) := fun _ _ => .pure a

theorem Harmless.fetch : Harmless (fetch : KM Kstate) := fun _ _ => .fetch

theorem Harmless.panic (msg : String) : Harmless (Prog.panic msg : KM α) := fun _ _ => .panic msg

theorem Harmless.sleep : Harmless (Prog.sleep : KM α) := fun _ _ => .sleep

theorem Harmless.bind {m : KM β} {f : β → KM α} (hm : Harmless m) (hf : ∀ b, Harmless (f b)) :
    Harmless (m >>= f) := fun I h =>
  (hm I h).bind fun b => hf b I h

theorem Harmless.ite {p : Prop} [Decidable p] {m n : KM α} (hm : Harmless m) (hn : Harmless n) :
    Harmless (if p then m else n) := fun I h =>
  (hm I h).ite (hn I h)

theorem Harmless.update {g : Kstate → Kstate} (hcur : ∀ k, (g k).cur = k.cur) (hprocs : ∀ k, (g k).procs = k.procs) :
    Harmless (update g) :=
  fun _ h => .update (h.update g hcur hprocs)

theorem harmless_onFs (m : FsM α) : Harmless (onFs m) := by
  intro I h k hk
  unfold onFs
  rw [holds_zoom]
  cases m k.fs with
  | ok a fs' u => exact fun _ => h.update (fun k => { k with fs := fs' }) (fun _ => rfl) (fun _ => rfl) k hk
  | stop w fs' u => exact fun _ => trivial

theorem harmless_onMm (m : MmM α) : Harmless (onMm m) := by
  intro I h k hk
  unfold onMm
  rw [holds_zoom]
  cases m k.mm with
  | ok a mm' u => exact fun _ => h.update (fun k => { k with mm := mm' }) (fun _ => rfl) (fun _ => rfl) k hk
  | stop w mm' u => exact fun _ => trivial

theorem harmless_setFile (f : Nat) (g : File → File) : Harmless (setFile f g) := .update (fun _ => rfl) fun _ => rfl

theorem harmless_setPipe (p : Nat) (g : Pipe → Pipe) : Harmless (setPipe p g) := .update (fun _ => rfl) fun _ => rfl

theorem harmless_setProc (p : Nat) {g : Kernel.Proc → Kernel.Proc} (htf : ∀ x, (g x).tf = x.tf)
    (hst : ∀ x, (g x).state = x.state)
    (hname : ∀ x, (g x).name = x.name) : Harmless (setProc p g) := fun _ h => .update (h.setProc p g htf hst hname)

end Harmless

theorem harmless_proc : Harmless proc := .bind .fetch fun _ => .pure _

theorem harmless_filealloc : Harmless filealloc := by
  unfold filealloc
  refine .bind .fetch fun k => ?_
  cases (List.range NFILE).find? fun f => (k.ftable f).ref = 0 with
  | none => exact .pure _
  | some f => exact .bind (harmless_setFile f _) fun _ => .pure _

theorem harmless_filedup (f : Nat) : Harmless (filedup f) :=
  .bind .fetch fun _ => .ite (.panic _) (.bind (harmless_setFile f _) fun _ => .pure _)

theorem harmless_pipeclose (p : Nat) (w : Bool) : Harmless (pipeclose p w) := by
  unfold pipeclose
  refine .bind (.ite (harmless_setPipe p _) (harmless_setPipe p _)) fun _ => .bind .fetch fun _ => .ite ?_ (.pure _)
  exact .bind (.update (fun _ => rfl) fun _ => rfl) fun _ => harmless_onMm _

theorem harmless_fileclose (f : Nat) : Harmless (fileclose f) := by
  unfold fileclose
  refine .bind .fetch fun k => .ite (.panic _) (.ite (harmless_setFile f _) (.bind (harmless_setFile f _) fun _ => ?_))
  cases (k.ftable f).type with
  | none => exact .pure _
  | pipe => exact harmless_pipeclose _ _
  | inode => exact harmless_onFs _

theorem harmless_pipealloc_bad (p f0 f1 : Option Nat) : Harmless (pipealloc.bad p f0 f1) := by
  unfold pipealloc.bad
  refine .bind ?_ fun _ => .bind ?_ fun _ => .bind ?_ fun _ => .pure _
  · cases p with
    | none => exact .pure _
    | some p => exact harmless_onMm _
  · cases f0 with
    | none => exact .pure _
    | some f => exact harmless_fileclose f
  · cases f1 with
    | none => exact .pure _
    | some f => exact harmless_fileclose f

theorem harmless_pipealloc : Harmless pipealloc := by
  unfold pipealloc
  refine .bind harmless_filealloc fun f0 => ?_
  cases f0 with
  | none => exact harmless_pipealloc_bad _ _ _
  | some f0 =>
      refine .bind harmless_filealloc fun f1 => ?_
      cases f1 with
      | none => exact harmless_pipealloc_bad _ _ _
      | some f1 =>
          refine .bind (harmless_onMm _) fun p => ?_
          cases p with
          | none => exact harmless_pipealloc_bad _ _ _
          | some p =>
              exact .bind (.update (fun _ => rfl) fun _ => rfl) fun _ => .bind (harmless_setPipe p _) fun _ =>
                .bind (harmless_setFile f0 _) fun _ => .bind (harmless_setFile f1 _) fun _ => .pure _

theorem harmless_fdalloc (f : Nat) : Harmless (fdalloc f) := by
  unfold fdalloc
  refine .bind .fetch fun k => ?_
  cases (List.range NOFILE).find? fun fd => (k.procs k.cur).ofile fd = none with
  | none => exact .pure _
  | some fd => exact .bind (harmless_setProc _ (fun _ => rfl) (fun _ => rfl) fun _ => rfl) fun _ => .pure _

theorem harmless_pipewrite (p : Nat) (src : Nat → UInt8) (n : Int) : Harmless (pipewrite p src n) := by
  unfold pipewrite
  generalize n.toNat + 1 = fuel
  generalize 0 = i
  induction fuel generalizing i with
  | zero => exact .pure _
  | succ fuel ih =>
      exact .bind .fetch fun _ =>
        .ite (.ite (.ite (.pure _) .sleep) (.bind (harmless_setPipe p _) fun _ => ih _)) (.pure _)

theorem harmless_piperead (p : Nat) (n : Int) : Harmless (piperead p n) := by
  have hloop : ∀ fuel acc, Harmless (piperead.loop p n fuel acc) := by
    intro fuel
    induction fuel with
    | zero => exact fun _ => .pure _
    | succ fuel ih => exact fun _ => .bind .fetch fun _ => .ite (.bind (harmless_setPipe p _) fun _ => ih _) (.pure _)
  exact .bind .fetch fun _ => .ite (.ite (.pure _) .sleep) (.bind (hloop _ _) fun _ => .pure _)

theorem harmless_fileread (f : Nat) (n : Int) : Harmless (fileread f n) := by
  unfold fileread
  refine .bind .fetch fun k => .ite (.pure _) ?_
  cases (k.ftable f).type with
  | none => exact .panic _
  | pipe => exact harmless_piperead _ _
  | inode =>
      exact .bind (harmless_onFs _) fun _ => .bind (harmless_onFs _) fun r =>
        .bind (.ite (harmless_setFile f _) (.pure _)) fun _ =>
        .bind (harmless_onFs _) fun _ => .pure _

theorem harmless_filewrite (f : Nat) (src : Nat → UInt8) (n : Int) : Harmless (filewrite f src n) := by
  have hloop : ∀ fuel i, Harmless (filewrite.loop f src n fuel i) := by
    intro fuel
    induction fuel with
    | zero => exact fun _ => .pure _
    | succ fuel ih =>
        intro i
        exact .ite (.bind .fetch fun _ => .bind (harmless_onFs _) fun _ => .bind (harmless_onFs _) fun _ =>
          .bind (harmless_onFs _) fun r =>
          .bind (.ite (harmless_setFile f _) (.pure _)) fun _ => .bind (harmless_onFs _) fun _ =>
            .bind (harmless_onFs _) fun _ =>
          .ite (.pure _) (.ite (.panic _) (ih _))) (.pure _)
  unfold filewrite
  refine .bind .fetch fun k => .ite (.pure _) ?_
  cases (k.ftable f).type with
  | none => exact .panic _
  | pipe => exact harmless_pipewrite _ _ _
  | inode => exact hloop _ _

theorem harmless_filestat (f : Nat) : Harmless (filestat f) := by
  unfold filestat
  refine .bind .fetch fun k => ?_
  cases (k.ftable f).type with
  | none => exact .pure _
  | pipe => exact .pure _
  | inode => exact .bind (harmless_onFs _) fun _ => .bind .fetch fun _ => .bind (harmless_onFs _) fun _ => .pure _

theorem harmless_sysDup (fd : Int) : Harmless (sysDup fd) := by
  unfold sysDup
  refine .bind .fetch fun k => ?_
  cases argfd k fd with
  | none => exact .pure _
  | some f =>
      refine .bind (harmless_fdalloc f) fun fd' => ?_
      cases fd' with
      | none => exact .pure _
      | some fd' => exact .bind (harmless_filedup f) fun _ => .pure _

theorem harmless_sysClose (fd : Int) : Harmless (sysClose fd) := by
  unfold sysClose
  refine .bind .fetch fun k => ?_
  cases argfd k fd with
  | none => exact .pure _
  | some f =>
      exact .bind (harmless_setProc _ (fun _ => rfl) (fun _ => rfl) fun _ => rfl) fun _ =>
        .bind (harmless_fileclose f) fun _ => .pure _

theorem harmless_open_bad (f : Option Nat) (ip : Nat) : Harmless (sysOpen.bad f ip) := by
  unfold sysOpen.bad
  refine .bind ?_ fun _ => .bind (harmless_onFs _) fun _ => .pure _
  cases f with
  | none => exact .pure _
  | some f => exact harmless_fileclose f

theorem harmless_sysOpen (path : List UInt8) (omode : Nat) : Harmless (sysOpen path omode) := by
  unfold sysOpen
  refine .bind harmless_proc fun p => .bind (harmless_onFs _) fun ip => ?_
  cases ip with
  | none => exact .pure _
  | some ip =>
      refine .bind harmless_filealloc fun f => ?_
      cases f with
      | none => exact harmless_open_bad _ _
      | some f =>
          refine .bind (harmless_fdalloc f) fun fd => ?_
          cases fd with
          | none => exact harmless_open_bad _ _
          | some fd => exact .bind (harmless_onFs _) fun _ => .bind (harmless_setFile f _) fun _ => .pure _

theorem harmless_sysChdir (path : List UInt8) : Harmless (sysChdir path) := by
  unfold sysChdir
  refine .bind .fetch fun k => .bind (harmless_onFs _) fun ip => ?_
  cases ip with
  | none => exact .pure _
  | some ip =>
      exact .bind (harmless_onFs _) fun _ => .bind .fetch fun _ => .ite (.bind (harmless_onFs _) fun _ => .pure _)
        (.bind (harmless_onFs _) fun _ => .bind (harmless_onFs _) fun _ =>
          .bind (harmless_setProc _ (fun _ => rfl) (fun _ => rfl) fun _ => rfl) fun _ => .pure _)

theorem harmless_sysPipe (addr : Nat) : Harmless (sysPipe addr) := by
  unfold sysPipe
  refine .bind .fetch fun k => .bind harmless_pipealloc fun ends => ?_
  cases ends with
  | none => exact .pure _
  | some ends =>
      refine .bind (harmless_fdalloc _) fun fd0 => ?_
      cases fd0 with
      | none => exact .bind (harmless_fileclose _) fun _ => .bind (harmless_fileclose _) fun _ => .pure _
      | some fd0 =>
          refine .bind (harmless_fdalloc _) fun fd1 => ?_
          cases fd1 with
          | none =>
              exact .bind (harmless_setProc _ (fun _ => rfl) (fun _ => rfl) fun _ => rfl) fun _ =>
                .bind (harmless_fileclose _) fun _ =>
                .bind (harmless_fileclose _) fun _ => .pure _
          | some fd1 => exact .bind (harmless_onMm _) fun _ => .pure _

theorem harmless_growproc (n : Int) : Harmless (growproc n) := by
  unfold growproc
  refine .bind .fetch fun k => .bind (.ite (harmless_onMm _) (.ite (harmless_onMm _) (.pure _))) fun sz =>
    .ite (.pure _) ?_
  exact .bind (harmless_setProc _ (fun _ => rfl) (fun _ => rfl) fun _ => rfl) fun _ =>
    .bind (.bind .fetch fun _ => .ite (.panic _) (.ite (.panic _) (.pure _)))
    fun _ => .pure _

theorem harmless_dupFiles (np : Nat) (l : List Nat) : Harmless (fork.dupFiles np l) := by
  induction l with
  | nil => exact .pure _
  | cons i rest ih =>
      unfold fork.dupFiles
      refine .bind .fetch fun k => .bind ?_ fun _ => ih
      cases (k.procs k.cur).ofile i with
      | none => exact .pure _
      | some f =>
          exact .bind (harmless_filedup f) fun _ => harmless_setProc np (fun _ => rfl) (fun _ => rfl) fun _ => rfl

theorem harmless_closeFiles (l : List Nat) : Harmless (exit.closeFiles l) := by
  induction l with
  | nil => exact .pure _
  | cons fd rest ih =>
      unfold exit.closeFiles
      refine .bind .fetch fun k => .bind ?_ fun _ => ih
      cases (k.procs k.cur).ofile fd with
      | none => exact .pure _
      | some f =>
          exact .bind (harmless_fileclose f) fun _ => harmless_setProc _ (fun _ => rfl) (fun _ => rfl) fun _ => rfl

theorem harmless_switchuvm {p : Nat} : Harmless (switchuvm p) := .bind .fetch fun _ =>
    .ite (.panic _) (.ite (.panic _) (.pure _))

theorem harmless_loaduvm (d addr ip offset sz : Nat) : Harmless (loaduvm d addr ip offset sz) := by
  have hloop : ∀ fuel i, Harmless (loaduvm.loop d addr ip offset sz fuel i) := by
    intro fuel
    induction fuel with
    | zero => exact fun _ => .pure _
    | succ fuel ih =>
        intro i
        refine .ite (.bind (harmless_onMm _) fun pte => ?_) (.pure _)
        cases pte with
        | none => exact .panic _
        | some pte =>
            exact .bind .fetch fun _ => .bind (harmless_onFs _) fun _ => .bind (harmless_onMm _) fun _ =>
              .ite (.pure _) (ih _)
  exact .ite (.panic _) (hloop _ _)

theorem harmless_segments (d ip count off sz : Nat) (ph : List UInt8) :
    Harmless (exec.segments d ip ph count off sz) := by
  induction count generalizing ph off sz with
  | zero => exact .pure _
  | succ count ih =>
      exact .bind (harmless_onFs _) fun _ =>
        .ite (.pure _) (.ite (ih _ _ _) (.ite (.pure _) (.bind (harmless_onMm _) fun _ => .ite (.pure _)
        (.bind (harmless_loaduvm _ _ _ _ _) fun _ => .ite (.pure _) (ih _ _ _)))))

theorem harmless_exec_bad (d ip : Option Nat) : Harmless (exec.bad d ip) := by
  unfold exec.bad
  refine .bind ?_ fun _ => .bind ?_ fun _ => .pure _
  · cases d with
    | none => exact .pure _
    | some d => exact harmless_onMm _
  · cases ip with
    | none => exact .pure _
    | some ip => exact harmless_onFs _

end ArmXv6.Bystanders
