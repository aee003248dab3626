import ArmXv6.FrameWorld

namespace ArmXv6.FrameAside

open Lib.Exec Lib.Bytes Param Blocks Fs Content Sysfile Vm Kernel Proc Descriptors Syscall SpaceCalls FrameWorld
open FileRefs CallRefs

/-- The code takes no frame and gives none back, and stores nothing in memory. -/
def Aside {α : Type} (m : KM α) : Prop := ∀ k, (m k).Holds NoLeak (fun _ k' => Alike k k') fun _ _ => True

variable {α β : Type} {k k' : Kstate} {f p : Nat}

theorem Aside.pure (a : α) : Aside (pure a) := fun k => by
  rw [holds_pure]
  exact .refl k

theorem Aside.panic (msg : String) : Aside (Prog.panic msg : KM α) := fun k => by
  rw [holds_panic]
  trivial

theorem Aside.sleep : Aside (Prog.sleep : KM α) := fun k => by
  rw [holds_sleep]
  trivial

theorem Aside.fetch : Aside fetch := fun k => by
  rw [holds_fetch]
  exact .refl k

theorem Aside.update {g : Kstate → Kstate} (h : ∀ k, Alike k (g k)) : Aside (Lib.Exec.update g) := fun k => by
  rw [holds_update]
  exact h k

theorem Aside.bind {m : KM β} {n : β → KM α} (hm : Aside m) (hn : ∀ b, Aside (n b)) : Aside (m >>= n) := fun k => by
  rw [holds_bind]
  exact (hm k).mono (fun b k₁ h₁ => (hn b k₁).mono (fun _ _ h₂ => h₁.trans h₂) fun _ _ => id) fun _ _ => id

theorem Aside.ite {c : Prop} [Decidable c] {m n : KM α} (hm : Aside m) (hn : Aside n) : Aside (if c then m else n) := by
  split
  case isTrue => exact hm
  case isFalse => exact hn

theorem Aside.onFs (m : FsM α) : Aside (onFs m) := fun k => by
  unfold Kernel.onFs
  rw [holds_zoom]
  cases m k.fs with
  | ok a fs' u => exact fun _ => ⟨rfl, rfl, fun _ => Iff.rfl, fun _ => rfl, rfl⟩
  | stop w fs' u => exact fun _ => trivial

theorem Aside.setProc {g : Kernel.Proc → Kernel.Proc} (h : ∀ x, core (g x) = core x) : Aside (setProc p g) := by
  refine .update fun k => ⟨rfl, rfl, fun _ => Iff.rfl, fun q => ?_, rfl⟩
  dsimp only
  by_cases hq : q = p
  · subst hq
    rw [Function.update_self]
    exact h _
  · rw [Function.update_of_ne hq]

/-- An entry of the file table changes, but neither its type nor its pipe. -/
theorem alike_withFile {x : File} (h : x.type = .pipe ↔ (k.ftable f).type = .pipe) (hp : x.type = .pipe →
    x.pipe = (k.ftable f).pipe) :
    Alike k (withFile k f x) := by
  refine ⟨rfl, rfl, fun q => exists_congr fun g => ?_, fun _ => rfl, rfl⟩
  by_cases hg : g = f
  · subst hg
    unfold IsEnd
    rw [ftable_withFile, if_pos rfl, h]
    refine and_congr_right fun _ => and_congr_right fun ht => ?_
    rw [hp (h.mpr ht)]
  · unfold IsEnd
    rw [ftable_withFile, if_neg hg]

theorem Aside.setFile {g : File → File} (h : ∀ x, (g x).type = x.type ∧ (g x).pipe = x.pipe) :
    Aside (setFile f g) := fun k => by
  unfold Kernel.setFile
  rw [holds_update]
  exact alike_withFile (by rw [(h _).1]) fun _ => (h _).2

theorem Aside.setPipe (q : Nat) (g : Pipe → Pipe) : Aside (setPipe q g) := .update fun _ =>
    ⟨rfl, rfl, fun _ => Iff.rfl, fun _ => rfl, rfl⟩

theorem aside_proc : Aside proc := .bind .fetch fun _ => .pure _

theorem aside_filedup (f : Nat) : Aside (filedup f) :=
  .bind .fetch fun _ => .ite (.panic _) (.bind (.setFile fun _ => ⟨rfl, rfl⟩) fun _ => .pure _)

theorem aside_fdalloc (f : Nat) : Aside (fdalloc f) := by
  refine .bind .fetch fun k => ?_
  cases (List.range NOFILE).find? fun fd => (k.procs k.cur).ofile fd = none with
  | none => exact .pure _
  | some fd => exact .bind (.setProc fun _ => rfl) fun _ => .pure _

theorem aside_sysDup (fd : Int) : Aside (sysDup fd) := by
  refine .bind .fetch fun k => ?_
  cases argfd k fd with
  | none => exact .pure _
  | some f =>
      refine .bind (aside_fdalloc f) fun a => ?_
      cases a with
      | none => exact .pure _
      | some fd' => exact .bind (aside_filedup f) fun _ => .pure _

theorem aside_sysChdir (path : List UInt8) : Aside (sysChdir path) := by
  refine .bind .fetch fun k => .bind (.onFs _) fun a => ?_
  cases a with
  | none => exact .pure _
  | some ip =>
      refine .bind (.onFs _) fun _ => .bind .fetch fun k' => .ite (.bind (.onFs _) fun _ => .pure _) ?_
      exact .bind (.onFs _) fun _ => .bind (.onFs _) fun _ => .bind (.setProc fun _ => rfl) fun _ => .pure _

theorem aside_kill (pid : Nat) : Aside (kill pid) := by
  refine .bind .fetch fun k => ?_
  cases (List.range NPROC).find? fun p => (k.procs p).pid = pid with
  | none => exact .pure _
  | some p =>
      refine .bind (.setProc fun x => ?_) fun _ => .pure _
      unfold core
      cases x.state <;> rfl

theorem aside_pipewrite (q : Nat) (src : Nat → UInt8) (n : Int) : Aside (pipewrite q src n) := by
  unfold pipewrite
  generalize n.toNat + 1 = fuel
  generalize 0 = i
  induction fuel generalizing i with
  | zero => exact .pure _
  | succ fuel ih =>
      exact .bind .fetch fun k => .ite (.ite (.ite (.pure _) .sleep) (.bind (.setPipe q _) fun _ => ih _)) (.pure _)

theorem aside_piperead (q : Nat) (n : Int) : Aside (piperead q n) := by
  have hloop : ∀ fuel acc, Aside (piperead.loop q n fuel acc) := by
    intro fuel
    induction fuel with
    | zero => exact fun _ => .pure _
    | succ fuel ih => exact fun acc => .bind .fetch fun k => .ite (.bind (.setPipe q _) fun _ => ih _) (.pure _)
  exact .bind .fetch fun k => .ite (.ite (.pure _) .sleep) (.bind (hloop _ _) fun _ => .pure _)

theorem aside_fileread (f : Nat) (n : Int) : Aside (fileread f n) := by
  refine .bind .fetch fun k => .ite (.pure _) ?_
  cases (k.ftable f).type with
  | none => exact .panic _
  | pipe => exact aside_piperead _ n
  | inode =>
      exact .bind (.onFs _) fun _ => .bind (.onFs _) fun r =>
        .bind (.ite (.setFile fun _ => ⟨rfl, rfl⟩) (.pure _)) fun _ => .bind (.onFs _) fun _ => .pure _

theorem aside_filewrite (f : Nat) (src : Nat → UInt8) (n : Int) : Aside (filewrite f src n) := by
  have hloop : ∀ fuel i, Aside (filewrite.loop f src n fuel i) := by
    intro fuel
    induction fuel with
    | zero => exact fun _ => .pure _
    | succ fuel ih =>
        intro i
        refine .ite (.bind .fetch fun k => .bind (.onFs _) fun _ => .bind (.onFs _) fun _ => .bind (.onFs _) fun r =>
          ?_) (.pure _)
        exact .bind (.ite (.setFile fun _ => ⟨rfl, rfl⟩) (.pure _)) fun _ => .bind (.onFs _) fun _ =>
          .bind (.onFs _) fun _ =>
          .ite (.pure _) (.ite (.panic _) (ih _))
  refine .bind .fetch fun k => .ite (.pure _) ?_
  cases (k.ftable f).type with
  | none => exact .panic _
  | pipe => exact aside_pipewrite _ src n
  | inode => exact hloop _ _

theorem aside_filestat (f : Nat) : Aside (filestat f) := by
  refine .bind .fetch fun k => ?_
  cases (k.ftable f).type with
  | none | pipe => exact .pure _
  | inode => exact .bind (.onFs _) fun _ => .bind .fetch fun _ => .bind (.onFs _) fun _ => .pure _

theorem aside_dupFiles (np : Nat) (l : List Nat) : Aside (fork.dupFiles np l) := by
  induction l with
  | nil => exact .pure _
  | cons i rest ih =>
      refine .bind .fetch fun k => .bind ?_ fun _ => ih
      cases (k.procs k.cur).ofile i with
      | none => exact .pure _
      | some f => exact .bind (aside_filedup f) fun f' => .setProc fun _ => rfl

theorem aside_reparent : Aside (Lib.Exec.update exit.reparent) := by
  refine .update fun k => ⟨rfl, rfl, fun _ => Iff.rfl, fun p => ?_, rfl⟩
  unfold exit.reparent
  dsimp only
  split <;> rfl

end ArmXv6.FrameAside
