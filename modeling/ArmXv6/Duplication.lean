import Mathlib.Data.List.TakeWhile
import ArmXv6.Bystanders
import ArmXv6.ForkCopy
import ArmXv6.References

namespace ArmXv6.Duplication

open Lib.Exec Lib.Bytes Lib.Frames Param Blocks Fs Content Vm Kernel Proc Descriptors Syscall
open AddressSpace Bystanders Resize UserBuffers ExecInputs ForkCopy CallRefs ProcRefs References
open FileRefs (SameProcs)
open Growproc (pages)

variable {k k' : Kstate} {np : Nat}

/-- The address space of the running process has its shape and a new directory will be empty. -/
structure Shape (k : Kstate) : Prop where
  shaped : Growproc.Shaped k
  clean : Clean k.mm

theorem Shape.pop (hs : Shape k) {f : Nat} {rest : List Nat} (hl : k.mm.freelist = f :: rest) :
    Space { k.mm with freelist := rest } (k.procs k.cur).pgdir ∧
      AddressSpace.Below { k.mm with freelist := rest } (k.procs k.cur).pgdir (pages (k.procs k.cur).sz) ∧
      Clean { k.mm with freelist := rest } := by
  refine ⟨(hs.shaped.space.pop hl).1, fun g hg => ?_, fun x hx i hi => ?_⟩
  · rw [entry_freelist]
    exact hs.shaped.below g hg
  · refine hs.clean x ?_ i hi
    rw [hl]
    exact List.mem_cons_of_mem f hx

/-- A process that lives has a name that fits its field. -/
def Fits (x : Kernel.Proc) : Prop :=
  x.state ≠ .unused → x.state ≠ .embryo → x.state ≠ .zombie → safestrcpy x.name 16 = x.name

def Named (k : Kstate) : Prop := ∀ p, p < NPROC → Fits (k.procs p)

section Names

variable {α : Type}

theorem Fits.idle {x : Kernel.Proc} (h : x.state = .unused ∨ x.state = .embryo ∨ x.state = .zombie) : Fits x := by
  intro h₁ h₂ h₃
  rcases h with h | h | h
  · exact absurd h h₁
  · exact absurd h h₂
  · exact absurd h h₃

end Names

/-- The calls whose runs are looked at. -/
def Tabled : Call → Prop
  | .fork | .open .. | .close .. | .exit | .wait => True
  | _ => False

/-- The states of the process table that these calls lead to, each made by any live process. -/
inductive Reached : Kstate → Prop
  | boot {k k' : Kstate} {t : List Event} (initcode : List UInt8) (hb : Booted k)
      (hi : userinit initcode k = .ok () k' t) : Reached k'
  | call {k k' : Kstate} {t : List Event} {r : Int} (p : Nat) (c : Call) (hr : Reached k) (hp : Live k p)
      (hc : Tabled c) (he : run c { k with cur := p } = .ok r k' t) : Reached k'

theorem Reached.reachable (h : Reached k) : Reachable k := by
  induction h with
  | boot initcode hb hi => exact .boot initcode hb hi
  | call p c _ hp hc he ih =>
      refine .call p c ih hp ?_ he
      cases c <;> trivial

theorem freshKernel_frame : ∀ f, f ∈ freshKernel.mm.freelist → Frame freshKernel.mm f := by
  intro f hf
  obtain ⟨n, hn, rfl⟩ := List.mem_map.1 hf
  have hlt : n < 8 := List.mem_range.1 hn
  refine ⟨?_, ?_, ?_, ?_⟩
  · rw [frame_eq]
    omega
  · change 0x100000 ≤ _
    omega
  · rw [frame_eq, phystop_eq]
    omega
  · omega

end ArmXv6.Duplication
