import ArmXv6.FileAccess

namespace ArmXv6.Runs

open Lib.Exec Lib.Bytes Lib.Count Param Blocks Fs Content Sysfile Vm Kernel Proc Exec Descriptors Syscall
open Quiet InodeRefs MemoryStops FileRefs CallRefs PipeRefs ProcRefs References FileAccess

variable {t : Prop} {k k' : Kstate} {p f : Nat} {c : Call} {ok : Stop → Prop}

/-- A pipe is made in a frame that holds no other pipe. -/
def Clear (k : Kstate) : Call → Prop
  | .pipe _ => Fresh k
  | _ => True

/-- The states between system calls: any live process makes any call. Where t holds, no call
finds a pipe in the frame that kalloc hands out for a new one. -/
inductive Reachable (t : Prop) : Kstate → Prop
  | boot {k k' : Kstate} {u : List Event} (initcode : List UInt8) (hb : Booted k)
      (hi : userinit initcode k = .ok () k' u) : Reachable t k'
  | call {k k' : Kstate} {u : List Event} {r : Int} (p : Nat) (c : Call) (hr : Reachable t k) (hp : Live k p)
      (hc : t → Clear k c) (he : run c { k with cur := p } = .ok r k' u) : Reachable t k'

theorem argfd_file {fd : Int} (hb : Between t k) (hr : Running k) (ha : argfd k fd = some f) :
    f < NFILE ∧ 0 < (k.ftable f).ref := by
  obtain ⟨hfd, hf⟩ := argfd_eq ha
  obtain ⟨hlt, hpos⟩ := hb.file hr hfd hf
  refine ⟨hlt, ?_⟩
  rw [hb.mid.files f hlt]
  exact Nat.lt_add_right _ hpos

theorem call_between (hok : Below ok) (hb : Between t k) (hr : Running k) (c : Call) (hc : t → Clear k c) :
    (run c k).Holds (fun _ => True) (fun _ k' => Between t k') fun w _ => ok w := by
  cases c with
  | pipe addr => exact sysPipe_between hok hb hr hc addr
  | read fd addr n =>
      unfold run
      rw [holds_bind, holds_fetch]
      cases ha : argfd k fd with
      | none => dsimp only; rw [holds_pure]; exact hb
      | some f =>
          obtain ⟨hf, hpos⟩ := argfd_file hb hr ha
          dsimp only
          rw [holds_bind]
          refine (fileread_between hok hb hf hpos n).mono (fun r k₁ h₁ => ?_) fun _ _ => id
          rw [holds_bind]
          refine h₁.1.onMm (tame_storeUser hok _ _ _) fun _ k₂ hb₂ _ => ?_
          rw [holds_pure]
          exact hb₂
  | fstat fd addr =>
      unfold run
      rw [holds_bind, holds_fetch]
      cases ha : argfd k fd with
      | none => dsimp only; rw [holds_pure]; exact hb
      | some f =>
          obtain ⟨hf, hpos⟩ := argfd_file hb hr ha
          dsimp only
          rw [holds_bind]
          refine (filestat_between hok hb hf hpos).mono (fun st k₁ h₁ => ?_) fun _ _ => id
          cases st with
          | none => dsimp only; rw [holds_pure]; exact h₁.1
          | some st =>
              dsimp only
              rw [holds_bind]
              refine h₁.1.onMm (tame_storeStat hok _ _ _) fun _ k₂ hb₂ _ => ?_
              rw [holds_pure]
              exact hb₂
  | write fd src n =>
      unfold run
      rw [holds_bind, holds_fetch]
      cases ha : argfd k fd with
      | none => dsimp only; rw [holds_pure]; exact hb
      | some f =>
          obtain ⟨hf, hpos⟩ := argfd_file hb hr ha
          exact filewrite_between hok hb hf hpos src n
  | _ => exact run_between hok hb hr _ trivial

theorem Live.running (hp : Live k p) : Running { k with cur := p } := ⟨hp.1, hp.2.1, hp.2.2.1, hp.2.2.2⟩

theorem Reachable.between (h : Reachable t k) : Between t k := by
  induction h with
  | boot initcode hb hi => exact (userinit_between below_true hb.between initcode).ok hi
  | call p c _ hp hc he ih =>
      exact (call_between below_true (Between.switch ih p) (Live.running hp) c hc).ok he

/-- Every stop but the two panics of the file table. -/
def notRefPanic (w : Stop) : Prop := w ≠ .panic "filedup" ∧ w ≠ .panic "fileclose"

theorem below_notRefPanic : Below notRefPanic :=
  ⟨⟨by decide, by decide⟩, fun msg h₁ h₂ => ⟨fun e => h₁ (Stop.panic.inj e), fun e => h₂ (Stop.panic.inj e)⟩⟩

theorem file_reference_conservation (h : Reachable False k) :
    (∀ f < NFILE, (k.ftable f).ref = holders k f ∧ ((k.ftable f).ref = 0 → (k.ftable f).type = .none)) ∧
    (∀ i < NINODE, (k.fs.icache i).ref = fileUsers k i + procUsers k i ∧ (k.fs.icache i).busy = false) ∧
    ∀ p c, Live k p → (run c { k with cur := p }).Holds (fun _ => True) (fun _ _ => True) fun w _ =>
      w ≠ .panic "filedup" ∧ w ≠ .panic "fileclose" := by
  have hb := h.between
  refine ⟨fun f hf => ⟨by simpa using hb.mid.files f hf, hb.mid.closed f hf⟩, fun i hi => ⟨?_, ?_⟩, fun p c hp => ?_⟩
  · simpa [users] using hb.at.ref i hi
  · have := hb.at.busy i hi
    simpa using this
  · exact (call_between below_notRefPanic (Between.switch hb p) (Live.running hp) c False.elim).mono
      (fun _ _ _ => trivial) fun _ _ => id

/-- The first process has made a pipe. -/
def afterPipe : Kstate := (run (.pipe 0) { firstProc with cur := 0 }).state

/-- The reading end has got a second descriptor. -/
def afterDup : Kstate := (run (.dup 0) { afterPipe with cur := 0 }).state

theorem reachable_first : Reachable t firstProc := by
  obtain ⟨a, h⟩ := Run.eq_ok (r := userinit [] freshKernel) (by decide +kernel)
  exact .boot [] booted_freshKernel h

theorem reachable_afterPipe : Reachable t afterPipe := by
  have hstate : (firstProc.procs 0).state = .runnable ∧ (∀ f < NFILE, (firstProc.ftable f).type = .none) ∧
      (run (.pipe 0) { firstProc with cur := 0 }).returns = true := by decide +kernel
  obtain ⟨a, h⟩ := Run.eq_ok hstate.2.2
  have hlive : Live firstProc 0 := by simp [Live, hstate.1, NPROC]
  refine .call 0 (.pipe 0) reachable_first hlive (fun _ q _ => ?_) h
  rintro ⟨f, hf, ht, -⟩
  exact absurd ((hstate.2.1 f hf).symm.trans ht) (by decide)

theorem reachable_afterDup : Reachable t afterDup := by
  have hstate : (afterPipe.procs 0).state = .runnable ∧ (run (.dup 0) { afterPipe with cur := 0 }).returns = true := by
    decide +kernel
  obtain ⟨a, h⟩ := Run.eq_ok hstate.2
  have hlive : Live afterPipe 0 := by simp [Live, hstate.1, NPROC]
  exact .call 0 (.dup 0) reachable_afterPipe hlive (fun _ => trivial) h

theorem file_reference_conservation_dup : (afterDup.ftable 0).ref = 2 ∧ holders afterDup 0 = 2 := by
  have h := (file_reference_conservation reachable_afterDup).1 0 (by decide)
  have href : (afterDup.ftable 0).ref = 2 := by decide +kernel
  exact ⟨href, h.1.symm.trans href⟩

theorem pipe_frame_conservation (h : Reachable True k) (q : Nat) :
    (∀ f, IsEnd k q f → isOpen (k.pipes q) (k.ftable f).writable = true ∧ 0 < holders k f ∧
      ∀ g, IsEnd k q g → (k.ftable f).writable = (k.ftable g).writable → f = g) ∧
    (IsPipe k q → k.piped q = k.unpiped q + 1 ∧
      ∀ w, isOpen (k.pipes q) w = true → ∃ f, IsEnd k q f ∧ (k.ftable f).writable = w) ∧
    (¬IsPipe k q → k.piped q = k.unpiped q) := by
  have hb := h.between
  have hp := hb.mid.pipes trivial
  refine ⟨fun f hf => ⟨hp.ends q f hf, ?_, fun g => hp.unique q f g hf⟩, fun hq =>
    ⟨hp.counted q hq, hp.opened q hq⟩, hp.gone q⟩
  rw [Nat.pos_iff_ne_zero]
  intro hz
  have hc := hb.mid.closed f hf.1 (by rw [hb.mid.files f hf.1, hz]; rfl)
  rw [hf.2.1] at hc
  cases hc

theorem pipe_frame_conservation_dup : afterDup.piped 0x900000 = afterDup.unpiped 0x900000 + 1 := by
  have h := (pipe_frame_conservation reachable_afterDup 0x900000).2.1
  have hend : (afterDup.ftable 0).type = .pipe ∧ (afterDup.ftable 0).pipe = 0x900000 := by decide +kernel
  exact (h ⟨0, by decide, hend.1, hend.2⟩).1

end ArmXv6.Runs
