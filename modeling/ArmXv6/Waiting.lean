import Mathlib.Algebra.Order.BigOperators.Group.Finset
import ArmXv6.ProcInvariant
import ArmXv6.PipeStream

namespace ArmXv6.Waiting

open Param Kernel ProcTable ProcInvariant
open PipeStream (buffer)

/-- Where a process stands in pipewrite or piperead of the pipe at k. -/
inductive Call
  | writer (k : Nat) (n : Int) (rest : List UInt8)
  | reader (k : Nat) (n : Int)

/-- The process table with the pipes. fds counts the descriptors that a process has for an end
of a pipe, so f->ref of that end is their sum. -/
structure Sys where
  table : Table
  pipes : Nat → Option Pipe
  calls : Fin NPROC → Option Call
  fds : Fin NPROC → Nat → Bool → Nat

/-- The address of p->nread: it comes after the lock, whose call stack has 32 words, and the data. -/
def nread (k : Nat) : Chan := .addr (k + 140 + PIPESIZE)

def nwrite (k : Nat) : Chan := .addr (k + 144 + PIPESIZE)

def setCall (p : Fin NPROC) (c : Option Call) (s : Sys) : Sys := { s with calls := Function.update s.calls p c }

def setPipe (k : Nat) (x : Option Pipe) (s : Sys) : Sys := { s with pipes := Function.update s.pipes k x }

def setTable (t : Table) (s : Sys) : Sys := { s with table := t }

def setFds (p : Fin NPROC) (k : Nat) (w : Bool) (n : Nat) (s : Sys) : Sys :=
  { s with fds := Function.update s.fds p (Function.update (s.fds p) k (Function.update (s.fds p k) w n)) }

/-- pipewrite from its start or from its sleep, up to its end or its next sleep. -/
def pipewrite (p : Fin NPROC) (k : Nat) (n : Int) (rest : List UInt8) (x : Pipe) (s : Sys) : Sys :=
  let r := PipeStream.pipewrite.loop rest x
  match r.1 with
  | .done => setCall p none (setPipe k r.2.2.1 (setTable (wakeup1 s.table (nread k)) s))
  | .broken => setCall p none (setPipe k r.2.2.1 s)
  | .full =>
      setCall p (some (.writer k n r.2.1))
        (setPipe k r.2.2.1 (setTable (sleep (wakeup1 s.table (nread k)) p (nwrite k)) s))

/-- piperead from its start or from its sleep, up to its end or its next sleep. -/
def piperead (p : Fin NPROC) (k : Nat) (n : Int) (x : Pipe) (s : Sys) : Sys :=
  if x.nread = x.nwrite ∧ x.writeopen then
    if (s.table.slots p).killed then setCall p none s
    else setCall p (some (.reader k n)) (setTable (sleep s.table p (nread k)) s)
  else setCall p none (setPipe k (PipeStream.piperead.loop n.toNat x).2 (setTable (wakeup1 s.table (nwrite k)) s))

def pipeclose (k : Nat) (w : Bool) (x : Pipe) (s : Sys) : Sys :=
  let x' := if w then { x with writeopen := false } else { x with readopen := false }
  setPipe k (if ¬x'.readopen ∧ ¬x'.writeopen then none else some x')
    (setTable (wakeup1 s.table (if w then nread k else nwrite k)) s)

/-- fileclose of a descriptor: the last one closes the end of the pipe. -/
def fileclose (p : Fin NPROC) (k : Nat) (w : Bool) (x : Pipe) (s : Sys) : Sys :=
  let s' := setFds p k w (s.fds p k w - 1) s
  if 0 < ∑ q, s'.fds q k w then s' else pipeclose k w x s'

/-- The process that runs is not inside a call on a pipe. -/
structure Runs (p : Fin NPROC) (s : Sys) : Prop where
  proc : s.table.proc = some p
  calls : s.calls p = none

/-- The steps of the process table and those of the pipes. fork hands the descriptors to the
child, and exit gives all of them up before the process ends. -/
inductive Step : Sys → Sys → Prop
  | scheduler {s : Sys} {t : Table} (p : Fin NPROC) (h : ProcTable.scheduler s.table p = some t) : Step s (setTable t s)
  | wakeup {s : Sys} (ch : Chan) : Step s (setTable (wakeup1 s.table ch) s)
  | act {s : Sys} {t : Table} {a : Action} {e : List Event} (p : Fin NPROC) (hp : Runs p s) (ha : a ≠ .copyuvm true)
      (hf : a = .finish → ∀ k w, s.fds p k w = 0) (h : act s.table p a = some (t, e)) : Step s (setTable t s)
  | copy {s : Sys} (p np : Fin NPROC) (hp : Runs p s) (hc : s.table.pc p = .stacked np) :
      Step s { s with table := fork.copy s.table p np, fds := Function.update s.fds np (s.fds p) }
  | pipealloc {s : Sys} (p : Fin NPROC) (k : Nat) (data : Nat → UInt8) (hp : Runs p s) (hc : s.table.pc p = .other)
      (hk : s.pipes k = none) :
      Step s (setFds p k false 1 (setFds p k true 1 (setPipe k (some (PipeStream.pipealloc data)) s)))
  | dup {s : Sys} (p : Fin NPROC) (k : Nat) (w : Bool) (hp : Runs p s) (hf : 0 < s.fds p k w) :
      Step s (setFds p k w (s.fds p k w + 1) s)
  | write {s : Sys} {x : Pipe} (p : Fin NPROC) (k : Nat) (addr : Nat → UInt8) (n : Int) (hp : Runs p s)
      (hc : s.table.pc p = .other) (hf : 0 < s.fds p k true) (hx : s.pipes k = some x) :
      Step s (pipewrite p k n ((List.range n.toNat).map addr) x s)
  | read {s : Sys} {x : Pipe} (p : Fin NPROC) (k : Nat) (n : Int) (hp : Runs p s) (hc : s.table.pc p = .other)
      (hf : 0 < s.fds p k false) (hx : s.pipes k = some x) : Step s (piperead p k n x s)
  | rewrite {s : Sys} {x : Pipe} (p : Fin NPROC) (k : Nat) (n : Int) (rest : List UInt8) (hp : s.table.proc = some p)
      (hc : s.calls p = some (.writer k n rest)) (hx : s.pipes k = some x) : Step s (pipewrite p k n rest x s)
  | reread {s : Sys} {x : Pipe} (p : Fin NPROC) (k : Nat) (n : Int) (hp : s.table.proc = some p)
      (hc : s.calls p = some (.reader k n)) (hx : s.pipes k = some x) : Step s (piperead p k n x s)
  | close {s : Sys} {x : Pipe} (p : Fin NPROC) (k : Nat) (w : Bool) (hp : Runs p s) (hf : 0 < s.fds p k w)
      (hx : s.pipes k = some x) : Step s (fileclose p k w x s)

def boot : Sys := ⟨userinit, fun _ => none, fun _ => none, fun _ _ _ => 0⟩

inductive Reaches : Sys → Prop
  | boot : Reaches boot
  | step {s s' : Sys} (h : Reaches s) (hs : Step s s') : Reaches s'

/-- The process sleeps in wait. -/
def Dozes (t : Table) (p : Fin NPROC) : Prop := (t.slots p).state = .sleeping ∧ t.pc p = .waiting

/-- Who sleeps in wait has a child, none of his children is a zombie, and a slot that nobody
has is nobody's child. -/
structure Waiters (t : Table) : Prop where
  chan : ∀ p, Dozes t p → (t.slots p).chan = some (.proc p)
  child : ∀ p, Dozes t p → ∃ q, (t.slots q).parent = some p
  alive : ∀ p q, Dozes t p → (t.slots q).parent = some p → (t.slots q).state ≠ .zombie
  unused : ∀ q, (t.slots q).state = .unused → (t.slots q).parent = none
  embryo : ∀ p np, t.pc p = .embryo np ∨ t.pc p = .stacked np → (t.slots np).parent = none

/-- After a step, who sleeps slept before, or is the process that ran. -/
def Sleeps (t t' : Table) : Prop :=
  ∀ r, (t'.slots r).state = .sleeping →
    (t.slots r).state = .sleeping ∧ (t'.slots r).chan = (t.slots r).chan ∧ t'.pc r = t.pc r ∨ t.proc = some r

variable {t t' : Table} {p q np : Fin NPROC}

theorem sleeps_of_slot {x : Slot} (hx : x.state ≠ .sleeping) (hs : t'.slots = Function.update t.slots q x)
    (hpc : ∀ r, r ≠ q → t.proc ≠ some r → t'.pc r = t.pc r) : Sleeps t t' := by
  intro r hr
  by_cases hrun : t.proc = some r
  · exact .inr hrun
  · have hrq : r ≠ q := by
      rintro rfl
      rw [hs, Function.update_self] at hr
      exact hx hr
    rw [hs, Function.update_of_ne hrq] at hr ⊢
    exact .inl ⟨hr, rfl, hpc r hrq hrun⟩

theorem wakeup1_sleeper {ch : Chan} {r : Fin NPROC} (hr : ((wakeup1 t ch).slots r).state = .sleeping) :
    (wakeup1 t ch).slots r = t.slots r ∧ (t.slots r).chan ≠ some ch := by
  by_cases hc : (t.slots r).state = .sleeping ∧ (t.slots r).chan = some ch
  · simp [wakeup1, hc] at hr
  · have hslot : (wakeup1 t ch).slots r = t.slots r := if_neg hc
    rw [hslot] at hr
    exact ⟨hslot, fun he => hc ⟨hr, he⟩⟩

theorem sleeps_wakeup1 (t : Table) (ch : Chan) : Sleeps t (wakeup1 t ch) := by
  intro r hr
  obtain ⟨hslot, -⟩ := wakeup1_sleeper hr
  rw [hslot] at hr ⊢
  exact .inl ⟨hr, rfl, rfl⟩

theorem wakeParent_sleeper {r : Fin NPROC} (hr : ((exit.wakeParent t p).slots r).state = .sleeping) :
    (exit.wakeParent t p).slots r = t.slots r ∧ ∀ q, (t.slots p).parent = some q →
      (t.slots r).chan ≠ some (.proc q) := by
  unfold exit.wakeParent at hr ⊢
  cases hpar : (t.slots p).parent with
  | none => exact ⟨rfl, nofun⟩
  | some q =>
      rw [hpar] at hr
      obtain ⟨hslot, hch⟩ := wakeup1_sleeper hr
      refine ⟨hslot, fun q' hq => ?_⟩
      cases hq
      exact hch

/-- Who sleeps after exit is neither its parent in wait, nor init if a zombie comes to init. -/
theorem finish_sleeper (hf : Family t) {r : Fin NPROC} (hr : ((exit.finish t p).slots r).state = .sleeping) :
    r ≠ p ∧ (t.slots r).state = .sleeping ∧ ((exit.finish t p).slots r).chan = (t.slots r).chan ∧
      (∀ q, (t.slots p).parent = some q → (t.slots r).chan ≠ some (.proc q)) ∧
      ∀ q, (t.slots q).parent = some p → (t.slots q).state = .zombie → (t.slots r).chan ≠ some (.proc t.initproc) := by
  have hsh := (wakeParent_spec t p hf).2.1
  have hrp : r ≠ p := by
    rintro rfl
    simp [exit.finish] at hr
  -- the part before the last wakeup
  have hmid : ∀ {u : Slot}, ((exit.reparent (exit.wakeParent t p) p).slots r) = u → u.state = .sleeping →
      (t.slots r).state = .sleeping ∧ u.chan = (t.slots r).chan ∧
        ∀ q, (t.slots p).parent = some q → (t.slots r).chan ≠ some (.proc q) := by
    rintro u rfl hu
    rw [state_reparent] at hu
    obtain ⟨hslot, hch⟩ := wakeParent_sleeper hu
    rw [hslot] at hu
    refine ⟨hu, ?_, hch⟩
    rw [← hslot]
    unfold exit.reparent
    dsimp only
    split <;> rfl
  unfold exit.finish at hr ⊢
  dsimp only at hr ⊢
  by_cases hz : ∃ q, ((exit.wakeParent t p).slots q).parent = some p ∧ ((exit.wakeParent t p).slots q).state = .zombie
  · simp only [if_pos hz, slots_setSlot, if_neg hrp] at hr ⊢
    obtain ⟨hslot, hch⟩ := wakeup1_sleeper hr
    rw [hslot] at hr ⊢
    obtain ⟨h₁, h₂, h₃⟩ := hmid rfl hr
    rw [h₂] at hch
    exact ⟨hrp, h₁, h₂, h₃, fun _ _ _ => hch⟩
  · simp only [if_neg hz, slots_setSlot, if_neg hrp] at hr ⊢
    obtain ⟨h₁, h₂, h₃⟩ := hmid rfl hr
    refine ⟨hrp, h₁, h₂, h₃, fun q hq hqz => absurd ⟨q, ?_, ?_⟩ hz⟩
    · rw [hsh.parent, hq]
    · exact (hsh.idle (by simp [Active])).2 hqz

theorem finish_pc (t : Table) (p : Fin NPROC) : (exit.finish t p).pc = t.pc := by
  unfold exit.finish exit.wakeParent
  dsimp only
  split <;> split <;> rfl

theorem sleeps_act {a : Action} {e : List Event} (hf : Family t) (hp : t.proc = some p)
    (h : act t p a = some (t', e)) : Sleeps t t' := by
  have hpc : ∀ c r, t.proc ≠ some r → Function.update t.pc p c r = t.pc r := by
    intro c r hr
    refine Function.update_of_ne ?_ _ _
    rintro rfl
    exact hr hp
  have hself : ∀ {x : Slot} {u : Table}, u.slots = Function.update t.slots p x →
      (∀ r, t.proc ≠ some r → u.pc r = t.pc r) → Sleeps t u := by
    intro x u hs hu r hr
    by_cases hrun : t.proc = some r
    · exact .inr hrun
    · have hrp : r ≠ p := by
        rintro rfl
        exact hrun hp
      rw [hs, Function.update_of_ne hrp] at hr ⊢
      exact .inl ⟨hr, rfl, hu r hrun⟩
  have hpcs : ∀ c, Sleeps t (setPc t p c) := fun c => hself (Function.update_eq_self p t.slots).symm fun r hr =>
    hpc c r hr
  have hfail : ∀ np, Sleeps t (fork.fail t p np) := fun np => sleeps_of_slot (by simp) rfl fun r _ hr => hpc _ r hr
  cases a with
  | scheduler _ | wakeup _ => cases h
  | yield =>
      simp only [act, Option.ite_none_right_eq_some, Option.some.injEq, Prod.mk.injEq] at h
      obtain ⟨-, rfl, -⟩ := h
      exact hself rfl fun _ _ => rfl
  | sleep ch =>
      simp only [act, Option.ite_none_right_eq_some, Option.some.injEq, Prod.mk.injEq] at h
      obtain ⟨-, rfl, -⟩ := h
      exact hself rfl fun _ _ => rfl
  | kill pid =>
      simp only [act, Option.ite_none_right_eq_some, Option.some.injEq, Prod.mk.injEq] at h
      obtain ⟨-, rfl, -⟩ := h
      unfold kill
      split
      · rename_i q _
        refine sleeps_of_slot ?_ rfl fun _ _ _ => rfl
        dsimp only
        split
        · simp
        · assumption
      · exact fun r hr => .inl ⟨hr, rfl, rfl⟩
  | fork =>
      simp only [act, Option.ite_none_right_eq_some] at h
      obtain ⟨-, h⟩ := h
      cases ha : allocproc t with
      | none =>
          rw [ha] at h
          cases h
          exact fun r hr => .inl ⟨hr, rfl, rfl⟩
      | some r =>
          rw [ha] at h
          cases h
          obtain ⟨hu, he⟩ := allocproc_eq ha
          rw [he]
          exact sleeps_of_slot (by simp) rfl fun r _ hr => hpc _ r hr
  | kalloc ok =>
      simp only [act] at h
      split at h
      · simp only [Option.some.injEq, Prod.mk.injEq] at h
        obtain ⟨rfl, -⟩ := h
        split
        · exact hpcs _
        · exact hfail _
      · cases h
  | copyuvm ok =>
      simp only [act] at h
      split at h
      · rename_i np hc
        simp only [Option.some.injEq, Prod.mk.injEq] at h
        obtain ⟨rfl, -⟩ := h
        split
        · have hnp := hf.embryo (.inr (.inl hc))
          exact sleeps_of_slot (by simp [hnp]) rfl fun r _ hr => hpc _ r hr
        · exact hfail _
      · cases h
  | ready =>
      simp only [act] at h
      split at h
      · rename_i np hc
        simp only [Option.some.injEq, Prod.mk.injEq] at h
        obtain ⟨rfl, -⟩ := h
        refine sleeps_of_slot (by simp) rfl fun r hrn hr => ?_
        have hrp : r ≠ p := by
          rintro rfl
          exact hr hp
        exact (Function.update_of_ne hrp _ _).trans (Function.update_of_ne hrn _ _)
      · cases h
  | exit =>
      simp only [act, Option.ite_none_right_eq_some, Option.some.injEq, Prod.mk.injEq] at h
      obtain ⟨-, rfl, -⟩ := h
      exact hpcs _
  | finish =>
      simp only [act, Option.ite_none_right_eq_some, Option.some.injEq, Prod.mk.injEq] at h
      obtain ⟨-, rfl, -⟩ := h
      intro r hr
      obtain ⟨-, h₁, h₂, -⟩ := finish_sleeper hf hr
      exact .inl ⟨h₁, h₂, congrFun (finish_pc t p) r⟩
  | wait =>
      simp only [act, Option.ite_none_right_eq_some, Option.some.injEq] at h
      obtain ⟨hc, h⟩ := h
      unfold wait at h
      split at h
      · cases h
        exact sleeps_of_slot (by simp) rfl fun r _ hr => hpc _ r hr
      · split at h
        · cases h
          exact hpcs _
        · cases h
          exact hself rfl fun r hr => hpc _ r hr

theorem Sleeps.dozes (h : Sleeps t t') (hp : t.proc = some p → ¬Dozes t' p) (hd : Dozes t' p) :
    Dozes t p ∧ (t'.slots p).chan = (t.slots p).chan := by
  rcases h p hd.1 with ⟨h₁, h₂, h₃⟩ | hrun
  · exact ⟨⟨h₁, h₃ ▸ hd.2⟩, h₂⟩
  · exact absurd hd (hp hrun)

theorem Waiters.frame (h : Waiters t) (hs : Sleeps t t') (hnew : ∀ r, t.proc = some r → ¬Dozes t' r)
    (hpar : ∀ q, (t'.slots q).parent = (t.slots q).parent)
    (hz : ∀ q, (t'.slots q).state = .zombie → (t.slots q).state = .zombie)
    (hun : ∀ q, (t'.slots q).state = .unused → (t.slots q).parent = none)
    (hem : ∀ r np, t'.pc r = .embryo np ∨ t'.pc r = .stacked np → (t.slots np).parent = none) : Waiters t' where
  chan r hr := by
    obtain ⟨hd, hc⟩ := hs.dozes (hnew r) hr
    rw [hc]
    exact h.chan r hd
  child r hr := by
    obtain ⟨q, hq⟩ := h.child r (hs.dozes (hnew r) hr).1
    exact ⟨q, (hpar q).trans hq⟩
  alive r q hr hq hqz := h.alive r q (hs.dozes (hnew r) hr).1 ((hpar q).symm.trans hq) (hz q hqz)
  unused q hq := (hpar q).trans (hun q hq)
  embryo r np hr := (hpar np).trans (hem r np hr)

theorem Waiters.shuffled (h : Waiters t) (hs : Sleeps t t') (hnew : ∀ r, t.proc = some r → ¬Dozes t' r)
    (hsh : Shuffled t t') (hpc : t'.pc = t.pc) : Waiters t' := by
  refine h.frame hs hnew hsh.parent (fun q hq => ?_) (fun q hq => ?_) fun r np hr => ?_
  · exact (hsh.idle (by simp [Active])).1 hq
  · exact h.unused q ((hsh.idle (by simp [Active])).1 hq)
  · rw [hpc] at hr
    exact h.embryo r np hr

theorem not_dozes_of_proc (hf : Family t) (hp : t.proc = some p) : ¬Dozes t p := by
  intro hd
  have hrun := (hf.running p).2 hp
  rw [hd.1] at hrun
  cases hrun

theorem waiters_wakeup1 (hf : Family t) (h : Waiters t) (ch : Chan) : Waiters (wakeup1 t ch) :=
  h.shuffled (sleeps_wakeup1 t ch) (fun _ hr => not_dozes_of_proc (family_wakeup1 hf ch) hr) (shuffled_wakeup1 t ch) rfl

theorem waiters_scheduler (h : Waiters t) (hs : scheduler t p = some t') : Waiters t' := by
  have hsh := shuffled_scheduler hs
  simp only [scheduler, Option.ite_none_right_eq_some, Option.some.injEq] at hs
  obtain ⟨⟨hproc, -⟩, rfl⟩ := hs
  refine h.shuffled (sleeps_of_slot (by simp) rfl fun _ _ _ => rfl) (fun r hr => ?_) hsh rfl
  rw [hproc] at hr
  cases hr

theorem waiters_sleep (hf : Family t) (h : Waiters t) (hp : t.proc = some p) (hc : t.pc p ≠ .waiting) (ch : Chan) :
    Waiters (sleep t p ch) := by
  refine h.shuffled (fun r hr => ?_) (fun r hr hd => ?_) ((shuffled_sleep hf hp ch).of_slots rfl rfl rfl) rfl
  · by_cases hrp : r = p
    · exact .inr (hrp ▸ hp)
    · have hslot : (sleep t p ch).slots r = t.slots r := Function.update_of_ne hrp _ _
      rw [hslot] at hr ⊢
      exact .inl ⟨hr, rfl, rfl⟩
  · rw [hp] at hr
    cases hr
    exact hc hd.2

theorem waiters_copy (hf : Family t) (h : Waiters t) (hp : t.proc = some p) (hc : t.pc p = .stacked np) :
    Waiters (fork.copy t p np) := by
  have hnone := h.embryo p np (.inr hc)
  have hstate := hf.embryo (.inr (.inl hc))
  have hs : Sleeps t (fork.copy t p np) := sleeps_act (a := .copyuvm true) (e := []) hf hp (by simp [act, hc])
  have hrun : ∀ r, t.proc = some r → ¬Dozes (fork.copy t p np) r := fun r hr =>
    not_dozes_of_proc (family_copy hf hp hstate) hr
  have hslot : ∀ q, q ≠ np → (fork.copy t p np).slots q = t.slots q := fun q hq => Function.update_of_ne hq _ _
  refine ⟨fun r hr => ?_, fun r hr => ?_, fun r q hr hq => ?_, fun q hq => ?_, fun r q hr => ?_⟩
  · obtain ⟨hd, hch⟩ := hs.dozes (hrun r) hr
    rw [hch]
    exact h.chan r hd
  · obtain ⟨q, hq⟩ := h.child r (hs.dozes (hrun r) hr).1
    have hqn : q ≠ np := by
      rintro rfl
      rw [hnone] at hq
      cases hq
    exact ⟨q, by rw [hslot q hqn, hq]⟩
  · by_cases hqn : q = np
    · subst hqn
      simp only [fork.copy, slots_setPc, slots_setSlot, if_true, Option.some.injEq] at hq
      subst hq
      exact absurd hr (hrun p hp)
    · rw [hslot q hqn] at hq ⊢
      exact h.alive r q (hs.dozes (hrun r) hr).1 hq
  · by_cases hqn : q = np
    · subst hqn
      simp [fork.copy, hstate] at hq
    · rw [hslot q hqn] at hq ⊢
      exact h.unused q hq
  · -- only the process that runs is inside fork
    by_cases hrp : r = p
    · subst hrp
      simp [fork.copy] at hr
    · have hne : t.proc ≠ some r := by
        rw [hp]
        simpa using Ne.symm hrp
      have hr' := hf.not_forking hne q
      simp only [fork.copy, pc_setPc, if_neg hrp, pc_setSlot] at hr
      rcases hr with hr | hr
      · exact absurd hr hr'.1
      · exact absurd hr hr'.2.1

theorem finish_parent (t : Table) (p q : Fin NPROC) :
    ((exit.finish t p).slots q).parent =
      if (t.slots q).parent = some p then some t.initproc else (t.slots q).parent := by
  have hw : ∀ r, ((exit.wakeParent t p).slots r).parent = (t.slots r).parent ∧
      (exit.wakeParent t p).initproc = t.initproc := by
    intro r
    unfold exit.wakeParent
    split
    · exact ⟨(shuffled_wakeup1 t _).parent r, rfl⟩
    · exact ⟨rfl, rfl⟩
  have hr : ((exit.reparent (exit.wakeParent t p) p).slots q).parent =
      if (t.slots q).parent = some p then some t.initproc else (t.slots q).parent := by
    rw [parent_reparent, (hw q).1, (hw q).2]
  obtain ⟨u, hu, rfl | rfl⟩ := finish_eq t p
  · rw [hu, ← hr]
    by_cases hq : q = p <;> simp [hq]
  · have hlast := (shuffled_wakeup1 (exit.reparent (exit.wakeParent t p) p) (.proc t.initproc)).parent q
    rw [hr] at hlast
    rw [hu, ← hlast]
    by_cases hq : q = p <;> simp [hq]

theorem waiters_finish (hf : Family t) (h : Waiters t) (hp : t.proc = some p) (hc : t.pc p = .exiting) :
    Waiters (exit.finish t p) := by
  obtain ⟨u, hu, -, -, -, -, -, -, -, hidle⟩ := before_zombie hf hp hc
  have hstate : ∀ q, q ≠ p → ((exit.finish t p).slots q).state = (u.slots q).state := by
    intro q hq
    rw [hu]
    simp [hq]
  have hinit : p ≠ t.initproc := by
    have hpc := hf.pcs p
    unfold PcOk at hpc
    rw [hc] at hpc
    exact hpc
  have hdoze : ∀ r, Dozes (exit.finish t p) r → Dozes t r := by
    intro r hr
    obtain ⟨-, h₁, -⟩ := finish_sleeper hf hr.1
    exact ⟨h₁, by rw [← finish_pc t p, hr.2]⟩
  refine ⟨fun r hr => ?_, fun r hr => ?_, fun r q hr hq hz => ?_, fun q hq => ?_, fun r q hr => ?_⟩
  · rw [(finish_sleeper hf hr.1).2.2.1]
    exact h.chan r (hdoze r hr)
  · obtain ⟨q, hq⟩ := h.child r (hdoze r hr)
    have hrp := (finish_sleeper hf hr.1).1
    refine ⟨q, ?_⟩
    rw [finish_parent, hq, if_neg (by simpa using hrp)]
  · have hch := h.chan r (hdoze r hr)
    obtain ⟨hrp, -, -, hparent, hzombie⟩ := finish_sleeper hf hr.1
    rw [finish_parent] at hq
    by_cases hqp : q = p
    · -- the process itself: its parent was woken
      subst hqp
      have hrun := (hf.running q).2 hp
      obtain ⟨x, hx, hxq, -⟩ := hf.parents q hinit (by simp [hrun]) (by simp [hrun])
      rw [hx, if_neg (by simpa using hxq)] at hq
      cases hq
      exact hparent r hx hch
    · rw [hstate q hqp, hidle q _ (by simp [Active])] at hz
      by_cases hqpar : (t.slots q).parent = some p
      · -- a zombie that comes to init: init was woken
        rw [if_pos hqpar] at hq
        cases hq
        exact hzombie q hqpar hz hch
      · rw [if_neg hqpar] at hq
        exact h.alive r q (hdoze r hr) hq hz
  · have hqp : q ≠ p := by
      rintro rfl
      rw [hu] at hq
      simp at hq
    rw [hstate q hqp, hidle q _ (by simp [Active])] at hq
    rw [finish_parent, h.unused q hq]
    simp
  · rw [finish_pc] at hr
    rw [finish_parent, h.embryo r q hr]
    simp

theorem waiters_reap (hf : Family t) (h : Waiters t) (hp : t.proc = some p) (hq : (t.slots q).parent = some p)
    (hs : Sleeps t (wait.reap t p q)) (hnew : ∀ r, t.proc = some r → ¬Dozes (wait.reap t p q) r) :
    Waiters (wait.reap t p q) := by
  have hslot : ∀ c, c ≠ q → (wait.reap t p q).slots c = t.slots c := fun c hc => Function.update_of_ne hc _ _
  have hgone : ((wait.reap t p q).slots q).parent = none := by simp [wait.reap]
  refine ⟨fun r hr => ?_, fun r hr => ?_, fun r c hr hc => ?_, fun c hc => ?_, fun r c hr => ?_⟩
  · obtain ⟨hd, hch⟩ := hs.dozes (hnew r) hr
    rw [hch]
    exact h.chan r hd
  · have hd := (hs.dozes (hnew r) hr).1
    obtain ⟨c, hc⟩ := h.child r hd
    have hcq : c ≠ q := by
      rintro rfl
      rw [hq] at hc
      cases hc
      exact not_dozes_of_proc hf hp hd
    exact ⟨c, by rw [hslot c hcq, hc]⟩
  · have hcq : c ≠ q := by
      rintro rfl
      rw [hgone] at hc
      cases hc
    rw [hslot c hcq] at hc ⊢
    exact h.alive r c (hs.dozes (hnew r) hr).1 hc
  · by_cases hcq : c = q
    · rw [hcq, hgone]
    · rw [hslot c hcq] at hc ⊢
      exact h.unused c hc
  · by_cases hcq : c = q
    · rw [hcq, hgone]
    · rw [hslot c hcq]
      by_cases hrp : r = p
      · simp [wait.reap, hrp] at hr
      · simp only [wait.reap, pc_setPc, if_neg hrp, pc_setSlot] at hr
        exact h.embryo r c hr

theorem waiters_wait_sleep (h : Waiters t) (hp : t.proc = some p)
    (hs : Sleeps t (setPc (sleep t p (.proc p)) p .waiting)) (hkid : ∃ q, (t.slots q).parent = some p)
    (hnone : ∀ q, (t.slots q).parent = some p → (t.slots q).state ≠ .zombie) :
    Waiters (setPc (sleep t p (.proc p)) p .waiting) := by
  have hpar : ∀ q, ((setPc (sleep t p (.proc p)) p .waiting).slots q).parent = (t.slots q).parent := by
    intro q
    by_cases hq : q = p <;> simp [sleep, hq]
  have hstate : ∀ q x, x ≠ .sleeping → ((setPc (sleep t p (.proc p)) p .waiting).slots q).state = x →
      (t.slots q).state = x := by
    intro q x hx hq
    by_cases hqp : q = p
    · subst hqp
      simp only [sleep, slots_setPc, slots_setSlot, if_true] at hq
      exact absurd hq.symm hx
    · simpa [sleep, hqp] using hq
  have hold : ∀ r, r ≠ p → Dozes (setPc (sleep t p (.proc p)) p .waiting) r →
      Dozes t r ∧ ((setPc (sleep t p (.proc p)) p .waiting).slots r).chan = (t.slots r).chan := by
    intro r hrp hd
    refine hs.dozes (fun hr => ?_) hd
    rw [hp] at hr
    cases hr
    exact absurd rfl hrp
  refine ⟨fun r hr => ?_, fun r hr => ?_, fun r q hr hq hz => ?_, fun q hq => ?_, fun r q hr => ?_⟩
  · by_cases hrp : r = p
    · simp [sleep, hrp]
    · rw [(hold r hrp hr).2]
      exact h.chan r (hold r hrp hr).1
  · by_cases hrp : r = p
    · obtain ⟨q, hq⟩ := hkid
      exact ⟨q, by rw [hpar, hq, hrp]⟩
    · obtain ⟨q, hq⟩ := h.child r (hold r hrp hr).1
      exact ⟨q, by rw [hpar, hq]⟩
  · rw [hpar] at hq
    have hz := hstate q .zombie (by simp) hz
    by_cases hrp : r = p
    · exact hnone q (hrp ▸ hq) hz
    · exact h.alive r q (hold r hrp hr).1 hq hz
  · rw [hpar]
    exact h.unused q (hstate q .unused (by simp) hq)
  · rw [hpar]
    by_cases hrp : r = p
    · simp [hrp] at hr
    · simp only [pc_setPc, if_neg hrp] at hr
      exact h.embryo r q hr

theorem waiters_act {a : Action} {e : List Event} (hf : Family t) (h : Waiters t) (hp : t.proc = some p)
    (ha : act t p a = some (t', e)) : Waiters t' := by
  have hs := sleeps_act hf hp ha
  have hf' := (keeps_act hf hp ha).family
  -- a process that goes on running does not sleep
  have hgoes : t'.proc = t.proc → ∀ r, t.proc = some r → ¬Dozes t' r := fun hproc r hr =>
    not_dozes_of_proc hf' (hproc.trans hr)
  have hother : ∀ c : Pc, c ≠ .waiting → t'.pc p = c → ∀ r, t.proc = some r → ¬Dozes t' r := by
    intro c hc hpc r hr hd
    rw [hp] at hr
    cases hr
    rw [hd.2] at hpc
    exact hc hpc.symm
  have hpcs : ∀ c : Pc, c ≠ .waiting → (∀ np, c ≠ .embryo np) → t' = setPc t p c →
      (∀ np, c = .stacked np → (t.slots np).parent = none) → Waiters t' := by
    rintro c hc hce rfl hcs
    refine h.frame hs (hother c hc (by simp)) (fun _ => rfl) (fun _ hq => hq)
      (fun q hq => h.unused q hq) fun r np hr => ?_
    by_cases hrp : r = p
    · subst hrp
      simp only [pc_setPc, if_true] at hr
      rcases hr with hr | hr
      · exact absurd hr (hce np)
      · exact hcs np hr
    · simp only [pc_setPc, if_neg hrp] at hr
      exact h.embryo r np hr
  have hfail : ∀ np, t' = fork.fail t p np → (t.slots np).parent = none → Waiters t' := by
    rintro np rfl hnone
    refine h.frame hs (hother .other (by simp) (by simp [fork.fail])) (fun q => ?_) (fun q hq => ?_)
      (fun q hq => ?_) fun r q hr => ?_
    · by_cases hq : q = np <;> simp [fork.fail, hq]
    · by_cases hqn : q = np
      · simp [fork.fail, hqn] at hq
      · simpa [fork.fail, hqn] using hq
    · by_cases hqn : q = np
      · rw [hqn, hnone]
      · exact h.unused q (by simpa [fork.fail, hqn] using hq)
    · by_cases hrp : r = p
      · simp [fork.fail, hrp] at hr
      · simp only [fork.fail, pc_setPc, if_neg hrp, pc_setSlot] at hr
        exact h.embryo r q hr
  cases a with
  | scheduler _ | wakeup _ => cases ha
  | yield =>
      simp only [act, Option.ite_none_right_eq_some, Option.some.injEq, Prod.mk.injEq] at ha
      obtain ⟨hc, rfl, -⟩ := ha
      exact h.shuffled hs (hother .other (by simp) hc) ((shuffled_yield hf hp).of_slots rfl rfl rfl) rfl
  | sleep ch =>
      simp only [act, Option.ite_none_right_eq_some, Option.some.injEq, Prod.mk.injEq] at ha
      obtain ⟨hc, rfl, -⟩ := ha
      refine waiters_sleep hf h hp ?_ _
      rcases hc with hc | hc <;> simp [hc]
  | kill pid =>
      simp only [act, Option.ite_none_right_eq_some, Option.some.injEq, Prod.mk.injEq] at ha
      obtain ⟨hc, rfl, -⟩ := ha
      exact h.shuffled hs (hgoes (kill_proc t pid)) (shuffled_kill t pid) (kill_pc t pid)
  | fork =>
      simp only [act, Option.ite_none_right_eq_some] at ha
      obtain ⟨-, ha⟩ := ha
      cases hal : allocproc t with
      | none =>
          rw [hal] at ha
          cases ha
          exact h
      | some r =>
          obtain ⟨np, u⟩ := r
          rw [hal] at ha
          cases ha
          obtain ⟨hun, rfl⟩ := allocproc_eq hal
          have hnone := h.unused np hun
          refine h.frame hs (hother (.embryo np) (by simp) (by simp)) (fun q => ?_) (fun q hq => ?_)
            (fun q hq => ?_) fun r q hr => ?_
          · by_cases hq : q = np <;> simp [hq]
          · by_cases hqn : q = np
            · simp [hqn] at hq
            · simpa [hqn] using hq
          · by_cases hqn : q = np
            · rw [hqn, hnone]
            · exact h.unused q (by simpa [hqn] using hq)
          · by_cases hrp : r = p
            · simp only [hrp, pc_setPc, if_true, Pc.embryo.injEq, reduceCtorEq, or_false] at hr
              rw [← hr, hnone]
            · simp only [pc_setPc, if_neg hrp, pc_setSlot] at hr
              exact h.embryo r q hr
  | kalloc ok =>
      simp only [act] at ha
      split at ha
      · rename_i np hc
        simp only [Option.some.injEq, Prod.mk.injEq] at ha
        obtain ⟨ha, -⟩ := ha
        have hnone := h.embryo p np (.inl hc)
        cases ok with
        | true =>
            refine hpcs (.stacked np) (by simp) (by simp) (by simpa using ha.symm) fun q hq => ?_
            cases hq
            exact hnone
        | false => exact hfail np (by simpa using ha.symm) hnone
      · cases ha
  | copyuvm ok =>
      simp only [act] at ha
      split at ha
      · rename_i np hc
        simp only [Option.some.injEq, Prod.mk.injEq] at ha
        obtain ⟨ha, -⟩ := ha
        cases ok with
        | true =>
            rw [if_pos rfl] at ha
            exact ha ▸ waiters_copy hf h hp hc
        | false => exact hfail np (by simpa using ha.symm) (h.embryo p np (.inr hc))
      · cases ha
  | ready =>
      simp only [act] at ha
      split at ha
      · rename_i np hc
        simp only [Option.some.injEq, Prod.mk.injEq] at ha
        obtain ⟨rfl, -⟩ := ha
        refine h.frame hs (hother .other (by simp) (by simp [fork.ready])) (fun q => ?_) (fun q hq => ?_)
          (fun q hq => ?_) fun r q hr => ?_
        · by_cases hq : q = np <;> simp [fork.ready, hq]
        · by_cases hqn : q = np
          · simp [fork.ready, hqn] at hq
          · simpa [fork.ready, hqn] using hq
        · by_cases hqn : q = np
          · simp [fork.ready, hqn] at hq
          · exact h.unused q (by simpa [fork.ready, hqn] using hq)
        · by_cases hrp : r = p
          · simp [fork.ready, hrp] at hr
          · by_cases hrn : r = np
            · simp [fork.ready, hrn, Function.update_apply] at hr
            · simp only [fork.ready, Function.update_of_ne hrp, Function.update_of_ne hrn] at hr
              exact h.embryo r q hr
      · cases ha
  | exit =>
      simp only [act, Option.ite_none_right_eq_some, Option.some.injEq, Prod.mk.injEq] at ha
      obtain ⟨-, rfl, -⟩ := ha
      exact hpcs .exiting (by simp) (by simp) rfl (by simp)
  | finish =>
      simp only [act, Option.ite_none_right_eq_some, Option.some.injEq, Prod.mk.injEq] at ha
      obtain ⟨hc, rfl, -⟩ := ha
      exact waiters_finish hf h hp hc
  | wait =>
      simp only [act, Option.ite_none_right_eq_some, Option.some.injEq] at ha
      obtain ⟨-, ha⟩ := ha
      unfold wait at ha
      split at ha
      · rename_i q hq
        cases ha
        have hq' := List.find?_some hq
        simp only [decide_eq_true_eq] at hq'
        exact waiters_reap hf h hp hq'.1 hs (hother .other (by simp) (by simp [wait.reap]))
      · rename_i hnone
        split at ha
        · cases ha
          exact hpcs .other (by simp) (by simp) rfl (by simp)
        · rename_i hkids
          cases ha
          rw [not_or, not_forall] at hkids
          obtain ⟨q, hq⟩ := hkids.1
          refine waiters_wait_sleep h hp hs ⟨q, not_not.1 hq⟩ fun c hc hz => ?_
          have := List.find?_eq_none.1 hnone c (List.mem_finRange c)
          simp [hc, hz] at this

theorem waiters_userinit : Waiters userinit := by
  refine ⟨fun p hd => ?_, fun p hd => ?_, fun p q hd => ?_, by decide, fun p np hr => ?_⟩
  · exact absurd hd.2 (by rw [show userinit.pc p = .other from rfl]; simp)
  · exact absurd hd.2 (by rw [show userinit.pc p = .other from rfl]; simp)
  · exact absurd hd.2 (by rw [show userinit.pc p = .other from rfl]; simp)
  · rw [show userinit.pc p = .other from rfl] at hr
    simp at hr

/-- A process that does not run keeps its life and its place, unless it is a child that starts. -/
theorem act_others {a : Action} {e : List Event} (hf : Family t) (hp : t.proc = some p) (ha : act t p a = some (t', e))
    (hq : q ≠ p) (hact : Active (t.slots q).state) :
    Active (t'.slots q).state ∧ (t'.pc q = t.pc q ∨ t'.pc q = .other) := by
  have hpc : ∀ c, (setPc t p c).pc q = t.pc q := fun c => Function.update_of_ne hq _ _
  have hslot : ∀ r x, ¬Active (t.slots r).state → (setSlot t r x).slots q = t.slots q := by
    intro r x hr
    refine Function.update_of_ne ?_ _ _
    rintro rfl
    exact hr hact
  have hfail : ∀ np, (t.slots np).state = .embryo →
      Active ((fork.fail t p np).slots q).state ∧
        ((fork.fail t p np).pc q = t.pc q ∨ (fork.fail t p np).pc q = .other) := by
    intro np hnp
    rw [fork.fail, slots_setPc, hslot np _ (by simp [hnp, Active])]
    exact ⟨hact, .inl (hpc _)⟩
  cases a with
  | scheduler _ | wakeup _ => cases ha
  | yield =>
      simp only [act, Option.ite_none_right_eq_some, Option.some.injEq, Prod.mk.injEq] at ha
      obtain ⟨-, rfl, -⟩ := ha
      exact ⟨(shuffled_yield hf hp).active hact, .inl rfl⟩
  | sleep ch =>
      simp only [act, Option.ite_none_right_eq_some, Option.some.injEq, Prod.mk.injEq] at ha
      obtain ⟨-, rfl, -⟩ := ha
      exact ⟨(shuffled_sleep hf hp _).active hact, .inl rfl⟩
  | kill pid =>
      simp only [act, Option.ite_none_right_eq_some, Option.some.injEq, Prod.mk.injEq] at ha
      obtain ⟨-, rfl, -⟩ := ha
      exact ⟨(shuffled_kill t pid).active hact, .inl (by rw [kill_pc])⟩
  | fork =>
      simp only [act, Option.ite_none_right_eq_some] at ha
      obtain ⟨-, ha⟩ := ha
      cases hal : allocproc t with
      | none =>
          rw [hal] at ha
          cases ha
          exact ⟨hact, .inl rfl⟩
      | some r =>
          obtain ⟨np, u⟩ := r
          rw [hal] at ha
          cases ha
          obtain ⟨hun, rfl⟩ := allocproc_eq hal
          rw [slots_setPc]
          refine ⟨?_, .inl (hpc _)⟩
          change Active ((setSlot t np _).slots q).state
          rw [hslot np _ (by simp [hun, Active])]
          exact hact
  | kalloc ok =>
      simp only [act] at ha
      split at ha
      · rename_i np hc
        simp only [Option.some.injEq, Prod.mk.injEq] at ha
        obtain ⟨rfl, -⟩ := ha
        split
        · exact ⟨hact, .inl (hpc _)⟩
        · exact hfail np (hf.embryo (.inl hc))
      · cases ha
  | copyuvm ok =>
      simp only [act] at ha
      split at ha
      · rename_i np hc
        have hnp := hf.embryo (.inr (.inl hc))
        simp only [Option.some.injEq, Prod.mk.injEq] at ha
        obtain ⟨rfl, -⟩ := ha
        split
        · rw [fork.copy, slots_setPc, hslot np _ (by simp [hnp, Active])]
          exact ⟨hact, .inl (hpc _)⟩
        · exact hfail np hnp
      · cases ha
  | ready =>
      simp only [act] at ha
      split at ha
      · rename_i np hc
        have hnp := hf.embryo (.inr (.inr hc))
        have hqn : q ≠ np := by
          rintro rfl
          simp [hnp, Active] at hact
        simp only [Option.some.injEq, Prod.mk.injEq] at ha
        obtain ⟨rfl, -⟩ := ha
        refine ⟨?_, .inl ((Function.update_of_ne hq _ _).trans (Function.update_of_ne hqn _ _))⟩
        change Active ((setSlot t np _).slots q).state
        rw [hslot np _ (by simp [hnp, Active])]
        exact hact
      · cases ha
  | exit =>
      simp only [act, Option.ite_none_right_eq_some, Option.some.injEq, Prod.mk.injEq] at ha
      obtain ⟨-, rfl, -⟩ := ha
      exact ⟨hact, .inl (hpc _)⟩
  | finish =>
      simp only [act, Option.ite_none_right_eq_some, Option.some.injEq, Prod.mk.injEq] at ha
      obtain ⟨hc, rfl, -⟩ := ha
      refine ⟨?_, .inl (by rw [finish_pc])⟩
      obtain ⟨u, hu, -, -, -, -, -, -, -, hidle⟩ := before_zombie hf hp hc
      rw [hu]
      change Active ((setSlot u p _).slots q).state
      rw [slots_setSlot, if_neg hq]
      by_contra hn
      exact hn (by rw [(hidle q _ hn).1 rfl] at hact; exact hact)
  | wait =>
      simp only [act, Option.ite_none_right_eq_some, Option.some.injEq] at ha
      obtain ⟨-, ha⟩ := ha
      unfold wait at ha
      split at ha
      · rename_i c hc
        cases ha
        have hz := List.find?_some hc
        simp only [decide_eq_true_eq] at hz
        rw [wait.reap, slots_setPc, hslot c _ (by simp [hz.2, Active])]
        exact ⟨hact, .inl (hpc _)⟩
      · split at ha
        · cases ha
          exact ⟨hact, .inl (hpc _)⟩
        · cases ha
          exact ⟨(shuffled_sleep hf hp _).active hact, .inl (hpc _)⟩

/-- An empty pipe to which somebody can still write. -/
def Drained (y : Option Pipe) : Prop := ∃ x, y = some x ∧ x.nread = x.nwrite ∧ x.writeopen = true

def Full (y : Option Pipe) : Prop := ∃ x, y = some x ∧ x.nwrite = uint (x.nread + PIPESIZE) ∧ x.readopen = true

/-- Who sleeps in piperead waits for bytes or the end of the stream, who sleeps in pipewrite for
room or the end of the readers. -/
structure Inv (s : Sys) : Prop where
  family : Family s.table
  waiters : Waiters s.table
  sound : ∀ k x, s.pipes k = some x → PipeStream.Sound x
  readers : ∀ p k n, (s.table.slots p).state = .sleeping → s.calls p = some (.reader k n) →
    (s.table.slots p).chan = some (nread k) ∧ Drained (s.pipes k)
  writers : ∀ p k n rest, (s.table.slots p).state = .sleeping → s.calls p = some (.writer k n rest) →
    (s.table.slots p).chan = some (nwrite k) ∧ Full (s.pipes k)
  ends : ∀ p k n, s.calls p = some (.reader k n) → 0 < s.fds p k false
  closed : ∀ k x, s.pipes k = some x → x.readopen = false → ∀ p, s.fds p k false = 0
  places : ∀ p, s.calls p ≠ none → Active (s.table.slots p).state ∧ s.table.pc p = .other

variable {s s' : Sys} {k : Nat}

theorem Inv.table (h : Inv s) (hf : Family t') (hw : Waiters t') (hs : Sleeps s.table t')
    (hnew : ∀ r, s.table.proc = some r → (t'.slots r).state = .sleeping → s.calls r = none)
    (hplace : ∀ q, s.calls q ≠ none → Active (t'.slots q).state ∧ t'.pc q = .other) : Inv (setTable t' s) where
  family := hf
  waiters := hw
  sound := h.sound
  readers p k n hp hc := by
    rcases hs p hp with ⟨hsl, hch, -⟩ | hrun
    · obtain ⟨h₁, h₂⟩ := h.readers p k n hsl hc
      exact ⟨hch.trans h₁, h₂⟩
    · have hnone : s.calls p = some (.reader k n) := hc
      rw [hnew p hrun hp] at hnone
      cases hnone
  writers p k n rest hp hc := by
    rcases hs p hp with ⟨hsl, hch, -⟩ | hrun
    · obtain ⟨h₁, h₂⟩ := h.writers p k n rest hsl hc
      exact ⟨hch.trans h₁, h₂⟩
    · have hnone : s.calls p = some (.writer k n rest) := hc
      rw [hnew p hrun hp] at hnone
      cases hnone
  ends := h.ends
  closed := h.closed
  places := hplace

theorem Inv.fds (h : Inv s) {f : Fin NPROC → Nat → Bool → Nat}
    (hends : ∀ p k n, s.calls p = some (.reader k n) → 0 < f p k false)
    (hclosed : ∀ k x, s.pipes k = some x → x.readopen = false → ∀ p, f p k false = 0) : Inv { s with fds := f } :=
  ⟨h.family, h.waiters, h.sound, h.readers, h.writers, hends, hclosed, h.places⟩

theorem not_sleeping_of_proc (hf : Family t) (hp : t.proc = some p) : (t.slots p).state ≠ .sleeping := by
  intro hsl
  have hrun := (hf.running p).2 hp
  rw [hsl] at hrun
  cases hrun

theorem wakeup_inv (h : Inv s) (ch : Chan) : Inv (setTable (wakeup1 s.table ch) s) := by
  refine h.table (family_wakeup1 h.family ch) (waiters_wakeup1 h.family h.waiters ch) (sleeps_wakeup1 _ ch)
    (fun r hr hsl => ?_) fun q hq => ?_
  · exact absurd hsl (not_sleeping_of_proc (family_wakeup1 h.family ch) hr)
  · exact ⟨(shuffled_wakeup1 _ ch).active (h.places q hq).1, (h.places q hq).2⟩

theorem scheduler_inv (h : Inv s) (hs : ProcTable.scheduler s.table p = some t) : Inv (setTable t s) := by
  have hsh := shuffled_scheduler hs
  have hf := family_scheduler h.family hs
  have hw := waiters_scheduler h.waiters hs
  simp only [ProcTable.scheduler, Option.ite_none_right_eq_some, Option.some.injEq] at hs
  obtain ⟨⟨hproc, -⟩, rfl⟩ := hs
  refine h.table hf hw (sleeps_of_slot (by simp) rfl fun _ _ _ => rfl) (fun r hr => ?_) fun q hq => ?_
  · rw [hproc] at hr
    cases hr
  · exact ⟨hsh.active (h.places q hq).1, (h.places q hq).2⟩

theorem act_inv (h : Inv s) {a : Action} {e : List Event} (hp : Runs p s) (ha : act s.table p a = some (t, e)) :
    Inv (setTable t s) := by
  refine h.table (keeps_act h.family hp.proc ha).family (waiters_act h.family h.waiters hp.proc ha)
    (sleeps_act h.family hp.proc ha) (fun r hr _ => ?_) fun q hq => ?_
  · rw [hp.proc] at hr
    cases hr
    exact hp.calls
  · have hqp : q ≠ p := by
      rintro rfl
      exact hq hp.calls
    obtain ⟨hact, hpc⟩ := h.places q hq
    obtain ⟨h₁, h₂⟩ := act_others h.family hp.proc ha hqp hact
    exact ⟨h₁, h₂.elim (fun h₂ => h₂.trans hpc) id⟩

theorem copy_inv (h : Inv s) (hp : Runs p s) (hc : s.table.pc p = .stacked np) :
    Inv { s with table := fork.copy s.table p np, fds := Function.update s.fds np (s.fds p) } := by
  have h₁ : Inv (setTable (fork.copy s.table p np) s) := act_inv (a := .copyuvm true) (e := []) h hp (by simp [act, hc])
  refine h₁.fds (fun q k n hq => ?_) fun k x hx hr q => ?_
  · have hqn : q ≠ np := by
      rintro rfl
      have hact := (h.places q (by rw [show s.calls q = _ from hq]; simp)).1
      rw [h.family.embryo (.inr (.inl hc))] at hact
      exact hact
    rw [Function.update_of_ne hqn]
    exact h.ends q k n hq
  · by_cases hqn : q = np
    · rw [hqn, Function.update_self]
      exact h.closed k x hx hr p
    · rw [Function.update_of_ne hqn]
      exact h.closed k x hx hr q

theorem fds_set (w v : Bool) (n j : Nat) :
    (setFds p k w n s).fds q j v = if q = p ∧ j = k ∧ v = w then n else s.fds q j v := by
  unfold setFds
  by_cases hq : q = p
  · subst hq
    by_cases hj : j = k
    · subst hj
      by_cases hv : v = w <;> simp [hv]
    · simp [hj]
  · simp [hq]

theorem Inv.setFds (h : Inv s) (w : Bool) (n : Nat) (hends : ∀ m, s.calls p = some (.reader k m) → 0 < n)
    (hclosed : ∀ x, s.pipes k = some x → x.readopen = false → w = false → n = 0) : Inv (setFds p k w n s) := by
  refine h.fds (fun q j m hq => ?_) fun j x hx hr q => ?_
  · change 0 < (Waiting.setFds p k w n s).fds q j false
    rw [fds_set]
    split
    · rename_i hc
      obtain ⟨rfl, rfl, -⟩ := hc
      exact hends m hq
    · exact h.ends q j m hq
  · change (Waiting.setFds p k w n s).fds q j false = 0
    rw [fds_set]
    split
    · rename_i hc
      obtain ⟨-, rfl, rfl⟩ := hc
      exact hclosed x hx hr rfl
    · exact h.closed j x hx hr q

theorem dup_inv (h : Inv s) (w : Bool) (hf : 0 < s.fds p k w) : Inv (setFds p k w (s.fds p k w + 1) s) := by
  refine h.setFds w _ (fun _ _ => Nat.succ_pos _) fun x hx hr hw => ?_
  subst hw
  have := h.closed k x hx hr p
  omega

theorem calls_set (c : Option Call) : (setCall p c s).calls q = if q = p then c else s.calls q :=
  Function.update_apply ..

theorem pipes_set (y : Option Pipe) (j : Nat) : (setPipe k y s).pipes j = if j = k then y else s.pipes j :=
  Function.update_apply ..

theorem Inv.pipe (h : Inv s) {y : Option Pipe} (hy : ∀ x, y = some x → PipeStream.Sound x)
    (hr : ∀ q n, (s.table.slots q).state = .sleeping → s.calls q = some (.reader k n) → Drained y)
    (hw : ∀ q n rest, (s.table.slots q).state = .sleeping → s.calls q = some (.writer k n rest) → Full y)
    (hclosed : ∀ x, y = some x → x.readopen = false → ∀ q, s.fds q k false = 0) : Inv (setPipe k y s) := by
  refine ⟨h.family, h.waiters, fun j x hx => ?_, fun q j n hq hc => ?_, fun q j n rest hq hc => ?_, h.ends,
    fun j x hx => ?_, h.places⟩
  · rw [pipes_set] at hx
    split at hx
    · exact hy x hx
    · exact h.sound j x hx
  · obtain ⟨h₁, h₂⟩ := h.readers q j n hq hc
    refine ⟨h₁, ?_⟩
    rw [pipes_set]
    split
    · rename_i hj
      subst hj
      exact hr q n hq hc
    · exact h₂
  · obtain ⟨h₁, h₂⟩ := h.writers q j n rest hq hc
    refine ⟨h₁, ?_⟩
    rw [pipes_set]
    split
    · rename_i hj
      subst hj
      exact hw q n rest hq hc
    · exact h₂
  · rw [pipes_set] at hx
    split at hx
    · rename_i hj
      subst hj
      exact hclosed x hx
    · exact h.closed j x hx

theorem Inv.leave (h : Inv s) (p : Fin NPROC) : Inv (setCall p none s) := by
  have hold : ∀ q c, (setCall p none s).calls q = some c → s.calls q = some c := by
    intro q c hq
    rw [calls_set] at hq
    split at hq
    · cases hq
    · exact hq
  refine ⟨h.family, h.waiters, h.sound, fun q k n hq hc => h.readers q k n hq (hold q _ hc),
    fun q k n rest hq hc => h.writers q k n rest hq (hold q _ hc), fun q k n hc => h.ends q k n (hold q _ hc),
      h.closed, fun q hq => ?_⟩
  obtain ⟨c, hc⟩ := Option.ne_none_iff_exists'.1 hq
  exact h.places q (by simp [hold q c hc])

theorem Inv.block (h : Inv s) (hp : s.table.proc = some p) (hpc : s.table.pc p = .other) {c : Call} {ch : Chan}
    (hr : ∀ j n, c = .reader j n → ch = nread j ∧ Drained (s.pipes j) ∧ 0 < s.fds p j false)
    (hw : ∀ j n rest, c = .writer j n rest → ch = nwrite j ∧ Full (s.pipes j)) :
    Inv (setCall p (some c) (setTable (sleep s.table p ch) s)) := by
  have hchan : ((sleep s.table p ch).slots p).chan = some ch := by simp [sleep]
  have hslot : ∀ q, q ≠ p → (sleep s.table p ch).slots q = s.table.slots q := fun q hq => Function.update_of_ne hq _ _
  have hwait := waiters_sleep h.family h.waiters hp (by simp [hpc]) ch
  have hfam := (keeps_sleep h.family hp (.inl hpc) ch).family
  refine ⟨hfam, hwait, h.sound, fun q j n hq hc => ?_, fun q j n rest hq hc => ?_, fun q j n hc => ?_, h.closed,
    fun q hq => ?_⟩
  · rw [calls_set] at hc
    change ((sleep s.table p ch).slots q).state = .sleeping at hq
    change ((sleep s.table p ch).slots q).chan = _ ∧ Drained (s.pipes j)
    by_cases hqp : q = p
    · rw [if_pos hqp] at hc
      obtain ⟨h₁, h₂, -⟩ := hr j n (Option.some.inj hc)
      rw [hqp, hchan, h₁]
      exact ⟨rfl, h₂⟩
    · rw [if_neg hqp] at hc
      rw [hslot q hqp] at hq ⊢
      exact h.readers q j n hq hc
  · rw [calls_set] at hc
    change ((sleep s.table p ch).slots q).state = .sleeping at hq
    change ((sleep s.table p ch).slots q).chan = _ ∧ Full (s.pipes j)
    by_cases hqp : q = p
    · rw [if_pos hqp] at hc
      obtain ⟨h₁, h₂⟩ := hw j n rest (Option.some.inj hc)
      rw [hqp, hchan, h₁]
      exact ⟨rfl, h₂⟩
    · rw [if_neg hqp] at hc
      rw [hslot q hqp] at hq ⊢
      exact h.writers q j n rest hq hc
  · rw [calls_set] at hc
    by_cases hqp : q = p
    · rw [if_pos hqp] at hc
      rw [hqp]
      exact (hr j n (Option.some.inj hc)).2.2
    · rw [if_neg hqp] at hc
      exact h.ends q j n hc
  · rw [calls_set] at hq
    change Active ((sleep s.table p ch).slots q).state ∧ s.table.pc q = .other
    by_cases hqp : q = p
    · rw [hqp]
      exact ⟨(shuffled_sleep h.family hp ch).active (active_of_proc h.family hp), hpc⟩
    · rw [if_neg hqp] at hq
      rw [hslot q hqp]
      exact h.places q hq

/-- The loop of pipewrite keeps the flags, leaves a full pipe alone, and says why it ends. -/
theorem writeLoop_ends (rest : List UInt8) (x : Pipe) :
    let r := PipeStream.pipewrite.loop rest x
    r.2.2.1.readopen = x.readopen ∧ r.2.2.1.writeopen = x.writeopen ∧
      (x.nwrite = uint (x.nread + PIPESIZE) → r.2.2.1 = x) ∧ (r.1 = .broken → x.readopen = false) ∧
      (r.1 = .full → Full (some r.2.2.1)) := by
  induction rest generalizing x with
  | nil =>
      refine ⟨rfl, rfl, fun _ => rfl, fun h => ?_, fun h => ?_⟩
      · cases h
      · cases h
  | cons b rest ih =>
      unfold PipeStream.pipewrite.loop
      by_cases hfull : x.nwrite = uint (x.nread + PIPESIZE)
      · rw [if_pos hfull]
        by_cases hr : x.readopen = true
        · rw [if_neg (by simpa using hr)]
          refine ⟨rfl, rfl, fun _ => rfl, fun h => ?_, fun _ => ⟨x, rfl, hfull, hr⟩⟩
          cases h
        · rw [if_pos (by simpa using hr)]
          exact ⟨rfl, rfl, fun _ => rfl, fun _ => by simpa using hr, fun h => by cases h⟩
      · rw [if_neg hfull]
        obtain ⟨h₁, h₂, -, h₄, h₅⟩ := ih (PipeStream.put x b)
        exact ⟨h₁, h₂, fun hc => absurd hc hfull, h₄, h₅⟩

theorem readLoop_readopen (n : Nat) (x : Pipe) : (PipeStream.piperead.loop n x).2.readopen = x.readopen := by
  induction n generalizing x with
  | zero => rfl
  | succ n ih =>
      unfold PipeStream.piperead.loop
      split
      · rfl
      · exact ih _

theorem pipewrite_inv (h : Inv s) {x : Pipe} (hp : s.table.proc = some p) (hpc : s.table.pc p = .other)
    (hx : s.pipes k = some x)
    (n : Int) (rest : List UInt8) : Inv (pipewrite p k n rest x s) := by
  obtain ⟨hro, hwo, hsame, hbroken, hfull⟩ := writeLoop_ends rest x
  have hsound := (PipeStream.writeLoop_spec rest (h.sound k x hx)).1
  have hclosed : ∀ y, some (PipeStream.pipewrite.loop rest x).2.2.1 = some y → y.readopen = false → ∀ q,
      s.fds q k false = 0 := by
    rintro y hy hr
    cases hy
    exact h.closed k x hx (hro.symm.trans hr)
  -- a writer that sleeps has seen a full pipe, which stays as it is
  have hwriters : ∀ q m l, (s.table.slots q).state = .sleeping → s.calls q = some (.writer k m l) →
      Full (some (PipeStream.pipewrite.loop rest x).2.2.1) := by
    intro q m l hq hc
    obtain ⟨-, y, hy, hyf, hyr⟩ := h.writers q k m l hq hc
    rw [hx] at hy
    cases hy
    rw [hsame hyf]
    exact ⟨x, rfl, hyf, hyr⟩
  -- the readers are woken
  have hwoken : Inv (setPipe k (PipeStream.pipewrite.loop rest x).2.2.1 (setTable (wakeup1 s.table (nread k)) s)) := by
    refine (wakeup_inv h (nread k)).pipe (fun y hy => ?_) (fun q m hq hc => ?_) (fun q m l hq hc => ?_) hclosed
    · cases hy
      exact hsound
    · obtain ⟨hslot, hch⟩ := wakeup1_sleeper hq
      change ((wakeup1 s.table (nread k)).slots q).state = .sleeping at hq
      rw [hslot] at hq
      exact absurd (h.readers q k m hq hc).1 hch
    · obtain ⟨hslot, -⟩ := wakeup1_sleeper hq
      change ((wakeup1 s.table (nread k)).slots q).state = .sleeping at hq
      rw [hslot] at hq
      exact hwriters q m l hq hc
  unfold pipewrite
  dsimp only
  split
  · exact hwoken.leave p
  · rename_i hb
    refine Inv.leave (h.pipe (fun y hy => ?_) (fun q m hq hc => ?_) hwriters hclosed) p
    · cases hy
      exact hsound
    · -- nobody reads, because nobody has a descriptor for reading
      have := h.ends q k m hc
      have := h.closed k x hx (hbroken hb) q
      omega
  · rename_i hf
    refine hwoken.block (c := .writer k n (PipeStream.pipewrite.loop rest x).2.1) hp hpc nofun fun j m l hc => ?_
    cases hc
    refine ⟨rfl, ?_⟩
    rw [pipes_set, if_pos rfl]
    exact hfull hf

theorem piperead_inv (h : Inv s) {x : Pipe} (hp : s.table.proc = some p) (hpc : s.table.pc p = .other)
    (hx : s.pipes k = some x)
    (hf : 0 < s.fds p k false) (n : Int) : Inv (piperead p k n x s) := by
  unfold piperead
  split
  · rename_i hempty
    split
    · exact h.leave p
    · refine h.block hp hpc (fun j m hc => ?_) nofun
      cases hc
      exact ⟨rfl, ⟨x, hx, hempty.1, hempty.2⟩, hf⟩
  · rename_i hempty
    refine Inv.leave
      ((wakeup_inv h (nwrite k)).pipe (fun y hy => ?_) (fun q m hq hc => ?_) (fun q m l hq hc => ?_) fun y hy hr =>
      ?_) p
    · cases hy
      exact (PipeStream.readLoop_spec n.toNat (h.sound k x hx)).1
    · -- a reader that sleeps has seen an empty open pipe
      obtain ⟨hslot, -⟩ := wakeup1_sleeper hq
      change ((wakeup1 s.table (nwrite k)).slots q).state = .sleeping at hq
      rw [hslot] at hq
      obtain ⟨-, y, hy, he, hw⟩ := h.readers q k m hq hc
      rw [hx] at hy
      cases hy
      exact absurd ⟨he, hw⟩ hempty
    · obtain ⟨hslot, hch⟩ := wakeup1_sleeper hq
      change ((wakeup1 s.table (nwrite k)).slots q).state = .sleeping at hq
      rw [hslot] at hq
      exact absurd (h.writers q k m l hq hc).1 hch
    · cases hy
      rw [readLoop_readopen] at hr
      exact h.closed k x hx hr

theorem pipeclose_inv (h : Inv s) {x : Pipe} (w : Bool) (hx : s.pipes k = some x) (hlast : w = false → ∀ q,
    s.fds q k false = 0) :
    Inv (pipeclose k w x s) := by
  have hsound := h.sound k x hx
  -- who sleeps at the other end still sees his end of the pipe
  have hsleeper : ∀ {ch : Chan} {q : Fin NPROC}, ((wakeup1 s.table ch).slots q).state = .sleeping →
      (s.table.slots q).state = .sleeping ∧ (s.table.slots q).chan ≠ some ch := by
    intro ch q hq
    obtain ⟨hslot, hch⟩ := wakeup1_sleeper hq
    rw [hslot] at hq
    exact ⟨hq, hch⟩
  unfold pipeclose
  cases w with
  | true =>
      simp only [if_true]
      refine (wakeup_inv h (nread k)).pipe (fun y hy => ?_) (fun q m hq hc => ?_) (fun q m l hq hc =>
        ?_) fun y hy hr => ?_
      · split at hy
        · cases hy
        · cases hy
          exact ⟨hsound.nread, hsound.nwrite, hsound.fits⟩
      · obtain ⟨hsl, hch⟩ := hsleeper hq
        exact absurd (h.readers q k m hsl hc).1 hch
      · obtain ⟨hsl, -⟩ := hsleeper hq
        obtain ⟨-, y, hy, hfull, hr⟩ := h.writers q k m l hsl hc
        rw [hx] at hy
        cases hy
        exact ⟨{ x with writeopen := false }, by simp [hr], hfull, hr⟩
      · split at hy
        · cases hy
        · cases hy
          exact h.closed k x hx hr
  | false =>
      simp only [Bool.false_eq_true, if_false]
      refine (wakeup_inv h (nwrite k)).pipe (fun y hy => ?_) (fun q m hq hc => ?_) (fun q m l hq hc =>
        ?_) fun y hy hr => ?_
      · split at hy
        · cases hy
        · cases hy
          exact ⟨hsound.nread, hsound.nwrite, hsound.fits⟩
      · have := h.ends q k m hc
        have := hlast rfl q
        omega
      · obtain ⟨hsl, hch⟩ := hsleeper hq
        exact absurd (h.writers q k m l hsl hc).1 hch
      · exact hlast rfl

theorem fileclose_inv (h : Inv s) {x : Pipe} (w : Bool) (hp : Runs p s) (hx : s.pipes k = some x) :
    Inv (fileclose p k w x s) := by
  have h₁ : Inv (setFds p k w (s.fds p k w - 1) s) := by
    refine h.setFds w _ (fun m hm => ?_) fun y hy hr hw => ?_
    · rw [hp.calls] at hm
      cases hm
    · subst hw
      have := h.closed k y hy hr p
      omega
  unfold fileclose
  dsimp only
  split
  · exact h₁
  · rename_i hsum
    refine pipeclose_inv h₁ w hx fun hw q => ?_
    subst hw
    have hzero := Nat.eq_zero_of_not_pos hsum
    rw [Finset.sum_eq_zero_iff] at hzero
    exact hzero q (Finset.mem_univ q)

theorem pipealloc_inv (h : Inv s) (p : Fin NPROC) (hk : s.pipes k = none) (data : Nat → UInt8) :
    Inv (setFds p k false 1 (setFds p k true 1 (setPipe k (some (PipeStream.pipealloc data)) s))) := by
  have h₁ : Inv (setPipe k (some (PipeStream.pipealloc data)) s) := by
    refine h.pipe (fun y hy => ?_) (fun q m hq hc => ?_) (fun q m l hq hc => ?_) fun y hy hr => ?_
    · cases hy
      exact ⟨Nat.two_pow_pos 32, Nat.two_pow_pos 32, by change Lib.Fifo.count (2 ^ 32) 0 0 ≤ PIPESIZE; decide⟩
    · obtain ⟨-, x, hx, -⟩ := h.readers q k m hq hc
      rw [hk] at hx
      cases hx
    · obtain ⟨-, x, hx, -⟩ := h.writers q k m l hq hc
      rw [hk] at hx
      cases hx
    · cases hy
      cases hr
  have hopen : ∀ y, (setPipe k (some (PipeStream.pipealloc data)) s).pipes k = some y → y.readopen ≠ false := by
    intro y hy
    rw [pipes_set, if_pos rfl] at hy
    cases hy
    simp [PipeStream.pipealloc]
  have h₂ := h₁.setFds (p := p) (k := k) true 1 (fun _ _ => Nat.one_pos) fun y hy hr => absurd hr (hopen y hy)
  exact h₂.setFds false 1 (fun _ _ => Nat.one_pos) fun y hy hr => absurd hr (hopen y hy)

theorem step_inv (h : Inv s) (hs : Step s s') : Inv s' := by
  cases hs with
  | scheduler p hs => exact scheduler_inv h hs
  | wakeup ch => exact wakeup_inv h ch
  | act p hp ha hf hs => exact act_inv h hp hs
  | copy p np hp hc => exact copy_inv h hp hc
  | pipealloc p k data hp hc hk => exact pipealloc_inv h p hk data
  | dup p k w hp hf => exact dup_inv h w hf
  | write p k addr n hp hc hf hx => exact pipewrite_inv h hp.proc hc hx n _
  | read p k n hp hc hf hx => exact piperead_inv h hp.proc hc hx hf n
  | rewrite p k n rest hp hc hx => exact pipewrite_inv h hp (h.places p (by simp [hc])).2 hx n rest
  | reread p k n hp hc hx => exact piperead_inv h hp (h.places p (by simp [hc])).2 hx (h.ends p k n hc) n
  | close p k w hp hf hx => exact fileclose_inv h w hp hx

theorem Reaches.inv (h : Reaches s) : Inv s := by
  induction h with
  | boot => exact ⟨family_userinit, waiters_userinit, nofun, nofun, nofun, nofun, nofun, fun _ hc => absurd rfl hc⟩
  | step _ hs ih => exact step_inv ih hs

/-- Nobody is stranded: who sleeps in wait has a child and no zombie among his children, who
sleeps in piperead has an empty pipe with an open write end before him, and who sleeps in
pipewrite a full one with an open read end. -/
theorem nobody_stranded (h : Reaches s) (p : Fin NPROC) (hp : (s.table.slots p).state = .sleeping) :
    (s.table.pc p = .waiting →
      (∃ q, (s.table.slots q).parent = some p ∧ (s.table.slots q).state ≠ .unused) ∧
        ∀ q, (s.table.slots q).parent = some p → (s.table.slots q).state ≠ .zombie) ∧
    (∀ k n, s.calls p = some (.reader k n) →
      ∃ x, s.pipes k = some x ∧ (s.table.slots p).chan = some (nread k) ∧ buffer x = [] ∧ x.writeopen = true) ∧
    ∀ k n rest, s.calls p = some (.writer k n rest) →
      ∃ x, s.pipes k = some x ∧ (s.table.slots p).chan = some (nwrite k) ∧ (buffer x).length = PIPESIZE ∧
        x.readopen = true := by
  have hi := h.inv
  refine ⟨fun hw => ?_, fun k n hc => ?_, fun k n rest hc => ?_⟩
  · obtain ⟨q, hq⟩ := hi.waiters.child p ⟨hp, hw⟩
    refine ⟨⟨q, hq, fun hun => ?_⟩, fun q hq => hi.waiters.alive p q ⟨hp, hw⟩ hq⟩
    rw [hi.waiters.unused q hun] at hq
    cases hq
  · obtain ⟨hch, x, hx, he, hw⟩ := hi.readers p k n hp hc
    exact ⟨x, hx, hch, PipeStream.buffer_eq_nil (hi.sound k x hx) he, hw⟩
  · obtain ⟨hch, x, hx, hf, hr⟩ := hi.writers p k n rest hp hc
    refine ⟨x, hx, hch, ?_, hr⟩
    have hfull := (hi.sound k x hx).full_iff.1 hf
    exact (Lib.Fifo.length_contents ..).trans hfull

/-- init makes a pipe and reads from it. -/
theorem nobody_stranded_reader : ∃ s, Reaches s ∧ (s.table.slots 0).state = .sleeping ∧
    s.calls 0 = some (.reader 4096 1) ∧
    ∃ x, s.pipes 4096 = some x ∧ (s.table.slots 0).chan = some (nread 4096) ∧ buffer x = [] ∧ x.writeopen = true := by
  have h₁ := Reaches.boot.step (.scheduler 0 (if_pos (by decide)))
  have h₂ := h₁.step (.pipealloc 0 4096 (fun _ => 0) ⟨rfl, rfl⟩ rfl rfl)
  have h₃ := h₂.step (.read 0 4096 1 ⟨rfl, rfl⟩ rfl (by decide) rfl)
  exact ⟨_, h₃, rfl, rfl, (nobody_stranded h₃ 0 rfl).2.1 4096 1 rfl⟩

end ArmXv6.Waiting
