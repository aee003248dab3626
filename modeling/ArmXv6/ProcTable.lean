import ArmXv6.Kernel
import Mathlib.Data.Fintype.Basic
import Mathlib.Data.Fintype.EquivFin

namespace ArmXv6.ProcTable

open Param Kernel

instance : NeZero NPROC := ⟨by decide⟩

/-- What a process sleeps on: the process whose wait it is, or any other address. -/
inductive Chan
  | proc (p : Fin NPROC)
  | addr (a : Nat)
  deriving DecidableEq

structure Slot where
  state : ProcState
  pid : Int
  parent : Option (Fin NPROC)
  chan : Option Chan
  killed : Bool
  deriving DecidableEq

/-- Where a process stands in kernel code. Nothing in fork sleeps and no handler calls
yield, so the processor stays with a process between the steps of fork; exit may sleep
while it closes files, and wait sleeps between two scans of the table. -/
inductive Pc
  | other
  | embryo (np : Fin NPROC)
  | stacked (np : Fin NPROC)
  | copied (np : Fin NPROC)
  | exiting
  | waiting
  deriving DecidableEq

structure Table where
  slots : Fin NPROC → Slot
  pc : Fin NPROC → Pc
  proc : Option (Fin NPROC)
  initproc : Fin NPROC
  nextpid : Int

/-- What the callers of the process table see of a run. -/
inductive Event
  | alloc (pid : Int)
  | fork (parent child : Fin NPROC) (pid : Int)
  | exit (p : Fin NPROC) (pid : Int)
  | wait (caller : Fin NPROC) (pid : Int)
  deriving DecidableEq

def setSlot (s : Table) (p : Fin NPROC) (x : Slot) : Table :=
  { s with slots := Function.update s.slots p x }

def setPc (s : Table) (p : Fin NPROC) (c : Pc) : Table :=
  { s with pc := Function.update s.pc p c }

def succ (n : Int) : Int := (n + 1).bmod (2 ^ 32)

/-- The part of allocproc under the lock of the table. -/
def allocproc (s : Table) : Option (Fin NPROC × Table) :=
  match (List.finRange NPROC).find? fun p => (s.slots p).state = .unused with
  | none => none
  | some p =>
      some (p, { setSlot s p { s.slots p with state := .embryo, pid := s.nextpid } with nextpid := succ s.nextpid })

/-- The table before userinit. -/
def blank : Table where
  slots _ := ⟨.unused, 0, none, none, false⟩
  pc _ := .other
  proc := none
  initproc := ⟨0, by decide⟩
  nextpid := 1

def userinit : Table :=
  match allocproc blank with
  | none => blank
  | some (p, s) => { setSlot s p { s.slots p with state := .runnable } with initproc := p }

def wakeup1 (s : Table) (ch : Chan) : Table :=
  { s with slots := fun p =>
      if (s.slots p).state = .sleeping ∧ (s.slots p).chan = some ch then { s.slots p with state := .runnable }
      else s.slots p }

/-- The scheduler switches to p. A process that comes back from sleep clears its channel. -/
def scheduler (s : Table) (p : Fin NPROC) : Option Table :=
  if s.proc = none ∧ (s.slots p).state = .runnable then
    some { setSlot s p { s.slots p with state := .running, chan := none } with proc := some p }
  else none

def yield (s : Table) (p : Fin NPROC) : Table :=
  { setSlot s p { s.slots p with state := .runnable } with proc := none }

def sleep (s : Table) (p : Fin NPROC) (ch : Chan) : Table :=
  { setSlot s p { s.slots p with chan := some ch, state := .sleeping } with proc := none }

/-- The loop over the table matches the first slot with the pid, whatever its state. -/
def kill (s : Table) (pid : Int) : Int × Table :=
  match (List.finRange NPROC).find? fun p => (s.slots p).pid = pid with
  | some p =>
      (0, setSlot s p
        { s.slots p with
          killed := true
          state := if (s.slots p).state = .sleeping then .runnable else (s.slots p).state })
  | none => (-1, s)

/-- The failure paths of fork after allocproc found a slot. -/
def fork.fail (s : Table) (p np : Fin NPROC) : Table :=
  setPc (setSlot s np { s.slots np with state := .unused }) p .other

def fork.copy (s : Table) (p np : Fin NPROC) : Table :=
  setPc (setSlot s np { s.slots np with parent := some p }) p (.copied np)

def fork.ready (s : Table) (p np : Fin NPROC) : Table :=
  { setSlot s np { s.slots np with state := .runnable } with
    pc := Function.update (Function.update s.pc np .other) p .other }

/-- Pass abandoned children to init. -/
def exit.reparent (s : Table) (p : Fin NPROC) : Table :=
  { s with slots := fun q =>
      if (s.slots q).parent = some p then { s.slots q with parent := some s.initproc } else s.slots q }

/-- The parent might be sleeping in wait. -/
def exit.wakeParent (s : Table) (p : Fin NPROC) : Table :=
  match (s.slots p).parent with
  | some q => wakeup1 s (.proc q)
  | none => s

/-- The part of exit under the lock of the table, with the switch to the scheduler. -/
def exit.finish (s : Table) (p : Fin NPROC) : Table :=
  let s₁ := exit.wakeParent s p
  let s₂ := exit.reparent s₁ p
  let s₃ := if ∃ q, (s₁.slots q).parent = some p ∧ (s₁.slots q).state = .zombie then wakeup1 s₂ (.proc s.initproc)
    else s₂
  { setSlot s₃ p { s₃.slots p with state := .zombie } with proc := none }

def wait.reap (s : Table) (p q : Fin NPROC) : Table :=
  setPc (setSlot s q { s.slots q with state := .unused, pid := 0, parent := none, killed := false }) p .other

/-- One scan of the table: the child that is reaped, the error, or a sleep. -/
def wait (s : Table) (p : Fin NPROC) : Table × List Event :=
  match (List.finRange NPROC).find? fun q => (s.slots q).parent = some p ∧ (s.slots q).state = .zombie with
  | some q => (wait.reap s p q, [.wait p (s.slots q).pid])
  | none =>
      if (∀ q, (s.slots q).parent ≠ some p) ∨ (s.slots p).killed then (setPc s p .other, [])
      else (setPc (sleep s p (.proc p)) p .waiting, [])

/-- The steps between which control can pass to the scheduler or an interrupt. A sleep
belongs to any other kernel code; kalloc and copyuvm are the places where fork can fail. -/
inductive Action
  | scheduler (p : Fin NPROC)
  | yield
  | sleep (a : Nat)
  | wakeup (ch : Chan)
  | kill (pid : Int)
  | fork
  | kalloc (ok : Bool)
  | copyuvm (ok : Bool)
  | ready
  | exit
  | finish
  | wait
  deriving DecidableEq

/-- What the process p does when it runs. none is a step the code does not take there. -/
def act (s : Table) (p : Fin NPROC) : Action → Option (Table × List Event)
  | .yield => if s.pc p = .other then some (yield s p, []) else none
  | .sleep a => if s.pc p = .other ∨ s.pc p = .exiting then some (sleep s p (.addr a), []) else none
  | .kill pid => if s.pc p = .other then some ((kill s pid).2, []) else none
  | .fork =>
      if s.pc p = .other then
        match allocproc s with
        | none => some (s, [])
        | some (np, s') => some (setPc s' p (.embryo np), [.alloc s.nextpid])
      else none
  | .kalloc ok =>
      match s.pc p with
      | .embryo np => some (if ok then setPc s p (.stacked np) else fork.fail s p np, [])
      | _ => none
  | .copyuvm ok =>
      match s.pc p with
      | .stacked np => some (if ok then fork.copy s p np else fork.fail s p np, [])
      | _ => none
  | .ready =>
      match s.pc p with
      | .copied np => some (fork.ready s p np, [.fork p np (s.slots np).pid])
      | _ => none
  | .exit => if s.pc p = .other ∧ p ≠ s.initproc then some (setPc s p .exiting, []) else none
  | .finish =>
      if s.pc p = .exiting then some (exit.finish s p, [.exit p (s.slots p).pid]) else none
  | .wait => if s.pc p = .other ∨ s.pc p = .waiting then some (wait s p) else none
  | _ => none

def step (s : Table) : Action → Option (Table × List Event)
  | .scheduler p => (scheduler s p).map fun s' => (s', [])
  | .wakeup ch => some (wakeup1 s ch, [])
  | a =>
      match s.proc with
      | some p => act s p a
      | none => none

/-- The states of runs from userinit whose steps meet a condition, with what was seen. -/
inductive Reaches (ok : Table → Action → Prop) : Table → List Event → Prop
  | start : Reaches ok userinit [.alloc 1]
  | step {s s' : Table} {t e : List Event} {a : Action} (h : Reaches ok s t) (ha : ok s a)
      (hs : step s a = some (s', e)) : Reaches ok s' (t ++ e)

/-- The table after a list of steps, with what was seen. -/
def run (s : Table) : List Action → Option (Table × List Event)
  | [] => some (s, [])
  | a :: as =>
      match step s a with
      | none => none
      | some (s', e) =>
          match run s' as with
          | none => none
          | some (s'', e') => some (s'', e ++ e')

theorem Reaches.run {s s' : Table} {t e : List Event} {as : List Action}
    (h : Reaches (fun _ _ => True) s t) (hr : run s as = some (s', e)) :
    Reaches (fun _ _ => True) s' (t ++ e) := by
  induction as generalizing s t e with
  | nil =>
      cases hr
      rwa [List.append_nil]
  | cons a as ih =>
      simp only [ProcTable.run] at hr
      cases hs : ProcTable.step s a with
      | none => rw [hs] at hr; cases hr
      | some r =>
          obtain ⟨s₁, e₁⟩ := r
          rw [hs] at hr
          dsimp only at hr
          cases hr' : ProcTable.run s₁ as with
          | none => rw [hr'] at hr; cases hr
          | some r =>
              rw [hr'] at hr
              cases hr
              rw [← List.append_assoc]
              exact ih (h.step trivial hs) hr'

end ArmXv6.ProcTable
