import ArmXv6.Kernel

namespace ArmXv6.Proc

open Lib.Exec Lib.Bytes Param Blocks Fs Content Vm Kernel

def allocproc : KM (Option Nat) := do
  let k ← fetch
  match (List.range NPROC).find? fun p => (k.procs p).state = .unused with
  | none => pure none
  | some p => do
      setProc p fun x => { x with state := .embryo, pid := k.nextpid }
      update fun k => { k with nextpid := k.nextpid + 1 }
      match ← onMm kalloc with
      | none => do
          setProc p fun x => { x with kstack := 0, state := .unused }
          pure none
      | some stack => do
          setProc p fun x => { x with kstack := stack }
          pure (some p)

def safestrcpy (t : List UInt8) (n : Nat) : List UInt8 := (t.takeWhile (· ≠ 0)).take (n - 1)

def zeroTf : Trapframe := ⟨fun _ => 0, 0, 0⟩

/-- The bytes of the text that names the first process. -/
def initcodeName : List UInt8 := [105, 110, 105, 116, 99, 111, 100, 101]

/-- The first process, with the given machine code as its image. -/
def userinit (initcode : List UInt8) : KM Unit := do
  match ← allocproc with
  | none => .panic "data abort exception"
  | some p => do
      update fun k => { k with initproc := p }
      match ← onMm setupvm with
      | none => .panic "userinit: out of memory?"
      | some pgdir => do
          setProc p fun x => { x with pgdir := pgdir }
          onMm (inituvm pgdir initcode)
          setProc p fun x =>
            { x with sz := PTE_SZ, tf := { zeroTf with spUsr := PTE_SZ }, name := safestrcpy initcodeName 16 }
          let cwd ← onFs (namei 0 [slash])
          setProc p fun x => { x with cwd := cwd }
          setProc p fun x => { x with state := .runnable }

/-- switchuvm loads the page directory of the process; only its checks can be seen here. -/
def switchuvm (p : Nat) : KM Unit := do
  let k ← fetch
  if (k.procs p).kstack = 0 then .panic "switchuvm: no kstack"
  else if (k.procs p).pgdir = 0 then .panic "switchuvm: no pgdir"
  else pure ()

def growproc (n : Int) : KM Int := do
  let k ← fetch
  let p := k.procs k.cur
  let sz ← (if 0 < n then onMm (allocuvm p.pgdir p.sz (uint (p.sz + bits n)))
    else if n < 0 then onMm (deallocuvm p.pgdir p.sz (uint (p.sz + bits n)))
    else pure p.sz)
  if n ≠ 0 ∧ sz = 0 then pure (-1)
  else do
    setProc k.cur fun x => { x with sz := sz }
    switchuvm k.cur
    pure 0

def sysSbrk (n : Int) : KM Int := do
  let k ← fetch
  let r ← growproc n
  if r < 0 then pure (-1) else pure (sint (k.procs k.cur).sz)

def fork.dupFiles (np : Nat) : List Nat → KM Unit
  | [] => pure ()
  | i :: rest => do
      let k ← fetch
      (match (k.procs k.cur).ofile i with
        | some f => do
            let f ← filedup f
            setProc np fun x => { x with ofile := Function.update x.ofile i (some f) }
        | none => pure ())
      fork.dupFiles np rest

def fork : KM Int := do
  match ← allocproc with
  | none => pure (-1)
  | some np => do
      let k ← fetch
      let pid := (k.procs np).pid
      let p := k.procs k.cur
      match ← onMm (copyuvm p.pgdir p.sz) with
      | none => do
          onMm (kfree (k.procs np).kstack)
          setProc np fun x => { x with pgdir := 0, kstack := 0, state := .unused }
          pure (-1)
      | some pgdir => do
          setProc np fun x =>
            { x with
              pgdir := pgdir
              sz := p.sz
              parent := some k.cur
              tf := { p.tf with r := Function.update p.tf.r 0 0 } }
          fork.dupFiles np (List.range NOFILE)
          (match p.cwd with
            | some cwd => do
                let cwd ← onFs (idup cwd)
                setProc np fun x => { x with cwd := some cwd }
            | none => .panic "data abort exception")
          setProc np fun x => { x with name := safestrcpy p.name 16 }
          setProc np fun x => { x with state := .runnable }
          pure pid

def exit.closeFiles : List Nat → KM Unit
  | [] => pure ()
  | fd :: rest => do
      let k ← fetch
      (match (k.procs k.cur).ofile fd with
        | some f => do
            fileclose f
            setProc k.cur fun x => { x with ofile := Function.update x.ofile fd none }
        | none => pure ())
      exit.closeFiles rest

/-- Pass abandoned children to init. The wakeups of exit find nobody: no other process is inside a call. -/
def exit.reparent (k : Kstate) : Kstate :=
  { k with procs := fun p =>
      if p < NPROC ∧ (k.procs p).parent = some k.cur then { k.procs p with parent := some k.initproc }
      else k.procs p }

/-- The process does not run again. -/
def exit : KM Unit := do
  let k ← fetch
  if k.cur = k.initproc then .panic "init exiting"
  else do
    exit.closeFiles (List.range NOFILE)
    (match (k.procs k.cur).cwd with
      | some cwd => onFs (iput cwd)
      | none => .panic "data abort exception")
    setProc k.cur fun x => { x with cwd := none }
    update exit.reparent
    setProc k.cur fun x => { x with state := .zombie }

/-- The pid of a child that has exited, or -1 without children. -/
def wait : KM Int := do
  let k ← fetch
  match (List.range NPROC).find? fun p =>
      (k.procs p).parent = some k.cur ∧ (k.procs p).state = .zombie with
  | some p => do
      onMm (kfree (k.procs p).kstack)
      setProc p fun x => { x with kstack := 0 }
      onMm (freevm (k.procs p).pgdir)
      setProc p fun x => { x with state := .unused, pid := 0, parent := none, name := [], killed := false }
      pure (k.procs p).pid
  | none =>
      if (∀ p < NPROC, (k.procs p).parent ≠ some k.cur) ∨ (k.procs k.cur).killed then pure (-1)
      else .sleep

def kill (pid : Nat) : KM Int := do
  let k ← fetch
  match (List.range NPROC).find? fun p => (k.procs p).pid = pid with
  | some p => do
      setProc p fun x =>
        { x with killed := true, state := if x.state = .sleeping then .runnable else x.state }
      pure 0
  | none => pure (-1)

end ArmXv6.Proc
