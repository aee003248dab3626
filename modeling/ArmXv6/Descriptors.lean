import ArmXv6.Exec

namespace ArmXv6.Descriptors

open Lib.Exec Lib.Bytes Param Blocks Fs Content Sysfile Vm Kernel Proc Exec

def O_RDONLY : Nat := 0
def O_WRONLY : Nat := 1
def O_RDWR : Nat := 2
def O_CREATE : Nat := 0x200

/-- The open file behind a descriptor of the running process. -/
def argfd (k : Kstate) (fd : Int) : Option Nat :=
  if fd < 0 ∨ (NOFILE : Int) ≤ fd then none else (k.procs k.cur).ofile fd.toNat

def fdalloc (f : Nat) : KM (Option Nat) := do
  let k ← fetch
  match (List.range NOFILE).find? fun fd => (k.procs k.cur).ofile fd = none with
  | some fd => do
      setProc k.cur fun x => { x with ofile := Function.update x.ofile fd (some f) }
      pure (some fd)
  | none => pure none

def sysDup (fd : Int) : KM Int := do
  let k ← fetch
  match argfd k fd with
  | none => pure (-1)
  | some f => do
      match ← fdalloc f with
      | none => pure (-1)
      | some fd => do
          let _ ← filedup f
          pure fd

def sysClose (fd : Int) : KM Int := do
  let k ← fetch
  match argfd k fd with
  | none => pure (-1)
  | some f => do
      setProc k.cur fun x => { x with ofile := Function.update x.ofile fd.toNat none }
      fileclose f
      pure 0

/-- The failure path of open: give back the file, if there is one, and the inode. -/
def sysOpen.bad (f : Option Nat) (ip : Nat) : KM Int := do
  (match f with
    | some f => fileclose f
    | none => pure ())
  onFs (iunlockput ip)
  pure (-1)

/-- Give the locked inode a file and a descriptor. -/
def sysOpen.install (ip omode : Nat) : KM Int := do
  match ← filealloc with
  | none => sysOpen.bad none ip
  | some f => do
      match ← fdalloc f with
      | none => sysOpen.bad (some f) ip
      | some fd => do
          onFs (iunlock ip)
          setFile f fun x =>
            { x with
              type := .inode
              ip := ip
              off := 0
              readable := omode &&& O_WRONLY = 0
              writable := omode &&& O_WRONLY ≠ 0 ∨ omode &&& O_RDWR ≠ 0 }
          pure fd

/-- The locked inode that open works on. -/
def sysOpen.find (cwd : Nat) (path : List UInt8) (omode : Nat) : FsM (Option Nat) :=
  if omode &&& O_CREATE ≠ 0 then do
    beginTrans
    let ip ← create cwd path T_FILE 0 0
    commitTrans
    pure ip
  else do
    match ← namei cwd path with
    | none => pure none
    | some ip => do
        ilock ip
        let fs ← fetch
        if (fs.icache ip).din.type = T_DIR ∧ omode ≠ O_RDONLY then do
          iunlockput ip
          pure none
        else pure (some ip)

def sysOpen (path : List UInt8) (omode : Nat) : KM Int := do
  let p ← proc
  match ← onFs (sysOpen.find (p.cwd.getD 0) path omode) with
  | none => pure (-1)
  | some ip => sysOpen.install ip omode

def sysChdir (path : List UInt8) : KM Int := do
  let k ← fetch
  let cwd := (k.procs k.cur).cwd.getD 0
  match ← onFs (namei cwd path) with
  | none => pure (-1)
  | some ip => do
      onFs (ilock ip)
      let k' ← fetch
      if (k'.fs.icache ip).din.type ≠ T_DIR then do
        onFs (iunlockput ip)
        pure (-1)
      else do
        onFs (iunlock ip)
        onFs (iput cwd)
        setProc k.cur fun x => { x with cwd := some ip }
        pure 0

/-- Kernel stores to user addresses of the running process go through its page table. -/
def storeUser (curpgdir : Nat) : Nat → List UInt8 → MmM Unit
  | _, [] => pure ()
  | va, b :: bs => do
      match ← walkpgdir curpgdir va false with
      | none => .panic "data abort exception"
      | some pte => do
          let m ← fetch
          if ¬present (m.ram.word pte) then .panic "data abort exception"
          else do
            setRam fun r => r.setSlice (PTE_ADDR (m.ram.word pte) + va % PTE_SZ) [b]
            storeUser curpgdir (uint (va + 1)) bs

/-- The two descriptors are stored at the checked user address. -/
def sysPipe (addr : Nat) : KM Int := do
  let k ← fetch
  match ← pipealloc with
  | none => pure (-1)
  | some (rf, wf) => do
      match ← fdalloc rf with
      | none => do
          fileclose rf
          fileclose wf
          pure (-1)
      | some fd0 => do
          match ← fdalloc wf with
          | none => do
              setProc k.cur fun x => { x with ofile := Function.update x.ofile fd0 none }
              fileclose rf
              fileclose wf
              pure (-1)
          | some fd1 => do
              onMm (storeUser (k.procs k.cur).pgdir addr (leBytes 4 fd0 ++ leBytes 4 fd1))
              pure 0

end ArmXv6.Descriptors
