import ArmXv6.Descriptors

namespace ArmXv6.Syscall

open Lib.Exec Lib.Bytes Param Blocks Fs Content Sysfile Vm Kernel Proc Exec Descriptors

/-- The byte that a kernel load from a user address of the running process finds. -/
def loadByte (curpgdir va : Nat) : MmM UInt8 := do
  match ← walkpgdir curpgdir va false with
  | none => .panic "data abort exception"
  | some pte => do
      let m ← fetch
      if ¬present (m.ram.word pte) then .panic "data abort exception"
      else pure (m.ram.get (PTE_ADDR (m.ram.word pte) + va % PTE_SZ))

def fetchint (addr : Nat) : KM (Option Nat) := do
  let p ← proc
  if p.sz ≤ addr ∨ p.sz < uint (addr + 4) then pure none
  else do
    let w ← onMm (loadUser p.pgdir addr)
    pure (some w)

def fetchstr.loop (pgdir ep : Nat) : Nat → Nat → Nat → MmM (Option Nat)
  | 0, _, _ => pure none
  | fuel + 1, s, len =>
      if s < ep then do
        let c ← loadByte pgdir s
        if c = 0 then pure (some len) else fetchstr.loop pgdir ep fuel (s + 1) (len + 1)
      else pure none

/-- The length of the string at addr, or none for the error -1. -/
def fetchstr (addr : Nat) : KM (Option Nat) := do
  let p ← proc
  if p.sz ≤ addr then pure none else onMm (fetchstr.loop p.pgdir p.sz p.sz addr 0)

def argint (n : Nat) : KM Int := do
  if 3 < n then .panic "too many system call parameters\n"
  else do
    let p ← proc
    pure (sint (p.tf.r (n + 1)))

/-- The size is signed and the sum with the pointer is unsigned. -/
def argptr (n : Nat) (size : Int) : KM (Option Nat) := do
  let i ← argint n
  let p ← proc
  if p.sz ≤ bits i ∨ p.sz < bits (bits i + size) then pure none else pure (some (bits i))

def argstr (n : Nat) : KM (Option (Nat × Nat)) := do
  let addr ← argint n
  match ← fetchstr (bits addr) with
  | none => pure none
  | some len => pure (some (bits addr, len))

def loadBytes (pgdir : Nat) : Nat → Nat → MmM (List UInt8)
  | _, 0 => pure []
  | va, len + 1 => do
      let c ← loadByte pgdir va
      let rest ← loadBytes pgdir (va + 1) len
      pure (c :: rest)

/-- Read into user memory: the result and the place and bytes of the store. -/
def fileReadAt (f : Nat) (p : Nat) (n : Int) : KM (Int × Nat × List UInt8) := do
  let r ← fileread f n
  pure (r.1, p, r.2)

/-- The arguments of read are checked in the order of the source. The result, and the
user address and bytes of what the kernel stores. -/
def sysRead : KM (Int × Nat × List UInt8) := do
  let fd ← argint 0
  let k ← fetch
  match argfd k fd with
  | none => pure (-1, 0, [])
  | some f => do
      let n ← argint 2
      match ← argptr 1 n with
      | none => pure (-1, 0, [])
      | some p => fileReadAt f p n

/-- A system call with its arguments fetched from registers and user memory. The bytes
behind the buffer of a write are a function; the buffers of exec are what its stack
holds. -/
inductive Call
  | fork
  | exit
  | wait
  | pipe (addr : Nat)
  | read (fd : Int) (addr : Nat) (n : Int)
  | kill (pid : Nat)
  | exec (path : List UInt8) (argv : List (List UInt8)) (elf0 ph0 : List UInt8)
  | fstat (fd : Int) (addr : Nat)
  | chdir (path : List UInt8)
  | dup (fd : Int)
  | getpid
  | sbrk (n : Int)
  | open (path : List UInt8) (omode : Nat)
  | write (fd : Int) (src : Nat → UInt8) (n : Int)
  | mknod (path : List UInt8) (major minor : Nat)
  | unlink (path : List UInt8)
  | link (old new : List UInt8)
  | mkdir (path : List UInt8)
  | close (fd : Int)

/-- stati stores field by field; the padding is not written. -/
def storeStat (curpgdir addr : Nat) (st : Stat) : MmM Unit := do
  storeUser curpgdir (uint (addr + 4)) (leBytes 4 st.dev)
  storeUser curpgdir (uint (addr + 8)) (leBytes 4 st.ino)
  storeUser curpgdir addr (leBytes 2 st.type)
  storeUser curpgdir (uint (addr + 12)) (leBytes 2 st.nlink)
  storeUser curpgdir (uint (addr + 16)) (leBytes 4 st.size)

def run : Call → KM Int
  | .fork => fork
  | .exit => do
      exit
      pure 0
  | .wait => wait
  | .pipe addr => sysPipe addr
  | .read fd addr n => do
      let k ← fetch
      match argfd k fd with
      | none => pure (-1)
      | some f => do
          let r ← fileread f n
          onMm (storeUser (k.procs k.cur).pgdir addr r.2)
          pure r.1
  | .kill pid => kill pid
  | .exec path argv elf0 ph0 => exec path argv elf0 ph0
  | .fstat fd addr => do
      let k ← fetch
      match argfd k fd with
      | none => pure (-1)
      | some f => do
          match ← filestat f with
          | none => pure (-1)
          | some st => do
              onMm (storeStat (k.procs k.cur).pgdir addr st)
              pure 0
  | .chdir path => sysChdir path
  | .dup fd => sysDup fd
  | .getpid => do
      let p ← proc
      pure p.pid
  | .sbrk n => sysSbrk n
  | .open path omode => sysOpen path omode
  | .write fd src n => do
      let k ← fetch
      match argfd k fd with
      | none => pure (-1)
      | some f => filewrite f src n
  | .mknod path major minor => do
      let p ← proc
      onFs (sysMknod (p.cwd.getD 0) path major minor)
  | .unlink path => do
      let p ← proc
      onFs (sysUnlink (p.cwd.getD 0) path)
  | .link old new => do
      let p ← proc
      onFs (sysLink (p.cwd.getD 0) old new)
  | .mkdir path => do
      let p ← proc
      onFs (sysMkdir (p.cwd.getD 0) path)
  | .close fd => sysClose fd

end ArmXv6.Syscall
