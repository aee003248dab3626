import ArmXv6.Proc

namespace ArmXv6.Exec

open Lib.Exec Lib.Bytes Param Blocks Fs Content Vm Kernel Proc

def ELF_MAGIC : Nat := 0x464C457F
def ELF_PROG_LOAD : Nat := 1
def ELFSIZE : Nat := 52
def PHSIZE : Nat := 32

/-- The little-endian number of the given width at an offset of a byte list. -/
def field (l : List UInt8) (off width : Nat) : Nat := leNat ((l.drop off).take width)

/-- What a read leaves in a buffer that held old before. -/
def overwrite (old new : List UInt8) : List UInt8 := new ++ old.drop new.length

def loaduvm.loop (pgdir addr ip offset sz : Nat) : Nat → Nat → KM Int
  | 0, _ => pure 0
  | fuel + 1, i =>
      if i < sz then do
        match ← onMm (walkpgdir pgdir (uint (addr + i)) false) with
        | none => .panic "loaduvm: address should exist"
        | some pte => do
            let k ← fetch
            let pa := PTE_ADDR (k.mm.ram.word pte)
            let n := min (sz - i) PTE_SZ
            let r ← onFs (readi ip (uint (offset + i)) n)
            onMm (setRam fun m => m.setSlice pa r.2)
            if r.1 ≠ n then pure (-1) else loaduvm.loop pgdir addr ip offset sz fuel (i + PTE_SZ)
      else pure 0

def loaduvm (pgdir addr ip offset sz : Nat) : KM Int :=
  if addr % PTE_SZ ≠ 0 then .panic "loaduvm: addr must be page aligned"
  else loaduvm.loop pgdir addr ip offset sz (sz / PTE_SZ + 1) 0

/-- The word that a kernel load from a user address of the running process finds. -/
def loadUser (curpgdir va : Nat) : MmM Nat := do
  match ← walkpgdir curpgdir va false with
  | none => .panic "data abort exception"
  | some pte => do
      let m ← fetch
      if ¬present (m.ram.word pte) then .panic "data abort exception"
      else pure (m.ram.word (PTE_ADDR (m.ram.word pte) + va % PTE_SZ))

/-- The result of walkpgdir is not checked: without a page table the entry is the word
at address 0 of the running process. -/
def uva2ka (curpgdir pgdir uva : Nat) : MmM (Option Nat) := do
  let pte ← walkpgdir pgdir uva false
  let w ← (match pte with
    | some pte => do
        let m ← fetch
        pure (m.ram.word pte)
    | none => loadUser curpgdir 0)
  if ¬present w then pure none
  else if PTE_AP w ≠ AP_KU then pure none
  else do
    (if pte = none then emit (.nullPte w) else pure ())
    pure (some (PTE_ADDR w))

def copyout.loop (curpgdir pgdir : Nat) : Nat → Nat → List UInt8 → MmM Int
  | 0, _, _ => pure 0
  | fuel + 1, va, buf =>
      if 0 < buf.length then do
        let va0 := ALIGNDOWN va PTE_SZ
        match ← uva2ka curpgdir pgdir va0 with
        | none => pure (-1)
        | some pa0 => do
            let n := min (PTE_SZ - (va - va0)) buf.length
            setRam fun r => r.setSlice (pa0 + (va - va0)) (buf.take n)
            copyout.loop curpgdir pgdir fuel (uint (va0 + PTE_SZ)) (buf.drop n)
      else pure 0

def copyout (curpgdir pgdir va : Nat) (buf : List UInt8) : MmM Int :=
  copyout.loop curpgdir pgdir (buf.length + 1) va buf

/-- The failure path; ip is the inode while it is still locked. -/
def exec.bad (pgdir ip : Option Nat) : KM Int := do
  (match pgdir with
    | some d => onMm (freevm d)
    | none => pure ())
  (match ip with
    | some ip => onFs (iunlockput ip)
    | none => pure ())
  pure (-1)

/-- Load the program headers from the i-th on; none stands for a jump to bad. -/
def exec.segments (pgdir ip : Nat) (ph0 : List UInt8) : Nat → Nat → Nat → KM (Option Nat)
  | 0, _, sz => pure (some sz)
  | count + 1, off, sz => do
      let r ← onFs (readi ip off PHSIZE)
      if r.1 ≠ PHSIZE then pure none
      else
        let ph := overwrite ph0 r.2
        if field ph 0 4 ≠ ELF_PROG_LOAD then exec.segments pgdir ip ph count (uint (off + PHSIZE)) sz
        else if field ph 20 4 < field ph 16 4 then pure none
        else do
          let sz ← onMm (allocuvm pgdir sz (uint (field ph 8 4 + field ph 20 4)))
          if sz = 0 then pure none
          else do
            let r ← loaduvm pgdir (field ph 8 4) ip (field ph 4 4) (field ph 16 4)
            if r < 0 then pure none
            else exec.segments pgdir ip ph count (uint (off + PHSIZE)) sz

/-- Push the argument strings; the stack pointer and the addresses of the strings. -/
def exec.pushArgs (curpgdir pgdir : Nat) : List (List UInt8) → Nat → List Nat → MmM (Option (Nat × List Nat))
  | [], sp, ustack => pure (some (sp, ustack))
  | arg :: rest, sp, ustack =>
      if MAXARG ≤ ustack.length then pure none
      else do
        let sp := uint (sp + (2 ^ 32 - (arg.length + 1))) / 4 * 4
        let r ← copyout curpgdir pgdir sp (arg ++ [0])
        if r < 0 then pure none else exec.pushArgs curpgdir pgdir rest sp (ustack ++ [sp])

def basename (path : List UInt8) : List UInt8 := (path.reverse.takeWhile (· ≠ slash)).reverse

/-- After the segments are loaded: the stack, the arguments and the switch to the new image. -/
@[irreducible]
def exec.commit (path : List UInt8) (argv : List (List UInt8)) (elf : List UInt8) (pgdir sz : Nat) : KM Int := do
  let sz := ALIGNUP sz PTE_SZ
  let sz ← onMm (allocuvm pgdir sz (uint (sz + 2 * PTE_SZ)))
  if sz = 0 then exec.bad (some pgdir) none
  else do
    onMm (clearpteu pgdir (uint (sz + (2 ^ 32 - 2 * PTE_SZ))))
    let k ← fetch
    let p := k.procs k.cur
    match ← onMm (exec.pushArgs p.pgdir pgdir argv sz []) with
    | none => exec.bad (some pgdir) none
    | some (sp, ustack) => do
        let argc := ustack.length
        let sp := uint (sp + (2 ^ 32 - (argc + 1) * 4))
        setProc k.cur fun x =>
          { x with tf := { x.tf with r := Function.update (Function.update x.tf.r 0 argc) 1 sp } }
        let r ← onMm (copyout p.pgdir pgdir sp ((ustack ++ [0]).flatMap (leBytes 4)))
        if r < 0 then exec.bad (some pgdir) none
        else do
          setProc k.cur fun x =>
            { x with
              name := safestrcpy (basename path) 16
              pgdir := pgdir
              sz := sz
              tf := { x.tf with pc := field elf 24 4, spUsr := sp } }
          switchuvm k.cur
          onMm (freevm p.pgdir)
          pure 0

/-- elf0 and ph0 are what the two header buffers on the stack hold before the reads. The
comparison of the first read with the header size is unsigned, so -1 passes it. -/
def exec (path : List UInt8) (argv : List (List UInt8)) (elf0 ph0 : List UInt8) : KM Int := do
  let p ← proc
  match ← onFs (namei (p.cwd.getD 0) path) with
  | none => pure (-1)
  | some ip => do
      onFs (ilock ip)
      let r ← onFs (readi ip 0 ELFSIZE)
      let elf := overwrite elf0 r.2
      if bits r.1 < ELFSIZE then exec.bad none (some ip)
      else if field elf 0 4 ≠ ELF_MAGIC then exec.bad none (some ip)
      else do
        match ← onMm setupvm with
        | none => exec.bad none (some ip)
        | some pgdir => do
            match ← exec.segments pgdir ip ph0 (field elf 44 2) (field elf 28 4) 0 with
            | none => exec.bad (some pgdir) (some ip)
            | some sz => do
                onFs (iunlockput ip)
                exec.commit path argv elf pgdir sz

end ArmXv6.Exec
