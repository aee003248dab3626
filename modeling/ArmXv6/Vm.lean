import ArmXv6.Blocks

namespace ArmXv6.Vm

open Lib.Exec Lib.Bytes Param Blocks

def PGSIZE : Nat := 65536
def KERNBASE : Nat := 2 ^ 31
def PHYSTOP : Nat := 2 ^ 27
def PDE_SZ : Nat := 2 ^ 20
def PTE_SZ : Nat := 2 ^ 12
def UADDR_SZ : Nat := 2 ^ 28
def NUM_UPDE : Nat := 256
def NUM_PTE : Nat := 256
def AP_KO : Nat := 1
def AP_KU : Nat := 3

/-- The size of what kalloc hands out: four large pages. -/
def FRAME : Nat := 4 * PGSIZE

def ALIGNUP (sz al : Nat) : Nat := uint (sz + al - 1) / al * al
def ALIGNDOWN (sz al : Nat) : Nat := sz / al * al
def PDE_IDX (v : Nat) : Nat := v / PDE_SZ
def PTE_IDX (v : Nat) : Nat := v / PTE_SZ % NUM_PTE
def PTE_ADDR (v : Nat) : Nat := ALIGNDOWN v PTE_SZ
def PTE_AP (pte : Nat) : Nat := pte / 16 % 4

/-- Both descriptor levels keep their type in the two low bits; zero is absent. -/
def present (e : Nat) : Bool := e % 4 ≠ 0

/-- Physical memory and the frame allocator. Kernel pointers appear as the physical
addresses behind them. -/
structure Mm where
  ram : Mem PHYSTOP
  freelist : List Nat
  kernEnd : Nat

abbrev MmM (α : Type) : Type := Prog Event Mm α

def setRam (f : Mem PHYSTOP → Mem PHYSTOP) : MmM Unit := update fun m => { m with ram := f m.ram }

/-- The kernel address of a list cell, or the null pointer. -/
def kernelPtr : Option Nat → Nat
  | none => 0
  | some v => v + KERNBASE

def kfree (v : Nat) : MmM Unit := do
  let m ← fetch
  if v % FRAME ≠ 0 then .panic "kfree - unaligned"
  else if v < m.kernEnd then .panic "kfree - under kern_end"
  else if PHYSTOP ≤ v then .panic "kfree - over PHYSTOP"
  else do
    setRam fun r => (r.fill v FRAME 0).setWord v (kernelPtr m.freelist.head?)
    update fun m => { m with freelist := v :: m.freelist }

def kalloc : MmM (Option Nat) := do
  let m ← fetch
  match m.freelist with
  | [] => pure none
  | r :: rest => do
      update fun m => { m with freelist := rest }
      pure (some r)

def freerange.loop (vend : Nat) : Nat → Nat → MmM Unit
  | 0, _ => pure ()
  | fuel + 1, p =>
      if p + FRAME ≤ vend then do
        kfree p
        freerange.loop vend fuel (p + FRAME)
      else pure ()

def freerange (vstart vend : Nat) : MmM Unit :=
  freerange.loop vend (vend / FRAME + 1) (ALIGNUP vstart FRAME)

def setupvm : MmM (Option Nat) := kalloc

/-- The address of the PTE for va, or none for the null pointer. -/
def walkpgdir (pgdir va : Nat) (alloc : Bool) : MmM (Option Nat) := do
  let m ← fetch
  let pde := m.ram.word (pgdir + 4 * PDE_IDX va)
  if present pde then pure (some (PTE_ADDR pde + 4 * PTE_IDX va))
  else if ¬alloc then pure none
  else do
    match ← setupvm with
    | none => pure none
    | some pgtab => do
        setRam fun r => r.fill pgtab PGSIZE 0
        setRam fun r => r.setWord (pgdir + 4 * PDE_IDX va) (pgtab ||| 1)
        pure (some (pgtab + 4 * PTE_IDX va))

def mkPte (pa ap : Nat) : Nat := pa ||| (ap &&& 3) <<< 4 ||| 8 ||| 4 ||| 2

def mappages.loop (pgdir ap last : Nat) : Nat → Nat → Nat → MmM Int
  | 0, _, _ => pure 0
  | fuel + 1, a, pa => do
      match ← walkpgdir pgdir a true with
      | none => pure (-1)
      | some pte => do
          let m ← fetch
          if present (m.ram.word pte) then .panic "remap"
          else do
            setRam fun r => r.setWord pte (mkPte pa ap)
            if a = last then pure 0
            else mappages.loop pgdir ap last fuel (uint (a + PTE_SZ)) (uint (pa + PTE_SZ))

def mappages (pgdir va size pa ap : Nat) : MmM Int :=
  let a := ALIGNDOWN va PTE_SZ
  let last := ALIGNDOWN (uint (va + size - 1)) PTE_SZ
  mappages.loop pgdir ap last ((last - a) / PTE_SZ + 1) a pa

def deallocuvm.loop (pgdir oldsz : Nat) : Nat → Nat → MmM Unit
  | 0, _ => pure ()
  | fuel + 1, a =>
      if a < oldsz then do
        match ← walkpgdir pgdir a false with
        | none => deallocuvm.loop pgdir oldsz fuel (ALIGNUP a PDE_SZ + PTE_SZ)
        | some pte => do
            let m ← fetch
            (if present (m.ram.word pte) then
                if PTE_ADDR (m.ram.word pte) = 0 then .panic "deallocuvm"
                else do
                  kfree (PTE_ADDR (m.ram.word pte))
                  setRam fun r => r.setWord pte 0
              else pure ())
            deallocuvm.loop pgdir oldsz fuel (a + PTE_SZ)
      else pure ()

def deallocuvm (pgdir oldsz newsz : Nat) : MmM Nat :=
  if oldsz ≤ newsz then pure oldsz
  else do
    deallocuvm.loop pgdir oldsz (oldsz / PTE_SZ + 1) (ALIGNUP newsz PTE_SZ)
    pure newsz

/-- The result of mappages is not looked at: a frame whose page table could not be
allocated is dropped. -/
def allocuvm.loop (pgdir oldsz newsz : Nat) : Nat → Nat → MmM Nat
  | 0, _ => pure newsz
  | fuel + 1, a =>
      if a < newsz then do
        match ← kalloc with
        | none => do
            let _ ← deallocuvm pgdir newsz oldsz
            pure 0
        | some mem => do
            setRam fun r => r.fill mem PTE_SZ 0
            let r ← mappages pgdir a PTE_SZ mem AP_KU
            (if r < 0 then emit (.lost mem) else pure ())
            allocuvm.loop pgdir oldsz newsz fuel (a + PTE_SZ)
      else pure newsz

/-- The new size, or 0 on error. -/
def allocuvm (pgdir oldsz newsz : Nat) : MmM Nat :=
  if UADDR_SZ ≤ newsz then pure 0
  else if newsz < oldsz then pure oldsz
  else allocuvm.loop pgdir oldsz newsz (newsz / PTE_SZ + 1) (ALIGNUP oldsz PTE_SZ)

def freevm.loop (pgdir : Nat) : List Nat → MmM Unit
  | [] => pure ()
  | i :: rest => do
      let m ← fetch
      (if present (m.ram.word (pgdir + 4 * i)) then kfree (PTE_ADDR (m.ram.word (pgdir + 4 * i)))
        else pure ())
      freevm.loop pgdir rest

def freevm (pgdir : Nat) : MmM Unit :=
  if pgdir = 0 then .panic "freevm: no pgdir"
  else do
    let _ ← deallocuvm pgdir UADDR_SZ 0
    freevm.loop pgdir (List.range NUM_UPDE)
    kfree pgdir

def inituvm (pgdir : Nat) (init : List UInt8) : MmM Unit := do
  if PTE_SZ ≤ init.length then .panic "inituvm: more than a page"
  else do
    match ← kalloc with
    | none => .panic "data abort exception"
    | some mem => do
        setRam fun r => r.fill mem PTE_SZ 0
        let r ← mappages pgdir 0 PTE_SZ mem AP_KU
        (if r < 0 then emit (.lost mem) else pure ())
        setRam fun r => r.setSlice mem init

def clearpteu (pgdir uva : Nat) : MmM Unit := do
  match ← walkpgdir pgdir uva false with
  | none => .panic "clearpteu"
  | some pte =>
      setRam fun r => r.setWord pte (r.word pte &&& (2 ^ 32 - 1 ^^^ 3 <<< 4) ||| AP_KO <<< 4)

def copyuvm.loop (pgdir sz d : Nat) : Nat → Nat → MmM (Option Nat)
  | 0, _ => pure (some d)
  | fuel + 1, i =>
      if i < sz then do
        match ← walkpgdir pgdir i false with
        | none => .panic "copyuvm: pte should exist"
        | some pte => do
            let m ← fetch
            if ¬present (m.ram.word pte) then .panic "copyuvm: page not present"
            else do
              match ← kalloc with
              | none => do
                  freevm d
                  pure none
              | some mem => do
                  setRam fun r => r.copy mem (PTE_ADDR (m.ram.word pte)) PTE_SZ
                  let r ← mappages d i PTE_SZ mem (PTE_AP (m.ram.word pte))
                  if r < 0 then do
                    emit (.lost mem)
                    freevm d
                    pure none
                  else copyuvm.loop pgdir sz d fuel (i + PTE_SZ)
      else pure (some d)

def copyuvm (pgdir sz : Nat) : MmM (Option Nat) := do
  match ← setupvm with
  | none => pure none
  | some d => copyuvm.loop pgdir sz d (sz / PTE_SZ + 1) 0

end ArmXv6.Vm
