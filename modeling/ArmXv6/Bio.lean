import ArmXv6.Lib.Exec
import ArmXv6.Lib.Ring
import ArmXv6.Param

namespace ArmXv6.Bio

open Lib.Exec Lib.Ring Param

structure Buf where
  busy : Bool
  valid : Bool
  dirty : Bool
  dev : Nat
  sector : Nat
  data : Block

/-- The in-memory part of the redo log. The logged sectors, in slot order, stand
for the counter and the array of the in-memory header. -/
structure Log where
  start : Nat
  size : Nat
  busy : Bool
  lh : List Nat

/-- The disk, the buffer cache and the log. Node NBUF of the links is the list head. -/
structure Io where
  memdisk : Nat → Block
  disksize : Nat
  buf : Nat → Buf
  links : Links Nat
  log : Log

/-- The event of a sector reaching the disk, with its new contents. -/
abbrev DiskWrite : Type := Nat × Block

abbrev IoM (α : Type) : Type := Prog DiskWrite Io α

def head : Nat := NBUF

def setBuf (b : Nat) (f : Buf → Buf) : IoM Unit :=
  update fun io => { io with buf := Function.update io.buf b (f (io.buf b)) }

def emptyBuf : Buf := ⟨false, false, false, 0, 0, Lib.Bytes.Mem.zero⟩

/-- The buffer list built by binit: each buffer is put in front of the previous ones. -/
def binitLinks : Links Nat :=
  (List.range NBUF).foldl (fun k b => insertAfter k head b) ⟨fun _ => head, fun _ => head⟩

/-- Power-up: binit has run, and nothing is cached. -/
def binit (memdisk : Nat → Block) (disksize : Nat) (log : Log) : Io where
  memdisk := memdisk
  disksize := disksize
  buf := fun _ => { emptyBuf with dev := uint (2 ^ 32 - 1) }
  links := binitLinks
  log := log

def writeSector (s : Nat) (d : Block) : IoM Unit := do
  update fun io => { io with memdisk := Function.update io.memdisk s d }
  emit (s, d)

def iderw (b : Nat) : IoM Unit := do
  let io ← fetch
  if ¬(io.buf b).busy then .panic "iderw: buf not busy"
  else if (io.buf b).valid ∧ ¬(io.buf b).dirty then .panic "iderw: nothing to do"
  else if (io.buf b).dev ≠ 1 then .panic "iderw: request not for disk 1"
  else if io.disksize ≤ (io.buf b).sector then .panic "iderw: sector out of range"
  else if (io.buf b).dirty then do
    setBuf b fun x => { x with dirty := false }
    writeSector (io.buf b).sector (io.buf b).data
    setBuf b fun x => { x with valid := true }
  else
    setBuf b fun x => { x with data := io.memdisk x.sector, valid := true }

/-- A busy hit sleeps on the buffer; in a sequential run nothing releases it. -/
def bget (dev sector : Nat) : IoM Nat := do
  let io ← fetch
  match scan io.links.next head (fun b => (io.buf b).dev = dev ∧ (io.buf b).sector = sector)
      (NBUF + 1) (io.links.next head) with
  | some b =>
      if ¬(io.buf b).busy then do
        setBuf b fun x => { x with busy := true }
        pure b
      else .sleep
  | none =>
      match scan io.links.prev head (fun b => ¬(io.buf b).busy ∧ ¬(io.buf b).dirty)
          (NBUF + 1) (io.links.prev head) with
      | some b => do
          setBuf b fun x =>
            { x with dev := dev, sector := sector, busy := true, valid := false, dirty := false }
          pure b
      | none => .panic "bget: no buffers"

def bread (dev sector : Nat) : IoM Nat := do
  let b ← bget dev sector
  let io ← fetch
  if ¬(io.buf b).valid then do
    iderw b
    pure b
  else pure b

def bwrite (b : Nat) : IoM Unit := do
  let io ← fetch
  if ¬(io.buf b).busy then .panic "bwrite"
  else do
    setBuf b fun x => { x with dirty := true }
    iderw b

def brelse (b : Nat) : IoM Unit := do
  let io ← fetch
  if ¬(io.buf b).busy then .panic "brelse"
  else do
    update fun io => { io with links := insertAfter (unlink io.links b) head b }
    setBuf b fun x => { x with busy := false }

end ArmXv6.Bio
