import ArmXv6.Lib.Exec
import ArmXv6.Log

namespace ArmXv6.Blocks

open Lib.Exec Lib.Bytes Param

/-- Copy of an on-disk inode. The short fields are kept as their 16 bits. -/
structure Dinode where
  type : Nat
  major : Nat
  minor : Nat
  nlink : Nat
  size : Nat
  addrs : Nat → Nat

structure Inode where
  dev : Nat
  inum : Nat
  ref : Nat
  busy : Bool
  valid : Bool
  din : Dinode

/-- Ghost events of kernel code. A block allocation records the block it returns and
whether a free block below the log existed when it was asked for one; a frame that
is dropped without being freed is recorded as lost, and so is a store that goes
through a page table entry read at the null pointer. -/
inductive Event
  | balloc (b : Nat) (room : Bool)
  | lost (frame : Nat)
  | nullPte (pte : Nat)

/-- The state below the file layer. The buffer cache appears as what it is to its
callers: the contents bread returns for each sector, the sectors whose buffers are
held, and those whose buffers are dirty and cannot be recycled. input holds what
readers of the console will find: a byte, or none where they have been killed while
they wait for one. -/
structure Fs where
  blk : Nat → Block
  disksize : Nat
  held : List Nat
  dirty : List Nat
  log : Bio.Log
  icache : Nat → Inode
  input : List (Option UInt8)

abbrev FsM (α : Type) : Type := Prog Event Fs α

def setBlk (s : Nat) (d : Block) : FsM Unit :=
  update fun fs => { fs with blk := Function.update fs.blk s d }

def setLog (f : Bio.Log → Bio.Log) : FsM Unit := update fun fs => { fs with log := f fs.log }

/-- A sector that is already held makes its reader sleep on it. A sector without a
buffer needs one that is neither held nor dirty. -/
def bread (s : Nat) : FsM Block := do
  let fs ← fetch
  if s ∈ fs.held then .sleep
  else if s ∉ fs.dirty ∧ NBUF ≤ (fs.held ∪ fs.dirty).length then .panic "bget: no buffers"
  else if fs.disksize ≤ s then .panic "iderw: sector out of range"
  else do
    update fun fs => { fs with held := s :: fs.held }
    pure (fs.blk s)

def brelse (s : Nat) : FsM Unit := update fun fs => { fs with held := fs.held.erase s }

def bwrite (s : Nat) (d : Block) : FsM Unit := do
  setBlk s d
  update fun fs => { fs with dirty := fs.dirty.erase s }

def installTrans.loop : Nat → List Nat → FsM Unit
  | _, [] => pure ()
  | tail, sector :: rest => do
      let fs ← fetch
      let lbuf ← bread (fs.log.start + tail + 1)
      let _ ← bread sector
      bwrite sector lbuf
      brelse (fs.log.start + tail + 1)
      brelse sector
      installTrans.loop (tail + 1) rest

def installTrans : FsM Unit := do
  let fs ← fetch
  installTrans.loop 0 fs.log.lh

def writeHead : FsM Unit := do
  let fs ← fetch
  let hb ← bread fs.log.start
  bwrite fs.log.start (hb.setSlice 0 (Log.encodeHead fs.log.lh))
  brelse fs.log.start

def beginTrans : FsM Unit := do
  let fs ← fetch
  if fs.log.busy then .sleep else setLog fun l => { l with busy := true }

def commitTrans : FsM Unit := do
  let fs ← fetch
  (if 0 < fs.log.lh.length then do
      writeHead
      installTrans
      setLog fun l => { l with lh := [] }
      writeHead
    else pure ())
  setLog fun l => { l with busy := false }

/-- The caller has put d into the held buffer of sector s and logs it. -/
def logWrite (s : Nat) (d : Block) : FsM Unit := do
  setBlk s d
  let fs ← fetch
  if LOGSIZE ≤ fs.log.lh.length ∨ fs.log.size - 1 ≤ fs.log.lh.length then .panic "too big a transaction"
  else if ¬fs.log.busy then .panic "write outside of trans"
  else do
    let i := fs.log.lh.idxOf s
    let _ ← bread (fs.log.start + i + 1)
    bwrite (fs.log.start + i + 1) d
    brelse (fs.log.start + i + 1)
    setLog fun l => { l with lh := if i = l.lh.length then l.lh ++ [s] else l.lh }
    update fun fs => { fs with dirty := fs.dirty.insert s }

end ArmXv6.Blocks
