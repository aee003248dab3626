import ArmXv6.Sysfile
import ArmXv6.Vm

namespace ArmXv6.Kernel

open Lib.Exec Lib.Bytes Param Blocks Fs Content Vm

def PIPESIZE : Nat := 512

inductive FdType
  | none
  | pipe
  | inode
  deriving DecidableEq

structure File where
  type : FdType
  ref : Nat
  readable : Bool
  writable : Bool
  pipe : Nat
  ip : Nat
  off : Nat

structure Pipe where
  data : Nat → UInt8
  nread : Nat
  nwrite : Nat
  readopen : Bool
  writeopen : Bool

inductive ProcState
  | unused
  | embryo
  | sleeping
  | runnable
  | running
  | zombie
  deriving DecidableEq

/-- The registers of a trap frame that kernel code reads or sets. r 0 holds the
call number and the result, r 1 to r 4 the arguments. -/
structure Trapframe where
  r : Nat → Nat
  spUsr : Nat
  pc : Nat

structure Proc where
  sz : Nat
  pgdir : Nat
  kstack : Nat
  state : ProcState
  pid : Nat
  parent : Option Nat
  tf : Trapframe
  killed : Bool
  ofile : Nat → Option Nat
  cwd : Option Nat
  name : List UInt8

/-- The whole kernel between two system calls. Files, pipes and processes are named by
their place: an index of the file or process table, the frame that holds a pipe.
exstacks are the frames trap_init took for the exception modes. The last two fields are
ghosts: how often a frame became a pipe, and how often a pipe was given to kfree. -/
structure Kstate where
  mm : Mm
  fs : Fs
  ftable : Nat → File
  pipes : Nat → Pipe
  procs : Nat → Proc
  nextpid : Nat
  initproc : Nat
  cur : Nat
  exstacks : List Nat
  piped : Nat → Nat
  unpiped : Nat → Nat

abbrev KM (α : Type) : Type := Prog Event Kstate α

def onFs {α : Type} (m : FsM α) : KM α := zoom Kstate.fs (fun k fs => { k with fs := fs }) m

def onMm {α : Type} (m : MmM α) : KM α := zoom Kstate.mm (fun k mm => { k with mm := mm }) m

def setFile (f : Nat) (g : File → File) : KM Unit :=
  update fun k => { k with ftable := Function.update k.ftable f (g (k.ftable f)) }

def setPipe (p : Nat) (g : Pipe → Pipe) : KM Unit :=
  update fun k => { k with pipes := Function.update k.pipes p (g (k.pipes p)) }

def setProc (p : Nat) (g : Proc → Proc) : KM Unit :=
  update fun k => { k with procs := Function.update k.procs p (g (k.procs p)) }

def countPiped (p : Nat) : KM Unit :=
  update fun k => { k with piped := Function.update k.piped p (k.piped p + 1) }

def countUnpiped (p : Nat) : KM Unit :=
  update fun k => { k with unpiped := Function.update k.unpiped p (k.unpiped p + 1) }

def proc : KM Proc := do
  let k ← fetch
  pure (k.procs k.cur)

def filealloc : KM (Option Nat) := do
  let k ← fetch
  match (List.range NFILE).find? fun f => (k.ftable f).ref = 0 with
  | some f => do
      setFile f fun x => { x with ref := 1 }
      pure (some f)
  | none => pure none

def filedup (f : Nat) : KM Nat := do
  let k ← fetch
  if (k.ftable f).ref < 1 then .panic "filedup"
  else do
    setFile f fun x => { x with ref := x.ref + 1 }
    pure f

def pipeclose (p : Nat) (writable : Bool) : KM Unit := do
  (if writable then setPipe p fun x => { x with writeopen := false }
    else setPipe p fun x => { x with readopen := false })
  let k ← fetch
  if ¬(k.pipes p).readopen ∧ ¬(k.pipes p).writeopen then do
    countUnpiped p
    onMm (kfree p)
  else pure ()

def fileclose (f : Nat) : KM Unit := do
  let k ← fetch
  let ff := k.ftable f
  if ff.ref < 1 then .panic "fileclose"
  else if 1 < ff.ref then setFile f fun x => { x with ref := x.ref - 1 }
  else do
    setFile f fun x => { x with ref := 0, type := .none }
    match ff.type with
    | .pipe => pipeclose ff.pipe ff.writable
    | .inode => onFs do
        beginTrans
        iput ff.ip
        commitTrans
    | .none => pure ()

def pipealloc.bad (p : Option Nat) (f0 f1 : Option Nat) : KM (Option (Nat × Nat)) := do
  (match p with
    | some p => onMm (kfree p)
    | none => pure ())
  (match f0 with
    | some f => fileclose f
    | none => pure ())
  (match f1 with
    | some f => fileclose f
    | none => pure ())
  pure none

/-- The two ends of a new pipe, or none. -/
def pipealloc : KM (Option (Nat × Nat)) := do
  match ← filealloc with
  | none => pipealloc.bad none none none
  | some f0 => do
      match ← filealloc with
      | none => pipealloc.bad none (some f0) none
      | some f1 => do
          match ← onMm kalloc with
          | none => pipealloc.bad none (some f0) (some f1)
          | some p => do
              countPiped p
              setPipe p fun x => { x with readopen := true, writeopen := true, nwrite := 0, nread := 0 }
              setFile f0 fun x => { x with type := .pipe, readable := true, writable := false, pipe := p }
              setFile f1 fun x => { x with type := .pipe, readable := false, writable := true, pipe := p }
              pure (some (f0, f1))

/-- The process sleeps when the pipe is full and its reading end is open. -/
def pipewrite.loop (p : Nat) (src : Nat → UInt8) (n : Int) : Nat → Nat → KM Int
  | 0, _ => pure n
  | fuel + 1, i => do
      let k ← fetch
      if (i : Int) < n then
        if (k.pipes p).nwrite = uint ((k.pipes p).nread + PIPESIZE) then
          if ¬(k.pipes p).readopen then pure (-1) else .sleep
        else do
          setPipe p fun x =>
            { x with data := Function.update x.data (x.nwrite % PIPESIZE) (src i), nwrite := uint (x.nwrite + 1) }
          pipewrite.loop p src n fuel (i + 1)
      else pure n

def pipewrite (p : Nat) (src : Nat → UInt8) (n : Int) : KM Int := pipewrite.loop p src n (n.toNat + 1) 0

def piperead.loop (p : Nat) (n : Int) : Nat → List UInt8 → KM (List UInt8)
  | 0, acc => pure acc
  | fuel + 1, acc => do
      let k ← fetch
      if (acc.length : Int) < n ∧ (k.pipes p).nread ≠ (k.pipes p).nwrite then do
        setPipe p fun x => { x with nread := uint (x.nread + 1) }
        piperead.loop p n fuel (acc ++ [(k.pipes p).data ((k.pipes p).nread % PIPESIZE)])
      else pure acc

/-- The result and the bytes stored at the destination. -/
def piperead (p : Nat) (n : Int) : KM (Int × List UInt8) := do
  let k ← fetch
  if (k.pipes p).nread = (k.pipes p).nwrite ∧ (k.pipes p).writeopen then
    if (k.procs k.cur).killed then pure (-1, []) else .sleep
  else do
    let bytes ← piperead.loop p n (n.toNat + 1) []
    pure (bytes.length, bytes)

/-- The result and the bytes stored at the destination. -/
def fileread (f : Nat) (n : Int) : KM (Int × List UInt8) := do
  let k ← fetch
  let ff := k.ftable f
  if ¬ff.readable then pure (-1, [])
  else
    match ff.type with
    | .pipe => piperead ff.pipe n
    | .inode => do
        onFs (ilock ff.ip)
        let r ← onFs (readi ff.ip ff.off (bits n))
        (if 0 < r.1 then setFile f fun x => { x with off := uint (x.off + r.1.toNat) } else pure ())
        onFs (iunlock ff.ip)
        pure r
    | .none => .panic "fileread"

/-- What one transaction of a write may hold. -/
def writeMax : Nat := (LOGSIZE - 1 - 1 - 2) / 2 * 512

def filewrite.loop (f : Nat) (src : Nat → UInt8) (n : Int) : Nat → Nat → KM Int
  | 0, i => pure (if (i : Int) = n then n else -1)
  | fuel + 1, i =>
      if (i : Int) < n then do
        let k ← fetch
        let n1 := min (n.toNat - i) writeMax
        onFs beginTrans
        onFs (ilock (k.ftable f).ip)
        let r ← onFs (writei (k.ftable f).ip (fun j => src (i + j)) (k.ftable f).off n1)
        (if 0 < r then setFile f fun x => { x with off := uint (x.off + r.toNat) } else pure ())
        onFs (iunlock (k.ftable f).ip)
        onFs commitTrans
        if r < 0 then pure (if (i : Int) = n then n else -1)
        else if r ≠ n1 then .panic "short filewrite"
        else filewrite.loop f src n fuel (i + n1)
      else pure (if (i : Int) = n then n else -1)

def filewrite (f : Nat) (src : Nat → UInt8) (n : Int) : KM Int := do
  let k ← fetch
  let ff := k.ftable f
  if ¬ff.writable then pure (-1)
  else
    match ff.type with
    | .pipe => pipewrite ff.pipe src n
    | .inode => filewrite.loop f src n (n.toNat + 1) 0
    | .none => .panic "filewrite"

/-- Type, device, inode number, link count and size, as stati copies them. -/
structure Stat where
  type : Nat
  dev : Nat
  ino : Nat
  nlink : Nat
  size : Nat

def stati (i : Inode) : Stat := ⟨i.din.type, i.dev, i.inum, i.din.nlink, i.din.size⟩

def filestat (f : Nat) : KM (Option Stat) := do
  let k ← fetch
  match (k.ftable f).type with
  | .inode => do
      onFs (ilock (k.ftable f).ip)
      let k' ← fetch
      onFs (iunlock (k.ftable f).ip)
      pure (some (stati (k'.fs.icache (k.ftable f).ip)))
  | _ => pure none

end ArmXv6.Kernel
