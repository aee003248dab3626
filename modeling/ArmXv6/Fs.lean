import ArmXv6.Blocks

namespace ArmXv6.Fs

open Lib.Exec Lib.Bytes Param Blocks

def NDIRECT : Nat := 12
def NINDIRECT : Nat := BSIZE / 4
def MAXFILE : Nat := NDIRECT + NINDIRECT
def IPB : Nat := BSIZE / 64
def BPB : Nat := BSIZE * 8
def DIRSIZ : Nat := 14

def T_DIR : Nat := 1
def T_FILE : Nat := 2
def T_DEV : Nat := 3
def CONSOLE : Nat := 1

def IBLOCK (i : Nat) : Nat := i / IPB + 2
def BBLOCK (b ninodes : Nat) : Nat := b / BPB + ninodes / IPB + 3

structure Superblock where
  size : Nat
  nblocks : Nat
  ninodes : Nat
  nlog : Nat
  deriving DecidableEq

def decodeSb (b : Block) : Superblock := ⟨b.word 0, b.word 4, b.word 8, b.word 12⟩

def encodeDinode (d : Dinode) : List UInt8 :=
  leBytes 2 d.type ++ leBytes 2 d.major ++ leBytes 2 d.minor ++ leBytes 2 d.nlink ++
    leBytes 4 d.size ++ (List.range (NDIRECT + 1)).flatMap fun j => leBytes 4 (d.addrs j)

def dinodeAt (b : Block) (k : Nat) : Dinode where
  type := leNat (b.slice (64 * k) 2)
  major := leNat (b.slice (64 * k + 2) 2)
  minor := leNat (b.slice (64 * k + 4) 2)
  nlink := leNat (b.slice (64 * k + 6) 2)
  size := leNat (b.slice (64 * k + 8) 4)
  addrs j := if j ≤ NDIRECT then b.word (64 * k + 12 + 4 * j) else 0

def setDinode (b : Block) (k : Nat) (d : Dinode) : Block := b.setSlice (64 * k) (encodeDinode d)

def readsb : FsM Superblock := do
  let bp ← bread 1
  brelse 1
  pure (decodeSb bp)

def bzero (bno : Nat) : FsM Unit := do
  let _ ← bread bno
  logWrite bno Mem.zero
  brelse bno

def firstClear (bp : Block) (len : Nat) : Option Nat := (List.range len).find? fun bi => !bp.bit bi

def hasRoom (fs : Fs) (sb : Superblock) : Bool :=
  (List.range (sb.size - sb.nlog)).any fun b => !(fs.blk (BBLOCK b sb.ninodes)).bit (b % BPB)

def balloc.loop (sb : Superblock) : Nat → Nat → FsM Nat
  | 0, _ => .panic "balloc: out of blocks"
  | fuel + 1, b => do
      let fs ← fetch
      if b < sb.size then do
        let bp ← bread (BBLOCK b sb.ninodes)
        match firstClear bp (min BPB (sb.size - b)) with
        | some bi => do
            emit (.balloc (b + bi) (hasRoom fs sb))
            logWrite (BBLOCK b sb.ninodes) (bp.setBit bi)
            brelse (BBLOCK b sb.ninodes)
            bzero (b + bi)
            pure (b + bi)
        | none => do
            brelse (BBLOCK b sb.ninodes)
            balloc.loop sb fuel (b + BPB)
      else .panic "balloc: out of blocks"

def balloc : FsM Nat := do
  let sb ← readsb
  balloc.loop sb (sb.size / BPB + 1) 0

def bfree (b : Nat) : FsM Unit := do
  let sb ← readsb
  let bp ← bread (BBLOCK b sb.ninodes)
  if ¬bp.bit (b % BPB) then .panic "freeing free block"
  else do
    logWrite (BBLOCK b sb.ninodes) (bp.clearBit (b % BPB))
    brelse (BBLOCK b sb.ninodes)

def setInode (ip : Nat) (f : Inode → Inode) : FsM Unit :=
  update fun fs => { fs with icache := Function.update fs.icache ip (f (fs.icache ip)) }

/-- Find or create the cache entry of an inode and count a reference to it. -/
def iget (dev inum : Nat) : FsM Nat := do
  let fs ← fetch
  match (List.range NINODE).find? fun i =>
      0 < (fs.icache i).ref ∧ (fs.icache i).dev = dev ∧ (fs.icache i).inum = inum with
  | some ip => do
      setInode ip fun i => { i with ref := i.ref + 1 }
      pure ip
  | none =>
      match (List.range NINODE).find? fun i => (fs.icache i).ref = 0 with
      | some ip => do
          setInode ip fun i => { i with dev := dev, inum := inum, ref := 1, busy := false, valid := false }
          pure ip
      | none => .panic "iget: no inodes"

def emptyDinode : Dinode := ⟨0, 0, 0, 0, 0, fun _ => 0⟩

def ialloc.loop (dev type : Nat) (sb : Superblock) : Nat → Nat → FsM Nat
  | 0, _ => .panic "ialloc: no inodes"
  | fuel + 1, inum =>
      if inum < sb.ninodes then do
        let bp ← bread (IBLOCK inum)
        if (dinodeAt bp (inum % IPB)).type = 0 then do
          logWrite (IBLOCK inum) (setDinode bp (inum % IPB) { emptyDinode with type := type })
          brelse (IBLOCK inum)
          iget dev inum
        else do
          brelse (IBLOCK inum)
          ialloc.loop dev type sb fuel (inum + 1)
      else .panic "ialloc: no inodes"

def ialloc (dev type : Nat) : FsM Nat := do
  let sb ← readsb
  ialloc.loop dev type sb sb.ninodes 1

def iupdate (ip : Nat) : FsM Unit := do
  let fs ← fetch
  let i := fs.icache ip
  let bp ← bread (IBLOCK i.inum)
  logWrite (IBLOCK i.inum) (setDinode bp (i.inum % IPB) i.din)
  brelse (IBLOCK i.inum)

def idup (ip : Nat) : FsM Nat := do
  setInode ip fun i => { i with ref := i.ref + 1 }
  pure ip

def ilock (ip : Nat) : FsM Unit := do
  let fs ← fetch
  if (fs.icache ip).ref < 1 then .panic "ilock"
  else if (fs.icache ip).busy then .sleep
  else do
    setInode ip fun i => { i with busy := true }
    if ¬(fs.icache ip).valid then do
      let bp ← bread (IBLOCK (fs.icache ip).inum)
      let d := dinodeAt bp ((fs.icache ip).inum % IPB)
      brelse (IBLOCK (fs.icache ip).inum)
      setInode ip fun i => { i with din := d, valid := true }
      if d.type = 0 then .panic "ilock: no type" else pure ()
    else pure ()

def iunlock (ip : Nat) : FsM Unit := do
  let fs ← fetch
  if ¬(fs.icache ip).busy ∨ (fs.icache ip).ref < 1 then .panic "iunlock"
  else setInode ip fun i => { i with busy := false }

def setDin (ip : Nat) (f : Dinode → Dinode) : FsM Unit := setInode ip fun i => { i with din := f i.din }

/-- Block bn of the inode, allocated if there is none yet. -/
def bmap (ip bn : Nat) : FsM Nat := do
  let fs ← fetch
  if bn < NDIRECT then
    if (fs.icache ip).din.addrs bn = 0 then do
      let addr ← balloc
      setDin ip fun d => { d with addrs := Function.update d.addrs bn addr }
      pure addr
    else pure ((fs.icache ip).din.addrs bn)
  else if bn - NDIRECT < NINDIRECT then do
    let ind ← (if (fs.icache ip).din.addrs NDIRECT = 0 then do
        let addr ← balloc
        setDin ip fun d => { d with addrs := Function.update d.addrs NDIRECT addr }
        pure addr
      else pure ((fs.icache ip).din.addrs NDIRECT))
    let bp ← bread ind
    if bp.word (4 * (bn - NDIRECT)) = 0 then do
      let addr ← balloc
      logWrite ind (bp.setWord (4 * (bn - NDIRECT)) addr)
      brelse ind
      pure addr
    else do
      brelse ind
      pure (bp.word (4 * (bn - NDIRECT)))
  else .panic "bmap: out of range"

def itrunc.direct (ip : Nat) : List Nat → FsM Unit
  | [] => pure ()
  | i :: rest => do
      let fs ← fetch
      (if (fs.icache ip).din.addrs i ≠ 0 then do
          bfree ((fs.icache ip).din.addrs i)
          setDin ip fun d => { d with addrs := Function.update d.addrs i 0 }
        else pure ())
      itrunc.direct ip rest

def itrunc.indirect (bp : Block) : List Nat → FsM Unit
  | [] => pure ()
  | j :: rest => do
      (if bp.word (4 * j) ≠ 0 then bfree (bp.word (4 * j)) else pure ())
      itrunc.indirect bp rest

def itrunc (ip : Nat) : FsM Unit := do
  itrunc.direct ip (List.range NDIRECT)
  let fs ← fetch
  (if (fs.icache ip).din.addrs NDIRECT ≠ 0 then do
      let bp ← bread ((fs.icache ip).din.addrs NDIRECT)
      itrunc.indirect bp (List.range NINDIRECT)
      brelse ((fs.icache ip).din.addrs NDIRECT)
      bfree ((fs.icache ip).din.addrs NDIRECT)
      setDin ip fun d => { d with addrs := Function.update d.addrs NDIRECT 0 }
    else pure ())
  setDin ip fun d => { d with size := 0 }
  iupdate ip

def iput (ip : Nat) : FsM Unit := do
  let fs ← fetch
  let i := fs.icache ip
  (if i.ref = 1 ∧ i.valid ∧ i.din.nlink = 0 then
      if i.busy then .panic "iput busy"
      else do
        setInode ip fun i => { i with busy := true }
        itrunc ip
        setDin ip fun d => { d with type := 0 }
        iupdate ip
        setInode ip fun i => { i with busy := false, valid := false }
    else pure ())
  setInode ip fun i => { i with ref := i.ref - 1 }

def iunlockput (ip : Nat) : FsM Unit := do
  iunlock ip
  iput ip

end ArmXv6.Fs
