import ArmXv6.Content

namespace ArmXv6.Mkfs

open Lib.Exec Lib.Bytes Param Blocks Fs Content

def nblocks : Nat := 985
def nlog : Nat := LOGSIZE
def ninodes : Nat := 200
def size : Nat := 1024

/-- The tool at work: the image file by sectors, and its counters. -/
structure Tool where
  img : Nat → Block
  freeblock : Nat
  usedblocks : Nat
  freeinode : Nat

/-- What a sector is for. -/
inductive Kind
  | superblock
  | inode
  | bitmap
  | content
  deriving DecidableEq

/-- Ghost events of the tool: an inode number and a block that it hands out, and a sector that it writes with what it
writes there. -/
inductive Event
  | inode (inum : Nat)
  | block (b : Nat)
  | sector (sec : Nat) (kind : Kind)

abbrev MkM (α : Type) : Type := Prog Event Tool α

/-- All sectors of the image have been written once; a read past them fails. -/
def rsect (sec : Nat) : MkM Block := do
  let m ← fetch
  if size ≤ sec then .panic "read" else pure (m.img sec)

def wsect (kind : Kind) (sec : Nat) (d : Block) : MkM Unit := do
  emit (.sector sec kind)
  update fun m => { m with img := Function.update m.img sec d }

def rinode (inum : Nat) : MkM Dinode := do
  let b ← rsect (IBLOCK inum)
  pure (dinodeAt b (inum % IPB))

def winode (inum : Nat) (d : Dinode) : MkM Unit := do
  let b ← rsect (IBLOCK inum)
  wsect .inode (IBLOCK inum) (setDinode b (inum % IPB) d)

def ialloc (type : Nat) : MkM Nat := do
  let m ← fetch
  emit (.inode m.freeinode)
  update fun m => { m with freeinode := m.freeinode + 1 }
  winode m.freeinode { emptyDinode with type := type, nlink := 1 }
  pure m.freeinode

def newBlock : MkM Nat := do
  let m ← fetch
  emit (.block m.freeblock)
  update fun m => { m with freeblock := m.freeblock + 1, usedblocks := m.usedblocks + 1 }
  pure m.freeblock

/-- The block with number fbn of a file, and the inode that knows it. -/
def iappend.block (din : Dinode) (fbn : Nat) : MkM (Nat × Dinode) :=
  if fbn < NDIRECT then
    if din.addrs fbn = 0 then do
      let b ← newBlock
      pure (b, { din with addrs := Function.update din.addrs fbn b })
    else pure (din.addrs fbn, din)
  else do
    let din ← (if din.addrs NDIRECT = 0 then do
        let b ← newBlock
        pure { din with addrs := Function.update din.addrs NDIRECT b }
      else pure din)
    let indirect ← rsect (din.addrs NDIRECT)
    if indirect.word (4 * (fbn - NDIRECT)) = 0 then do
      let b ← newBlock
      wsect .content (din.addrs NDIRECT) (indirect.setWord (4 * (fbn - NDIRECT)) b)
      pure (b, din)
    else pure (indirect.word (4 * (fbn - NDIRECT)), din)

def iappend.loop : Nat → Nat → List UInt8 → Dinode → MkM (Nat × Dinode)
  | 0, off, _, din => pure (off, din)
  | fuel + 1, off, p, din =>
      if 0 < p.length then
        if MAXFILE ≤ off / BSIZE then .panic "Assertion fbn < MAXFILE failed"
        else do
          let (x, din) ← iappend.block din (off / BSIZE)
          let n1 := min p.length ((off / BSIZE + 1) * BSIZE - off)
          let buf ← rsect x
          wsect .content x (buf.setSlice (off - off / BSIZE * BSIZE) (p.take n1))
          iappend.loop fuel (off + n1) (p.drop n1) din
      else pure (off, din)

def iappend (inum : Nat) (p : List UInt8) : MkM Unit := do
  let din ← rinode inum
  let (off, din) ← iappend.loop p.length din.size p din
  winode inum { din with size := off }

/-- A file is read and appended by buffers of one sector. -/
def appendFile (inum : Nat) : Nat → List UInt8 → MkM Unit
  | 0, _ => pure ()
  | fuel + 1, data =>
      if data = [] then pure ()
      else do
        iappend inum (data.take 512)
        appendFile inum fuel (data.drop 512)

def bitmap (used : Nat) : Block := (List.range used).foldl (fun b i => b.setBit i) Mem.zero

def balloc (used : Nat) : MkM Unit :=
  if 512 * 8 ≤ used then .panic "Assertion used < 512*8 failed"
  else wsect .bitmap (ninodes / IPB + 3) (bitmap used)

def superblock : Block :=
  Mem.zero.setSlice 0 (leBytes 4 size ++ leBytes 4 nblocks ++ leBytes 4 ninodes ++ leBytes 4 nlog)

def bitblocks : Nat := size / (512 * 8) + 1

def firstFree : Nat := ninodes / IPB + 3 + bitblocks

def start : Tool := ⟨Function.update (fun _ => Mem.zero) 1 superblock, firstFree, firstFree, 1⟩

/-- A leading underscore is skipped. -/
def entryName (arg : List UInt8) : List UInt8 := if arg.head? = some 95 then arg.tail else arg

def addFiles (rootino : Nat) : List (List UInt8 × List UInt8) → MkM Unit
  | [] => pure ()
  | (arg, data) :: rest => do
      let inum ← ialloc T_FILE
      iappend rootino (encodeDirent ⟨inum % 2 ^ 16, strncpy (entryName arg) DIRSIZ⟩)
      appendFile inum (data.length + 1) data
      addFiles rootino rest

/-- The image with the given files, each a command line argument with its contents. -/
def main (files : List (List UInt8 × List UInt8)) : MkM Unit := do
  let rootino ← ialloc T_DIR
  if rootino ≠ ROOTINO then .panic "Assertion rootino == ROOTINO failed"
  else do
    iappend rootino (encodeDirent ⟨rootino % 2 ^ 16, strncpy [46] DIRSIZ⟩)
    iappend rootino (encodeDirent ⟨rootino % 2 ^ 16, strncpy [46, 46] DIRSIZ⟩)
    addFiles rootino files
    let din ← rinode rootino
    winode rootino { din with size := (din.size / BSIZE + 1) * BSIZE }
    let m ← fetch
    balloc m.usedblocks

end ArmXv6.Mkfs
