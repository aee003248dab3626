import ArmXv6.Bio

namespace ArmXv6.Log

open Lib.Exec Lib.Bytes Param Bio

/-- The header block holds the counter and the sector numbers as words. -/
def encodeHead (lh : List Nat) : List UInt8 := leBytes 4 lh.length ++ lh.flatMap (leBytes 4)

def decodeHead (b : Block) : List Nat :=
  (List.range (sint (b.word 0)).toNat).map fun i => b.word (4 + 4 * i)

def setLh (lh : List Nat) : IoM Unit := update fun io => { io with log := { io.log with lh := lh } }

/-- Copy the logged blocks to their home sectors, from slot tail on. -/
def installTrans.loop : Nat → List Nat → IoM Unit
  | _, [] => pure ()
  | tail, sector :: rest => do
      let io ← fetch
      let lbuf ← bread ROOTDEV (io.log.start + tail + 1)
      let dbuf ← bread ROOTDEV sector
      let io ← fetch
      setBuf dbuf fun x => { x with data := (io.buf lbuf).data }
      bwrite dbuf
      brelse lbuf
      brelse dbuf
      installTrans.loop (tail + 1) rest

def installTrans : IoM Unit := do
  let io ← fetch
  installTrans.loop 0 io.log.lh

def readHead : IoM Unit := do
  let io ← fetch
  let buf ← bread ROOTDEV io.log.start
  let io ← fetch
  setLh (decodeHead (io.buf buf).data)
  brelse buf

def writeHead : IoM Unit := do
  let io ← fetch
  let buf ← bread ROOTDEV io.log.start
  setBuf buf fun x => { x with data := x.data.setSlice 0 (encodeHead io.log.lh) }
  bwrite buf
  brelse buf

def recoverFromLog : IoM Unit := do
  readHead
  installTrans
  setLh []
  writeHead

def beginTrans : IoM Unit := do
  let io ← fetch
  if io.log.busy then .sleep
  else update fun io => { io with log := { io.log with busy := true } }

def commitTrans : IoM Unit := do
  let io ← fetch
  (if 0 < io.log.lh.length then do
      writeHead
      installTrans
      setLh []
      writeHead
    else pure ())
  update fun io => { io with log := { io.log with busy := false } }

def logWrite (b : Nat) : IoM Unit := do
  let io ← fetch
  if LOGSIZE ≤ io.log.lh.length ∨ io.log.size - 1 ≤ io.log.lh.length then .panic "too big a transaction"
  else if ¬io.log.busy then .panic "write outside of trans"
  else do
    let i := io.log.lh.idxOf (io.buf b).sector
    let lbuf ← bread (io.buf b).dev (io.log.start + i + 1)
    let io ← fetch
    setBuf lbuf fun x => { x with data := (io.buf b).data }
    bwrite lbuf
    brelse lbuf
    setLh (if i = io.log.lh.length then io.log.lh ++ [(io.buf b).sector] else io.log.lh)
    setBuf b fun x => { x with dirty := true }

/-- The use that the comment on log_write prescribes: read, modify, log, release. -/
def writeBlock (s : Nat) (d : Block) : IoM Unit := do
  let b ← bread ROOTDEV s
  setBuf b fun x => { x with data := d }
  logWrite b
  brelse b

def writeBlocks : List (Nat × Block) → IoM Unit
  | [] => pure ()
  | w :: ws => do
      writeBlock w.1 w.2
      writeBlocks ws

def transaction (ws : List (Nat × Block)) : IoM Unit := do
  beginTrans
  writeBlocks ws
  commitTrans

end ArmXv6.Log
