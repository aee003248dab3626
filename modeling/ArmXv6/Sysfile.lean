import ArmXv6.Content

namespace ArmXv6.Sysfile

open Lib.Exec Lib.Bytes Param Blocks Fs Content

def dot : List UInt8 := [46]
def dotdot : List UInt8 := [46, 46]

def sshort (w : Nat) : Int := if w < 2 ^ 15 then w else (w : Int) - 2 ^ 16

def incNlink (d : Dinode) : Dinode := { d with nlink := (d.nlink + 1) % 2 ^ 16 }
def decNlink (d : Dinode) : Dinode := { d with nlink := (d.nlink + (2 ^ 16 - 1)) % 2 ^ 16 }

/-- The failure path of link: take the count back. -/
def sysLink.bad (ip : Nat) : FsM Int := do
  ilock ip
  setDin ip decNlink
  iupdate ip
  iunlockput ip
  commitTrans
  pure (-1)

def sysLink (cwd : Nat) (old new : List UInt8) : FsM Int := do
  match ← namei cwd old with
  | none => pure (-1)
  | some ip => do
      beginTrans
      ilock ip
      let fs ← fetch
      if (fs.icache ip).din.type = T_DIR then do
        iunlockput ip
        commitTrans
        pure (-1)
      else do
        setDin ip incNlink
        iupdate ip
        iunlock ip
        match ← nameiparent cwd new with
        | none => sysLink.bad ip
        | some (dp, name) => do
            ilock dp
            let fs ← fetch
            let r ← (if (fs.icache dp).dev ≠ (fs.icache ip).dev then pure (-1)
              else dirlink dp name (fs.icache ip).inum)
            if r < 0 then do
              iunlockput dp
              sysLink.bad ip
            else do
              iunlockput dp
              iput ip
              commitTrans
              pure 0

def isdirempty.loop (dp : Nat) : Nat → Nat → FsM Bool
  | 0, _ => pure true
  | fuel + 1, off => do
      let fs ← fetch
      if off < (fs.icache dp).din.size then do
        let r ← readi dp off DESIZE
        if r.1 ≠ DESIZE then .panic "isdirempty: readi"
        else if (decodeDirent r.2).inum ≠ 0 then pure false
        else isdirempty.loop dp fuel (off + DESIZE)
      else pure true

def isdirempty (dp : Nat) : FsM Bool := do
  let fs ← fetch
  isdirempty.loop dp ((fs.icache dp).din.size / DESIZE + 1) (2 * DESIZE)

def sysUnlink.bad (dp : Nat) : FsM Int := do
  iunlockput dp
  commitTrans
  pure (-1)

/-- The entry of ip at off in dp is cleared and both link counts follow. -/
def sysUnlink.remove (dp ip off : Nat) : FsM Int := do
  let r ← writei dp (fun _ => 0) off DESIZE
  if r ≠ DESIZE then .panic "unlink: writei"
  else do
    let fs ← fetch
    (if (fs.icache ip).din.type = T_DIR then do
        setDin dp decNlink
        iupdate dp
      else pure ())
    iunlockput dp
    setDin ip decNlink
    iupdate ip
    iunlockput ip
    commitTrans
    pure 0

def sysUnlink (cwd : Nat) (path : List UInt8) : FsM Int := do
  match ← nameiparent cwd path with
  | none => pure (-1)
  | some (dp, name) => do
      beginTrans
      ilock dp
      if namecmp name dot = 0 ∨ namecmp name dotdot = 0 then sysUnlink.bad dp
      else do
        match ← dirlookup dp name with
        | none => sysUnlink.bad dp
        | some (ip, off) => do
            ilock ip
            let fs ← fetch
            if sshort (fs.icache ip).din.nlink < 1 then .panic "unlink: nlink < 1"
            else do
              let empty ← (if (fs.icache ip).din.type = T_DIR then isdirempty ip else pure true)
              if ¬empty then do
                iunlockput ip
                sysUnlink.bad dp
              else sysUnlink.remove dp ip off

/-- A new inode under a name that the locked directory dp does not have yet. -/
def create.fresh (dp : Nat) (name : List UInt8) (type major minor : Nat) : FsM Nat := do
  let fs ← fetch
  let ip ← ialloc (fs.icache dp).dev type
  ilock ip
  setDin ip fun d => { d with major := major % 2 ^ 16, minor := minor % 2 ^ 16, nlink := 1 }
  iupdate ip
  let fs ← fetch
  (if type = T_DIR then do
      setDin dp incNlink
      iupdate dp
      let r ← dirlink ip dot (fs.icache ip).inum
      if r < 0 then .panic "create dots"
      else do
        let r ← dirlink ip dotdot (fs.icache dp).inum
        if r < 0 then .panic "create dots" else pure ()
    else pure ())
  let r ← dirlink dp name (fs.icache ip).inum
  if r < 0 then .panic "create: dirlink"
  else do
    iunlockput dp
    pure ip

def create (cwd : Nat) (path : List UInt8) (type major minor : Nat) : FsM (Option Nat) := do
  match ← nameiparent cwd path with
  | none => pure none
  | some (dp, name) => do
      ilock dp
      match ← dirlookup dp name with
      | some (ip, _) => do
          iunlockput dp
          ilock ip
          let fs ← fetch
          if type = T_FILE ∧ (fs.icache ip).din.type = T_FILE then pure (some ip)
          else do
            iunlockput ip
            pure none
      | none => do
          let ip ← create.fresh dp name type major minor
          pure (some ip)

def makeNode (cwd : Nat) (path : List UInt8) (type major minor : Nat) : FsM Int := do
  beginTrans
  match ← create cwd path type major minor with
  | none => do
      commitTrans
      pure (-1)
  | some ip => do
      iunlockput ip
      commitTrans
      pure 0

def sysMkdir (cwd : Nat) (path : List UInt8) : FsM Int := makeNode cwd path T_DIR 0 0

def sysMknod (cwd : Nat) (path : List UInt8) (major minor : Nat) : FsM Int :=
  makeNode cwd path T_DEV major minor

end ArmXv6.Sysfile
