import ArmXv6.Fs

namespace ArmXv6.Content

open Lib.Exec Lib.Bytes Param Blocks Fs

/-- Bytes handed to a reader: one line at most, and a control-D ends the read; it is
kept for the next read when bytes preceded it. No input means sleeping for it, and the
result of a killed reader is -1 whatever it has stored. -/
def consoleread.loop : Nat → List UInt8 → FsM (Int × List UInt8)
  | 0, acc => pure (acc.length, acc)
  | n + 1, acc => do
      let fs ← fetch
      match fs.input with
      | [] => .sleep
      | none :: rest => do
          update fun fs => { fs with input := rest }
          pure (-1, acc)
      | some c :: rest =>
          if c = 4 then do
            (if acc = [] then update fun fs => { fs with input := rest } else pure ())
            pure (acc.length, acc)
          else do
            update fun fs => { fs with input := rest }
            if c = 10 then pure ((acc ++ [c]).length, acc ++ [c]) else consoleread.loop n (acc ++ [c])

def consoleread (ip n : Nat) : FsM (Int × List UInt8) := do
  iunlock ip
  let r ← consoleread.loop (sint n).toNat []
  ilock ip
  pure r

/-- The characters go to the serial line, which is not part of the state. -/
def consolewrite (ip n : Nat) : FsM Int := do
  iunlock ip
  ilock ip
  pure (sint n)

/-- Only the console driver is installed in devsw. -/
def hasDriver (major : Nat) : Bool := major = CONSOLE

def readi.loop (ip n : Nat) : Nat → Nat → Nat → List UInt8 → FsM (List UInt8)
  | 0, _, _, acc => pure acc
  | fuel + 1, tot, off, acc =>
      if tot < n then do
        let b ← bmap ip (off / BSIZE)
        let bp ← bread b
        let m := min (n - tot) (BSIZE - off % BSIZE)
        brelse b
        readi.loop ip n fuel (tot + m) (off + m) (acc ++ bp.slice (off % BSIZE) m)
      else pure acc

/-- Returns the result and the bytes stored at the destination, in order. -/
def readi (ip off n : Nat) : FsM (Int × List UInt8) := do
  let fs ← fetch
  let d := (fs.icache ip).din
  if d.type = T_DEV then
    if hasDriver d.major then consoleread ip n else pure (-1, [])
  else if d.size < off ∨ uint (off + n) < off then pure (-1, [])
  else do
    let n := if d.size < uint (off + n) then d.size - off else n
    let bytes ← readi.loop ip n n 0 off []
    pure (n, bytes)

def writei.loop (ip : Nat) (src : Nat → UInt8) (n : Nat) : Nat → Nat → Nat → FsM Unit
  | 0, _, _ => pure ()
  | fuel + 1, tot, off =>
      if tot < n then do
        let b ← bmap ip (off / BSIZE)
        let bp ← bread b
        let m := min (n - tot) (BSIZE - off % BSIZE)
        logWrite b (bp.setSlice (off % BSIZE) ((List.range m).map fun k => src (tot + k)))
        brelse b
        writei.loop ip src n fuel (tot + m) (off + m)
      else pure ()

/-- src gives the bytes from the source pointer on. -/
def writei (ip : Nat) (src : Nat → UInt8) (off n : Nat) : FsM Int := do
  let fs ← fetch
  let d := (fs.icache ip).din
  if d.type = T_DEV then
    if hasDriver d.major then consolewrite ip n else pure (-1)
  else if d.size < off ∨ uint (off + n) < off then pure (-1)
  else if MAXFILE * BSIZE < uint (off + n) then pure (-1)
  else do
    writei.loop ip src n n 0 off
    let fs ← fetch
    if 0 < n ∧ (fs.icache ip).din.size < off + n then do
      setDin ip fun d => { d with size := off + n }
      iupdate ip
    else pure ()
    pure n

structure Dirent where
  inum : Nat
  name : List UInt8
  deriving DecidableEq

def DESIZE : Nat := 2 + DIRSIZ

def encodeDirent (de : Dirent) : List UInt8 := leBytes 2 de.inum ++ de.name

def decodeDirent (l : List UInt8) : Dirent := ⟨leNat (l.take 2), l.drop 2⟩

/-- A list stands for the characters from a pointer on; past its end there is NUL. -/
def strncmp : List UInt8 → List UInt8 → Nat → Int
  | _, _, 0 => 0
  | p, q, n + 1 =>
      if p.headD 0 ≠ 0 ∧ p.headD 0 = q.headD 0 then strncmp p.tail q.tail n
      else (p.headD 0).toNat - (q.headD 0).toNat

def namecmp (s t : List UInt8) : Int := strncmp s t DIRSIZ

/-- The n bytes that strncpy stores: the string, cut or padded with NULs. -/
def strncpy (t : List UInt8) (n : Nat) : List UInt8 :=
  let u := (t.takeWhile (· ≠ 0)).take n
  u ++ List.replicate (n - u.length) 0

def dirlookup.loop (dp : Nat) (name : List UInt8) : Nat → Nat → FsM (Option (Nat × Nat))
  | 0, _ => pure none
  | fuel + 1, off => do
      let fs ← fetch
      if off < (fs.icache dp).din.size then do
        let r ← readi dp off DESIZE
        if r.1 ≠ DESIZE then .panic "dirlink read"
        else
          let de := decodeDirent r.2
          if de.inum ≠ 0 ∧ namecmp name de.name = 0 then do
            let ip ← iget (fs.icache dp).dev de.inum
            pure (some (ip, off))
          else dirlookup.loop dp name fuel (off + DESIZE)
      else pure none

/-- The inode stored under a name, with the offset of its entry. -/
def dirlookup (dp : Nat) (name : List UInt8) : FsM (Option (Nat × Nat)) := do
  let fs ← fetch
  if (fs.icache dp).din.type ≠ T_DIR then .panic "dirlookup not DIR"
  else dirlookup.loop dp name ((fs.icache dp).din.size / DESIZE + 1) 0

/-- The offset of the first unused entry, or of the end. -/
def dirlink.scan (dp : Nat) : Nat → Nat → FsM Nat
  | 0, off => pure off
  | fuel + 1, off => do
      let fs ← fetch
      if off < (fs.icache dp).din.size then do
        let r ← readi dp off DESIZE
        if r.1 ≠ DESIZE then .panic "dirlink read"
        else if (decodeDirent r.2).inum = 0 then pure off
        else dirlink.scan dp fuel (off + DESIZE)
      else pure off

def dirlink (dp : Nat) (name : List UInt8) (inum : Nat) : FsM Int := do
  match ← dirlookup dp name with
  | some (ip, _) => do
      iput ip
      pure (-1)
  | none => do
      let fs ← fetch
      let off ← dirlink.scan dp ((fs.icache dp).din.size / DESIZE + 1) 0
      let de := encodeDirent ⟨inum % 2 ^ 16, strncpy name DIRSIZ⟩
      let r ← writei dp (fun k => de.getD k 0) off DESIZE
      if r ≠ DESIZE then .panic "dirlink" else pure 0

def slash : UInt8 := 47

/-- The rest of the path after its first element, and that element cut to DIRSIZ bytes. -/
def skipelem (path : List UInt8) : Option (List UInt8 × List UInt8) :=
  let path := path.dropWhile (· = slash)
  if path = [] then none
  else some ((path.dropWhile (· ≠ slash)).dropWhile (· = slash), (path.takeWhile (· ≠ slash)).take DIRSIZ)

theorem length_skipelem {path path' name : List UInt8} (h : skipelem path = some (path', name)) :
    path'.length < path.length := by
  unfold skipelem at h
  simp only at h
  split at h
  · cases h
  · rename_i hne
    simp only [Option.some.injEq, Prod.mk.injEq] at h
    obtain ⟨rfl, -⟩ := h
    have h1 := (List.dropWhile_suffix (· = slash) (l := path)).length_le
    cases hp : path.dropWhile (· = slash) with
    | nil => exact absurd hp hne
    | cons c rest =>
        rw [hp] at h1
        have hc : c ≠ slash := by
          have := List.head?_dropWhile_not (· = slash) path
          rw [hp] at this
          simpa using this
        have h2 := (List.dropWhile_suffix (· ≠ slash) (l := rest)).length_le
        have h3 := (List.dropWhile_suffix (· = slash) (l := rest.dropWhile (· ≠ slash))).length_le
        rw [List.dropWhile_cons_of_pos (by simpa using hc)]
        simp only [List.length_cons] at h1
        omega

def namex.loop (nameiparent : Bool) : Nat → Nat → List UInt8 → List UInt8 → FsM (Option (Nat × List UInt8))
  | 0, _, _, _ => pure none
  | fuel + 1, ip, path, name =>
      match skipelem path with
      | some (path, name) => do
          ilock ip
          let fs ← fetch
          if (fs.icache ip).din.type ≠ T_DIR then do
            iunlockput ip
            pure none
          else if nameiparent ∧ path = [] then do
            iunlock ip
            pure (some (ip, name))
          else do
            match ← dirlookup ip name with
            | none => do
                iunlockput ip
                pure none
            | some (next, _) => do
                iunlockput ip
                namex.loop nameiparent fuel next path name
      | none =>
          if nameiparent then do
            iput ip
            pure none
          else pure (some (ip, name))

/-- Path resolution for a process whose current directory is the cache entry cwd. -/
def namex (cwd : Nat) (path : List UInt8) (nameiparent : Bool) : FsM (Option (Nat × List UInt8)) := do
  let ip ← (if path.head? = some slash then iget ROOTDEV ROOTINO else idup cwd)
  namex.loop nameiparent (path.length + 1) ip path []

def namei (cwd : Nat) (path : List UInt8) : FsM (Option Nat) := do
  match ← namex cwd path false with
  | some (ip, _) => pure (some ip)
  | none => pure none

def nameiparent (cwd : Nat) (path : List UInt8) : FsM (Option (Nat × List UInt8)) :=
  namex cwd path true

end ArmXv6.Content
