import ArmXv6.UserBuffers

namespace ArmXv6.ExecInputs

open Lib.Exec Lib.Bytes Param Blocks Fs Content Vm Kernel Proc Exec UserBuffers

/-- The path leads to cache entry ip, and fs' is the state once that inode is locked. -/
def Opened (fs : Fs) (cwd : Nat) (path : List UInt8) (ip : Nat) (fs' : Fs) : Prop :=
  ∃ fs₁ t t', namei cwd path fs = .ok (some ip) fs₁ t ∧ ilock ip fs₁ = .ok () fs' t'

/-- The inode does not give a header: it is a device without a driver, or the console has less
than a header of a line, and the reader is killed while it waits for more. The bytes are those
that are stored all the same. -/
inductive Fails (fs : Fs) (ip : Nat) : List UInt8 → Prop
  | driverless (hdev : (fs.icache ip).din.type = T_DEV) (hno : hasDriver (fs.icache ip).din.major = false) :
      Fails fs ip []
  | killed (bytes : List UInt8) (rest : List (Option UInt8)) (hdev : (fs.icache ip).din.type = T_DEV)
      (hdrv : hasDriver (fs.icache ip).din.major = true) (hin : fs.input = bytes.map some ++ none :: rest)
      (hlen : bytes.length < ELFSIZE) (hline : ∀ c ∈ bytes, c ≠ 4 ∧ c ≠ 10) : Fails fs ip bytes

/-- The header of the path cannot be read, and only so many bytes of it are stored. -/
def Unread (fs : Fs) (cwd : Nat) (path : List UInt8) (bytes : List UInt8) : Prop :=
  ∃ ip fs', Opened fs cwd path ip fs' ∧ Fails fs' ip bytes

/-- The bytes may be the beginning of a program. -/
def Magic (bytes : List UInt8) : Prop := bytes.take 4 <+: leBytes 4 ELF_MAGIC

/-- Two buffers for the headers, as large as the headers. -/
structure Buffers (elf ph : List UInt8) : Prop where
  elf : elf.length = ELFSIZE
  ph : ph.length = PHSIZE

/-- The outcome does not show what the header buffers held before: not in the result, and in
no part of the state. -/
def Oblivious (k : Kstate) (path : List UInt8) (argv : List (List UInt8)) : Prop :=
  ∀ elf ph elf' ph', Buffers elf ph → Buffers elf' ph' → exec path argv elf ph k = exec path argv elf' ph' k

/-- The running process has its current directory in this state of the file system. -/
structure Within (k : Kstate) (fs : Fs) (cwd : Nat) : Prop where
  fs : k.fs = fs
  cwd : (k.procs k.cur).cwd.getD 0 = cwd

theorem bind_congr {ε σ α β : Type} {m : Prog ε σ β} {f g : β → Prog ε σ α} {s : σ}
    (h : ∀ b s' t, m s = .ok b s' t → f b s' = g b s') : (m >>= f) s = (m >>= g) s := by
  rw [bind_apply, bind_apply]
  cases hm : m s with
  | ok b s' t =>
      change (f b s').after t = (g b s').after t
      rw [h b s' t hm]
  | stop w s' t => rfl

theorem onFs_ok {α : Type} {m : FsM α} {k k' : Kstate} {a : α} {t : List Event} (h : onFs m k = .ok a k' t) :
    ∃ fs', m k.fs = .ok a fs' t ∧ k' = { k with fs := fs' } := by
  unfold onFs zoom at h
  cases hm : m k.fs with
  | ok b fs' u =>
      rw [hm] at h
      cases h
      exact ⟨fs', rfl, rfl⟩
  | stop w fs' u =>
      rw [hm] at h
      cases h

theorem overwrite_full {old new : List UInt8} (h : old.length ≤ new.length) : overwrite old new = new := by
  unfold overwrite
  rw [List.drop_eq_nil_of_le h, List.append_nil]

/-- Either all that was stored is reported, or the reader was killed after it had taken some bytes
of a line. -/
theorem console_loop_result (n : Nat) (acc : List UInt8) (fs : Fs) :
    (consoleread.loop n acc fs).Holds (fun _ => True)
      (fun r _ => r.1 = (r.2.length : Int) ∨ r.1 = -1 ∧ ∃ bytes rest, r.2 = acc ++ bytes ∧
        fs.input = bytes.map some ++ none :: rest ∧ bytes.length < n ∧ ∀ c ∈ bytes, c ≠ 4 ∧ c ≠ 10)
      fun _ _ => True := by
  induction n generalizing acc fs with
  | zero =>
      unfold consoleread.loop
      rw [holds_pure]
      exact .inl rfl
  | succ n ih =>
      unfold consoleread.loop
      rw [holds_bind, holds_fetch]
      cases hin : fs.input with
      | nil =>
          dsimp only
          rw [holds_sleep]
          trivial
      | cons c rest =>
          cases c with
          | none =>
              dsimp only
              rw [holds_bind, holds_update, holds_pure]
              exact .inr ⟨rfl, [], rest, (List.append_nil acc).symm, rfl, Nat.succ_pos n, fun c hc => by cases hc⟩
          | some c =>
              dsimp only
              rw [holds_ite]
              refine ⟨fun _ => ?_, fun h4 => ?_⟩
              · rw [holds_bind, holds_ite]
                refine ⟨fun _ => ?_, fun _ => ?_⟩
                · rw [holds_update, holds_pure]
                  exact .inl rfl
                · rw [holds_pure, holds_pure]
                  exact .inl rfl
              · rw [holds_bind, holds_update, holds_ite]
                refine ⟨fun _ => ?_, fun h10 => ?_⟩
                · rw [holds_pure]
                  exact .inl rfl
                · refine (ih (acc ++ [c]) _).mono (fun r _ hr => ?_) fun _ _ => id
                  rcases hr with hr | ⟨hr, bytes, rest', hb, hi, hlen, hline⟩
                  · exact .inl hr
                  · refine .inr ⟨hr, c :: bytes, rest', ?_, ?_, Nat.succ_lt_succ hlen, ?_⟩
                    · rw [hb, List.append_assoc]
                      rfl
                    · exact congrArg (some c :: ·) hi
                    · intro x hx
                      rcases List.mem_cons.1 hx with rfl | hx
                      · exact ⟨h4, h10⟩
                      · exact hline x hx

theorem gives_console_loop (n : Nat) (acc : List UInt8) :
    Gives (consoleread.loop n acc) fun r => r.1 = -1 ∨ r.1 = (r.2.length : Int) := by
  intro fs
  refine (console_loop_result n acc fs).mono (fun r _ hr => ?_) fun _ _ => id
  rcases hr with hr | ⟨hr, -⟩
  · exact .inr hr
  · exact .inl hr

theorem consoleread_filled (ip n : Nat) : Gives (Content.consoleread ip n) fun r => r.1 = -1 ∨
    r.1 = (r.2.length : Int) := by
  unfold Content.consoleread
  exact .then fun _ => (gives_console_loop _ _).bind fun r hr => .then fun _ => gives_pure hr

theorem readi_loop_filled (ip n fuel tot off : Nat) (acc : List UInt8) (hacc : acc.length = tot) (hle : tot ≤ n)
    (hfuel : n ≤ tot + fuel) :
    Gives (readi.loop ip n fuel tot off acc) fun l => l.length = n := by
  induction fuel generalizing tot off acc with
  | zero => exact gives_pure (by omega)
  | succ fuel ih =>
      unfold readi.loop
      refine gives_ite (fun hlt => .then fun b => .then fun bp => .then fun _ => ?_) fun _ => gives_pure (by omega)
      have hpos : off % BSIZE < BSIZE := Nat.mod_lt _ (by decide)
      apply ih
      · rw [List.length_append, Mem.length_slice, hacc]
      · omega
      · omega

theorem readi_filled (ip off n : Nat) : Gives (readi ip off n) fun r => r.1 = -1 ∨ r.1 = (r.2.length : Int) := by
  unfold readi
  refine .then fun fs =>
    gives_ite (fun _ => gives_ite (fun _ => consoleread_filled ip n) fun _ => gives_pure (.inl rfl)) fun _ =>
    gives_ite (fun _ => gives_pure (.inl rfl)) fun _ => ?_
  refine (readi_loop_filled ip _ _ 0 off [] rfl (Nat.zero_le _) (by omega)).bind fun l hl => gives_pure (.inr ?_)
  rw [hl]

/-- The header of a program is stored as far as the result says, or the read fails for one of
the two reasons. -/
theorem readi_header {fs fs' : Fs} {ip : Nat} {r : Int × List UInt8} {t : List Event}
    (h : readi ip 0 ELFSIZE fs = .ok r fs' t) :
    r.1 = (r.2.length : Int) ∨ r.1 = -1 ∧ Fails fs ip r.2 := by
  suffices hs : (readi ip 0 ELFSIZE fs).Holds (fun _ => True)
      (fun r _ => r.1 = (r.2.length : Int) ∨ r.1 = -1 ∧ Fails fs ip r.2) fun _ _ => True from hs.ok h
  unfold readi
  rw [holds_bind, holds_fetch]
  dsimp only
  split
  · rename_i hdev
    rw [holds_ite]
    refine ⟨fun hdrv => ?_, fun hno => ?_⟩
    · unfold Content.consoleread iunlock
      simp only [holds_bind, holds_fetch, holds_ite, holds_panic, setInode, holds_update]
      refine ⟨fun _ => trivial, fun _ => ?_⟩
      refine (console_loop_result _ [] _).mono (fun r _ hr => ?_) fun _ _ => id
      refine (gives_any (ilock ip) _).mono (fun _ _ _ => ?_) fun _ _ => id
      rw [holds_pure]
      rcases hr with hr | ⟨hr, bytes, rest, hb, hi, hlen, hline⟩
      · exact .inl hr
      · rw [List.nil_append] at hb
        exact .inr ⟨hr, hb ▸ .killed bytes rest hdev hdrv hi (hlen.trans_eq (by decide)) hline⟩
    · rw [holds_pure]
      exact .inr ⟨rfl, .driverless hdev (by simpa using hno)⟩
  · rw [if_neg (by omega)]
    refine (readi_loop_filled ip _ _ 0 0 [] rfl (Nat.zero_le _) (by omega)).bind (fun l hl => gives_pure ?_) fs
    rw [hl]
    exact .inl rfl

theorem segments_oblivious (d ip count off sz : Nat) (ph ph' : List UInt8) (hph : ph.length = PHSIZE)
    (hph' : ph'.length = PHSIZE) :
    exec.segments d ip ph count off sz = exec.segments d ip ph' count off sz := by
  induction count generalizing ph ph' off sz with
  | zero => rfl
  | succ count ih =>
      funext k
      unfold exec.segments
      apply bind_congr
      intro r k' t hr
      have hfill := (gives_onFs (readi_filled ip off PHSIZE) k).ok hr
      by_cases hn : r.1 = PHSIZE
      · have hlen : r.2.length = PHSIZE := by
          rcases hfill with hfill | hfill
          · rw [hfill] at hn
            exact absurd hn (by decide)
          · omega
        rw [if_neg (not_not.mpr hn), if_neg (not_not.mpr hn), overwrite_full (by omega), overwrite_full (by omega)]
      · rw [if_pos hn, if_pos hn]

/-- Whatever the read of the header says, what follows uses only the bytes it stored, unless
it failed. -/
theorem header_oblivious {r : Int × List UInt8} {elf elf' : List UInt8} (helf : elf.length = ELFSIZE)
    (helf' : elf'.length = ELFSIZE)
    (hr : r.1 = (r.2.length : Int)) (hfull : ¬bits r.1 < ELFSIZE) : overwrite elf r.2 = overwrite elf' r.2 := by
  have hlen : ELFSIZE ≤ r.2.length := by
    rw [hr] at hfull
    unfold bits at hfull
    omega
  rw [overwrite_full (by omega), overwrite_full (by omega)]

theorem take_of_magic {elf bytes : List UInt8} (helf : elf.length = ELFSIZE)
    (h : field (overwrite elf bytes) 0 4 = ELF_MAGIC) :
    (overwrite elf bytes).take 4 = leBytes 4 ELF_MAGIC := by
  have hsize : ELFSIZE = 52 := rfl
  have hl : ((overwrite elf bytes).take 4).length = 4 := by
    unfold overwrite
    simp only [List.length_take, List.length_append, List.length_drop]
    omega
  have hb := leBytes_leNat ((overwrite elf bytes).take 4)
  rw [hl] at hb
  rw [← hb]
  exact congrArg (leBytes 4) h

/-- Bytes that contradict the magic number contradict it whatever comes after them. -/
theorem not_magic {elf bytes : List UInt8} (helf : elf.length = ELFSIZE) (h : ¬Magic bytes) :
    field (overwrite elf bytes) 0 4 ≠ ELF_MAGIC := by
  intro hm
  apply h
  unfold Magic
  rw [← take_of_magic helf hm]
  unfold overwrite
  rw [List.take_append]
  exact List.prefix_append _ _

theorem zeros_refused {bytes : List UInt8} (h : bytes.length < 4) :
    field (overwrite (List.replicate 52 0) bytes) 0 4 ≠ ELF_MAGIC := by
  intro hm
  have hlast : ((overwrite (List.replicate 52 0) bytes).take 4)[3]? = some 0 := by
    unfold overwrite
    rw [List.getElem?_take_of_lt (by decide), List.getElem?_append_right (by omega), List.getElem?_drop,
      List.getElem?_replicate, if_pos (by omega)]
  rw [take_of_magic (show (List.replicate 52 (0 : UInt8)).length = ELFSIZE from List.length_replicate) hm] at hlast
  revert hlast
  decide

theorem oblivious_of_read {k : Kstate} {path : List UInt8} (argv : List (List UInt8))
    (h : ∀ bytes, Unread k.fs ((k.procs k.cur).cwd.getD 0) path bytes → ¬Magic bytes) : Oblivious k path argv := by
  intro elf ph elf' ph' hb hb'
  unfold exec
  apply bind_congr
  intro p k₁ t₁ hp
  obtain ⟨rfl, rfl⟩ : p = k.procs k.cur ∧ k₁ = k := by
    cases hp
    exact ⟨rfl, rfl⟩
  apply bind_congr
  intro found k₂ t₂ hname
  cases found with
  | none => rfl
  | some ip =>
      apply bind_congr
      intro _ k₃ t₃ hlock
      apply bind_congr
      intro r k₄ t₄ hread
      obtain ⟨fs₂, hname', rfl⟩ := onFs_ok hname
      obtain ⟨fs₃, hlock', rfl⟩ := onFs_ok hlock
      obtain ⟨fs₄, hread', rfl⟩ := onFs_ok hread
      rcases readi_header hread' with hfilled | ⟨hminus, hfails⟩
      · by_cases hshort : bits r.1 < ELFSIZE
        · rw [if_pos hshort, if_pos hshort]
        · rw [if_neg hshort, if_neg hshort, header_oblivious hb.elf hb'.elf hfilled hshort]
          simp only [segments_oblivious _ ip _ _ 0 ph ph' hb.ph hb'.ph]
      · -- what was stored before the failure shows that this is no program
        have hno := h r.2 ⟨ip, fs₃, ⟨fs₂, t₂, t₃, hname', hlock'⟩, hfails⟩
        have hpass : ¬bits r.1 < ELFSIZE := by
          rw [hminus]
          decide
        rw [if_neg hpass, if_neg hpass, if_pos (not_magic hb.elf hno), if_pos (not_magic hb'.elf hno)]

def result {ε σ α : Type} : Run ε σ α → Option α
  | .ok a _ _ => some a
  | .stop _ _ _ => none

theorem onFs_run {α : Type} {m : FsM α} {k : Kstate} {a : α} {fs' : Fs} {t : List Event} (h : m k.fs = .ok a fs' t) :
    onFs m k = .ok a { k with fs := fs' } t := by
  unfold onFs zoom
  rw [h]

theorem holds_of_ok {ε σ α : Type} {Q : α → σ → Prop} {E : Stop → σ → Prop} {r : Run ε σ α} {a : α} {s : σ}
    {t : List ε} (h : r = .ok a s t)
    (hq : Q a s) : r.Holds (fun _ => True) Q E := by
  rw [h]
  exact fun _ => hq

theorem ilock_locked (ip : Nat) (fs : Fs) : (ilock ip fs).Holds (fun _ => True)
    (fun _ fs' => 0 < (fs'.icache ip).ref ∧ (fs'.icache ip).busy = true ∧ (fs'.icache ip).valid = true) fun _ _ =>
      True := by
  unfold ilock setInode
  simp only [holds_bind, holds_fetch, holds_ite, holds_panic, holds_sleep, holds_update, holds_pure]
  refine ⟨fun _ => trivial, fun hr => ⟨fun _ => trivial, fun _ => ⟨fun _ => ?_, fun hv => ?_⟩⟩⟩
  · simp only [bread, brelse, holds_bind, holds_fetch, holds_ite, holds_sleep, holds_panic, holds_update, holds_pure]
    refine ⟨fun _ => trivial, fun _ =>
      ⟨fun _ => trivial, fun _ => ⟨fun _ => trivial, fun _ => ⟨fun _ => trivial, fun _ => ?_⟩⟩⟩⟩
    simp only [Function.update_self, and_self, and_true]
    omega
  · simp only [Function.update_self, true_and]
    exact ⟨by omega, by simpa using hv⟩

theorem ilock_valid (fs : Fs) (ip : Nat) (hr : 0 < (fs.icache ip).ref) (hb : (fs.icache ip).busy = false)
    (hv : (fs.icache ip).valid = true) : ∃ fs', ilock ip fs = .ok () fs' [] := by
  refine ⟨{ fs with icache := Function.update fs.icache ip { fs.icache ip with busy := true } }, ?_⟩
  unfold ilock
  apply bind_ok (fetch_apply fs)
  rw [if_neg (Nat.not_lt.mpr hr), if_neg (by rw [hb]; decide)]
  apply bind_ok (update_apply _ fs)
  rw [if_neg (not_not.mpr hv)]
  rfl

theorem console_loop_killed (bytes : List UInt8) (n : Nat) (acc : List UInt8) (fs : Fs) {rest : List (Option UInt8)}
    (hin : fs.input = bytes.map some ++ none :: rest) (hlen : bytes.length < n) (hline : ∀ c ∈ bytes, c ≠ 4 ∧ c ≠ 10) :
    consoleread.loop n acc fs = .ok (-1, acc ++ bytes) { fs with input := rest } [] := by
  obtain ⟨m, rfl⟩ : ∃ m, n = m + 1 := ⟨n - 1, by omega⟩
  induction bytes generalizing m acc fs with
  | nil =>
      unfold consoleread.loop
      apply bind_ok (fetch_apply fs)
      rw [show fs.input = none :: rest from hin, List.append_nil]
      rfl
  | cons c bytes ih =>
      obtain ⟨h4, h10⟩ := hline c List.mem_cons_self
      obtain ⟨j, rfl⟩ : ∃ j, m = j + 1 := ⟨m - 1, by rw [List.length_cons] at hlen; omega⟩
      unfold consoleread.loop
      apply bind_ok (fetch_apply fs)
      rw [show fs.input = some c :: (bytes.map some ++ none :: rest) from hin]
      dsimp only
      rw [if_neg h4, if_neg h10]
      apply bind_ok (update_apply _ fs)
      have h := ih (acc ++ [c]) { fs with input := bytes.map some ++ none :: rest } rfl
        (fun x hx => hline x (List.mem_cons_of_mem c hx)) j (by rw [List.length_cons] at hlen; omega)
      rw [List.append_assoc] at h
      exact h

theorem readi_fails {fs₁ fs : Fs} {ip : Nat} {t : List Event} {bytes : List UInt8} (hl : ilock ip fs₁ = .ok () fs t)
    (h : Fails fs ip bytes) : ∃ fs' t', readi ip 0 ELFSIZE fs = .ok (-1, bytes) fs' t' := by
  obtain ⟨href, hbusy, hvalid⟩ := (ilock_locked ip fs₁).ok hl
  unfold readi
  rw [bind_apply, fetch_apply]
  dsimp only
  cases h with
  | driverless hdev hno =>
      rw [if_pos hdev, if_neg (by rw [hno]; exact Bool.false_ne_true)]
      exact ⟨fs, [], rfl⟩
  | killed _ rest hdev hdrv hin hlen hline =>
      rw [if_pos hdev, if_pos hdrv]
      have hopen :
          iunlock ip fs =
          .ok () { fs with icache := Function.update fs.icache ip { fs.icache ip with busy := false } } [] := by
        unfold iunlock
        apply bind_ok (fetch_apply fs)
        rw [if_neg (not_or.mpr ⟨not_not.mpr hbusy, Nat.not_lt.mpr href⟩)]
        rfl
      have hloop := console_loop_killed bytes (sint ELFSIZE).toNat []
        { fs with icache := Function.update fs.icache ip { fs.icache ip with busy := false } } hin
        (hlen.trans_eq (by decide)) hline
      obtain ⟨fs', hlock⟩ := ilock_valid
        { fs with icache := Function.update fs.icache ip { fs.icache ip with busy := false }, input := rest } ip
          (by simpa using href) (by simp) (by simpa using hvalid)
      have hread : Content.consoleread ip ELFSIZE fs = .ok (-1, bytes) fs' [] := by
        unfold Content.consoleread
        exact bind_ok hopen (bind_ok hloop (bind_ok hlock rfl))
      rw [hread]
      exact ⟨fs', _, rfl⟩

theorem onFs_mm {α : Type} (m : FsM α) (k : Kstate) :
    (onFs m k).Holds (fun _ => True) (fun _ k' => k'.mm = k.mm) fun _ k' => k'.mm = k.mm := by
  unfold onFs zoom
  cases m k.fs with
  | ok a fs' t => exact fun _ => rfl
  | stop w fs' t => exact fun _ => rfl

/-- Where the header cannot be read, the magic number is looked for in what the buffer held
before, behind the bytes that came. -/
theorem unread_refuses {k : Kstate} {path bytes : List UInt8} (argv : List (List UInt8)) {elf : List UInt8}
    (ph : List UInt8)
    (h : Unread k.fs ((k.procs k.cur).cwd.getD 0) path bytes) (hm : field (overwrite elf bytes) 0 4 ≠ ELF_MAGIC) :
    (exec path argv elf ph k).Holds (fun _ => True) (fun r _ => r ≠ 0) fun _ k' => k'.mm = k.mm := by
  obtain ⟨ip, fs₂, ⟨fs₁, t₁, t₂, hname, hlock⟩, hf⟩ := h
  obtain ⟨fs₃, t₃, hread⟩ := readi_fails hlock hf
  unfold exec
  rw [holds_bind]
  refine holds_of_ok (a := k.procs k.cur) rfl ?_
  rw [holds_bind]
  refine holds_of_ok (onFs_run hname) ?_
  rw [holds_bind]
  refine holds_of_ok (onFs_run hlock) ?_
  rw [holds_bind]
  refine holds_of_ok (onFs_run hread) ?_
  dsimp only
  -- -1 is a large number to the unsigned comparison
  rw [if_neg (by decide), if_pos hm]
  unfold exec.bad
  rw [holds_bind, holds_pure, holds_bind]
  refine (onFs_mm (iunlockput ip) _).mono (fun _ _ _ => ?_) fun _ _ => id
  rw [holds_pure]
  decide

/-- The blocks of a file system whose root holds one file d, a device with major number 9. -/
def deviceBlocks : Nat → Block := fun b =>
  if b = 1 then Mem.zero.setSlice 0 (leBytes 4 40 ++ leBytes 4 25 ++ leBytes 4 8 ++ leBytes 4 10)
  else if b = 2 then
    setDinode (setDinode Mem.zero ROOTINO ⟨T_DIR, 0, 0, 1, 3 * DESIZE, fun j => if j = 0 then 5 else 0⟩) 2
      ⟨T_DEV, 9, 0, 1, 0, fun _ => 0⟩
  else if b = 4 then Mem.zero.setSlice 0 [63]
  else if b = 5 then
    Mem.zero.setSlice 0
      ([⟨ROOTINO, strncpy Sysfile.dot DIRSIZ⟩, ⟨ROOTINO, strncpy Sysfile.dotdot DIRSIZ⟩,
      ⟨2, strncpy [100] DIRSIZ⟩].flatMap encodeDirent)
  else Mem.zero

/-- The first process, in the root directory and with one page, while six frames are free. -/
def deviceState : Kstate where
  mm :=
    (allocuvm FRAME 0 PTE_SZ ⟨.zero, [2 * FRAME, 3 * FRAME, 4 * FRAME, 5 * FRAME, 6 * FRAME, 7 * FRAME], FRAME⟩).state
  fs := ⟨deviceBlocks, 40, [], [], ⟨30, 10, false, []⟩,
    fun ip => if ip = 0 then ⟨ROOTDEV, ROOTINO, 1, false, true, dinodeAt (deviceBlocks 2) ROOTINO⟩ else ⟨0, 0, 0,
      false, false, emptyDinode⟩, []⟩
  ftable _ := ⟨.none, 0, false, false, 0, 0, 0⟩
  pipes _ := ⟨fun _ => 0, 0, 0, false, false⟩
  procs _ := ⟨PTE_SZ, FRAME, 8 * FRAME, .running, 1, none, zeroTf, false, fun _ => none, some 0, []⟩
  nextpid := 2
  initproc := 0
  cur := 0
  exstacks := []
  piped _ := 0
  unpiped _ := 0

/-- Old stack contents that look like the header of a program without segments. -/
def magicHeader : List UInt8 := leBytes 4 ELF_MAGIC ++ List.replicate 48 0

theorem eq_ok_of_result {ε σ α : Type} {r : Run ε σ α} {a : α} (h : result r = some a) : r = .ok a r.state r.trace := by
  cases r with
  | ok b s t =>
      cases h
      rfl
  | stop => cases h

theorem onMm_run {α : Type} {m : MmM α} {k : Kstate} {a : α} {mm' : Mm} {t : List Event} (h : m k.mm = .ok a mm' t) :
    onMm m k = .ok a { k with mm := mm' } t := by
  unfold onMm zoom
  rw [h]

/-- An empty page directory, and six free frames. -/
def bareMm : Mm := ⟨.zero, [2 * FRAME, 3 * FRAME, 4 * FRAME, 5 * FRAME, 6 * FRAME, 7 * FRAME], FRAME⟩

/-- A process with this memory in a directory of any file system. -/
def bareState (fs : Fs) (cwd : Nat) : Kstate :=
  { deviceState with mm := bareMm, fs := fs, procs := fun _ => { deviceState.procs 0 with sz := 0, cwd := some cwd } }

theorem overwrite_magic {bytes : List UInt8} (h : Magic bytes) (hlen : bytes.length < 4) :
    overwrite magicHeader bytes = magicHeader := by
  unfold Magic at h
  rw [List.take_of_length_le (by omega)] at h
  have hpre : bytes <+: magicHeader := h.trans (List.prefix_append _ _)
  obtain ⟨rest, hrest⟩ := hpre
  unfold overwrite
  rw [← hrest, List.drop_left]

theorem result_bind {ε σ α β : Type} {m : Prog ε σ β} {f : β → Prog ε σ α} {s : σ} {b : α}
    (h : result ((m >>= f) s) = some b) :
    ∃ a s' t, m s = .ok a s' t ∧ result (f a s') = some b := by
  rw [bind_apply] at h
  cases hm : m s with
  | stop w s' t =>
      rw [hm] at h
      cases h
  | ok a s' t =>
      rw [hm] at h
      refine ⟨a, s', t, rfl, ?_⟩
      dsimp only at h
      cases hf : f a s' with
      | ok c u v =>
          rw [hf] at h
          exact h
      | stop w u v =>
          rw [hf] at h
          cases h

/-- The work of exec on the memory, for a program without segments and arguments. -/
def bareImage (d old : Nat) : MmM (Nat × Int) := do
  let sz ← allocuvm d 0 8192
  clearpteu d 0
  let r ← copyout old d 8188 [0, 0, 0, 0]
  freevm old
  pure (sz, r)

theorem bareImage_made : result (setupvm bareMm) = some (some (2 * FRAME)) ∧
    result (bareImage (2 * FRAME) FRAME (setupvm bareMm).state) = some (8192, 0) := by decide +kernel

theorem commit_starts (path : List UInt8) {k : Kstate} (hmm : k.mm = (setupvm bareMm).state)
    (hpgdir : (k.procs k.cur).pgdir = FRAME) (hkstack : (k.procs k.cur).kstack ≠ 0) :
    (exec.commit path [] magicHeader (2 * FRAME) 0 k).Holds (fun _ => True) (fun r _ => r = 0) fun _ _ => False := by
  obtain ⟨sz, m₁, t₁, hstack, h₁⟩ := result_bind bareImage_made.2
  obtain ⟨u, m₂, t₂, hguard, h₂⟩ := result_bind h₁
  obtain ⟨r, m₃, t₃, hargs, h₃⟩ := result_bind h₂
  obtain ⟨v, m₄, t₄, hfree, h₄⟩ := result_bind h₃
  obtain ⟨rfl, rfl⟩ : sz = 8192 ∧ r = 0 := by
    cases h₄
    exact ⟨rfl, rfl⟩
  rw [← hmm] at hstack
  unfold exec.commit
  rw [holds_bind]
  refine holds_of_ok (onMm_run hstack) ?_
  rw [if_neg (by decide), holds_bind]
  refine holds_of_ok (onMm_run hguard) ?_
  rw [holds_bind, holds_fetch, holds_bind]
  refine holds_of_ok (onMm_run rfl) ?_
  dsimp only
  rw [hpgdir]
  unfold setProc
  rw [holds_bind, holds_update, holds_bind]
  refine holds_of_ok (onMm_run hargs) ?_
  rw [if_neg (by decide), holds_bind, holds_update, holds_bind]
  unfold switchuvm
  simp only [holds_bind, holds_fetch, holds_ite, holds_panic, holds_pure, Function.update_self]
  refine ⟨fun h => hkstack h, fun _ => ⟨fun h => absurd h (by decide), fun _ => ?_⟩⟩
  refine holds_of_ok (onMm_run hfree) ?_
  trivial

/-- Where not enough of the header comes to tell what it is, the old contents of the buffer can
make a program of it. -/
theorem program_starts {fs : Fs} {cwd : Nat} {path bytes : List UInt8} (ph : List UInt8) (h : Unread fs cwd path bytes)
    (hm : Magic bytes) (hlen : bytes.length < 4) :
    (exec path [] magicHeader ph (bareState fs cwd)).Holds (fun _ => True) (fun r _ => r = 0) fun _ k' =>
      k'.mm ≠ bareMm := by
  obtain ⟨ip, fs₂, ⟨fs₁, t₁, t₂, hname, hlock⟩, hf⟩ := h
  obtain ⟨fs₃, t₃, hread⟩ := readi_fails hlock hf
  have hmagic : field magicHeader 0 4 = ELF_MAGIC := by decide
  have hnone : field magicHeader 44 2 = 0 := by decide
  unfold exec
  rw [holds_bind]
  refine holds_of_ok (a := (bareState fs cwd).procs 0) rfl ?_
  rw [holds_bind]
  refine holds_of_ok (onFs_run hname) ?_
  rw [holds_bind]
  refine holds_of_ok (onFs_run hlock) ?_
  rw [holds_bind]
  refine holds_of_ok (onFs_run hread) ?_
  dsimp only
  rw [if_neg (by decide), overwrite_magic hm hlen, if_neg (not_not.mpr hmagic), holds_bind]
  refine holds_of_ok (onMm_run (eq_ok_of_result bareImage_made.1)) ?_
  dsimp only
  rw [hnone, holds_bind]
  unfold exec.segments
  rw [holds_pure, holds_bind]
  unfold onFs zoom
  dsimp only
  cases iunlockput ip fs₃ with
  | ok _ fs₄ t₄ =>
      exact fun _ => (commit_starts path rfl rfl (show 8 * FRAME ≠ 0 by decide)).mono (fun _ _ => id) fun _ _ =>
        False.elim
  | stop w fs₄ t₄ =>
      have hne : (setupvm bareMm).state.freelist.length ≠ bareMm.freelist.length := by decide +kernel
      exact fun _ he => hne (congrArg (fun m => m.freelist.length) he)

/-- Unless the read of the header fails with nothing stored that contradicts the magic number,
exec shows nothing of what its buffers held. If it fails with less than the magic number stored,
there are processes that run what the buffers held, and any success is due to that. -/
theorem exec_oblivious (fs : Fs) (cwd : Nat) (path : List UInt8) :
    ((∀ bytes, Unread fs cwd path bytes → ¬Magic bytes) → ∀ k argv, Within k fs cwd → Oblivious k path argv) ∧
    ∀ bytes, Unread fs cwd path bytes → bytes.length < 4 →
      (Magic bytes → ∃ k, Within k fs cwd ∧ ¬Oblivious k path []) ∧
      ∀ k argv elf ph, Within k fs cwd → Buffers elf ph → result (exec path argv elf ph k) = some 0 →
        ¬Oblivious k path argv := by
  have hzero : Buffers (List.replicate 52 0) (List.replicate 32 0) := ⟨by decide, by decide⟩
  refine ⟨fun h k argv hk => oblivious_of_read argv (by rw [hk.fs, hk.cwd]; exact h), fun bytes hu hlen =>
    ⟨fun hm => ?_, ?_⟩⟩
  · refine ⟨bareState fs cwd, ⟨rfl, rfl⟩, fun ho => ?_⟩
    have hbad := unread_refuses (k := bareState fs cwd) [] (List.replicate 32 0) hu (zeros_refused hlen)
    have hgood := program_starts (List.replicate 32 0) hu hm hlen
    rw [← ho _ _ _ _ hzero ⟨by decide, by decide⟩] at hgood
    cases hrun : exec path [] (List.replicate 52 0) (List.replicate 32 0) (bareState fs cwd) with
    | ok r k' t =>
        rw [hrun] at hbad hgood
        exact hbad (fun _ _ => trivial) (hgood fun _ _ => trivial)
    | stop w k' t =>
        rw [hrun] at hbad hgood
        exact hgood (fun _ _ => trivial) (hbad fun _ _ => trivial)
  · intro k argv elf ph hk hb hr ho
    have hbad := unread_refuses (k := k) argv (List.replicate 32 0) (by rw [hk.fs, hk.cwd]; exact hu)
      (zeros_refused hlen)
    rw [ho _ _ _ _ hzero hb] at hbad
    cases hrun : exec path argv elf ph k with
    | ok r k' t =>
        rw [hrun] at hbad hr
        exact hbad (fun _ _ => trivial) (Option.some.inj hr)
    | stop w k' t =>
        rw [hrun] at hr
        cases hr

/-- The root directory is read, the device is not. -/
theorem exec_oblivious_device :
    (∀ k argv, Within k deviceState.fs 0 → Oblivious k [slash] argv) ∧ ∃ k, Within k deviceState.fs 0 ∧
      ¬Oblivious k [100] [] := by
  constructor
  · refine (exec_oblivious deviceState.fs 0 [slash]).1 fun bytes hu _ => ?_
    obtain ⟨ip, fs', ⟨fs₁, t₁, t₂, hname, hlock⟩, hf⟩ := hu
    have hip := eq_ok_of_result (r := namei 0 [slash] deviceState.fs) (a := some 0) (by decide +kernel)
    have htype : ((ilock 0 (namei 0 [slash] deviceState.fs).state).state.icache 0).din.type ≠ T_DEV := by decide +kernel
    rw [hname] at hip htype
    cases hip
    change ((ilock 0 fs₁).state.icache 0).din.type ≠ T_DEV at htype
    rw [hlock] at htype
    cases hf with
    | driverless hdev _ => exact htype hdev
    | killed _ _ hdev _ _ _ _ => exact htype hdev
  · have hu : Unread deviceState.fs 0 [100] [] := by
      have hname := eq_ok_of_result (r := namei 0 [100] deviceState.fs) (a := some 1) (by decide +kernel)
      have hlock := eq_ok_of_result (r := ilock 1 (namei 0 [100] deviceState.fs).state) (a := ()) (by decide +kernel)
      exact ⟨1, _, ⟨_, _, _, hname, hlock⟩, .driverless (by decide +kernel) (by decide +kernel)⟩
    exact ((exec_oblivious deviceState.fs 0 [100]).2 [] hu (by decide)).1 (List.nil_prefix)

/-- The device file is run as a program that begins where the old bytes of the stack say. -/
theorem device_runs_stack : Buffers (List.replicate 52 0) (List.replicate 32 0) ∧
    Buffers magicHeader (List.replicate 32 0) ∧
    result (exec [100] [] (List.replicate 52 0) (List.replicate 32 0) deviceState) = some (-1) ∧
    result (exec [100] [] magicHeader (List.replicate 32 0) deviceState) = some 0 ∧
      ¬Oblivious deviceState [100] [] := by
  have hb : Buffers (List.replicate 52 0) (List.replicate 32 0) := ⟨by decide, by decide⟩
  have hb' : Buffers magicHeader (List.replicate 32 0) := ⟨by decide, by decide⟩
  have hzero : result (exec [100] [] (List.replicate 52 0) (List.replicate 32 0) deviceState) = some (-1) := by
    decide +kernel
  have hmagic : result (exec [100] [] magicHeader (List.replicate 32 0) deviceState) = some 0 := by decide +kernel
  refine ⟨hb, hb', hzero, hmagic, fun ho => ?_⟩
  have heq := congrArg result (ho _ _ _ _ hb hb')
  rw [hzero, hmagic] at heq
  cases heq

end ArmXv6.ExecInputs
