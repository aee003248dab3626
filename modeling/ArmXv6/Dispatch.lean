import ArmXv6.ExecInputs
import ArmXv6.Copyout
import ArmXv6.Bystanders
import Mathlib.Tactic.IntervalCases

namespace ArmXv6.Dispatch

open Lib.Exec Lib.Bytes Param Blocks Fs Content Sysfile Vm Kernel Proc Exec Descriptors Syscall UserBuffers ExecInputs
open Copyout (after_nil)
open Bystanders

def SYS_exec : Nat := 7
def SYS_close : Nat := 21

/-- The number of elements of the table, whose element 0 is empty. -/
def NELEM : Nat := SYS_close + 1

/-- What a call meets besides the kernel's own state: the bytes that exec finds in its two
header buffers, and the clock at each time it is looked at. -/
structure Machine where
  elf0 : List UInt8
  ph0 : List UInt8
  ticks : List Nat

def argpath (n : Nat) : KM (Option (List UInt8)) := do
  match ← argstr n with
  | none => pure none
  | some (p, len) => do
      let x ← proc
      let bytes ← onMm (loadBytes x.pgdir p len)
      pure (some bytes)

def withPath (f : List UInt8 → KM Int) : KM Int := do
  match ← argpath 0 with
  | none => pure (-1)
  | some path => f path

/-- The descriptor in the first argument register, if a file is open there. -/
def argfile : KM (Option Int) := do
  let fd ← argint 0
  let k ← fetch
  match argfd k fd with
  | none => pure none
  | some _ => pure (some fd)

/-- A descriptor, a pointer and a number of bytes behind it. -/
def withBuffer (size : KM Int) (f : Int → Nat → Int → KM Int) : KM Int := do
  match ← argfile with
  | none => pure (-1)
  | some fd => do
      let n ← size
      match ← argptr 1 n with
      | none => pure (-1)
      | some p => f fd p n

def userByte (k : Kstate) (va : Nat) : UInt8 :=
  match loadByte (k.procs k.cur).pgdir va k.mm with
  | .ok c _ _ => c
  | .stop _ _ _ => 0

def sysKill : KM Int := do
  let pid ← argint 0
  run (.kill (bits pid))

def sysSbrk : KM Int := do
  let n ← argint 0
  run (.sbrk n)

def sysSleep.loop (ticks0 n : Nat) : List Nat → KM Int
  | [] => .sleep
  | now :: rest =>
      if uint (now + (2 ^ 32 - ticks0)) < n then do
        let p ← proc
        if p.killed then pure (-1) else sysSleep.loop ticks0 n rest
      else pure 0

/-- The comparison of the time that has passed with the argument is unsigned. -/
def sysSleep (ticks : List Nat) : KM Int := do
  let n ← argint 0
  sysSleep.loop (ticks.headD 0) (bits n) ticks

def sysUptime (ticks : List Nat) : KM Int := pure (sint (ticks.headD 0))

def sysDup : KM Int := do
  let fd ← argint 0
  run (.dup fd)

def sysRead : KM Int := withBuffer (argint 2) fun fd p n => run (.read fd p n)

def sysWrite : KM Int := withBuffer (argint 2) fun fd p n => do
  let k ← fetch
  run (.write fd (fun i => userByte k (p + i)) n)

def sysClose : KM Int := do
  let fd ← argint 0
  run (.close fd)

def sysFstat : KM Int := withBuffer (pure 20) fun fd p _ => run (.fstat fd p)

def sysLink : KM Int := withPath fun old => do
  match ← argpath 1 with
  | none => pure (-1)
  | some new => run (.link old new)

def sysUnlink : KM Int := withPath fun path => run (.unlink path)

def sysOpen : KM Int := withPath fun path => do
  let omode ← argint 1
  run (.open path (bits omode))

/-- The transaction is begun before the path is fetched; the call itself begins it otherwise. -/
def refused : KM Int := do
  onFs do
    beginTrans
    commitTrans
  pure (-1)

def sysMkdir : KM Int := do
  match ← argpath 0 with
  | none => refused
  | some path => run (.mkdir path)

def sysMknod : KM Int := do
  match ← argpath 0 with
  | none => refused
  | some path => do
      let major ← argint 1
      let minor ← argint 2
      run (.mknod path (bits major) (bits minor))

def sysChdir : KM Int := withPath fun path => run (.chdir path)

def sysPipe : KM Int := do
  match ← argptr 0 8 with
  | none => pure (-1)
  | some p => run (.pipe p)

def fetchArgv (uargv : Nat) : Nat → Nat → KM (Option (List (List UInt8)))
  | 0, _ => pure none
  | fuel + 1, i => do
      match ← fetchint (uint (uargv + 4 * i)) with
      | none => pure none
      | some uarg =>
          if uarg = 0 then pure (some [])
          else do
            match ← fetchstr uarg with
            | none => pure none
            | some len => do
                let x ← proc
                let arg ← onMm (loadBytes x.pgdir uarg len)
                match ← fetchArgv uargv fuel (i + 1) with
                | none => pure none
                | some rest => pure (some (arg :: rest))

/-- The path and the strings that exec is called with. -/
def execArgs : KM (Option (List UInt8 × List (List UInt8))) := do
  match ← argpath 0 with
  | none => pure none
  | some path => do
      let uargv ← argint 1
      match ← fetchArgv (bits uargv) MAXARG 0 with
      | none => pure none
      | some argv => pure (some (path, argv))

def sysExec (e : Machine) : KM Int := do
  match ← execArgs with
  | none => pure (-1)
  | some (path, argv) => run (.exec path argv e.elf0 e.ph0)

def handler (e : Machine) : Nat → Option (KM Int)
  | 1 => some (run .fork)
  | 2 => some (run .exit)
  | 3 => some (run .wait)
  | 4 => some sysPipe
  | 5 => some sysRead
  | 6 => some sysKill
  | 7 => some (sysExec e)
  | 8 => some sysFstat
  | 9 => some sysChdir
  | 10 => some sysDup
  | 11 => some (run .getpid)
  | 12 => some sysSbrk
  | 13 => some (sysSleep e.ticks)
  | 14 => some (sysUptime e.ticks)
  | 15 => some sysOpen
  | 16 => some sysWrite
  | 17 => some sysMknod
  | 18 => some sysUnlink
  | 19 => some sysLink
  | 20 => some sysMkdir
  | 21 => some sysClose
  | _ => none

/-- The table of the handlers and what memory holds behind it. -/
def syscalls (e : Machine) (beyond : Nat → Option (KM Int)) (i : Nat) : Option (KM Int) :=
  if i < NELEM then handler e i else beyond i

def setResult (ret : Int) : KM Unit := do
  let k ← fetch
  setProc k.cur fun x => { x with tf := { x.tf with r := Function.update x.tf.r 0 (bits ret) } }

def syscall (table : Nat → Option (KM Int)) : KM Unit := do
  let p ← proc
  let num := sint (p.tf.r 0)
  if 0 < num ∧ num.toNat ≤ NELEM then
    match table num.toNat with
    | some h => do
        let ret ← h
        if num ≠ SYS_exec then setResult ret else pure ()
    | none => setResult (-1)
  else setResult (-1)

structure Frame (c : Nat) (t : Trapframe) (k : Kstate) : Prop where
  cur : k.cur = c
  tf : (k.procs c).tf = t
  running : (k.procs c).state = .running

/-- The code leaves the running process running and its trap frame alone. -/
def Keeps {α : Type} (m : KM α) : Prop := ∀ c t, Preserves (Frame c t) m

section Keeps

variable {α β : Type}

theorem Keeps.pure (a : α) : Keeps (Pure.pure a : KM α) := fun _ _ => .pure a

theorem Keeps.fetch : Keeps (fetch : KM Kstate) := fun _ _ => .fetch

theorem Keeps.panic (msg : String) : Keeps (Prog.panic msg : KM α) := fun _ _ => .panic msg

theorem Keeps.sleep : Keeps (Prog.sleep : KM α) := fun _ _ => .sleep

theorem Keeps.bind {m : KM β} {f : β → KM α} (hm : Keeps m) (hf : ∀ b, Keeps (f b)) : Keeps (m >>= f) := fun c t =>
  (hm c t).bind fun b => hf b c t

theorem Keeps.ite {p : Prop} [Decidable p] {m n : KM α} (hm : Keeps m) (hn : Keeps n) :
    Keeps (if p then m else n) := fun c t =>
  (hm c t).ite (hn c t)

theorem Keeps.update {g : Kstate → Kstate} (hcur : ∀ k, (g k).cur = k.cur) (hprocs : ∀ k, (g k).procs = k.procs) :
    Keeps (update g) := by
  intro c t
  refine .update fun k h => ⟨(hcur k).trans h.cur, ?_, ?_⟩
  · rw [hprocs]
    exact h.tf
  · rw [hprocs]
    exact h.running

theorem Frame.set {c p : Nat} {t : Trapframe} {k : Kstate} (h : Frame c t k) {g : Proc → Proc}
    (hg : c = p → (g (k.procs p)).tf = t ∧ (g (k.procs p)).state = .running) :
    Frame c t { k with procs := Function.update k.procs p (g (k.procs p)) } := by
  by_cases hp : c = p
  · have hself : Function.update k.procs p (g (k.procs p)) c = g (k.procs p) := by rw [hp, Function.update_self]
    exact ⟨h.cur, (congrArg Proc.tf hself).trans (hg hp).1, (congrArg Proc.state hself).trans (hg hp).2⟩
  · have hother : Function.update k.procs p (g (k.procs p)) c = k.procs c := Function.update_of_ne hp _ _
    exact ⟨h.cur, (congrArg Proc.tf hother).trans h.tf, (congrArg Proc.state hother).trans h.running⟩

theorem steady_frame (c : Nat) (t : Trapframe) : Steady (Frame c t) where
  update g hcur hprocs k h := by
    refine ⟨(hcur k).trans h.cur, ?_, ?_⟩
    · rw [hprocs]
      exact h.tf
    · rw [hprocs]
      exact h.running
  setProc p g htf hst _ k h := by
    refine h.set fun hp => ⟨?_, ?_⟩
    · rw [htf, ← hp]
      exact h.tf
    · rw [hst, ← hp]
      exact h.running

theorem keeps_harmless {m : KM α} (h : Harmless m) : Keeps m := fun c t => h _ (steady_frame c t)

theorem keeps_setProc (p : Nat) {g : Proc → Proc} (htf : ∀ x, (g x).tf = x.tf)
    (hst : ∀ x, x.state = .running → (g x).state = .running) : Keeps (setProc p g) := by
  intro c t
  refine .update fun k h => h.set fun hp => ⟨?_, hst _ ?_⟩
  · rw [htf, ← hp]
    exact h.tf
  · rw [← hp]
    exact h.running

theorem setProc_other {c p : Nat} {t : Trapframe} (hp : c ≠ p) (g : Proc → Proc) :
    Preserves (Frame c t) (setProc p g) :=
  .update fun _ h => h.set fun he => absurd he hp

end Keeps

theorem keeps_kill (pid : Nat) : Keeps (kill pid) := by
  unfold kill
  refine .bind .fetch fun k => ?_
  cases (List.range NPROC).find? fun p => (k.procs p).pid = pid with
  | none => exact .pure _
  | some p =>
      refine .bind (keeps_setProc p (fun _ => rfl) fun x hx => ?_) fun _ => .pure _
      dsimp only
      rw [hx]
      rfl

theorem Frame.then {α β : Type} {c : Nat} {t : Trapframe} {k : Kstate} {m : KM β} {f : β → KM α}
    {Q : α → Kstate → Prop} (h : Frame c t k)
    (hm : Keeps m) (hf : ∀ b k', Frame c t k' → (f b k').Holds (fun _ => True) Q fun _ _ => True) :
    ((m >>= f) k).Holds (fun _ => True) Q fun _ _ => True := by
  rw [holds_bind]
  exact (hm c t k h).mono hf fun _ _ h => h

theorem allocproc_other {c : Nat} {t : Trapframe} {k : Kstate} (h : Frame c t k) :
    (allocproc k).Holds (fun _ => True) (fun r k' => Frame c t k' ∧ ∀ np, r = some np → c ≠ np) fun _ _ => True := by
  unfold allocproc
  rw [holds_bind, holds_fetch]
  cases hf : (List.range NPROC).find? fun p => (k.procs p).state = .unused with
  | none =>
      rw [holds_pure]
      exact ⟨h, fun np hnp => nomatch hnp⟩
  | some p =>
      have hp : c ≠ p := by
        rintro rfl
        have hst := List.find?_some hf
        rw [decide_eq_true_eq, h.running] at hst
        cases hst
      rw [holds_bind]
      refine (setProc_other hp _ k h).mono (fun _ k₁ h₁ => ?_) fun _ _ h => h
      refine h₁.then (.update (fun _ => rfl) fun _ => rfl) fun _ k₂ h₂ =>
        h₂.then (keeps_harmless (harmless_onMm kalloc)) fun stack k₃ h₃ => ?_
      cases stack with
      | none =>
          rw [holds_bind]
          refine (setProc_other hp _ k₃ h₃).mono (fun _ k₄ h₄ => ?_) fun _ _ h => h
          rw [holds_pure]
          exact ⟨h₄, fun np hnp => nomatch hnp⟩
      | some stack =>
          rw [holds_bind]
          refine (setProc_other hp _ k₃ h₃).mono (fun _ k₄ h₄ => ?_) fun _ _ h => h
          rw [holds_pure]
          refine ⟨h₄, fun np hnp => ?_⟩
          rw [← Option.some.inj hnp]
          exact hp

theorem keeps_fork : Keeps fork := by
  intro c t k h
  unfold fork
  rw [holds_bind]
  refine (allocproc_other h).mono (fun r k₁ h₁ => ?_) fun _ _ h => h
  obtain ⟨h₁, hne⟩ := h₁
  cases r with
  | none => exact Preserves.pure _ k₁ h₁
  | some np =>
      have hp := hne np rfl
      refine Preserves.bind Preserves.fetch (fun k₂ => ?_) k₁ h₁
      refine (harmless_onMm _ _ (steady_frame c t)).bind fun d => ?_
      cases d with
      | none => exact (harmless_onMm _ _ (steady_frame c t)).bind fun _ => (setProc_other hp _).bind fun _ => .pure _
      | some d =>
          refine (setProc_other hp _).bind fun _ => (harmless_dupFiles np _ _ (steady_frame c t)).bind fun _ =>
            Preserves.bind ?_ fun _ =>
            (setProc_other hp _).bind fun _ => (setProc_other hp _).bind fun _ => .pure _
          cases (k₂.procs k₂.cur).cwd with
          | none => exact .panic _
          | some cwd => exact (harmless_onFs _ _ (steady_frame c t)).bind fun _ => setProc_other hp _

theorem keeps_wait : Keeps wait := by
  intro c t k h
  unfold wait
  rw [holds_bind, holds_fetch]
  cases hf : (List.range NPROC).find? fun p => (k.procs p).parent = some k.cur ∧ (k.procs p).state = .zombie with
  | none => exact Preserves.ite (.pure _) .sleep k h
  | some p =>
      have hp : c ≠ p := by
        rintro rfl
        have hst := List.find?_some hf
        rw [decide_eq_true_eq, h.running] at hst
        cases hst.2
      exact ((harmless_onMm _ _ (steady_frame c t)).bind fun _ => (setProc_other hp _).bind fun _ =>
        (harmless_onMm _ _ (steady_frame c t)).bind fun _ =>
        (setProc_other hp _).bind fun _ => .pure _) k h

theorem keeps_reparent : Keeps (update exit.reparent) := by
  intro c t
  refine .update fun k h => ?_
  have hc : ((exit.reparent k).procs c).tf = (k.procs c).tf ∧
      ((exit.reparent k).procs c).state = (k.procs c).state := by
    unfold exit.reparent
    dsimp only
    split
    · exact ⟨rfl, rfl⟩
    · exact ⟨rfl, rfl⟩
  exact ⟨h.cur, hc.1.trans h.tf, hc.2.trans h.running⟩

theorem keeps_cwd (o : Option Nat) : Keeps (match o with
    | some cwd => onFs (iput cwd)
    | none => .panic "data abort exception") := by
  cases o with
  | none => exact .panic _
  | some cwd => exact keeps_harmless (harmless_onFs _)

theorem exit_tf {c : Nat} {t : Trapframe} {k : Kstate} (h : Frame c t k) :
    (exit k).Holds (fun _ => True) (fun _ k' => k'.cur = c ∧ (k'.procs c).tf = t) fun _ _ => True := by
  unfold exit
  rw [holds_bind, holds_fetch, holds_ite]
  refine ⟨fun _ => ?_, fun _ => ?_⟩
  · rw [holds_panic]
    trivial
  · refine h.then (keeps_harmless (harmless_closeFiles _)) fun _ k₁ h₁ => h₁.then (keeps_cwd _) fun _ k₂ h₂ =>
      h₂.then (keeps_setProc _ (fun _ => rfl) fun _ h => h) fun _ k₃ h₃ => h₃.then keeps_reparent fun _ k₄ h₄ => ?_
    unfold setProc
    rw [holds_update]
    refine ⟨h₄.cur, ?_⟩
    rw [h.cur]
    dsimp only
    rw [Function.update_self]
    exact h₄.tf

theorem Frame.thenOwn {α : Type} {c p : Nat} {t : Trapframe} {k : Kstate} {g : Proc → Proc} {f : Unit → KM α}
    {Q : α → Kstate → Prop}
    (h : Frame c t k) (hp : p = c) (t' : Trapframe) (htf : ∀ x, x.tf = t → (g x).tf = t')
      (hst : ∀ x, x.state = .running → (g x).state = .running)
    (hf : ∀ k', Frame c t' k' → (f () k').Holds (fun _ => True) Q fun _ _ => True) :
    ((setProc p g >>= f) k).Holds (fun _ => True) Q fun _ _ => True := by
  subst hp
  unfold setProc
  rw [holds_bind, holds_update]
  apply hf
  have hself := Function.update_self p (g (k.procs p)) k.procs
  exact ⟨h.cur, (congrArg Proc.tf hself).trans (htf _ h.tf), (congrArg Proc.state hself).trans (hst _ h.running)⟩

theorem gives_onMm {α : Type} {m : MmM α} {Q : α → Prop} (h : Gives m Q) : Gives (onMm m) Q := by
  intro k
  unfold onMm
  rw [holds_zoom]
  exact h k.mm

theorem pushArgs_count (cur d sp : Nat) (args : List (List UInt8)) (ustack : List Nat) (hle : ustack.length ≤ MAXARG) :
    Gives (exec.pushArgs cur d args sp ustack) fun r => ∀ x, r = some x → x.2.length = ustack.length + args.length ∧
      x.2.length ≤ MAXARG := by
  induction args generalizing sp ustack with
  | nil =>
      refine gives_pure fun x hx => ?_
      rw [← Option.some.inj hx]
      exact ⟨rfl, hle⟩
  | cons arg rest ih =>
      refine gives_ite (fun _ => gives_pure fun x hx => nomatch hx) fun hlt => .then fun r =>
        gives_ite (fun _ => gives_pure fun x hx => nomatch hx) fun _ => ?_
      intro m
      refine (ih _ _ ?_ m).mono (fun o _ ho x hx => ?_) fun _ _ h => h
      · rw [List.length_append, List.length_singleton]
        omega
      · have hx' := ho x hx
        rw [List.length_append, List.length_singleton] at hx'
        rw [List.length_cons]
        omega

/-- What exec leaves in the first register: the number of strings, or, after some of its
failures, what was there before. -/
structure Executed (c : Nat) (t : Trapframe) (argc : Nat) (ret : Int) (k : Kstate) : Prop where
  cur : k.cur = c
  outcome : ret = 0 ∧ (k.procs c).tf.r 0 = argc ∨
    ret = -1 ∧ ((k.procs c).tf.r 0 = t.r 0 ∨ (k.procs c).tf.r 0 = argc ∧ argc ≤ MAXARG)

theorem executed_bad {c : Nat} {t t' : Trapframe} {k : Kstate} {argc : Nat} (d ip : Option Nat) (h : Frame c t' k)
    (ht : t'.r 0 = t.r 0 ∨ t'.r 0 = argc ∧ argc ≤ MAXARG) :
      (exec.bad d ip k).Holds (fun _ => True) (Executed c t argc) fun _ _ => True := by
  have hret : Gives (exec.bad d ip) fun r => r = -1 := .then fun _ => .then fun _ => gives_pure rfl
  refine ((harmless_exec_bad d ip _ (steady_frame c t') k h).and (hret k)).mono
    (fun r k' hr => ⟨hr.1.cur, .inr ⟨hr.2, ?_⟩⟩) fun _ _ h => trivial
  rw [hr.1.tf]
  exact ht

theorem executed_commit {c : Nat} {t : Trapframe} {k : Kstate} (path : List UInt8) (argv : List (List UInt8))
    (elf : List UInt8) (d sz : Nat)
    (h : Frame c t k) : (exec.commit path argv elf d sz k).Holds (fun _ => True) (Executed c t argv.length) fun _ _ =>
      True := by
  unfold exec.commit
  generalize uint (ALIGNUP sz PTE_SZ + 2 * PTE_SZ) = top
  generalize ALIGNUP sz PTE_SZ = bottom
  refine h.then (keeps_harmless (harmless_onMm _)) fun sz k₁ h₁ => ?_
  generalize (uint (sz + (2 ^ 32 - 2 * PTE_SZ))) = guard
  rw [holds_ite]
  refine ⟨fun _ => executed_bad _ _ h₁ (.inl rfl), fun _ => h₁.then (keeps_harmless (harmless_onMm _)) fun _ k₂ h₂ =>
    ?_⟩
  rw [holds_bind, holds_fetch, holds_bind]
  have hpush := (gives_onMm (pushArgs_count (k₂.procs k₂.cur).pgdir d sz argv [] (Nat.zero_le _)) k₂).and
    (harmless_onMm _ _ (steady_frame c t) k₂ h₂)
  refine hpush.mono (fun r k₃ hr => ?_) fun _ _ _ => trivial
  obtain ⟨hcount, h₃⟩ := hr
  cases r with
  | none => exact executed_bad _ _ h₃ (.inl rfl)
  | some x =>
      obtain ⟨sp, ustack⟩ := x
      obtain ⟨hlen, hmax⟩ := hcount _ rfl
      have hargc : ustack.length = argv.length := hlen.trans (Nat.zero_add _)
      dsimp only at hmax ⊢
      generalize uint (sp + (2 ^ 32 - (ustack.length + 1) * 4)) = sp'
      -- from here on the registers are those of the new program
      refine h₃.thenOwn h₂.cur { t with r := Function.update (Function.update t.r 0 ustack.length) 1 sp' }
        (fun x hx => ?_) (fun _ h => h)
        fun k₄ h₄ => h₄.then (keeps_harmless (harmless_onMm _)) fun r k₅ h₅ => ?_
      · rw [← hx]
      rw [holds_ite]
      refine ⟨fun _ => executed_bad _ _ h₅ (.inr ⟨hargc, hargc ▸ hmax⟩), fun _ => ?_⟩
      refine h₅.thenOwn h₂.cur ⟨Function.update (Function.update t.r 0 ustack.length) 1 sp', sp', field elf 24 4⟩
        (fun x hx => ?_) (fun _ h => h)
        fun k₆ h₆ => h₆.then (keeps_harmless harmless_switchuvm) fun _ k₇ h₇ =>
          h₇.then (keeps_harmless (harmless_onMm _)) fun _ k₈ h₈ => ?_
      · dsimp only
        rw [hx]
      rw [holds_pure]
      refine ⟨h₈.cur, .inl ⟨rfl, ?_⟩⟩
      rw [h₈.tf]
      exact hargc

theorem executed_exec {c : Nat} {t : Trapframe} {k : Kstate} (path : List UInt8) (argv : List (List UInt8))
    (elf ph : List UInt8)
    (h : Frame c t k) : (exec path argv elf ph k).Holds (fun _ => True) (Executed c t argv.length) fun _ _ => True := by
  unfold exec
  refine h.then (keeps_harmless harmless_proc) fun p k₁ h₁ =>
    h₁.then (keeps_harmless (harmless_onFs _)) fun found k₂ h₂ => ?_
  cases found with
  | none =>
      rw [holds_pure]
      refine ⟨h₂.cur, .inr ⟨rfl, .inl ?_⟩⟩
      rw [h₂.tf]
  | some ip =>
      refine h₂.then (keeps_harmless (harmless_onFs _)) fun _ k₃ h₃ =>
        h₃.then (keeps_harmless (harmless_onFs _)) fun r k₄ h₄ => ?_
      rw [holds_ite]
      refine ⟨fun _ => executed_bad _ _ h₄ (.inl rfl), fun _ => ?_⟩
      rw [holds_ite]
      refine ⟨fun _ => executed_bad _ _ h₄ (.inl rfl), fun _ =>
        h₄.then (keeps_harmless (harmless_onMm _)) fun d k₅ h₅ => ?_⟩
      cases d with
      | none => exact executed_bad _ _ h₅ (.inl rfl)
      | some d =>
          refine h₅.then (keeps_harmless (harmless_segments _ _ _ _ _ _)) fun sz k₆ h₆ => ?_
          cases sz with
          | none => exact executed_bad _ _ h₆ (.inl rfl)
          | some sz =>
              exact h₆.then (keeps_harmless (harmless_onFs _)) fun _ k₇ h₇ => executed_commit path argv _ d sz h₇

theorem keeps_argint (n : Nat) : Keeps (argint n) :=
  .ite (.panic _) (.bind (keeps_harmless harmless_proc) fun _ => .pure _)

theorem keeps_fetchint (addr : Nat) : Keeps (fetchint addr) :=
  .bind (keeps_harmless harmless_proc) fun _ =>
    .ite (.pure _) (.bind (keeps_harmless (harmless_onMm _)) fun _ => .pure _)

theorem keeps_fetchstr (addr : Nat) : Keeps (fetchstr addr) := .bind (keeps_harmless harmless_proc) fun _ =>
    .ite (.pure _) (keeps_harmless (harmless_onMm _))

theorem keeps_argptr (n : Nat) (size : Int) : Keeps (argptr n size) :=
  .bind (keeps_argint n) fun _ => .bind (keeps_harmless harmless_proc) fun _ => .ite (.pure _) (.pure _)

theorem keeps_argpath (n : Nat) : Keeps (argpath n) := by
  unfold argpath argstr
  refine .bind (.bind (keeps_argint n) fun addr => .bind (keeps_fetchstr _) fun len => ?_) fun s => ?_
  · cases len with
    | none => exact .pure _
    | some len => exact .pure _
  · cases s with
    | none => exact .pure _
    | some s =>
        exact .bind (keeps_harmless harmless_proc) fun _ => .bind (keeps_harmless (harmless_onMm _)) fun _ => .pure _

theorem keeps_withPath {f : List UInt8 → KM Int} (hf : ∀ path, Keeps (f path)) : Keeps (withPath f) := by
  unfold withPath
  refine .bind (keeps_argpath 0) fun path => ?_
  cases path with
  | none => exact .pure _
  | some path => exact hf path

theorem keeps_argfile : Keeps argfile := by
  unfold argfile
  refine .bind (keeps_argint 0) fun fd => .bind .fetch fun k => ?_
  cases argfd k fd with
  | none => exact .pure _
  | some f => exact .pure _

theorem keeps_withBuffer {size : KM Int} {f : Int → Nat → Int → KM Int} (hs : Keeps size)
    (hf : ∀ fd p n, Keeps (f fd p n)) :
    Keeps (withBuffer size f) := by
  unfold withBuffer
  refine .bind keeps_argfile fun fd => ?_
  cases fd with
  | none => exact .pure _
  | some fd =>
      refine .bind hs fun n => .bind (keeps_argptr 1 n) fun p => ?_
      cases p with
      | none => exact .pure _
      | some p => exact hf fd p n

theorem keeps_fetchArgv (uargv fuel i : Nat) : Keeps (fetchArgv uargv fuel i) := by
  induction fuel generalizing i with
  | zero => exact .pure _
  | succ fuel ih =>
      unfold fetchArgv
      refine .bind (keeps_fetchint _) fun w => ?_
      cases w with
      | none => exact .pure _
      | some uarg =>
          refine .ite (.pure _) (.bind (keeps_fetchstr _) fun len => ?_)
          cases len with
          | none => exact .pure _
          | some len =>
              refine .bind (keeps_harmless harmless_proc) fun _ => .bind (keeps_harmless (harmless_onMm _)) fun _ =>
                .bind (ih _) fun rest => ?_
              cases rest with
              | none => exact .pure _
              | some rest => exact .pure _

theorem keeps_execArgs : Keeps execArgs := by
  unfold execArgs
  refine .bind (keeps_argpath 0) fun path => ?_
  cases path with
  | none => exact .pure _
  | some path =>
      refine .bind (keeps_argint 1) fun uargv => .bind (keeps_fetchArgv _ _ _) fun argv => ?_
      cases argv with
      | none => exact .pure _
      | some argv => exact .pure _

theorem keeps_run (call : Call) (hexit : call ≠ .exit) (hexec : ∀ path argv elf ph, call ≠ .exec path argv elf ph) :
    Keeps (run call) := by
  cases call with
  | fork => exact keeps_fork
  | exit => exact absurd rfl hexit
  | wait => exact keeps_wait
  | pipe addr => exact keeps_harmless (harmless_sysPipe addr)
  | read fd addr n =>
      refine .bind .fetch fun k => ?_
      cases argfd k fd with
      | none => exact .pure _
      | some f =>
          exact .bind (keeps_harmless (harmless_fileread f n)) fun _ =>
            .bind (keeps_harmless (harmless_onMm _)) fun _ => .pure _
  | kill pid => exact keeps_kill pid
  | exec path argv elf ph => exact absurd rfl (hexec path argv elf ph)
  | fstat fd addr =>
      refine .bind .fetch fun k => ?_
      cases argfd k fd with
      | none => exact .pure _
      | some f =>
          refine .bind (keeps_harmless (harmless_filestat f)) fun st => ?_
          cases st with
          | none => exact .pure _
          | some st => exact .bind (keeps_harmless (harmless_onMm _)) fun _ => .pure _
  | chdir path => exact keeps_harmless (harmless_sysChdir path)
  | dup fd => exact keeps_harmless (harmless_sysDup fd)
  | getpid => exact .bind (keeps_harmless harmless_proc) fun _ => .pure _
  | sbrk n => exact .bind .fetch fun _ => .bind (keeps_harmless (harmless_growproc n)) fun _ => .ite (.pure _) (.pure _)
  | «open» path omode => exact keeps_harmless (harmless_sysOpen path omode)
  | write fd src n =>
      refine .bind .fetch fun k => ?_
      cases argfd k fd with
      | none => exact .pure _
      | some f => exact keeps_harmless (harmless_filewrite f src n)
  | mknod path major minor => exact .bind (keeps_harmless harmless_proc) fun _ => keeps_harmless (harmless_onFs _)
  | unlink path => exact .bind (keeps_harmless harmless_proc) fun _ => keeps_harmless (harmless_onFs _)
  | link old new => exact .bind (keeps_harmless harmless_proc) fun _ => keeps_harmless (harmless_onFs _)
  | mkdir path => exact .bind (keeps_harmless harmless_proc) fun _ => keeps_harmless (harmless_onFs _)
  | close fd => exact keeps_harmless (harmless_sysClose fd)

theorem keeps_refused : Keeps refused := .bind (keeps_harmless (harmless_onFs _)) fun _ => .pure _

theorem keeps_sysSleep (ticks : List Nat) : Keeps (sysSleep ticks) := by
  refine .bind (keeps_argint 0) fun n => ?_
  generalize ticks.headD 0 = ticks0
  induction ticks with
  | nil => exact .sleep
  | cons now rest ih => exact .ite (.bind (keeps_harmless harmless_proc) fun _ => .ite (.pure _) ih) (.pure _)

/-- Every handler but that of exec leaves the trap frame of its caller alone. -/
theorem handler_tf {e : Machine} {n c : Nat} {t : Trapframe} {k : Kstate} {h : KM Int} (hh : handler e n = some h)
    (hn : n ≠ SYS_exec)
    (hf : Frame c t k) : (h k).Holds (fun _ => True) (fun _ k' => k'.cur = c ∧ (k'.procs c).tf = t) fun _ _ =>
      True := by
  have hkeeps : Keeps h → (h k).Holds (fun _ => True) (fun _ k' => k'.cur = c ∧ (k'.procs c).tf = t) fun _ _ => True :=
    fun hk => (hk c t k hf).mono (fun _ _ h' => ⟨h'.cur, h'.tf⟩) fun _ _ h' => h'
  unfold handler at hh
  split at hh
  case h_2 =>
    cases hh
    unfold run
    rw [holds_bind]
    refine (exit_tf hf).mono (fun _ k' h' => ?_) fun _ _ h' => h'
    rw [holds_pure]
    exact h'
  case h_7 => exact absurd rfl hn
  case h_22 => cases hh
  all_goals
    cases hh
    apply hkeeps
  case h_1 => exact keeps_run _ nofun nofun
  case h_3 => exact keeps_run _ nofun nofun
  case h_4 =>
    refine .bind (keeps_argptr 0 8) fun p => ?_
    cases p with
    | none => exact .pure _
    | some p => exact keeps_run _ nofun nofun
  case h_5 => exact keeps_withBuffer (keeps_argint 2) fun _ _ _ => keeps_run _ nofun nofun
  case h_6 => exact .bind (keeps_argint 0) fun _ => keeps_run _ nofun nofun
  case h_8 => exact keeps_withBuffer (.pure _) fun _ _ _ => keeps_run _ nofun nofun
  case h_9 => exact keeps_withPath fun _ => keeps_run _ nofun nofun
  case h_10 => exact .bind (keeps_argint 0) fun _ => keeps_run _ nofun nofun
  case h_11 => exact keeps_run _ nofun nofun
  case h_12 => exact .bind (keeps_argint 0) fun _ => keeps_run _ nofun nofun
  case h_13 => exact keeps_sysSleep _
  case h_14 => exact .pure _
  case h_15 => exact keeps_withPath fun _ => .bind (keeps_argint 1) fun _ => keeps_run _ nofun nofun
  case h_16 => exact keeps_withBuffer (keeps_argint 2) fun _ _ _ => .bind .fetch fun _ => keeps_run _ nofun nofun
  case h_17 =>
    refine .bind (keeps_argpath 0) fun path => ?_
    cases path with
    | none => exact keeps_refused
    | some path => exact .bind (keeps_argint 1) fun _ => .bind (keeps_argint 2) fun _ => keeps_run _ nofun nofun
  case h_18 => exact keeps_withPath fun _ => keeps_run _ nofun nofun
  case h_19 =>
    refine keeps_withPath fun old => .bind (keeps_argpath 1) fun new => ?_
    cases new with
    | none => exact .pure _
    | some new => exact keeps_run _ nofun nofun
  case h_20 =>
    refine .bind (keeps_argpath 0) fun path => ?_
    cases path with
    | none => exact keeps_refused
    | some path => exact keeps_run _ nofun nofun
  case h_21 => exact .bind (keeps_argint 0) fun _ => keeps_run _ nofun nofun

/-- The call number, as the 32 bits in the register. -/
def number (k : Kstate) : Nat := (k.procs k.cur).tf.r 0

/-- The trap frame with another value in its first register. -/
def Trapframe.withFirst (t : Trapframe) (v : Nat) : Trapframe := { t with r := Function.update t.r 0 v }

def withResult (k : Kstate) (v : Nat) : Kstate :=
  { k with
    procs := Function.update k.procs k.cur { k.procs k.cur with tf := Trapframe.withFirst (k.procs k.cur).tf v } }

/-- What a call whose handler came back with ret, in state k₁, means for its caller: the first
register holds the result, or the number of strings for a new program; without a new
program the other registers are those before the call. -/
structure Returned (k : Kstate) (ret : Int) (k₁ k₂ : Kstate) : Prop where
  same : k₂.cur = k.cur
  rest : ∃ v, k₂ = withResult k₁ v
  program : number k = SYS_exec → ret = 0 → ∃ path argv k' u, execArgs k = .ok (some (path, argv)) k' u ∧
    (k₂.procs k.cur).tf.r 0 = argv.length
  result : ¬(number k = SYS_exec ∧ ret = 0) → (k₂.procs k.cur).tf = Trapframe.withFirst (k.procs k.cur).tf (bits ret)

/-- The dispatcher looks at nothing behind its table, calls the handler that the number
names, and answers other numbers with -1. -/
structure Dispatched (e : Machine) (k : Kstate) : Prop where
  inside : ∀ beyond beyond', syscall (syscalls e beyond) k = syscall (syscalls e beyond') k
  known : 1 ≤ number k → number k ≤ SYS_close → ∃ h, handler e (number k) = some h ∧ ∀ beyond ret k₁ u,
    h k = .ok ret k₁ u →
    ∃ k₂, syscall (syscalls e beyond) k = .ok () k₂ u ∧ Returned k ret k₁ k₂
  unknown : ¬(1 ≤ number k ∧ number k ≤ SYS_close) → ∀ beyond,
    syscall (syscalls e beyond) k = .ok () (withResult k (bits (-1))) []

/-- The exec that the process asks for would fail. -/
def ExecFails (e : Machine) (k : Kstate) : Prop := ∃ k₁ u, sysExec e k = .ok (-1) k₁ u

theorem handler_known (e : Machine) {n : Nat} (h1 : 1 ≤ n) (h2 : n ≤ SYS_close) : ∃ h, handler e n = some h := by
  have hlt : n < 22 := Nat.lt_succ_of_le h2
  interval_cases n <;> exact ⟨_, rfl⟩

theorem sint_small {n : Nat} (h : n ≤ NELEM) : sint n = n := by
  have hn : n < 2 ^ 31 := Nat.lt_of_le_of_lt h (by decide)
  exact if_pos hn

theorem withResult_self (k : Kstate) : withResult k ((k.procs k.cur).tf.r 0) = k := by
  unfold withResult Trapframe.withFirst
  rw [Function.update_eq_self, Function.update_eq_self]

theorem withResult_tf {k : Kstate} {c : Nat} (hc : k.cur = c) (v : Nat) :
    ((withResult k v).procs c).tf = Trapframe.withFirst (k.procs c).tf v := by
  subst hc
  have hself := Function.update_self k.cur { k.procs k.cur with tf := Trapframe.withFirst (k.procs k.cur).tf v } k.procs
  exact congrArg Proc.tf hself

theorem setResult_run (ret : Int) (k : Kstate) : setResult ret k = .ok () (withResult k (bits ret)) [] := rfl

theorem syscall_eq (table : Nat → Option (KM Int)) (k : Kstate) :
    syscall table k = (if 0 < sint (number k) ∧ (sint (number k)).toNat ≤ NELEM then
      match table (sint (number k)).toNat with
      | some h => do
          let ret ← h
          if sint (number k) ≠ SYS_exec then setResult ret else pure ()
      | none => setResult (-1)
    else setResult (-1)) k := by
  have hp : proc k = .ok (k.procs k.cur) k [] := rfl
  unfold syscall
  rw [bind_apply, hp]
  exact after_nil _

theorem syscall_small {table : Nat → Option (KM Int)} {k : Kstate} (h1 : 1 ≤ number k) (h2 : number k ≤ NELEM) :
    syscall table k = (match table (number k) with
      | some h => do
          let ret ← h
          if number k ≠ SYS_exec then setResult ret else pure ()
      | none => setResult (-1)) k := by
  rw [syscall_eq, sint_small h2, Int.toNat_natCast, if_pos ⟨by omega, h2⟩]
  have hiff : ((number k : Int) ≠ (SYS_exec : Nat)) ↔ number k ≠ SYS_exec := by omega
  cases table (number k) with
  | none => rfl
  | some h => simp only [hiff]

theorem syscall_large {table : Nat → Option (KM Int)} {k : Kstate} (h32 : number k < 2 ^ 32) (h : number k = 0 ∨
    NELEM < number k) :
    syscall table k = .ok () (withResult k (bits (-1))) [] := by
  have hneg : ¬(0 < sint (number k) ∧ (sint (number k)).toNat ≤ NELEM) := by
    unfold sint
    split
    · omega
    · omega
  rw [syscall_eq, if_neg hneg, setResult_run]

theorem syscall_handled {e : Machine} {k k₁ : Kstate} {h : KM Int} {ret : Int} {u : List Event}
    (beyond : Nat → Option (KM Int))
    (h1 : 1 ≤ number k) (h2 : number k ≤ SYS_close) (hh : handler e (number k) = some h) (hr : h k = .ok ret k₁ u) :
    syscall (syscalls e beyond) k = .ok () (if number k ≠ SYS_exec then withResult k₁ (bits ret) else k₁) u := by
  have hlt : number k < NELEM := Nat.lt_succ_of_le h2
  have htab : syscalls e beyond (number k) = some h := (if_pos hlt).trans hh
  rw [syscall_small h1 (Nat.le_of_lt hlt), htab]
  refine bind_ok_of_eq hr ?_ (List.append_nil u)
  by_cases hx : number k ≠ SYS_exec
  · rw [if_pos hx, if_pos hx, setResult_run]
  · rw [if_neg hx, if_neg hx]
    rfl

/-- A failed exec does not answer -1: the register keeps the call number, or holds the number
of strings. -/
theorem sysExec_result (e : Machine) {c : Nat} {t : Trapframe} {k : Kstate} (hf : Frame c t k) :
    (sysExec e k).Holds (fun _ => True) (fun ret k' => ∃ argc, Executed c t argc ret k' ∧
      (ret = 0 → ∃ path argv k₁ u, execArgs k = .ok (some (path, argv)) k₁ u ∧ argc = argv.length)) fun _ _ =>
        True := by
  unfold sysExec
  rw [holds_bind]
  have hkeep := keeps_execArgs c t k hf
  cases hrun : execArgs k with
  | stop w k₁ u => exact fun _ => trivial
  | ok a k₁ u =>
      intro _
      rw [hrun] at hkeep
      have hf₁ : Frame c t k₁ := hkeep fun _ _ => trivial
      cases a with
      | none =>
          rw [holds_pure]
          refine ⟨0, ⟨hf₁.cur, .inr ⟨rfl, .inl ?_⟩⟩, fun h => absurd h (by decide)⟩
          rw [hf₁.tf]
      | some x =>
          obtain ⟨path, argv⟩ := x
          refine (executed_exec path argv e.elf0 e.ph0 hf₁).mono (fun ret k' h' =>
            ⟨argv.length, h', fun _ => ?_⟩) fun _ _ h => h
          exact ⟨path, argv, k₁, u, rfl, rfl⟩

theorem frame_self {k : Kstate} (hrun : (k.procs k.cur).state = .running) : Frame k.cur (k.procs k.cur).tf k :=
  ⟨rfl, rfl, hrun⟩

theorem returned_other {e : Machine} {k k₁ : Kstate} {h : KM Int} {ret : Int} {u : List Event}
    (hrun : (k.procs k.cur).state = .running)
    (hh : handler e (number k) = some h) (hne : number k ≠ SYS_exec) (hr : h k = .ok ret k₁ u) :
      Returned k ret k₁ (withResult k₁ (bits ret)) := by
  obtain ⟨hcur, htf⟩ := (handler_tf hh hne (frame_self hrun)).ok hr
  refine ⟨hcur, ⟨_, rfl⟩, fun hx => absurd hx hne, fun _ => ?_⟩
  rw [withResult_tf hcur, htf]

theorem returned_exec {e : Machine} {k k₁ : Kstate} {u : List Event} {ret : Int}
    (hrun : (k.procs k.cur).state = .running)
    (hnum : number k = SYS_exec) (hr : sysExec e k = .ok ret k₁ u) (hok : ret ≠ -1) : Returned k ret k₁ k₁ := by
  obtain ⟨argc, hx, hargs⟩ := (sysExec_result e (frame_self hrun)).ok hr
  obtain ⟨hzero, hargc⟩ : ret = 0 ∧ (k₁.procs k.cur).tf.r 0 = argc := hx.outcome.resolve_right fun h => hok h.1
  refine ⟨hx.cur, ⟨_, (withResult_self k₁).symm⟩, fun _ _ => ?_, fun hne => ?_⟩
  · obtain ⟨path, argv, k', u', hrun', hlen⟩ := hargs hzero
    exact ⟨path, argv, k', u', hrun', hargc.trans hlen⟩
  · exact absurd ⟨hnum, hzero⟩ hne

theorem reads_beyond {e : Machine} {k : Kstate} (hnum : number k = NELEM) : ¬Dispatched e k := by
  intro hd
  have hlook : ∀ beyond, syscall (syscalls e beyond) k = (match beyond NELEM with
      | some h => do
          let ret ← h
          if number k ≠ SYS_exec then setResult ret else pure ()
      | none => setResult (-1)) k := by
    intro beyond
    have htab : syscalls e beyond NELEM = beyond NELEM := if_neg (Nat.lt_irrefl _)
    rw [syscall_small (by rw [hnum]; decide) (Nat.le_of_eq hnum), ← htab, hnum]
  have heq := hd.inside (fun _ => none) fun _ => some (.panic "prefetch abort exception")
  rw [hlook, hlook] at heq
  cases heq

theorem failed_exec_hidden {e : Machine} {k : Kstate} (hrun : (k.procs k.cur).state = .running)
    (hnum : number k = SYS_exec)
    (hfail : ExecFails e k) : ¬Dispatched e k := by
  intro hd
  obtain ⟨k₁, u, hr⟩ := hfail
  have hh : handler e (number k) = some (sysExec e) := by
    rw [hnum]
    rfl
  obtain ⟨h, hh', hcall⟩ := hd.known (by rw [hnum]; decide) (by rw [hnum]; decide)
  obtain rfl : sysExec e = h := Option.some.inj (hh.symm.trans hh')
  obtain ⟨k₂, hsys, hret⟩ := hcall (fun _ => none) _ _ _ hr
  have hsys' := syscall_handled (fun _ => none) (by rw [hnum]; decide) (by rw [hnum]; decide) hh hr
  rw [if_neg (not_not.mpr hnum), hsys] at hsys'
  obtain rfl : k₂ = k₁ := by
    cases hsys'
    rfl
  -- the register holds 7 or a small number of strings
  have hfirst : (k₂.procs k.cur).tf.r 0 = bits (-1) := by
    rw [hret.result fun h => absurd h.2 (by decide)]
    exact Function.update_self 0 (bits (-1)) (k.procs k.cur).tf.r
  obtain ⟨argc, hx, -⟩ := (sysExec_result e (frame_self hrun)).ok hr
  have hbits : bits (-1) = 4294967295 := by decide
  have hold : (k.procs k.cur).tf.r 0 = 7 := hnum
  have hmax : MAXARG = 32 := rfl
  rcases hx.outcome with ⟨h, -⟩ | ⟨-, h | ⟨h, hle⟩⟩
  · exact absurd h (by decide)
  · omega
  · omega

/-- The dispatcher does what the table says exactly for the numbers other than the one just
behind the table, except that the failure of an exec is not passed on. -/
theorem syscall_dispatched_iff (e : Machine) (k : Kstate) (hrun : (k.procs k.cur).state = .running)
    (h32 : number k < 2 ^ 32) :
    Dispatched e k ↔ number k ≠ NELEM ∧ ¬(number k = SYS_exec ∧ ExecFails e k) := by
  refine ⟨fun hd => ⟨fun hnum => reads_beyond hnum hd, fun hx => failed_exec_hidden hrun hx.1 hx.2 hd⟩, ?_⟩
  rintro ⟨hne, hexec⟩
  have hcases : 1 ≤ number k ∧ number k ≤ SYS_close ∨ number k = 0 ∨ NELEM < number k := by
    unfold NELEM at hne ⊢
    omega
  refine ⟨fun beyond beyond' => ?_, fun h1 h2 => ?_, fun hout beyond => ?_⟩
  · rcases hcases with ⟨h1, h2⟩ | hlarge
    · have hlt : number k < NELEM := Nat.lt_succ_of_le h2
      have htab : ∀ b, syscalls e b (number k) = handler e (number k) := fun b => if_pos hlt
      rw [syscall_small h1 (Nat.le_of_lt hlt), syscall_small h1 (Nat.le_of_lt hlt), htab, htab]
    · rw [syscall_large h32 hlarge, syscall_large h32 hlarge]
  · obtain ⟨h, hh⟩ := handler_known e h1 h2
    refine ⟨h, hh, fun beyond ret k₁ u hr => ⟨_, syscall_handled beyond h1 h2 hh hr, ?_⟩⟩
    by_cases hx : number k = SYS_exec
    · obtain rfl : sysExec e = h := by
        rw [hx] at hh
        exact Option.some.inj hh
      rw [if_neg (not_not.mpr hx)]
      refine returned_exec hrun hx hr fun hm => hexec ⟨hx, k₁, u, ?_⟩
      rw [← hm]
      exact hr
    · rw [if_pos hx]
      exact returned_other hrun hh hx hr
  · exact syscall_large h32 (hcases.resolve_left hout)

/-- A process with one page asks for call n; its other registers hold an address that it does
not have. -/
def caller (n : Nat) : Kstate :=
  { Growproc.onePage with
    procs := fun _ => { Growproc.onePage.procs 0 with tf := ⟨fun i => if i = 0 then n else 2 ^ 20, 0, 0⟩ } }

theorem syscall_dispatched_iff_getpid : Dispatched ⟨[], [], []⟩ (caller 11) :=
  (syscall_dispatched_iff ⟨[], [], []⟩ (caller 11) rfl (by decide)).mpr ⟨by decide, fun h => absurd h.1 (by decide)⟩

/-- Number 22 is looked up behind the table, and a process whose exec fails finds the call
number where it looks for the result. -/
theorem wrong_dispatch : ¬Dispatched ⟨[], [], []⟩ (caller NELEM) ∧ ¬Dispatched ⟨[], [], []⟩ (caller SYS_exec) := by
  refine ⟨reads_beyond rfl, failed_exec_hidden rfl rfl ⟨caller SYS_exec, [], rfl⟩⟩

end ArmXv6.Dispatch
