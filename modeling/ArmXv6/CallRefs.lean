import ArmXv6.FileRefs

namespace ArmXv6.CallRefs

open Lib.Exec Lib.Bytes Lib.Count Param Blocks Fs Content Sysfile Vm Kernel Proc Exec Descriptors Syscall
open Quiet InodeRefs MemoryStops FileRefs

/-- The process has the cache entry i as current directory. -/
def DirIs (x : Kernel.Proc) (i : Nat) : Bool := (x.state ≠ .unused ∧ x.state ≠ .zombie) ∧ x.cwd = some i

/-- What a process table entry refers to exists, and free entries refer to nothing. -/
structure ProcOk (x : Kernel.Proc) : Prop where
  slots : ∀ fd < NOFILE, ∀ f, x.ofile fd = some f → f < NFILE
  free : x.state = .unused ∨ x.state = .zombie → ∀ fd < NOFILE, x.ofile fd = none
  cwd : ∀ i, x.cwd = some i → i < NINODE
  idle : x.state = .unused ∨ x.state = .zombie → x.cwd = none
  home : x.state ≠ .unused → x.state ≠ .embryo → x.state ≠ .zombie → x.cwd ≠ none

/-- The references that are not in the tables are those the running call holds. -/
structure Going (t : Prop) (H R L : List Nat) (k : Kstate) : Prop where
  mid : Mid t (holders k) (procUsers k) H R L k
  procs : ∀ p < NPROC, ProcOk (k.procs p)

/-- Between two system calls all references are in a table. -/
abbrev Between (t : Prop) (k : Kstate) : Prop := Going t [] [] [] k

variable {t : Prop} {h h' c c' : Nat → Nat} {H H' R R' L L' : List Nat} {k k' : Kstate} {p f : Nat} {x : Kernel.Proc}
  {ok : Stop → Prop}

theorem Mid.rebase (hm : Mid t h c H R L k) (hh : ∀ g < NFILE, h g + H.count g = h' g + H'.count g)
    (hH : ∀ g ∈ H', g < NFILE) (hc : ∀ i < NINODE, c i + R.count i = c' i + R'.count i)
    (hR : ∀ i ∈ R', i < NINODE) (hL : ∀ i ∈ L, i ∈ R') : Mid t h' c' H' R' L k where
  inodes := by
    refine ⟨fun i hi => ?_, hm.inodes.busy, hL, hR⟩
    have := hm.inodes.ref i hi
    have := hc i hi
    omega
  files g hg := by rw [hm.files g hg, hh g hg]
  held := hH
  closed := hm.closed
  ips := hm.ips
  pipes := hm.pipes

def withProc (k : Kstate) (p : Nat) (x : Kernel.Proc) : Kstate := { k with procs := Function.update k.procs p x }

theorem setProc_apply (p : Nat) (g : Kernel.Proc → Kernel.Proc) (k : Kstate) :
    setProc p g k = .ok () (withProc k p (g (k.procs p))) [] := rfl

theorem holds_setProc {Q : Unit → Kstate → Prop} {E : Stop → Kstate → Prop} (p : Nat)
    (g : Kernel.Proc → Kernel.Proc) (k : Kstate) :
    (setProc p g k).Holds (fun _ => True) Q E ↔ Q () (withProc k p (g (k.procs p))) := by
  unfold setProc
  rw [holds_update]
  rfl

@[simp] theorem procs_withProc (k : Kstate) (p q : Nat) (x : Kernel.Proc) :
    (withProc k p x).procs q = if q = p then x else k.procs q := Function.update_apply ..

theorem holders_withProc (hp : p < NPROC) (x : Kernel.Proc) (f : Nat) :
    holders (withProc k p x) f + slots (k.procs p) f = holders k f + slots x f :=
  sum_range_update hp k.procs x fun y => slots y f

theorem procUsers_withProc (hp : p < NPROC) (x : Kernel.Proc) (i : Nat) :
    procUsers (withProc k p x) i + (if DirIs (k.procs p) i then 1 else 0) =
      procUsers k i + if DirIs x i then 1 else 0 :=
  countP_range_update hp k.procs x fun y => DirIs y i

theorem holders_congr (hp : k'.procs = k.procs) : holders k' = holders k := by
  funext f
  unfold holders
  rw [hp]

theorem procUsers_congr (hp : k'.procs = k.procs) : procUsers k' = procUsers k := by
  funext i
  unfold procUsers
  rw [hp]

theorem Mid.procs (hm : Mid t h c H R L k) : Mid t h c H R L (withProc k p x) := hm.congr rfl rfl rfl rfl hm.inodes

theorem Mid.withProc (hm : Mid t (holders k) (procUsers k) H R L k) (hp : p < NPROC)
    (hs : ∀ g < NFILE, slots (k.procs p) g + H.count g = slots x g + H'.count g) (hH : ∀ g ∈ H', g < NFILE)
    (hi : ∀ i < NINODE, (if DirIs (k.procs p) i then 1 else 0) + R.count i = (if DirIs x i then 1 else 0) + R'.count i)
    (hR : ∀ i ∈ R', i < NINODE) (hL : ∀ i ∈ L, i ∈ R') :
    Mid t (holders (CallRefs.withProc k p x)) (procUsers (CallRefs.withProc k p x)) H' R' L
      (CallRefs.withProc k p x) := by
  refine Mid.rebase (Mid.procs hm) (fun g hg => ?_) hH (fun i hi' => ?_) hR hL
  · have := holders_withProc (k := k) hp x g
    have := hs g hg
    omega
  · have := procUsers_withProc (k := k) hp x i
    have := hi i hi'
    omega

theorem Mid.neutral (hm : Mid t (holders k) (procUsers k) H R L k) (hp : p < NPROC)
    (hs : ∀ g, slots x g = slots (k.procs p) g) (hi : ∀ i, DirIs x i = DirIs (k.procs p) i) :
    Mid t (holders (CallRefs.withProc k p x)) (procUsers (CallRefs.withProc k p x)) H R L (CallRefs.withProc k p x) :=
  Mid.withProc hm hp (fun g _ => by rw [hs]) hm.held (fun i _ => by rw [hi]) hm.inodes.bound hm.inodes.locked

theorem procs_ok_withProc (hb : ∀ q < NPROC, ProcOk (k.procs q)) (hx : ProcOk x) :
    ∀ q < NPROC, ProcOk ((withProc k p x).procs q) := by
  intro q hq
  rw [procs_withProc]
  split
  case isTrue => exact hx
  case isFalse => exact hb q hq

theorem slots_congr {y : Kernel.Proc} (ho : x.ofile = y.ofile) (hs : x.state = .unused ↔ y.state = .unused) (g : Nat) :
    slots x g = slots y g := by
  unfold FileRefs.slots
  simp only [ho, ne_eq, hs]

theorem dirIs_congr {y : Kernel.Proc} (hc : x.cwd = y.cwd)
    (hs : (x.state ≠ .unused ∧ x.state ≠ .zombie) ↔ (y.state ≠ .unused ∧ y.state ≠ .zombie)) (i : Nat) :
    DirIs x i = DirIs y i := by
  unfold DirIs
  simp only [hc, hs]

/-- Files and directory stay as they are, and so does the state. -/
theorem Going.keep (hg : Going t H R L k) (hp : p < NPROC) (ho : x.ofile = (k.procs p).ofile)
    (hc : x.cwd = (k.procs p).cwd) (hs : x.state = (k.procs p).state) : Going t H R L (withProc k p x) := by
  refine ⟨Mid.neutral hg.mid hp (slots_congr ho (by rw [hs])) (dirIs_congr hc (by rw [hs])), ?_⟩
  have h₀ := hg.procs p hp
  refine procs_ok_withProc hg.procs ⟨?_, ?_, ?_, ?_, ?_⟩
  · rw [ho]; exact h₀.slots
  · rw [ho, hs]; exact h₀.free
  · rw [hc]; exact h₀.cwd
  · rw [hc, hs]; exact h₀.idle
  · rw [hc, hs]; exact h₀.home

theorem Going.same (hg : Going t H R L k) (hm : Mid t (holders k) (procUsers k) H' R' L' k') (hs : SameProcs k k') :
    Going t H' R' L' k' := by
  refine ⟨?_, by rw [hs.procs]; exact hg.procs⟩
  rw [holders_congr hs.procs, procUsers_congr hs.procs]
  exact hm

/-- All that keeps a cache entry between system calls. -/
def users (k : Kstate) (i : Nat) : Nat := fileUsers k i + procUsers k i

theorem Going.at (hg : Going t H R L k) : At (users k) R L k.fs := hg.mid.inodes

theorem Going.onFs {α : Type} {m : FsM α} {Q : α → Kstate → Prop} (hg : Going t H R L k)
    (hs : (m k.fs).Holds (fun _ => True) (fun a fs' => ∃ R' L', At (users k) R' L' fs' ∧
      ∀ k', Going t H R' L' k' → SameProcs k k' → Q a k') fun w _ => ok w) :
    (onFs m k).Holds (fun _ => True) Q fun w _ => ok w := by
  refine Mid.onFs hg.mid (hs.mono (fun a fs' h' => ?_) fun _ _ => id)
  obtain ⟨R', L', hat, hq⟩ := h'
  exact ⟨R', L', hat, fun k' hm hp _ _ => hq k' (hg.same hm hp) hp⟩

theorem Going.onFs_refs {α : Type} {m : FsM α} {Q : α → Kstate → Prop} (hg : Going t H R L k)
    (hs : (m k.fs).Holds (fun _ => True) (fun _ fs' => At (users k) R' L' fs') fun w _ => ok w)
    (hq : ∀ a k', Going t H R' L' k' → SameProcs k k' → Q a k') :
    (Kernel.onFs m k).Holds (fun _ => True) Q fun w _ => ok w :=
  hg.onFs (hs.mono (fun a _ hat => ⟨R', L', hat, hq a⟩) fun _ _ => id)

theorem Going.onMm {α : Type} {m : MmM α} {Q : α → Kstate → Prop} (hg : Going t H R L k) (ht : Tame ok m)
    (hq : ∀ a k', Going t H R L k' → SameProcs k k' → Q a k') :
    (Kernel.onMm m k).Holds (fun _ => True) Q fun w _ => ok w :=
  Mid.onMm hg.mid ht fun a k' hm hs _ _ => hq a k' (hg.same hm hs) hs

theorem holders_pos {fd : Nat} (hp : p < NPROC) (hl : (k.procs p).state ≠ .unused) (hfd : fd < NOFILE)
    (hf : (k.procs p).ofile fd = some f) : 0 < holders k f := by
  have h₁ : 0 < slots (k.procs p) f := countP_range_pos hfd (by simp [hl, hf])
  have h₂ : slots (k.procs p) f ≤ holders k f := le_sum_range hp fun q => slots (k.procs q) f
  omega

structure Running (k : Kstate) : Prop where
  cur : k.cur < NPROC
  unused : (k.procs k.cur).state ≠ .unused
  embryo : (k.procs k.cur).state ≠ .embryo
  zombie : (k.procs k.cur).state ≠ .zombie

theorem argfd_eq {fd : Int} (ha : argfd k fd = some f) :
    fd.toNat < NOFILE ∧ (k.procs k.cur).ofile fd.toNat = some f := by
  unfold argfd at ha
  split at ha
  case isTrue => cases ha
  case isFalse hc => exact ⟨by omega, ha⟩

theorem Going.file (hb : Going t H R L k) (hr : Running k) {fd : Nat} (hfd : fd < NOFILE)
    (hf : (k.procs k.cur).ofile fd = some f) : f < NFILE ∧ 0 < holders k f :=
  ⟨(hb.procs _ hr.cur).slots fd hfd f hf, holders_pos hr.cur hr.unused hfd hf⟩

def withFd (x : Kernel.Proc) (fd : Nat) (v : Option Nat) : Kernel.Proc :=
  { x with ofile := Function.update x.ofile fd v }

theorem slots_withFd {fd : Nat} (hfd : fd < NOFILE) (hl : x.state ≠ .unused) (v : Option Nat) (g : Nat) :
    slots (withFd x fd v) g + (if x.ofile fd = some g then 1 else 0) = slots x g + if v = some g then 1 else 0 := by
  have := countP_range_update hfd x.ofile v fun y => decide (x.state ≠ .unused ∧ y = some g)
  simp only [hl, ne_eq, not_false_eq_true, true_and, decide_eq_true_eq] at this
  unfold FileRefs.slots withFd
  simpa [hl] using this

theorem procOk_withFd {fd : Nat} {v : Option Nat} (hx : ProcOk x) (hl : x.state ≠ .unused) (hz : x.state ≠ .zombie)
    (hv : ∀ g, v = some g → g < NFILE) : ProcOk (withFd x fd v) := by
  refine ⟨fun fd' hfd' g hg => ?_, fun e => (e.elim (absurd · hl) (absurd · hz)), hx.cwd, hx.idle, hx.home⟩
  by_cases e : fd' = fd
  · subst e
    exact hv g (by simpa [withFd] using hg)
  · exact hx.slots fd' hfd' g (by simpa [withFd, e] using hg)

theorem fdalloc_cases (f : Nat) (k : Kstate) :
    fdalloc f k = .ok none k [] ∨ ∃ fd < NOFILE, (k.procs k.cur).ofile fd = none ∧
      fdalloc f k = .ok (some fd) (withProc k k.cur (withFd (k.procs k.cur) fd (some f))) [] := by
  cases hs : (List.range NOFILE).find? fun fd => (k.procs k.cur).ofile fd = none with
  | none =>
      refine .inl ?_
      unfold fdalloc
      rw [bind_apply, fetch_apply]
      simp only [hs]
      rfl
  | some fd =>
      refine .inr ⟨fd, List.mem_range.mp (List.mem_of_find?_eq_some hs), by simpa using List.find?_some hs, ?_⟩
      unfold fdalloc
      rw [bind_apply, fetch_apply]
      simp only [hs]
      rfl

theorem sysDup_between (hb : Between t k) (hr : Running k) (fd : Int) :
    (sysDup fd k).Holds (fun _ => True) (fun _ k' => Between t k') fun w _ => ok w := by
  unfold sysDup
  rw [holds_bind, holds_fetch]
  cases ha : argfd k fd with
  | none => dsimp only; rw [holds_pure]; exact hb
  | some f =>
      dsimp only
      obtain ⟨hfd, hf⟩ := argfd_eq ha
      obtain ⟨hlt, hpos⟩ := hb.file hr hfd hf
      rw [holds_bind]
      rcases fdalloc_cases f k with e | ⟨fd', hfd', hnone, e⟩ <;> rw [e] <;> intro _
      · dsimp only; rw [holds_pure]; exact hb
      · dsimp only
        rw [holds_bind]
        refine (filedup_mid (Mid.procs hb.mid) hlt (by simpa using hpos)).mono (fun a k' h' => ?_) fun _ _ => id
        obtain ⟨rfl, hm, hs, -⟩ := h'
        rw [holds_pure]
        have hx := hb.procs k.cur hr.cur
        have hok : ProcOk (withFd (k.procs k.cur) fd' (some a)) :=
          procOk_withFd hx hr.unused hr.zombie (by simpa using hlt)
        have hprocs := procs_ok_withProc (p := k.cur) hb.procs hok
        refine ⟨?_, by rw [hs.procs]; exact hprocs⟩
        rw [holders_congr hs.procs, procUsers_congr hs.procs]
        refine Mid.rebase hm (fun g _ => ?_) (by simp) (fun i _ => ?_) (by simp) (by simp)
        · have h₁ := holders_withProc (k := k) hr.cur (withFd (k.procs k.cur) fd' (some a)) g
          have h₂ := slots_withFd hfd' hr.unused (some a) g
          rw [hnone, if_neg (by simp)] at h₂
          by_cases e : a = g
          · subst e
            simp at h₂ ⊢
            omega
          · simp [e] at h₂ ⊢
            omega
        · have h₁ := procUsers_withProc (k := k) hr.cur (withFd (k.procs k.cur) fd' (some a)) i
          have h₂ : DirIs (withFd (k.procs k.cur) fd' (some a)) i = DirIs (k.procs k.cur) i := rfl
          rw [h₂] at h₁
          simp
          omega

theorem Running.same (hr : Running k) (hs : SameProcs k k') : Running k' :=
  ⟨by rw [hs.cur]; exact hr.cur, by rw [hs.procs, hs.cur]; exact hr.unused,
    by rw [hs.procs, hs.cur]; exact hr.embryo, by rw [hs.procs, hs.cur]; exact hr.zombie⟩

theorem Going.takeFd (hg : Going t H R L k) (hr : Running k) {fd : Nat} (hfd : fd < NOFILE)
    (hf : (k.procs k.cur).ofile fd = some f) :
    Going t (f :: H) R L (withProc k k.cur (withFd (k.procs k.cur) fd none)) := by
  refine ⟨Mid.withProc hg.mid hr.cur (fun g _ => ?_) (held_cons hg.mid (hg.file hr hfd hf).1) (fun _ _ => rfl)
    hg.mid.inodes.bound hg.mid.inodes.locked, ?_⟩
  · have h₂ := slots_withFd hfd hr.unused none g
    rw [hf] at h₂
    by_cases e : f = g
    · subst e
      simp at h₂ ⊢
      omega
    · simp [e] at h₂ ⊢
      omega
  · exact procs_ok_withProc hg.procs (procOk_withFd (hg.procs _ hr.cur) hr.unused hr.zombie (by simp))

theorem Going.store (hg : Going t (f :: H) R L k) (hp : p < NPROC) (hl : (k.procs p).state ≠ .unused)
    (hz : (k.procs p).state ≠ .zombie) {fd : Nat} (hfd : fd < NOFILE) (hf : (k.procs p).ofile fd = none) :
    Going t H R L (withProc k p (withFd (k.procs p) fd (some f))) := by
  have hlt := hg.mid.held f List.mem_cons_self
  refine ⟨Mid.withProc hg.mid hp (fun g _ => ?_) (fun g hg' => hg.mid.held g (List.mem_cons_of_mem _ hg'))
    (fun _ _ => rfl) hg.mid.inodes.bound hg.mid.inodes.locked, ?_⟩
  · have h₂ := slots_withFd hfd hl (some f) g
    rw [hf] at h₂
    by_cases e : f = g
    · subst e
      simp at h₂ ⊢
      omega
    · simp [e] at h₂ ⊢
      omega
  · exact procs_ok_withProc hg.procs (procOk_withFd (hg.procs _ hp) hl hz (by simpa using hlt))

theorem Going.storeFd (hg : Going t (f :: H) R L k) (hr : Running k) {fd : Nat} (hfd : fd < NOFILE)
    (hf : (k.procs k.cur).ofile fd = none) :
    Going t H R L (withProc k k.cur (withFd (k.procs k.cur) fd (some f))) :=
  hg.store hr.cur hr.unused hr.zombie hfd hf

theorem fileclose_going (hok : Below ok) (hg : Going t (f :: H) R L k) :
    (fileclose f k).Holds (fun _ => True) (fun _ k' => Going t H R L k' ∧ SameProcs k k') fun w _ => ok w :=
  (fileclose_mid hok hg.mid).mono (fun _ _ h' => ⟨hg.same h'.1 h'.2, h'.2⟩) fun _ _ => id

theorem sysClose_between (hok : Below ok) (hb : Between t k) (hr : Running k) (fd : Int) :
    (sysClose fd k).Holds (fun _ => True) (fun _ k' => Between t k') fun w _ => ok w := by
  unfold sysClose
  rw [holds_bind, holds_fetch]
  cases ha : argfd k fd with
  | none => dsimp only; rw [holds_pure]; exact hb
  | some f =>
      dsimp only
      obtain ⟨hfd, hf⟩ := argfd_eq ha
      rw [holds_bind, holds_setProc, holds_bind]
      refine (fileclose_going hok (hb.takeFd hr hfd hf)).mono (fun _ k' h' => ?_) fun _ _ => id
      rw [holds_pure]
      exact h'.1

theorem sysOpen_bad_between {ip : Nat} (hok : Below ok) (g : Option Nat) (hg : Going t g.toList [ip] [ip] k) :
    (sysOpen.bad g ip k).Holds (fun _ => True) (fun _ k' => Between t k') fun w _ => ok w := by
  have hput : ∀ k', Going t [] [ip] [ip] k' → ((do
      onFs (iunlockput ip)
      pure (-1) : KM Int) k').Holds (fun _ => True) (fun _ k'' => Between t k'') fun w _ => ok w := by
    intro k' hg'
    rw [holds_bind]
    refine hg'.onFs_refs (iunlockput_refs hok hg'.at (by simp) (by simp)) fun _ k'' hg'' _ => ?_
    rw [holds_pure]
    exact hg''
  unfold sysOpen.bad
  rw [holds_bind]
  cases g with
  | none => dsimp only; rw [holds_pure]; exact hput k hg
  | some f => exact (fileclose_going hok hg).mono (fun _ k' h' => hput k' h'.1) fun _ _ => id

theorem Going.open {x : File} {ip : Nat} (hg : Going t H (ip :: R) L k) (hf : f < NFILE)
    (hpos : 0 < (k.ftable f).ref) (ht : (k.ftable f).type = .none) (hL : ∀ i ∈ L, i ∈ R)
    (hx : x.ref = (k.ftable f).ref) (hxt : x.type = .inode) (hxi : x.ip = ip) :
    Going t H R L (withFile k f x) := by
  have hip := hg.mid.inodes.bound ip List.mem_cons_self
  refine ⟨hg.mid.withFile' rfl ?_ (fun hp => (hg.mid.pipes hp).withFile (.inl ⟨by rw [ht]; simp, by rw [hxt]; simp⟩))
    (by rw [hx]; exact hg.mid.files f hf) (fun _ _ => rfl) hg.mid.held (fun e => by omega)
      (fun _ => by rw [hxi]; exact hip),
    hg.procs⟩
  refine ⟨fun i hi => ?_, hg.mid.inodes.busy, hL, fun i hi => hg.mid.inodes.bound i (List.mem_cons_of_mem _ hi)⟩
  have h₁ := hg.mid.inodes.ref i hi
  have h₂ := fileUsers_withFile (k := k) hf x i
  have h₃ : Keeps (k.ftable f) i = false := by simp [Keeps, ht]
  simp only [h₃, Bool.false_eq_true, if_false, Nat.add_zero] at h₂
  by_cases e : ip = i
  · subst e
    rw [if_pos (by simp [Keeps, hx, hpos, hxt, hxi])] at h₂
    rw [List.count_cons_self] at h₁
    change (k.fs.icache ip).ref = _
    omega
  · rw [if_neg (by simp [Keeps, hxi, e])] at h₂
    rw [List.count_cons_of_ne e] at h₁
    change (k.fs.icache i).ref = _
    omega

theorem sysOpen_install_between {ip : Nat} (hok : Below ok) (hg : Going t [] [ip] [ip] k) (hr : Running k)
    (omode : Nat) :
    (sysOpen.install ip omode k).Holds (fun _ => True) (fun _ k' => Between t k') fun w _ => ok w := by
  unfold sysOpen.install
  rw [holds_bind]
  refine (filealloc_mid hg.mid).mono (fun a k₁ h₁ => ?_) fun _ _ => id
  obtain ⟨hs₁, -, -, h₁⟩ := h₁
  cases a with
  | none => exact sysOpen_bad_between hok none (hg.same h₁ hs₁)
  | some f =>
      obtain ⟨hf, hm₁, ht, -, -⟩ := h₁
      have hg₁ : Going t [f] [ip] [ip] k₁ := hg.same hm₁ hs₁
      dsimp only
      rw [holds_bind]
      rcases fdalloc_cases f k₁ with e | ⟨fd, hfd, hnone, e⟩ <;> rw [e] <;> intro _
      · exact sysOpen_bad_between hok (some f) hg₁
      · have hg₂ := hg₁.storeFd (hr.same hs₁) hfd hnone
        dsimp only
        rw [holds_bind]
        refine Mid.onFs hg₂.mid
          ((iunlock_refs hok hg₂.at (by simp)).mono (fun _ fs' hat => ⟨[ip], [], hat, ?_⟩) fun _ _ => id)
        intro k₃ hm₃ hs₃ hft _
        have hg₃ : Going t [] [ip] [] k₃ := hg₂.same hm₃ hs₃
        unfold setFile
        rw [holds_bind, holds_update, holds_pure]
        refine hg₃.open hf ?_ ?_ (by simp) rfl rfl rfl
        · rw [hft]
          change 0 < (k₁.ftable f).ref
          rw [hm₁.files f hf]
          simp
        · rw [hft]
          exact ht

theorem sysOpen_find_refs {cwd : Nat} {r : Nat → Nat} {fs : Fs} (hok : Below ok) (hcwd : cwd < NINODE)
    (hat : At r [] [] fs) (path : List UInt8) (omode : Nat) :
    (sysOpen.find cwd path omode fs).Holds (fun _ => True)
      (fun a fs' => match a with
        | none => At r [] [] fs'
        | some ip => At r [ip] [ip] fs') fun w _ => ok w := by
  unfold sysOpen.find
  rw [holds_ite]
  refine ⟨fun _ => ?_, fun _ => ?_⟩
  · rw [holds_bind]
    refine (hat.quiet (quiet_beginTrans hok)).mono (fun _ fs₁ h₁ => ?_) fun _ _ => id
    rw [holds_bind]
    refine (create_refs hok hcwd h₁ path T_FILE 0 0).mono (fun a fs₂ h₂ => ?_) fun _ _ => id
    rw [holds_bind]
    cases a with
    | none =>
        refine (h₂.quiet (quiet_commitTrans hok)).mono (fun _ fs₃ h₃ => ?_) fun _ _ => id
        rw [holds_pure]
        exact h₃
    | some ip =>
        refine (h₂.2.quiet (quiet_commitTrans hok)).mono (fun _ fs₃ h₃ => ?_) fun _ _ => id
        rw [holds_pure]
        exact h₃
  · rw [holds_bind]
    refine (namei_refs hok hcwd hat path).mono (fun a fs₁ h₁ => ?_) fun _ _ => id
    cases a with
    | none => dsimp only; rw [holds_pure]; exact h₁
    | some ip =>
        dsimp only at h₁ ⊢
        rw [holds_bind]
        refine (ilock_refs hok h₁.2 List.mem_cons_self).mono (fun _ fs₂ h₂ => ?_) fun _ _ => id
        rw [holds_bind, holds_fetch, holds_ite]
        refine ⟨fun _ => ?_, fun _ => by rw [holds_pure]; exact h₂.2⟩
        rw [holds_bind]
        refine (iunlockput_refs hok h₂.2 h₂.1 (by simp)).mono (fun _ fs₃ h₃ => ?_) fun _ _ => id
        rw [holds_pure]
        exact h₃

theorem Going.cwd (hg : Going t H R L k) (hp : p < NPROC) : (k.procs p).cwd.getD 0 < NINODE := by
  cases hc : (k.procs p).cwd with
  | none => decide
  | some i => exact (hg.procs p hp).cwd i hc

theorem sysOpen_between (hok : Below ok) (hb : Between t k) (hr : Running k) (path : List UInt8) (omode : Nat) :
    (sysOpen path omode k).Holds (fun _ => True) (fun _ k' => Between t k') fun w _ => ok w := by
  unfold sysOpen proc
  rw [holds_bind, holds_bind, holds_fetch, holds_pure, holds_bind]
  refine hb.onFs ((sysOpen_find_refs hok (hb.cwd hr.cur) hb.at path omode).mono (fun a fs₁ h₁ => ?_) fun _ _ => id)
  cases a with
  | none =>
      refine ⟨[], [], h₁, fun k' hg' _ => ?_⟩
      dsimp only
      rw [holds_pure]
      exact hg'
  | some ip => exact ⟨[ip], [ip], h₁, fun k' hg' hs => sysOpen_install_between hok hg' (hr.same hs) omode⟩

theorem Going.withCwd (hg : Going t H R L k) (hp : p < NPROC) (hl : (k.procs p).state ≠ .unused)
    (hz : (k.procs p).state ≠ .zombie) {v : Option Nat}
    (hR : ∀ i < NINODE, (if (k.procs p).cwd = some i then 1 else 0) + R.count i =
      (if v = some i then 1 else 0) + R'.count i)
    (hb : ∀ i ∈ R', i < NINODE) (hv : ∀ i, v = some i → i < NINODE) (hn : v ≠ none)
    (hL : ∀ i ∈ L, i ∈ R') : Going t H R' L (withProc k p { k.procs p with cwd := v }) := by
  refine ⟨Mid.withProc hg.mid hp (fun _ _ => rfl) hg.mid.held (fun i hi => ?_) hb hL, ?_⟩
  · have := hR i hi
    simpa [DirIs, hl, hz] using this
  · have h₀ := hg.procs p hp
    refine procs_ok_withProc hg.procs ⟨h₀.slots, h₀.free, hv, fun e => ?_, fun _ _ _ => hn⟩
    exact (e.elim (absurd · hl) (absurd · hz))

/-- The call takes the directory of a process as its own reference before it changes it. -/
theorem At.owe {r : Nat → Nat} {fs : Fs} {i : Nat} (hat : At r R L fs) (hi : i < NINODE) (hr : 0 < r i) :
    At (fun j => r j - if j = i then 1 else 0) (i :: R) L fs := by
  refine ⟨fun j hj => ?_, hat.busy, fun j hj => List.mem_cons_of_mem _ (hat.locked j hj), fun j hj => ?_⟩
  · have := hat.ref j hj
    by_cases e : j = i
    · subst e
      rw [List.count_cons_self, if_pos rfl]
      omega
    · rw [List.count_cons_of_ne (Ne.symm e), if_neg e]
      omega
  · rcases List.mem_cons.mp hj with rfl | hj
    · exact hi
    · exact hat.bound j hj

theorem procUsers_pos {i : Nat} (hp : p < NPROC) (hl : (k.procs p).state ≠ .unused) (hz : (k.procs p).state ≠ .zombie)
    (hc : (k.procs p).cwd = some i) : 0 < procUsers k i := countP_range_pos hp (by simp [hl, hz, hc])

/-- iput of the directory of the running process, which the process gives up next. -/
theorem iput_cwd {i : Nat} (hok : Below ok) (hg : Going t H R L k) (hr : Running k)
    (hc : (k.procs k.cur).cwd = some i) (v : Option Nat)
    (hR : ∀ j < NINODE, R.count j = (if v = some j then 1 else 0) + R'.count j) (hb : ∀ j ∈ R', j < NINODE)
    (hL : ∀ j ∈ L, j ∈ R') :
    (onFs (iput i) k).Holds (fun _ => True)
      (fun _ k' => SameProcs k k' ∧ ∀ k'', k'' = withProc k' k.cur { k.procs k.cur with cwd := v } →
        Mid t (holders k'') (procUsers k'') H R' L k'') fun w _ => ok w := by
  have hi := (hg.procs _ hr.cur).cwd i hc
  have hpos := procUsers_pos hr.cur hr.unused hr.zombie hc
  unfold Kernel.onFs
  rw [holds_zoom]
  have hat := At.owe hg.at hi (by unfold users; omega)
  refine (iput_refs hok hat hg.at.locked).mono (fun _ fs' h' => ?_) fun _ _ => id
  refine ⟨⟨rfl, rfl, rfl⟩, ?_⟩
  rintro _ rfl
  have hx : ∀ j, procUsers (withProc { k with fs := fs' } k.cur { k.procs k.cur with cwd := v }) j +
      (if j = i then 1 else 0) = procUsers k j + if v = some j then 1 else 0 := by
    intro j
    have := procUsers_withProc (k := { k with fs := fs' }) hr.cur { k.procs k.cur with cwd := v } j
    have e₁ : DirIs ({ k with fs := fs' }.procs k.cur) j = decide (j = i) := by
      simp [DirIs, hr.unused, hr.zombie, hc, eq_comm]
    have e₂ : DirIs { k.procs k.cur with cwd := v } j = decide (v = some j) := by
      simp [DirIs, hr.unused, hr.zombie]
    have e₃ : procUsers { k with fs := fs' } j = procUsers k j := rfl
    rw [e₁, e₂, e₃] at this
    simpa using this
  have hm : Mid t (holders k) (fun j => procUsers k j - if j = i then 1 else 0) H R L { k with fs := fs' } := by
    refine hg.mid.congr rfl rfl rfl rfl ⟨fun j hj => ?_, h'.busy, h'.locked, h'.bound⟩
    have h₁ := h'.ref j hj
    unfold users at h₁
    rw [h₁]
    by_cases e : j = i
    · subst e
      simp only [if_true]
      omega
    · simp only [e, if_false, Nat.sub_zero]
  refine Mid.rebase (Mid.procs hm) (fun g _ => ?_) hg.mid.held (fun j hj => ?_) hb hL
  · have := holders_withProc (k := { k with fs := fs' }) hr.cur { k.procs k.cur with cwd := v } g
    have e₁ : slots { k.procs k.cur with cwd := v } g = slots ({ k with fs := fs' }.procs k.cur) g := rfl
    have e₂ : holders { k with fs := fs' } g = holders k g := rfl
    rw [e₁, e₂] at this
    change holders k g + _ = holders (withProc { k with fs := fs' } k.cur { k.procs k.cur with cwd := v }) g + _
    omega
  · have h₁ := hx j
    have h₂ := hR j hj
    change (procUsers k j - if j = i then 1 else 0) + _ =
      procUsers (withProc { k with fs := fs' } k.cur { k.procs k.cur with cwd := v }) j + _
    by_cases e : j = i
    · subst e
      simp only [if_true] at h₁ ⊢
      omega
    · simp only [e, if_false] at h₁ ⊢
      omega

theorem sysChdir_between (hok : Below ok) (hb : Between t k) (hr : Running k)
    (path : List UInt8) :
    (sysChdir path k).Holds (fun _ => True) (fun _ k' => Between t k') fun w _ => ok w := by
  obtain ⟨i, hc⟩ := Option.ne_none_iff_exists'.mp ((hb.procs _ hr.cur).home hr.unused hr.embryo hr.zombie)
  unfold sysChdir
  rw [holds_bind, holds_fetch]
  simp only [hc, Option.getD_some]
  rw [holds_bind]
  refine hb.onFs ((namei_refs hok ((hb.procs _ hr.cur).cwd i hc) hb.at path).mono (fun a fs₁ h₁ => ?_) fun _ _ => id)
  cases a with
  | none =>
      refine ⟨[], [], h₁, fun k' hg' _ => ?_⟩
      dsimp only
      rw [holds_pure]
      exact hg'
  | some ip =>
      refine ⟨[ip], [], h₁.2, fun k₁ hg₁ hs₁ => ?_⟩
      dsimp only
      rw [holds_bind]
      refine hg₁.onFs_refs ((ilock_refs hok hg₁.at List.mem_cons_self).mono (fun _ _ h' => h'.2) fun _ _ => id)
        fun _ k₂ hg₂ hs₂ => ?_
      rw [holds_bind, holds_fetch, holds_ite]
      refine ⟨fun _ => ?_, fun _ => ?_⟩
      · rw [holds_bind]
        refine hg₂.onFs_refs (iunlockput_refs hok hg₂.at (by simp) (by simp)) fun _ k₃ hg₃ _ => ?_
        rw [holds_pure]
        exact hg₃
      · rw [holds_bind]
        refine hg₂.onFs_refs (iunlock_refs hok hg₂.at (by simp)) fun _ k₃ hg₃ hs₃ => ?_
        have hs : SameProcs k k₃ := (hs₁.trans hs₂).trans hs₃
        rw [holds_bind]
        have hc₃ : (k₃.procs k₃.cur).cwd = some i := by rw [hs.procs, hs.cur]; exact hc
        have hip := hg₃.mid.inodes.bound ip List.mem_cons_self
        have hr₃ := hr.same hs
        have hone : ∀ j < NINODE, [ip].count j = (if some ip = some j then 1 else 0) + [].count j := by
          intro j _
          by_cases e : ip = j
          · subst e; simp
          · simp [e]
        refine (iput_cwd hok hg₃ hr₃ hc₃ (some ip) hone (by simp) (by simp)).mono (fun _ k₄ h₄ => ?_) fun _ _ => id
        obtain ⟨hs₄, hm₄⟩ := h₄
        rw [holds_bind, holds_setProc, holds_pure, ← hs.cur, hs₄.procs]
        have h₀ := hg₃.procs _ hr₃.cur
        refine ⟨hm₄ _ rfl, procs_ok_withProc (by rw [hs₄.procs]; exact hg₃.procs)
          ⟨h₀.slots, h₀.free, fun j e => ?_, fun e => (e.elim (absurd · hr₃.unused) (absurd · hr₃.zombie)),
            fun _ _ _ => by simp⟩⟩
        rw [← Option.some.inj e]
        exact hip

end ArmXv6.CallRefs
