import ArmXv6.FrameFiles

namespace ArmXv6.FrameCalls

open Lib.Exec Lib.Bytes Param Blocks Fs Content Sysfile Vm Kernel Proc Exec Descriptors Syscall AddressSpace
  FrameOwners SpaceCalls
open FrameWorld FrameAside FrameFiles FileRefs CallRefs
open Growproc (pages)

/-- The address space d of a process and the contents of its pages are what they were. -/
structure Untouched (k k' : Kstate) (p d : Nat) : Prop where
  dir : spaces k' p = some d
  size : (k'.procs p).sz = (k.procs p).sz
  views : Views k.mm k'.mm d
  same : ∀ g, g < 65536 → present (entry k.mm d g) = true → Same k.mm k'.mm (PTE_ADDR (entry k.mm d g))

/-- After a call every frame is in one place, and the address spaces of other processes are what
they were before. Only a child that has exited can lose its own. -/
structure Safe (t : Prop) (S : Nat → Prop) (k k' : Kstate) : Prop where
  world : World t S k'
  apart : ∀ p d, p ≠ k.cur → spaces k p = some d →
    spaces k' p = none ∧ (k.procs p).state = .zombie ∧ (k.procs p).parent = some k.cur ∨ Untouched k k' p d

variable {t : Prop} {S : Nat → Prop} {D : Nat → Option Nat} {H H' : List Nat} {k k₁ k' k'' : Kstate}
  {p q f g d s np : Nat} {α : Type}

theorem Safe.of (hw : World t S k') (hl : Leaves (spaces k) k.cur k.mm k'.mm)
    (hp : ∀ p, p ≠ k.cur → spaces k' p = spaces k p ∧ (spaces k p ≠ none → (k'.procs p).sz = (k.procs p).sz)) :
      Safe t S k k' := by
  refine ⟨hw, fun p d hne hd => .inr ?_⟩
  obtain ⟨h₁, h₂⟩ := hp p hne
  exact ⟨h₁.trans hd, h₂ (by rw [hd]; simp), hl.views p d hne hd, hl.same p d hne hd⟩

theorem spaces_congr (h : k'.procs = k.procs) : spaces k' = spaces k := by
  unfold spaces
  rw [h]

theorem Safe.alike (h : World t S k) (ha : Alike k k') : Safe t S k k' := by
  refine .of (World.alike h ha) (by rw [ha.mm]; exact .refl _ _ _) fun p _ => ⟨by rw [ha.spaces], fun _ => ?_⟩
  exact (core_eq (ha.procs p)).2.2.2.2

theorem Safe.aside {m : KM α} (h : World t S k) (hm : Aside m) :
    (m k).Holds NoLeak (fun _ k' => Safe t S k k') fun _ _ => True :=
  (hm k).mono (fun _ _ ha => .alike h ha) fun _ _ => id

theorem Safe.aside_after (h : Safe t S k k₁) (ha : Alike k₁ k') : Safe t S k k' := by
  refine ⟨World.alike h.world ha, fun p d hne hd => (h.apart p d hne hd).imp (fun hg => ?_) fun hu => ?_⟩
  · rw [ha.spaces]
    exact hg
  · refine ⟨?_, ?_, ?_, ?_⟩
    · rw [ha.spaces]
      exact hu.dir
    · rw [(core_eq (ha.procs p)).2.2.2.2]
      exact hu.size
    all_goals rw [ha.mm]
    · exact hu.views
    · exact hu.same

/-- Every frame is where it was, and no address space has changed. -/
structure Restored (k k' : Kstate) : Prop where
  dirs : spaces k' = spaces k
  kept : ∀ o a, keeps k' o a ↔ keeps k o a
  size : ∀ p, (k'.procs p).sz = (k.procs p).sz
  leaves : Leaves (spaces k) NPROC k.mm k'.mm

theorem Restored.alike (ha : Alike k k') : Restored k k' :=
  ⟨ha.spaces, ha.keeps, fun p => (core_eq (ha.procs p)).2.2.2.2, by rw [ha.mm]; exact .refl _ _ _⟩

/-- The call is safe, and if it fails it gives back all that it took. -/
def Undone (t : Prop) (S : Nat → Prop) (k : Kstate) (r : Int) (k' : Kstate) : Prop :=
  Safe t S k k' ∧ (r = -1 → Restored k k')

theorem spaces_core (h : ∀ p, core (k'.procs p) = core (k.procs p)) : spaces k' = spaces k := by
  funext p
  obtain ⟨h₁, h₂, -, h₄, -⟩ := core_eq (h p)
  unfold spaces
  simp only [ne_eq, h₁, h₂, h₄]

theorem Passing.safe (h : Passing t S (spaces k) [] k k') : Safe t S k k' := by
  have hs : spaces k' = spaces k := spaces_core h.procs
  refine .of ?_ (h.leaves k.cur) fun p _ => ⟨by rw [hs], fun _ => (core_eq (h.procs p)).2.2.2.2⟩
  unfold World
  rw [hs]
  exact h.held

/-- Memory code that keeps the pages of one address space and leaves the others alone. -/
theorem held_onMm {m : MmM α} {E : Stop → Mm → Prop} (h : Held t S D H k) (hs : D s = some d)
    (hm : (m k.mm).Holds NoLeak (fun _ m' => Estate S m' D (keeps k) H' ∧ Leaves D s k.mm m' ∧ Views k.mm m' d) E) :
    (onMm m k).Holds NoLeak (fun _ k' => Held t S D H' k' ∧ Leaves D s k.mm k'.mm ∧
      k' = { k with mm := k'.mm }) fun _ _ => True := by
  unfold Kernel.onMm
  rw [holds_zoom]
  refine hm.mono (fun _ m' h' => ⟨Held.views h h'.1 (fun s' d' hd => ?_) rfl, h'.2.1, rfl⟩) fun _ _ _ => trivial
  by_cases hss : s' = s
  · subst hss
    cases hs.symm.trans hd
    exact h'.2.2
  · exact h'.2.1.views s' d' hss hd

theorem Running.space (hr : Running k) : spaces k k.cur = some (k.procs k.cur).pgdir :=
  if_pos ⟨hr.cur, hr.unused, hr.embryo⟩

theorem store_safe {m : MmM Unit} {a : α} (h : World t S k₁) (hl : Leaves (spaces k) k.cur k.mm k₁.mm) (hr : Running k)
    (ha : spaces k₁ = spaces k) (hz : ∀ p, (k₁.procs p).sz = (k.procs p).sz)
    (hm : (m k₁.mm).Holds NoLeak (fun _ m' => Estate S m' (spaces k₁) (keeps k₁) [] ∧
      Leaves (spaces k₁) k.cur k₁.mm m' ∧
      Views k₁.mm m' (k.procs k.cur).pgdir) fun _ _ => True) :
    ((do
      onMm m
      pure a : KM α) k₁).Holds NoLeak (fun _ k' => Safe t S k k') fun _ _ => True := by
  have hs : spaces k₁ k.cur = some (k.procs k.cur).pgdir := by
    rw [ha]
    exact Running.space hr
  rw [holds_bind]
  refine (held_onMm h hs hm).mono ?_ fun _ _ => id
  rintro _ k' ⟨h₁, hl₁, he⟩
  rw [holds_pure]
  have hp : k'.procs = k₁.procs := by rw [he]
  have hsp : spaces k' = spaces k := (spaces_congr hp).trans ha
  rw [ha] at h₁ hl₁
  refine .of ?_ (hl.trans hl₁) fun p _ => ⟨by rw [hsp], fun _ => by rw [hp, hz]⟩
  unfold World
  rw [hsp]
  exact h₁

theorem read_safe (h : World t S k) (hr : Running k) (fd : Int) {addr : Nat} (haddr : addr < 2 ^ 32) (n : Int) :
    (run (.read fd addr n) k).Holds NoLeak (fun _ k' => Safe t S k k') fun _ _ => True := by
  unfold run
  rw [holds_bind, holds_fetch]
  cases argfd k fd with
  | none => dsimp only; rw [holds_pure]; exact .alike h (.refl k)
  | some f =>
      dsimp only
      rw [holds_bind]
      refine (aside_fileread f n k).mono (fun r k₁ ha => ?_) fun _ _ => id
      have h₁ : World t S k₁ := World.alike h ha
      have hs : spaces k₁ k.cur = some (k.procs k.cur).pgdir := by
        rw [ha.spaces]
        exact Running.space hr
      exact store_safe h₁ (by rw [ha.mm]; exact .refl _ _ _) hr ha.spaces (fun p => (core_eq (ha.procs p)).2.2.2.2)
        (storeUser_estate h₁.estate hs haddr r.2)

theorem storeStat_estate {m : Mm} {dirs : Nat → Option Nat} {ω : Type} {kept : ω → Nat → Prop}
    (h : Estate S m dirs kept H) (hs : dirs s = some d)
    {addr : Nat} (haddr : addr < 2 ^ 32) (st : Stat) :
    (storeStat d addr st m).Holds NoLeak (fun _ m' => Estate S m' dirs kept H ∧ Leaves dirs s m m' ∧
      Views m m' d) fun _ _ => True := by
  have hu : ∀ n, uint n < 2 ^ 32 := fun n => Nat.mod_lt _ (by decide)
  unfold storeStat
  rw [holds_bind]
  refine (storeUser_estate h hs (hu _) _).mono ?_ fun _ _ => id
  rintro _ m₁ ⟨h₁, l₁, v₁⟩
  rw [holds_bind]
  refine (storeUser_estate h₁ hs (hu _) _).mono ?_ fun _ _ => id
  rintro _ m₂ ⟨h₂, l₂, v₂⟩
  rw [holds_bind]
  refine (storeUser_estate h₂ hs haddr _).mono ?_ fun _ _ => id
  rintro _ m₃ ⟨h₃, l₃, v₃⟩
  rw [holds_bind]
  refine (storeUser_estate h₃ hs (hu _) _).mono ?_ fun _ _ => id
  rintro _ m₄ ⟨h₄, l₄, v₄⟩
  refine (storeUser_estate h₄ hs (hu _) _).mono ?_ fun _ _ => id
  rintro _ m₅ ⟨h₅, l₅, v₅⟩
  exact ⟨h₅, (((l₁.trans l₂).trans l₃).trans l₄).trans l₅, (((v₁.trans v₂).trans v₃).trans v₄).trans v₅⟩

theorem fstat_safe (h : World t S k) (hr : Running k) (fd : Int) {addr : Nat} (haddr : addr < 2 ^ 32) :
    (run (.fstat fd addr) k).Holds NoLeak (fun _ k' => Safe t S k k') fun _ _ => True := by
  unfold run
  rw [holds_bind, holds_fetch]
  cases argfd k fd with
  | none => dsimp only; rw [holds_pure]; exact .alike h (.refl k)
  | some f =>
      dsimp only
      rw [holds_bind]
      refine (aside_filestat f k).mono (fun st k₁ ha => ?_) fun _ _ => id
      have h₁ : World t S k₁ := World.alike h ha
      cases st with
      | none => dsimp only; rw [holds_pure]; exact .alike h ha
      | some st =>
          have hs : spaces k₁ k.cur = some (k.procs k.cur).pgdir := by
            rw [ha.spaces]
            exact Running.space hr
          exact store_safe h₁ (by rw [ha.mm]; exact .refl _ _ _) hr ha.spaces (fun p => (core_eq (ha.procs p)).2.2.2.2)
            (storeStat_estate h₁.estate hs haddr st)

theorem alike_withProc {x : Kernel.Proc} (hx : core x = core (k.procs p)) : Alike k (withProc k p x) := by
  refine ⟨rfl, rfl, fun _ => Iff.rfl, fun q => ?_, rfl⟩
  rw [procs_withProc]
  split
  case isTrue he => rw [he, hx]
  case isFalse => rfl

theorem close_safe (h : World t S k) (hb : Between True k) (hr : Running k) (fd : Int) :
    (sysClose fd k).Holds NoLeak (fun _ k' => Safe t S k k') fun _ _ => True := by
  unfold sysClose
  rw [holds_bind, holds_fetch]
  cases ha : argfd k fd with
  | none => dsimp only; rw [holds_pure]; exact .alike h (.refl k)
  | some f =>
      obtain ⟨hfd, hf⟩ := argfd_eq ha
      obtain ⟨hlt, -⟩ := hb.file hr hfd hf
      dsimp only
      rw [holds_bind, setProc_apply]
      intro _
      have hF := Filed.between hb
      have h₁ := (Passing.refl h hF).alike (x := withProc k k.cur
        { k.procs k.cur with ofile := Function.update (k.procs k.cur).ofile fd.toNat none })
          (alike_withProc rfl) hF.withProc
      rw [holds_bind]
      refine (fileclose_filing h₁.held h₁.filed hlt).mono (fun _ k₂ h₂ => ?_) fun _ _ => id
      rw [holds_pure]
      exact Passing.safe (h₁.filing h₂)

theorem pipe_safe (h : World t S k) (hb : Between True k) (hr : Running k) {addr : Nat} (haddr : addr < 2 ^ 32) :
    (sysPipe addr k).Holds NoLeak (fun _ k' => Safe t S k k') fun _ _ => True := by
  have hF := Filed.between hb
  unfold sysPipe
  rw [holds_bind, holds_fetch, holds_bind]
  refine (pipealloc_filing h hF).mono ?_ fun _ _ => id
  rintro a k₁ ⟨h₁, hx⟩
  have hp₁ := (Passing.refl h hF).filing h₁
  cases a with
  | none => dsimp only; rw [holds_pure]; exact Passing.safe hp₁
  | some x =>
      obtain ⟨rf, wf⟩ := x
      obtain ⟨h0, h1⟩ := hx _ rfl
      dsimp only
      rw [holds_bind]
      rcases fdalloc_cases rf k₁ with e | ⟨fd0, hfd0, hnone0, e⟩ <;> refine holds_ok e ?_
      · exact (fileclose_two (-1) hp₁.held hp₁.filed h0 h1).mono
          (fun _ _ h' => Passing.safe (hp₁.filing h'.1)) fun _ _ => id
      · have hp₂ := hp₁.alike (x := withProc k₁ k₁.cur (withFd (k₁.procs k₁.cur) fd0 (some rf))) (alike_withProc rfl)
          hp₁.filed.withProc
        dsimp only
        rw [holds_bind]
        rcases fdalloc_cases wf (withProc k₁ k₁.cur (withFd (k₁.procs k₁.cur) fd0 (some rf)))
          with e | ⟨fd1, hfd1, hnone1, e⟩ <;> refine holds_ok e ?_
        · dsimp only
          rw [holds_bind, setProc_apply]
          intro _
          have hp₃ := hp₂.alike (x := withProc (withProc k₁ k₁.cur (withFd (k₁.procs k₁.cur) fd0 (some rf))) k.cur
            (withFd ((withProc k₁ k₁.cur (withFd (k₁.procs k₁.cur) fd0 (some rf))).procs k.cur) fd0 none))
              (alike_withProc rfl)
            hp₂.filed.withProc
          exact (fileclose_two (-1) hp₃.held hp₃.filed h0 h1).mono
            (fun _ _ h' => Passing.safe (hp₃.filing h'.1)) fun _ _ => id
        · have hp₃ := hp₂.alike (x := withProc (withProc k₁ k₁.cur (withFd (k₁.procs k₁.cur) fd0 (some rf))) k₁.cur
            (withFd ((withProc k₁ k₁.cur (withFd (k₁.procs k₁.cur) fd0 (some rf))).procs k₁.cur) fd1 (some wf)))
              (alike_withProc rfl)
            hp₂.filed.withProc
          have hsp := spaces_core hp₃.procs
          have hw := (Passing.safe hp₃).world
          have hs : spaces (withProc (withProc k₁ k₁.cur (withFd (k₁.procs k₁.cur) fd0 (some rf))) k₁.cur
              (withFd ((withProc k₁ k₁.cur (withFd (k₁.procs k₁.cur) fd0 (some rf))).procs k₁.cur) fd1 (some wf)))
                k.cur =
              some (k.procs k.cur).pgdir := by
            rw [hsp]
            exact Running.space hr
          exact store_safe hw (hp₃.leaves k.cur) hr hsp (fun p => (core_eq (hp₃.procs p)).2.2.2.2)
            (storeUser_estate hw.estate hs haddr _)

theorem open_bad_safe {ip : Nat} (g : Option Nat) (hp : Passing t S (spaces k) [] k k₁) (hg : ∀ f, g = some f →
    f < NFILE) :
    (sysOpen.bad g ip k₁).Holds NoLeak (fun _ k' => Safe t S k k') fun _ _ => True := by
  unfold sysOpen.bad
  rw [holds_bind]
  refine Run.Holds.mono (Q := fun _ k₂ => Passing t S (spaces k) [] k k₂) ?_ (fun _ k₂ h₂ => ?_) fun _ _ => id
  · cases g with
    | none => dsimp only; rw [holds_pure]; exact hp
    | some f => exact (fileclose_filing hp.held hp.filed (hg f rfl)).mono (fun _ _ h' => hp.filing h') fun _ _ => id
  · rw [holds_bind]
    refine (filing_onFs _ h₂.held h₂.filed).mono (fun _ k₃ h₃ => ?_) fun _ _ => id
    rw [holds_pure]
    exact Passing.safe (h₂.filing h₃)

theorem open_safe (h : World t S k) (hb : Between True k) (path : List UInt8) (omode : Nat) :
    (sysOpen path omode k).Holds NoLeak (fun _ k' => Safe t S k k') fun _ _ => True := by
  have hF := Filed.between hb
  unfold sysOpen proc
  rw [holds_bind, holds_bind, holds_fetch, holds_pure, holds_bind]
  refine (filing_onFs _ h hF).mono (fun a k₁ h₁ => ?_) fun _ _ => id
  have hp₁ := (Passing.refl h hF).filing h₁
  cases a with
  | none => dsimp only; rw [holds_pure]; exact Passing.safe hp₁
  | some ip =>
      dsimp only
      unfold sysOpen.install
      rw [holds_bind]
      refine (filealloc_filing hp₁.held hp₁.filed).mono ?_ fun _ _ => id
      rintro a k₂ ⟨h₂, -, hfile⟩
      have hp₂ := hp₁.filing h₂
      cases a with
      | none => exact open_bad_safe none hp₂ fun _ hc => by cases hc
      | some f =>
          obtain ⟨hf, ht, href, -⟩ := hfile f rfl
          dsimp only
          rw [holds_bind]
          rcases fdalloc_cases f k₂ with e | ⟨fd, hfd, hnone, e⟩ <;> refine holds_ok e ?_
          · exact open_bad_safe (some f) hp₂ fun f' he => by cases he; exact hf
          · have hp₃ :=
              hp₂.alike (x := withProc k₂ k₂.cur (withFd (k₂.procs k₂.cur) fd (some f)))
              (alike_withProc rfl) hp₂.filed.withProc
            dsimp only
            rw [holds_bind]
            unfold Kernel.onFs
            rw [holds_zoom]
            refine (holds_any _).mono (fun _ fs' _ => ?_) fun _ _ => id
            rw [holds_bind, setFile_apply]
            intro _
            rw [holds_pure]
            have hp₄ := hp₃.alike (x := { withProc k₂ k₂.cur (withFd (k₂.procs k₂.cur) fd (some f)) with fs := fs' })
              ⟨rfl, rfl, fun _ => Iff.rfl, fun _ => rfl, rfl⟩ (hp₃.filed.fs fs')
            refine Passing.safe (hp₄.filing (filing_withFile hp₄.held hp₄.filed ?_ ?_ fun hz => absurd hz href))
            · change (k₂.ftable f).type ≠ .pipe
              rw [ht]
              decide
            · simp

end ArmXv6.FrameCalls
