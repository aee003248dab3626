import ArmXv6.FrameExec
import ArmXv6.Duplication

namespace ArmXv6.FrameRuns

open Lib.Exec Lib.Bytes Lib.Frames Lib.Owners Param Blocks Fs Content Sysfile Vm Kernel Proc Exec Descriptors
  Syscall AddressSpace Resize FrameOwners SpaceCalls
open FrameWorld FrameAside FrameFiles FrameCalls FrameProcs FrameExec FileRefs CallRefs References Runs
open Growproc (pages)
open ExecInputs (result)

variable {t : Prop} {S : Nat → Prop} {k k' : Kstate} {p : Nat} {c : Call}

/-- The frames at boot: those on the free list, which are clear, and the stacks of the exception modes. -/
structure Stocked (S : Nat → Prop) (k : Kstate) : Prop where
  frame : ∀ f, S f → Frame k.mm f
  stock : ∀ f, S f ↔ f ∈ k.mm.freelist ∨ f ∈ k.exstacks
  apart : ∀ f, f ∈ k.mm.freelist → f ∉ k.exstacks
  nodup : k.mm.freelist.Nodup
  blank : ∀ f, f ∈ k.mm.freelist → Blank k.mm f

theorem boot_spaces (hb : Booted k) : spaces k = fun _ => none := by
  funext q
  exact if_neg fun hc => hc.2.1 (hb.procs q hc.1).1

theorem Stocked.world (hs : Stocked S k) (hb : Booted k) : World t S k := by
  have hstack : ∀ {q f}, ¬keeps k (.stack q) f := fun hc => hc.2.1 (hb.procs _ hc.1).1
  unfold World
  rw [boot_spaces hb]
  have hkept : ∀ {o f}, has k.mm (fun _ => none) (keeps k) [] o f → (o = .free ∧ f ∈ k.mm.freelist) ∨
      (o = .kept .mode ∧ f ∈ k.exstacks) := by
    intro o f ho
    cases o with
    | free => exact .inl ⟨rfl, ho⟩
    | hand => cases ho
    | kept o =>
        cases o with
        | stack q => exact absurd ho hstack
        | pipe => exact absurd ho (hb.isPipe f)
        | mode => exact .inr ⟨rfl, ho⟩
    | dir s => cases ho
    | table s i | page s i =>
        obtain ⟨d, hd, -⟩ := ho
        cases hd
  refine ⟨⟨hs.frame, fun o o' f ho ho' => ?_, fun f => ?_, hs.nodup, List.nodup_nil, hs.blank,
    fun s d hd => by cases hd⟩,
    fun p d _ hd => by cases hd⟩
  · rcases hkept ho with ⟨rfl, h₁⟩ | ⟨rfl, h₁⟩ <;> rcases hkept ho' with ⟨rfl, h₂⟩ | ⟨rfl, h₂⟩
    · rfl
    · exact absurd h₂ (hs.apart f h₁)
    · exact absurd h₁ (hs.apart f h₂)
    · rfl
  · rw [hs.stock f]
    constructor
    · rintro ⟨o, ho⟩
      exact (hkept ho).imp And.right And.right
    · rintro (h | h)
      · exact ⟨.free, h⟩
      · exact ⟨.kept .mode, h⟩

theorem userinit_safe (h : World t S k) (initcode : List UInt8) :
    (userinit initcode k).Holds NoLeak (fun _ k' => Safe t S k k') fun _ _ => True := by
  unfold userinit
  rw [holds_bind]
  refine (allocproc_world h).mono ?_ fun _ _ => id
  rintro a k₁ h₁
  cases a with
  | none => dsimp only; rw [holds_panic]; trivial
  | some np =>
      obtain ⟨he, hem⟩ := h₁.entered np rfl
      have hnone : spaces k₁ np = none := if_neg fun hc => hc.2.2 hem
      dsimp only
      rw [holds_bind, holds_update, holds_bind]
      unfold setupvm
      cases hl : k₁.mm.freelist with
      | nil =>
          refine holds_onMm (E := fun _ _ => True) (holds_ok (kalloc_nil hl) ?_)
          dsimp only
          rw [holds_panic]
          trivial
      | cons d rest =>
          refine holds_onMm (E := fun _ _ => True) (holds_ok (kalloc_cons hl) ?_)
          dsimp only
          obtain ⟨h₂, hx₂⟩ : _ ∧ Extent t _ d 0 := new_space h₁.world.estate hnone hl
          have hl₂ := fun s => (h₁.leaves s).trans (leaves_freelist k₁.mm rest)
          have hself : Function.update (spaces k₁) np (some d) np = some d := Function.update_self ..
          rw [holds_bind, setProc_apply]
          intro _
          rw [holds_bind]
          refine holds_onMm ((inituvm_estate h₂ hself hx₂ initcode).mono (fun _ m₃ h₃ => ?_) fun _ _ => id)
          obtain ⟨h₃, hleaves₃, hx₃⟩ := h₃
          have hl₃ : ∀ s, Leaves (spaces k) s k.mm m₃ := fun s => (hl₂ s).trans (by
            rw [← h₁.same]
            exact Leaves.any hleaves₃.of_update hnone)
          rw [holds_bind, setProc_apply]
          intro _
          rw [holds_bind]
          refine (Aside.onFs _ _).mono (fun a k₄ ha => ?_) fun _ _ => id
          rw [holds_bind, setProc_apply]
          intro _
          rw [setProc_apply]
          intro _
          have ha := ha.trans (alike_withProc (p := np) (x := { k₄.procs np with cwd := a }) rfl)
          generalize withProc k₄ np _ = k₅ at ha ⊢
          have hmm : k₅.mm = m₃ := ha.mm
          have hcore := ha.procs np
          rw [procs_withProc, if_pos rfl] at hcore
          obtain ⟨-, -, hks, hpg, hz⟩ := core_eq hcore
          refine he.child_safe hem h (d := d) (n := PTE_SZ) ?_ (fun s => ?_) ?_ (by decide) (fun q hq => ?_)
            (fun q => ha.pipes q) ha.modes ?_ ?_
          · exact hmm ▸ h₃
          · exact hmm ▸ hl₃ s
          · exact hmm ▸ hx₃
          · rw [procs_withProc, if_neg hq, ha.procs q, procs_withProc, if_neg hq]
            exact congrArg core (((procs_withProc _ np q _).trans (if_neg hq)).trans (he.procs q hq))
          · rw [procs_withProc, if_pos rfl]
          · rw [procs_withProc, if_pos rfl]
            refine ⟨hpg.trans ?_, hz, hks.trans ?_⟩
            all_goals
              dsimp only
              rw [procs_withProc, if_pos rfl]

/-- User addresses are words. Where t holds, no process asks for a size of zero, which gives back
its pages but not its size. -/
def Sane (t : Prop) (k : Kstate) : Call → Prop
  | .pipe addr | .read _ addr _ | .fstat _ addr => addr < 2 ^ 32
  | .sbrk n => t → uint ((k.procs k.cur).sz + bits n) ≠ 0
  | _ => True

theorem onFs_safe (h : World t S k) (m : Nat → FsM Int) :
    ((do
      let p ← proc
      onFs (m (p.cwd.getD 0)) : KM Int) k).Holds NoLeak (fun _ k' => Safe t S k k') fun _ _ => True :=
  Safe.aside h (.bind aside_proc fun _ => .onFs _)

theorem World.zero (h : World t S k) : ¬S 0 := fun hs => Nat.lt_irrefl 0 (h.estate.frame 0 hs).pos

theorem call_safe (h : World t S k) (hb : Between True k) (hr : Running k) (c : Call) (hc : Sane t k c) :
    (run c k).Holds NoLeak (fun _ k' => Safe t S k k') fun _ _ => True := by
  have h0 := World.zero h
  cases c with
  | fork => exact (fork_undone h hr).mono (fun _ _ => And.left) fun _ _ => id
  | exit =>
      unfold run
      rw [holds_bind]
      refine (exit_safe h hb hr).mono (fun _ k' h' => ?_) fun _ _ => id
      rw [holds_pure]
      exact h'
  | wait => exact wait_safe h
  | pipe addr => exact pipe_safe h hb hr hc
  | read fd addr n => exact read_safe h hr fd hc n
  | kill pid => exact Safe.aside h (aside_kill pid)
  | exec path argv elf0 ph0 => exact (exec_undone h0 h hr path argv elf0 ph0).mono (fun _ _ => And.left) fun _ _ => id
  | fstat fd addr => exact fstat_safe h hr fd hc
  | chdir path => exact Safe.aside h (aside_sysChdir path)
  | dup fd => exact Safe.aside h (aside_sysDup fd)
  | getpid => exact Safe.aside h (.bind aside_proc fun _ => .pure _)
  | sbrk n => exact sbrk_safe h hr n hc
  | «open» path omode => exact open_safe h hb path omode
  | write fd src n =>
      refine Safe.aside h (.bind .fetch fun k => ?_)
      cases argfd k fd with
      | none => exact .pure _
      | some f => exact aside_filewrite f src n
  | mknod path major minor => exact onFs_safe h fun cwd => sysMknod cwd path major minor
  | unlink path => exact onFs_safe h fun cwd => sysUnlink cwd path
  | link old new => exact onFs_safe h fun cwd => sysLink cwd old new
  | mkdir path => exact onFs_safe h fun cwd => sysMkdir cwd path
  | close fd => exact close_safe h hb hr fd

/-- The states between the calls of a run that leaks no frame and follows no missing page table. -/
inductive Leakless (t : Prop) (S : Nat → Prop) : Kstate → Prop
  | boot {k k' : Kstate} {u : List Event} (initcode : List UInt8) (hb : Booted k) (hs : Stocked S k)
      (hi : userinit initcode k = .ok () k' u) (hu : ∀ e ∈ u, NoLeak e) : Leakless t S k'
  | call {k k' : Kstate} {u : List Event} {r : Int} (p : Nat) (c : Call) (hr : Leakless t S k) (hp : Live k p)
      (hc : Sane t { k with cur := p } c) (he : run c { k with cur := p } = .ok r k' u) (hu : ∀ e ∈ u, NoLeak e) :
        Leakless t S k'

theorem leakless_ok {α : Type} {r : Run Event Kstate α} {Q : α → Kstate → Prop} {E : Stop → Kstate → Prop} {a : α}
    {u : List Event}
    (h : r.Holds NoLeak Q E) (hr : r = .ok a k' u) (hu : ∀ e ∈ u, NoLeak e) : Q a k' := by
  rw [hr] at h
  exact h hu

theorem World.switch (h : World t S k) (p : Nat) : World t S { k with cur := p } := ⟨h.estate, h.sizes⟩

/-- No pipe lies on the free list, so pipealloc takes a frame that holds none. -/
theorem World.clear (h : World t S k) (c : Call) : Clear k c := by
  cases c with
  | pipe addr => exact Held.fresh h
  | _ => trivial

/-- Every frame is in one place, and a pipe is never made in the frame of another one. -/
theorem Leakless.good (h : Leakless t S k) : World t S k ∧ Reachable True k := by
  induction h with
  | boot initcode hb hs hi hu =>
      exact ⟨(leakless_ok (userinit_safe (hs.world hb) initcode) hi hu).world, .boot initcode hb hi⟩
  | call p c _ hp hc he hu ih =>
      obtain ⟨hw, hreach⟩ := ih
      have hw := World.switch hw p
      exact ⟨(leakless_ok (call_safe hw (Between.switch hreach.between p) (Live.running hp) c hc) he hu).world,
        .call p c hreach hp (fun _ => World.clear hw c) he⟩

theorem Leakless.shape (h : Leakless True S k) (hp : Live k p) : Duplication.Shape { k with cur := p } := by
  obtain ⟨hw, -⟩ := h.good
  obtain ⟨hlt, hu, hem, -⟩ := hp
  have hd : spaces k p = some (k.procs p).pgdir := if_pos ⟨hlt, hu, hem⟩
  obtain ⟨hsz, hx⟩ := hw.sizes p _ hlt hd
  have hstack : Frame k.mm (k.procs p).kstack := by
    refine hw.estate.of (o := .kept (.stack p)) ?_
    exact keeps_stack.mpr ⟨hlt, hu, rfl⟩
  refine ⟨⟨hw.estate.space hd, fun g hg => ?_, hsz, Nat.ne_of_gt hstack.pos⟩, fun f hf i hi =>
    hw.estate.blank f hf i ?_⟩
  · exact ⟨hx.inside g hg, hx.filled trivial g⟩
  · have hframe : FRAME = 262144 := rfl
    omega

theorem frame_conservation (h : Leakless t S k) :
    (∀ f, S f → ∃! o, has k.mm (spaces k) (keeps k) [] o f) ∧ (∀ o f, has k.mm (spaces k) (keeps k) [] o f → S f) ∧
      k.mm.freelist.Nodup := by
  obtain ⟨hw, -⟩ := h.good
  refine ⟨fun f hf => ?_, fun o f ho => (hw.estate.stock f).mp ⟨o, ho⟩, hw.estate.nodup⟩
  obtain ⟨o, ho⟩ := (hw.estate.stock f).mpr hf
  exact ⟨o, ho, fun o' ho' => hw.estate.apart o' o f ho' ho⟩

theorem process_pages {d : Nat} (h : Leakless t S k) (hd : spaces k p = some d) :
    (k.procs p).sz < UADDR_SZ ∧ (∀ g < 65536, present (entry k.mm d g) = true → g < pages (k.procs p).sz) ∧
      (t → ∀ g < pages (k.procs p).sz, present (entry k.mm d g) = true) ∧
      ∀ g < 65536, present (entry k.mm d g) = true → ∀ g' < 65536, present (entry k.mm d g') = true →
        PTE_ADDR (entry k.mm d g) = PTE_ADDR (entry k.mm d g') → g = g' := by
  obtain ⟨hw, -⟩ := h.good
  have hp : p < NPROC := by
    by_contra hp
    cases (spaces_none hp).symm.trans hd
  obtain ⟨hsz, hx⟩ := hw.sizes p d hp hd
  refine ⟨hsz, hx.inside, hx.filled, fun g hg hpg g' hg' hpg' he => ?_⟩
  have h₁ : has k.mm (spaces k) (keeps k) [] (.page p g) (PTE_ADDR (entry k.mm d g)) := ⟨d, hd, hg, hpg, rfl⟩
  have h₂ : has k.mm (spaces k) (keeps k) [] (.page p g') (PTE_ADDR (entry k.mm d g)) := ⟨d, hd, hg', hpg', he.symm⟩
  cases hw.estate.apart _ _ _ h₁ h₂
  rfl

theorem process_isolation {u : List Event} {r : Int} {q d : Nat} (h : Leakless t S k) (hp : Live k p)
    (hc : Sane t { k with cur := p } c)
    (he : run c { k with cur := p } = .ok r k' u) (hu : ∀ e ∈ u, NoLeak e) (hq : q ≠ p) (hd : spaces k q = some d) :
    spaces k' q = none ∧ (k.procs q).state = .zombie ∧ (k.procs q).parent = some p ∨ Untouched k k' q d := by
  obtain ⟨hw, hreach⟩ := h.good
  have hs := leakless_ok (call_safe (World.switch hw p) (Between.switch hreach.between p) (Live.running hp) c hc) he hu
  refine (hs.apart q d hq hd).imp (fun hg => hg) fun hun => ?_
  exact ⟨hun.dir, hun.size, hun.views, hun.same⟩

theorem Restored.places (h : World t S k) (h' : World t S k') (hr : Restored k k') (o : Place Keeper) (f : Nat) :
    has k'.mm (spaces k') (keeps k') [] o f ↔ has k.mm (spaces k) (keeps k) [] o f := by
  have hrest : ∀ x : Place Keeper, x ≠ .free → ∀ a,
      has k'.mm (spaces k') (keeps k') [] x a ↔ has k.mm (spaces k) (keeps k) [] x a ∧ ¬False := by
    intro x hx a
    rw [not_false_eq_true, and_true]
    cases hs : x.slot with
    | some s =>
        refine has_slot hs (by rw [hr.dirs]) (fun d hd => hr.leaves.views s d ?_ hd) a
        rintro rfl
        cases (spaces_top k).symm.trans hd
    | none =>
        cases x with
        | free => exact absurd rfl hx
        | hand => exact Iff.rfl
        | kept o => exact hr.kept o a
        | dir | table | page => cases hs
  by_cases ho : o = .free
  · subst ho
    have hall : ∀ a, (∃ x, has k'.mm (spaces k') (keeps k') [] x a) ↔ ∃ x, has k.mm (spaces k) (keeps k) [] x a :=
      fun a => (h'.estate.stock a).trans (h.estate.stock a).symm
    refine (apart_rest (P := fun _ => False) h.estate.apart h'.estate.apart hall hrest).trans (or_iff_left ?_)
    rintro ⟨x, hc, -⟩
    exact hc
  · exact (hrest o ho f).trans (and_iff_left not_false)

/-- The places of one process: its kernel stack and its address space. -/
def Belongs (p : Nat) (o : Place Keeper) : Prop := o = .kept (.stack p) ∨ o.slot = some p

theorem Reaped.places (h : World t S k) (h' : World t S k') (hr : Reaped S k k' p) :
    (∀ f, f ∈ k'.mm.freelist ↔ f ∈ k.mm.freelist ∨ ∃ o, Belongs p o ∧ has k.mm (spaces k) (keeps k) [] o f) ∧
      ∀ o, o ≠ .free → ∀ f, has k'.mm (spaces k') (keeps k') [] o f ↔ has k.mm (spaces k) (keeps k) [] o f ∧
        ¬Belongs p o := by
  have hrest : ∀ x : Place Keeper, x ≠ .free → ∀ a,
      has k'.mm (spaces k') (keeps k') [] x a ↔ has k.mm (spaces k) (keeps k) [] x a ∧ ¬Belongs p x := by
    intro x hx a
    cases hs : x.slot with
    | some s =>
        by_cases hsp : s = p
        · subst hsp
          refine iff_of_false (fun hc => ?_) fun hc => hc.2 (.inr hs)
          have hnone : spaces k' s = none := by
            rw [hr.dirs, Function.update_self]
          cases x with
          | free | hand | kept => cases hs
          | dir y =>
              cases hs
              cases hnone.symm.trans hc
          | table y i | page y i =>
              cases hs
              obtain ⟨d, hd, -⟩ := hc
              cases hnone.symm.trans hd
        · have hno : ¬Belongs p x := by
            rintro (rfl | hc)
            · cases hs
            · exact hsp (Option.some.inj (hs.symm.trans hc))
          rw [and_iff_left hno]
          refine has_slot hs ?_ (fun d hd => hr.leaves.views s d hsp hd) a
          rw [hr.dirs, Function.update_of_ne hsp]
    | none =>
        cases x with
        | free => exact absurd rfl hx
        | hand => exact (and_iff_left fun hc => hc.elim (by simp) (by simp [Place.slot])).symm
        | kept o =>
            refine (hr.kept o a).trans (and_comm.trans (and_congr_right fun _ => not_congr ?_))
            simp [Belongs, Place.slot]
        | dir | table | page => cases hs
  refine ⟨fun f => ?_, hrest⟩
  have hall : ∀ a, (∃ x, has k'.mm (spaces k') (keeps k') [] x a) ↔ ∃ x, has k.mm (spaces k) (keeps k) [] x a :=
    fun a => (h'.estate.stock a).trans (h.estate.stock a).symm
  exact apart_rest (o := .free) h.estate.apart h'.estate.apart hall hrest

theorem failed_calls_restore {u : List Event} (h : Leakless t S k) (hp : Live k p)
    (hc : c = .fork ∨ ∃ path argv elf0 ph0, c = .exec path argv elf0 ph0)
      (he : run c { k with cur := p } = .ok (-1) k' u)
    (hu : ∀ e ∈ u, NoLeak e) :
    (∀ o f, has k'.mm (spaces k') (keeps k') [] o f ↔ has k.mm (spaces k) (keeps k) [] o f) ∧
      ∀ q d, spaces k q = some d → Untouched k k' q d := by
  have hw := World.switch h.good.1 p
  have hun : Undone t S { k with cur := p } (-1) k' := by
    rcases hc with rfl | ⟨path, argv, elf0, ph0, rfl⟩
    · exact leakless_ok (fork_undone hw (Live.running hp)) he hu
    · exact leakless_ok (exec_undone (World.zero hw) hw (Live.running hp) path argv elf0 ph0) he hu
  have hr := hun.2 rfl
  have hplaces := Restored.places hw hun.1.world hr
  refine ⟨hplaces, fun q d hd => ?_⟩
  have hq : q ≠ NPROC := by
    rintro rfl
    cases (spaces_top k).symm.trans hd
  exact ⟨(congrFun hr.dirs q).trans hd, hr.size q, hr.leaves.views q d hq hd, hr.leaves.same q d hq hd⟩

theorem wait_frees_child {u : List Event} {r : Int} (h : Leakless t S k)
    (he : run .wait { k with cur := p } = .ok r k' u)
    (hu : ∀ e ∈ u, NoLeak e) (hr : r ≠ -1) :
    ∃ q, (k.procs q).parent = some p ∧ (k.procs q).state = .zombie ∧ r = ((k.procs q).pid : Int) ∧
      (∀ f, f ∈ k'.mm.freelist ↔ f ∈ k.mm.freelist ∨ ∃ o, Belongs q o ∧ has k.mm (spaces k) (keeps k) [] o f) ∧
      ∀ o, o ≠ .free → ∀ f, has k'.mm (spaces k') (keeps k') [] o f ↔ has k.mm (spaces k) (keeps k) [] o f ∧
        ¬Belongs q o := by
  have hw := World.switch h.good.1 p
  rcases leakless_ok (wait_reaps hw) he hu with ⟨hc, -⟩ | ⟨q, hpid, hreap⟩
  · exact absurd hc hr
  · obtain ⟨hfree, hrest⟩ := Reaped.places hw (hreap.safe hw).world hreap
    exact ⟨q, hreap.child, hreap.zombie, hpid, hfree, hrest⟩

/-- The stock of the small kernel. -/
def freshStock (f : Nat) : Prop := f ∈ freshKernel.mm.freelist

theorem stocked_freshKernel : Stocked freshStock freshKernel where
  frame := Duplication.freshKernel_frame
  stock f := (or_iff_left List.not_mem_nil).symm
  apart _ _ := List.not_mem_nil
  nodup := by decide
  blank f _ i _ := by
    have hz : freshKernel.mm.ram.word (f + 4 * i) = 0 := Mem.word_zero _
    rw [hz]
    rfl

theorem ran_quiet {α : Type} {r : Run Event Kstate α} {a : α} (h : result r = some a ∧ r.trace = []) :
    r = .ok a r.state [] := by
  obtain ⟨h₁, h₂⟩ := h
  cases r with
  | ok b s u =>
      cases h₁
      cases h₂
      rfl
  | stop => cases h₁

theorem quiet_nil : ∀ e ∈ ([] : List Event), NoLeak e := fun _ hc => absurd hc List.not_mem_nil

theorem leakless_firstProc : Leakless t freshStock firstProc := by
  have h : result (userinit [] freshKernel) = some () ∧ (userinit [] freshKernel).trace = [] := by decide +kernel
  exact .boot [] booted_freshKernel stocked_freshKernel (ran_quiet h) quiet_nil

theorem leakless_afterFork : Leakless t freshStock afterFork := by
  have h : result (run .fork { firstProc with cur := 0 }) = some 2 ∧
    (run .fork { firstProc with cur := 0 }).trace = [] := by decide +kernel
  have hp : Live firstProc 0 := by
    unfold Live
    decide +kernel
  exact .call 0 .fork leakless_firstProc hp trivial (ran_quiet h) quiet_nil

theorem live_afterFork : Live afterFork 0 ∧ Live afterFork 1 := by
  unfold Live
  decide +kernel

/-- The child has exited. -/
def afterExit : Kstate := (run .exit { afterFork with cur := 1 }).state

theorem leakless_afterExit : Leakless t freshStock afterExit := by
  have h : result (run .exit { afterFork with cur := 1 }) = some 0 ∧
    (run .exit { afterFork with cur := 1 }).trace = [] := by decide +kernel
  exact .call 1 .exit leakless_afterFork live_afterFork.2 trivial (ran_quiet h) quiet_nil

theorem frame_conservation_fork : ∃! o, has afterFork.mm (spaces afterFork) (keeps afterFork) [] o 0x800000 :=
  (frame_conservation (t := True) leakless_afterFork).1 0x800000 (show 0x800000 ∈ freshKernel.mm.freelist by decide)

theorem spaces_afterFork : spaces afterFork 1 = some (afterFork.procs 1).pgdir := by decide +kernel

theorem process_pages_fork : ∃ d, spaces afterFork 1 = some d ∧ ∀ g < pages (afterFork.procs 1).sz,
    present (entry afterFork.mm d g) = true :=
  ⟨_, spaces_afterFork, (process_pages (t := True) leakless_afterFork spaces_afterFork).2.2.1 trivial⟩

/-- The parent gives back its page. -/
theorem process_isolation_sbrk :
    Untouched afterFork (run (.sbrk (-4096)) { afterFork with cur := 0 }).state 1 (afterFork.procs 1).pgdir := by
  have h : result (run (.sbrk (-4096)) { afterFork with cur := 0 }) = some (-1) ∧
      (run (.sbrk (-4096)) { afterFork with cur := 0 }).trace = [] ∧ (afterFork.procs 1).state ≠ .zombie := by
        decide +kernel
  refine (process_isolation (t := False) leakless_afterFork live_afterFork.1
    (show Sane False _ (.sbrk (-4096)) from False.elim)
    (ran_quiet ⟨h.1, h.2.1⟩) quiet_nil (by decide) spaces_afterFork).resolve_left fun hc => h.2.2 hc.2.1

/-- There is no frame for a second child. -/
theorem failed_calls_restore_fork :
    Untouched afterFork (run .fork { afterFork with cur := 0 }).state 1 (afterFork.procs 1).pgdir := by
  have h : result (run .fork { afterFork with cur := 0 }) = some (-1) ∧
    (run .fork { afterFork with cur := 0 }).trace = [] := by decide +kernel
  exact (failed_calls_restore (t := True) leakless_afterFork live_afterFork.1 (.inl rfl) (ran_quiet h) quiet_nil).2 1
    _ spaces_afterFork

theorem wait_afterExit : result (run .wait { afterExit with cur := 0 }) = some 2 ∧
    (run .wait { afterExit with cur := 0 }).trace = [] := by
  decide +kernel

theorem wait_frees_child_exited : ∃ q, (afterExit.procs q).parent = some 0 ∧ ∀ f,
    f ∈ (run .wait { afterExit with cur := 0 }).state.mm.freelist ↔ f ∈ afterExit.mm.freelist ∨
      ∃ o, Belongs q o ∧ has afterExit.mm (spaces afterExit) (keeps afterExit) [] o f := by
  have h : run .wait { afterExit with cur := 0 } = .ok 2 (run .wait { afterExit with cur := 0 }).state [] :=
    ran_quiet wait_afterExit
  obtain ⟨q, hq, -, -, hfree, -⟩ := wait_frees_child (t := True) leakless_afterExit h quiet_nil (by decide)
  exact ⟨q, hq, hfree⟩

end ArmXv6.FrameRuns
