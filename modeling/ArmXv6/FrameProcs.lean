import ArmXv6.FrameCalls

namespace ArmXv6.FrameProcs

open Lib.Exec Lib.Bytes Param Blocks Fs Content Sysfile Vm Kernel Proc Exec Descriptors Syscall AddressSpace
  Resize FrameOwners SpaceCalls
open FrameWorld FrameAside FrameFiles FrameCalls FileRefs CallRefs
open Growproc (pages)

variable {t : Prop} {S : Nat → Prop} {D : Nat → Option Nat} {H H' : List Nat} {k k₁ k' k'' : Kstate}
  {p q f g d s np : Nat}

theorem holds_onMm {α : Type} {m : MmM α} {Q : α → Kstate → Prop} {E : Stop → Mm → Prop}
    (hm : (m k.mm).Holds NoLeak (fun a m' => Q a { k with mm := m' }) E) :
    (onMm m k).Holds NoLeak Q fun _ _ => True := by
  unfold Kernel.onMm
  rw [holds_zoom]
  exact hm.mono (fun _ _ => id) fun _ _ _ => trivial

theorem resized (h : World t S k) (he : Estate S k'.mm (spaces k) (keeps k) [])
    (hl : Leaves (spaces k) k.cur k.mm k'.mm)
    (hk : ∀ o a, keeps k' o a ↔ keeps k o a) (hsp : spaces k' = spaces k) (hother : ∀ p, p ≠ k.cur →
      (k'.procs p).sz = (k.procs p).sz)
    (hsz : (k'.procs k.cur).sz < UADDR_SZ) (hx : Extent t k'.mm (k.procs k.cur).pgdir (pages (k'.procs k.cur).sz)) :
      Safe t S k k' := by
  refine .of ?_ hl fun p hne => ⟨by rw [hsp], fun _ => hother p hne⟩
  unfold World
  rw [hsp]
  refine ⟨Estate.rekeep he hk, fun p d hp hd => ?_⟩
  by_cases hpc : p = k.cur
  · subst hpc
    unfold spaces at hd
    split at hd
    case isTrue =>
        cases hd
        exact ⟨hsz, hx⟩
    case isFalse => cases hd
  · rw [hother p hpc]
    obtain ⟨h₁, h₂⟩ := h.sizes p d hp hd
    exact ⟨h₁, h₂.congr (hl.views p d hpc hd)⟩

/-- An entry of the process table with the same places of frames, but perhaps another size. -/
theorem places_withProc {x : Kernel.Proc} (hst : x.state = (k.procs p).state) (hks : x.kstack = (k.procs p).kstack)
    (hpg : x.pgdir = (k.procs p).pgdir) : spaces (withProc k p x) = spaces k ∧ ∀ o a, keeps (withProc k p x) o a ↔
      keeps k o a := by
  refine ⟨?_, fun o a => ?_⟩
  · funext q
    unfold spaces
    rw [procs_withProc]
    by_cases he : q = p
    · rw [if_pos he, hst, hpg, he]
    · rw [if_neg he]
  · cases o with
    | pipe | mode => exact Iff.rfl
    | stack q =>
        rw [keeps_stack, keeps_stack, procs_withProc]
        by_cases he : q = p
        · rw [if_pos he, hst, hks, he]
        · rw [if_neg he]

theorem growproc_safe (h : World t S k) (hr : Running k) (n : Int) (hc : t → uint ((k.procs k.cur).sz + bits n) ≠ 0) :
    (growproc n k).Holds NoLeak (fun _ k' => Safe t S k k') fun _ _ => True := by
  have hs := Running.space hr
  obtain ⟨hsz, hx⟩ := h.sizes _ _ hr.cur hs
  unfold growproc
  rw [holds_bind, holds_fetch, holds_bind]
  refine Run.Holds.mono (Q := fun r k₁ => ∃ m, k₁ = { k with mm := m } ∧ Estate S m (spaces k) (keeps k) [] ∧
    Leaves (spaces k) k.cur k.mm m ∧
    (n ≠ 0 ∧ r = 0 → Extent t m (k.procs k.cur).pgdir (pages (k.procs k.cur).sz)) ∧
    (¬(n ≠ 0 ∧ r = 0) → r < UADDR_SZ ∧ Extent t m (k.procs k.cur).pgdir (pages r))) ?_ ?_ fun _ _ => id
  · rw [holds_ite]
    refine ⟨fun hpos => ?_, fun hle => ?_⟩
    · refine holds_onMm ((allocuvm_estate h.estate hs hx hsz _).mono ?_ fun _ _ => id)
      rintro r m ⟨h₁, h₂, h₃, h₄⟩
      exact ⟨m, rfl, h₁, h₂, fun hc => h₃ hc.2, fun hc => h₄ fun hz => hc ⟨by omega, hz⟩⟩
    · rw [holds_ite]
      refine ⟨fun hneg => ?_, fun hz => ?_⟩
      · refine holds_onMm ((deallocuvm_estate h.estate hs hx hsz _).mono ?_ fun _ _ => id)
        rintro r m ⟨h₁, h₂, h₃, h₄, h₅⟩
        refine ⟨m, rfl, h₁, h₂, fun hc' => ?_, fun _ => ⟨by omega, h₄⟩⟩
        by_cases hz : (k.procs k.cur).sz = 0
        · rw [hz] at h₃ ⊢
          rw [h₃, Nat.zero_min] at h₄
          exact h₄
        · exact h₅.weaken fun ht => hc ht (by omega)
      · rw [holds_pure]
        have hn : n = 0 := by omega
        exact ⟨k.mm, rfl, h.estate, .refl _ _ _, fun hc => absurd hn hc.1, fun _ => ⟨hsz, hx⟩⟩
  · rintro r k₁ ⟨m, rfl, h₁, h₂, h₃, h₄⟩
    rw [holds_ite]
    refine ⟨fun hc => ?_, fun hc => ?_⟩
    · rw [holds_pure]
      exact resized h h₁ h₂ (fun _ _ => Iff.rfl) rfl (fun _ _ => rfl) hsz (h₃ hc)
    · obtain ⟨h₅, h₆⟩ := h₄ hc
      rw [holds_bind, setProc_apply]
      intro _
      rw [holds_bind]
      unfold switchuvm
      rw [holds_bind, holds_fetch, holds_ite]
      refine ⟨fun _ => by rw [holds_panic]; trivial, fun _ => ?_⟩
      rw [holds_ite]
      refine ⟨fun _ => by rw [holds_panic]; trivial, fun _ => ?_⟩
      rw [holds_pure, holds_pure]
      obtain ⟨hsp, hk⟩ :=
        places_withProc (k := { k with mm := m }) (p := k.cur) (x := { k.procs k.cur with sz := r }) rfl rfl rfl
      refine resized h h₁ h₂ hk hsp (fun p hne => ?_) ?_ ?_
      · exact congrArg Kernel.Proc.sz (Function.update_of_ne hne _ _)
      all_goals rw [procs_withProc, if_pos rfl]
      · exact h₅
      · exact h₆

theorem sbrk_safe (h : World t S k) (hr : Running k) (n : Int) (hc : t → uint ((k.procs k.cur).sz + bits n) ≠ 0) :
    (sysSbrk n k).Holds NoLeak (fun _ k' => Safe t S k k') fun _ _ => True := by
  unfold sysSbrk
  rw [holds_bind, holds_fetch, holds_bind]
  refine (growproc_safe h hr n hc).mono (fun r k' h' => ?_) fun _ _ => id
  rw [holds_ite, holds_pure, holds_pure]
  exact ⟨fun _ => h', fun _ => h'⟩

theorem closeFiles_passing {k₀ : Kstate} (l : List Nat) (hl : ∀ i ∈ l, i < NOFILE) (hp : Passing t S D H k₀ k)
    (hof : ∀ fd < NOFILE, ∀ f, (k.procs k.cur).ofile fd = some f → f < NFILE) :
    (exit.closeFiles l k).Holds NoLeak (fun _ k' => Passing t S D H k₀ k') fun _ _ => True := by
  induction l generalizing k with
  | nil =>
      rw [exit.closeFiles, holds_pure]
      exact hp
  | cons i l ih =>
      have hl' : ∀ j ∈ l, j < NOFILE := fun j hj => hl j (List.mem_cons_of_mem _ hj)
      unfold exit.closeFiles
      rw [holds_bind, holds_fetch, holds_bind]
      cases hf : (k.procs k.cur).ofile i with
      | none => dsimp only; rw [holds_pure]; exact ih hl' hp hof
      | some f =>
          dsimp only
          rw [holds_bind]
          refine (fileclose_filing hp.held hp.filed (hof i (hl i List.mem_cons_self) f hf)).mono
            (fun _ k₁ h₁ => ?_) fun _ _ => id
          have hp₁ := hp.filing h₁
          rw [setProc_apply]
          intro _
          refine ih hl' (hp₁.alike (alike_withProc rfl) hp₁.filed.withProc) fun fd hfd g hg => ?_
          have hcur : k₁.cur = k.cur := h₁.procs.cur
          have hpr : k₁.procs = k.procs := h₁.procs.procs
          change ((withProc k₁ k.cur _).procs k₁.cur).ofile fd = some g at hg
          rw [hcur, procs_withProc, if_pos rfl, hpr] at hg
          by_cases he : fd = i
          · rw [he] at hg
            change Function.update (k.procs k.cur).ofile i none i = some g at hg
            rw [Function.update_self] at hg
            cases hg
          · change Function.update (k.procs k.cur).ofile i none fd = some g at hg
            rw [Function.update_of_ne he] at hg
            exact hof fd hfd g hg

theorem exit_safe (h : World t S k) (hb : Between True k) (hr : Running k) :
    (exit k).Holds NoLeak (fun _ k' => Safe t S k k') fun _ _ => True := by
  unfold exit
  rw [holds_bind, holds_fetch, holds_ite]
  refine ⟨fun _ => by rw [holds_panic]; trivial, fun _ => ?_⟩
  rw [holds_bind]
  refine (closeFiles_passing (List.range NOFILE) (fun _ => List.mem_range.mp) (.refl h (Filed.between hb))
    (hb.procs _ hr.cur).slots).mono (fun _ k₁ h₁ => ?_) fun _ _ => id
  cases (k.procs k.cur).cwd with
  | none =>
      rw [holds_bind]
      dsimp only
      rw [holds_panic]
      trivial
  | some cwd =>
      rw [holds_bind]
      refine (filing_onFs _ h₁.held h₁.filed).mono (fun _ k₂ h₂ => ?_) fun _ _ => id
      have h₂ := h₁.filing h₂
      rw [holds_bind, setProc_apply]
      intro _
      have h₃ :=
        h₂.alike (x := withProc k₂ k.cur { k₂.procs k.cur with cwd := none }) (alike_withProc rfl) h₂.filed.withProc
      rw [holds_bind]
      refine (aside_reparent _).mono (fun _ k₄ ha₄ => ?_) fun _ _ => id
      rw [setProc_apply]
      intro _
      have hcore : core (k₄.procs k.cur) = core (k.procs k.cur) := (ha₄.procs k.cur).trans (h₃.procs k.cur)
      obtain ⟨h₅, h₆, -, -, -⟩ := core_eq hcore
      have ha₅ : Alike k₄ (withProc k₄ k.cur { k₄.procs k.cur with state := .zombie }) := by
        refine alike_withProc ?_
        unfold core
        simp only [h₅, h₆, hr.unused, hr.embryo, reduceCtorEq]
      exact (Passing.safe h₃).aside_after (ha₄.trans ha₅)

/-- The child p has left the process table, and nobody has its address space and its stack. -/
structure Reaped (S : Nat → Prop) (k k' : Kstate) (p : Nat) : Prop where
  lt : p < NPROC
  zombie : (k.procs p).state = .zombie
  child : (k.procs p).parent = some k.cur
  gone : (k'.procs p).state = .unused
  procs : ∀ q, q ≠ p → k'.procs q = k.procs q
  pipes : ∀ q, IsPipe k' q ↔ IsPipe k q
  modes : k'.exstacks = k.exstacks
  estate : Estate S k'.mm (Function.update (spaces k) p none) (fun o a => o ≠ .stack p ∧ keeps k o a) []
  leaves : Leaves (spaces k) p k.mm k'.mm

theorem Reaped.dirs (h : Reaped S k k' p) : spaces k' = Function.update (spaces k) p none := by
  funext q
  by_cases hq : q = p
  · subst hq
    rw [Function.update_self]
    exact if_neg fun hc => hc.2.1 h.gone
  · rw [Function.update_of_ne hq]
    unfold spaces
    rw [h.procs q hq]

theorem Reaped.kept (h : Reaped S k k' p) (o : Keeper) (a : Nat) : keeps k' o a ↔ o ≠ .stack p ∧ keeps k o a := by
  cases o with
  | pipe => exact (h.pipes a).trans (and_iff_right (by simp)).symm
  | mode => exact (iff_of_eq (congrArg (a ∈ ·) h.modes)).trans (and_iff_right (by simp)).symm
  | stack q =>
      rw [keeps_stack, keeps_stack]
      by_cases hq : q = p
      · subst hq
        exact iff_of_false (fun hc => hc.2.1 h.gone) fun hc => hc.1 rfl
      · rw [h.procs q hq]
        exact (and_iff_right fun he => hq (Keeper.stack.inj he)).symm

theorem Reaped.safe (h : World t S k) (hr : Reaped S k k' p) : Safe t S k k' := by
  refine ⟨?_, fun q d hne hd => ?_⟩
  · unfold World
    rw [hr.dirs]
    refine ⟨Estate.rekeep hr.estate hr.kept, fun q d hq hd => ?_⟩
    have hqp : q ≠ p := by
      rintro rfl
      rw [Function.update_self] at hd
      cases hd
    rw [Function.update_of_ne hqp] at hd
    rw [hr.procs q hqp]
    obtain ⟨h₁, h₂⟩ := h.sizes q d hq hd
    exact ⟨h₁, h₂.congr (hr.leaves.views q d hqp hd)⟩
  · by_cases hqp : q = p
    · subst hqp
      rw [hr.dirs, Function.update_self]
      exact .inl ⟨rfl, hr.zombie, hr.child⟩
    · refine .inr ⟨?_, by rw [hr.procs q hqp], hr.leaves.views q d hqp hd, hr.leaves.same q d hqp hd⟩
      rw [hr.dirs, Function.update_of_ne hqp]
      exact hd

theorem wait_reaps (h : World t S k) :
    (wait k).Holds NoLeak (fun r k' => r = -1 ∧ k' = k ∨ ∃ p, r = ((k.procs p).pid : Int) ∧
      Reaped S k k' p) fun _ _ => True := by
  unfold wait
  rw [holds_bind, holds_fetch]
  cases hs : (List.range NPROC).find? fun p => (k.procs p).parent = some k.cur ∧ (k.procs p).state = .zombie with
  | none =>
      dsimp only
      rw [holds_ite, holds_pure]
      exact ⟨fun _ => .inl ⟨rfl, rfl⟩, fun _ => by rw [holds_sleep]; trivial⟩
  | some p =>
      have hp : p < NPROC := List.mem_range.mp (List.mem_of_find?_eq_some hs)
      obtain ⟨hchild, hz⟩ : (k.procs p).parent = some k.cur ∧ (k.procs p).state = .zombie := by
        have := List.find?_some hs
        simpa only [decide_eq_true_eq] using this
      have hspace : spaces k p = some (k.procs p).pgdir := if_pos ⟨hp, by rw [hz]; decide, by rw [hz]; decide⟩
      obtain ⟨-, hx⟩ := h.sizes p _ hp hspace
      have hstack : keeps k (.stack p) (k.procs p).kstack := ⟨hp, by rw [hz]; decide, rfl⟩
      -- the kernel stack has no owner until kfree has it
      have h₁ : Estate S k.mm (spaces k) (fun o a => o ≠ .stack p ∧ keeps k o a) [(k.procs p).kstack] := by
        refine Estate.release h.estate (o := .stack p) hstack (fun y a hy => and_iff_right hy) fun a => ?_
        refine iff_of_false (fun hc => hc.1 rfl) ?_
        rintro ⟨⟨-, -, rfl⟩, hne⟩
        exact hne rfl
      obtain ⟨h₂, hviews, hwithin⟩ := h₁.push
      have hl₂ := h₁.leaves (s := p) hwithin (hand_head h₁) (by simp [Place.slot])
      have hx₂ := hx.congr (hviews p _ hspace)
      dsimp only
      rw [holds_bind]
      refine holds_onMm (E := fun _ _ => True) (holds_ok (kfree_eq (h₁.of (hand_head h₁))) ?_)
      rw [holds_bind, setProc_apply]
      intro _
      rw [holds_bind]
      obtain ⟨n, -, hc⟩ := hx₂.tables
      refine holds_onMm ((freevm_estate h₂ hspace ⟨n, hc⟩).mono (fun _ m₃ h₃ => ?_) fun _ _ => id)
      obtain ⟨h₃, hl₃⟩ := h₃
      rw [holds_bind, setProc_apply]
      intro _
      rw [holds_pure]
      refine .inr ⟨p, rfl, hp, hz, hchild, ?_, fun q hq => ?_, fun _ => Iff.rfl, rfl, h₃, hl₂.trans hl₃⟩
      · rw [procs_withProc, if_pos rfl]
      · exact ((procs_withProc _ p q _).trans (if_neg hq)).trans ((procs_withProc _ p q _).trans (if_neg hq))

theorem wait_safe (h : World t S k) : (wait k).Holds NoLeak (fun _ k' => Safe t S k k') fun _ _ => True := by
  refine (wait_reaps h).mono ?_ fun _ _ => id
  rintro r k' (⟨-, rfl⟩ | ⟨p, -, hr⟩)
  · exact .alike h (.refl k')
  · exact hr.safe h

/-- Only entry np of the process table differs, and before it was free. -/
structure Entered (k k' : Kstate) (np : Nat) : Prop where
  lt : np < NPROC
  unused : (k.procs np).state = .unused
  procs : ∀ q, q ≠ np → k'.procs q = k.procs q
  sz : (k'.procs np).sz = (k.procs np).sz
  pipes : ∀ q, IsPipe k' q ↔ IsPipe k q
  modes : k'.exstacks = k.exstacks
  cur : k'.cur = k.cur

theorem Entered.size (h : Entered k k' np) (p : Nat) : (k'.procs p).sz = (k.procs p).sz := by
  by_cases he : p = np
  · rw [he, h.sz]
  · rw [h.procs p he]

theorem Entered.same_spaces (h : Entered k k' np) (hn : (k'.procs np).state = .unused ∨
    (k'.procs np).state = .embryo) : spaces k' = spaces k := by
  funext q
  unfold spaces
  by_cases he : q = np
  · subst he
    rw [if_neg fun hc => hn.elim hc.2.1 hc.2.2, if_neg fun hc => hc.2.1 h.unused]
  · rw [h.procs q he]

theorem Entered.same_keeps (h : Entered k k' np) {o : Keeper} (ho : o ≠ .stack np) (a : Nat) :
    keeps k' o a ↔ keeps k o a := by
  cases o with
  | pipe => exact h.pipes a
  | mode => exact iff_of_eq (congrArg (a ∈ ·) h.modes)
  | stack q =>
      rw [keeps_stack, keeps_stack, h.procs q fun he => ho (by rw [he])]

theorem Entered.free_world (he : Entered k k' np)
    (h : Estate S k'.mm (spaces k) (fun o a => o ≠ .stack np ∧ keeps k o a) [])
    (hz : ∀ p d, p < NPROC → spaces k p = some d → (k.procs p).sz < UADDR_SZ ∧ Extent t k'.mm d (pages (k.procs p).sz))
    (hun : (k'.procs np).state = .unused) : World t S k' := by
  unfold World
  rw [he.same_spaces (.inl hun)]
  refine ⟨Estate.rekeep h fun o a => ?_, fun p d hp hd => ?_⟩
  · by_cases ho : o = .stack np
    · subst ho
      rw [keeps_stack]
      exact iff_of_false (fun hc => hc.2.1 hun) fun hc => hc.1 rfl
    · exact (he.same_keeps ho a).trans (and_iff_right ho).symm
  · rw [he.size]
    exact hz p d hp hd

theorem Entered.all_keeps (he : Entered k k' np) (hun : (k'.procs np).state = .unused) (o : Keeper) (a : Nat) :
    keeps k' o a ↔ keeps k o a := by
  by_cases ho : o = .stack np
  · subst ho
    rw [keeps_stack, keeps_stack]
    exact iff_of_false (fun hc => hc.2.1 hun) fun hc => hc.2.1 he.unused
  · exact he.same_keeps ho a

theorem Entered.noStack (he : Entered k k' np) (o : Keeper) (a : Nat) : o ≠ .stack np ∧ keeps k o a ↔ keeps k o a := by
  refine and_iff_right_of_imp ?_
  rintro hk rfl
  exact hk.2.1 he.unused

theorem Entered.stack_world (he : Entered k k' np) (h : World t S k) {f : Nat} {rest : List Nat}
    (hl : k.mm.freelist = f :: rest)
    (hmm : k'.mm = { k.mm with freelist := rest }) (hem : (k'.procs np).state = .embryo)
      (hks : (k'.procs np).kstack = f) : World t S k' := by
  obtain ⟨htake, -⟩ := h.estate.take hl
  unfold World
  rw [he.same_spaces (.inr hem)]
  refine ⟨?_, fun p d hlt hd => ?_⟩
  · rw [hmm]
    refine Estate.keep htake (o := .stack np) (fun y a hy => he.same_keeps hy a) fun a => ?_
    rw [keeps_stack, keeps_stack, hem, hks]
    constructor
    · exact fun hc => .inr hc.2.2.symm
    · rintro (hc | rfl)
      · exact absurd he.unused hc.2.1
      · exact ⟨he.lt, by decide, rfl⟩
  · rw [he.size, hmm]
    obtain ⟨h₁, h₂⟩ := h.sizes p d hlt hd
    exact ⟨h₁, h₂.congr ⟨fun _ _ => rfl, fun _ _ => rfl⟩⟩

structure Allocated (t : Prop) (S : Nat → Prop) (k : Kstate) (a : Option Nat) (k' : Kstate) : Prop where
  world : World t S k'
  same : spaces k' = spaces k
  size : ∀ p, (k'.procs p).sz = (k.procs p).sz
  leaves : ∀ s, Leaves (spaces k) s k.mm k'.mm
  cur : k'.cur = k.cur
  failed : a = none → ∀ o x, keeps k' o x ↔ keeps k o x
  entered : ∀ np, a = some np → Entered k k' np ∧ (k'.procs np).state = .embryo

theorem allocproc_world (h : World t S k) :
    (Proc.allocproc k).Holds NoLeak (fun a k' => Allocated t S k a k') fun _ _ => True := by
  unfold Proc.allocproc
  rw [holds_bind, holds_fetch]
  cases hs : (List.range NPROC).find? fun p => (k.procs p).state = .unused with
  | none =>
      dsimp only
      rw [holds_pure]
      exact ⟨h, rfl, fun _ => rfl, fun _ => .refl _ _ _, rfl, fun _ _ _ => Iff.rfl, fun _ hc => by cases hc⟩
  | some np =>
      have hp : np < NPROC := List.mem_range.mp (List.mem_of_find?_eq_some hs)
      have hu : (k.procs np).state = .unused := by simpa using List.find?_some hs
      dsimp only
      rw [holds_bind, setProc_apply]
      intro _
      rw [holds_bind, holds_update, holds_bind]
      cases hl : k.mm.freelist with
      | nil =>
          refine holds_onMm (E := fun _ _ => True) (holds_ok (kalloc_nil hl) ?_)
          dsimp only
          rw [holds_bind, setProc_apply]
          intro _
          rw [holds_pure]
          have hfin : ∀ {k'}, Entered k k' np → k'.mm = k.mm → (k'.procs np).state = .unused →
              Allocated t S k none k' := by
            intro k' he hmm hun
            have hsp := he.same_spaces (.inl hun)
            refine ⟨he.free_world ?_ ?_ hun, hsp, he.size, fun s => ?_, he.cur, fun _ => he.all_keeps hun,
              fun _ hc => by cases hc⟩
            · rw [hmm]
              exact Estate.rekeep h.estate he.noStack
            · rw [hmm]
              exact h.sizes
            · rw [hmm]
              exact .refl _ _ _
          refine hfin ⟨hp, hu, fun q hq => ?_, ?_, fun _ => Iff.rfl, rfl, rfl⟩ rfl ?_
          · exact ((procs_withProc _ np q _).trans (if_neg hq)).trans ((procs_withProc _ np q _).trans (if_neg hq))
          · rw [procs_withProc, if_pos rfl]
            change ((withProc k np _).procs np).sz = _
            rw [procs_withProc, if_pos rfl]
          · rw [procs_withProc, if_pos rfl]
      | cons stack rest =>
          refine holds_onMm (E := fun _ _ => True) (holds_ok (kalloc_cons hl) ?_)
          dsimp only
          rw [holds_bind, setProc_apply]
          intro _
          rw [holds_pure]
          have hfin : ∀ {k'}, Entered k k' np → k'.mm = { k.mm with freelist := rest } → (k'.procs np).state = .embryo →
              (k'.procs np).kstack = stack → Allocated t S k (some np) k' := by
            intro k' he hmm hem hks
            refine ⟨he.stack_world h hl hmm hem hks, he.same_spaces (.inr hem), he.size, fun s => ?_, he.cur,
              fun hc => (by cases hc), fun np' hc => ?_⟩
            · rw [hmm]
              exact leaves_freelist _ _
            · cases hc
              exact ⟨he, hem⟩
          refine hfin ⟨hp, hu, fun q hq => ?_, ?_, fun _ => Iff.rfl, rfl, rfl⟩ rfl ?_ ?_
          · exact ((procs_withProc _ np q _).trans (if_neg hq)).trans ((procs_withProc _ np q _).trans (if_neg hq))
          · rw [procs_withProc, if_pos rfl]
            change ((withProc k np _).procs np).sz = _
            rw [procs_withProc, if_pos rfl]
          · rw [procs_withProc, if_pos rfl]
            change ((withProc k np _).procs np).state = _
            rw [procs_withProc, if_pos rfl]
          · rw [procs_withProc, if_pos rfl]

theorem swap_slots {a b : Nat} {v : Option Nat} (hab : a ≠ b) :
    Function.update D b v ∘ Equiv.swap a b = Function.update (Function.update D b (D a)) a v := by
  funext x
  by_cases hxa : x = a
  · subst hxa
    simp
  · by_cases hxb : x = b
    · subst hxb
      simp [hxa, Function.update_of_ne hab]
    · simp [Equiv.swap_apply_of_ne_of_ne hxa hxb, hxa, hxb]

theorem Estate.move {ω : Type} {m : Mm} {kept : ω → Nat → Prop} {a b : Nat} {v : Option Nat}
    (h : Estate S m (Function.update D b v) kept H)
    (hab : a ≠ b) : Estate S m (Function.update (Function.update D b (D a)) a v) kept H := by
  rw [← swap_slots hab]
  exact Estate.rename h (Equiv.swap a b)

theorem spaces_top (k : Kstate) : spaces k NPROC = none := spaces_none (Nat.lt_irrefl _)

theorem Entered.unspaced (he : Entered k k' np) : spaces k np = none := if_neg fun hc => hc.2.1 he.unused

theorem Entered.failed_undone (he : Entered k k' np) (h : World t S k)
    (hs : Estate S k'.mm (spaces k) (fun o a => o ≠ .stack np ∧ keeps k o a) [])
    (hl : ∀ s, Leaves (spaces k) s k.mm k'.mm) (hun : (k'.procs np).state = .unused) : Undone t S k (-1) k' := by
  refine ⟨?_, fun _ => ⟨he.same_spaces (.inl hun), he.all_keeps hun, he.size, hl _⟩⟩
  refine .of (he.free_world hs (fun p d hp hd => ?_) hun) (hl _) fun p _ =>
    ⟨by rw [he.same_spaces (.inl hun)], fun _ => he.size p⟩
  obtain ⟨h₁, h₂⟩ := h.sizes p d hp hd
  refine ⟨h₁, h₂.congr ((hl np).views p d ?_ hd)⟩
  rintro rfl
  cases he.unspaced.symm.trans hd

theorem Entered.child_safe {n : Nat} (he : Entered k k₁ np) (hem : (k₁.procs np).state = .embryo) (h : World t S k)
    (hs : Estate S k'.mm (Function.update (spaces k₁) np (some d)) (keeps k₁) [])
      (hl : ∀ s, Leaves (spaces k) s k.mm k'.mm)
    (hx : Extent t k'.mm d (pages n)) (hsz : n < UADDR_SZ) (ha : ∀ q, q ≠ np → core (k'.procs q) = core (k.procs q))
    (hpipes : ∀ q, IsPipe k' q ↔ IsPipe k₁ q) (hmodes : k'.exstacks = k₁.exstacks)
      (hst : (k'.procs np).state = .runnable)
    (hcore : (k'.procs np).pgdir = d ∧ (k'.procs np).sz = n ∧ (k'.procs np).kstack = (k₁.procs np).kstack) :
      Safe t S k k' := by
  obtain ⟨hpg, hz, hks⟩ := hcore
  have hsp : spaces k' = Function.update (spaces k) np (some d) := by
    funext q
    by_cases hq : q = np
    · subst hq
      rw [Function.update_self]
      unfold spaces
      rw [if_pos ⟨he.lt, by rw [hst]; decide, by rw [hst]; decide⟩, hpg]
    · rw [Function.update_of_ne hq]
      obtain ⟨h₁, h₂, -, h₄, -⟩ := core_eq (ha q hq)
      unfold spaces
      simp only [ne_eq, h₁, h₂, h₄]
  have hne : ∀ {p d'}, spaces k p = some d' → p ≠ np := by
    rintro p d' hd rfl
    cases he.unspaced.symm.trans hd
  refine ⟨?_, fun p d' _ hd =>
    .inr ⟨?_, (core_eq (ha p (hne hd))).2.2.2.2, (hl np).views p d' (hne hd) hd, (hl np).same p d' (hne hd) hd⟩⟩
  · unfold World
    rw [hsp, ← he.same_spaces (.inr hem)]
    refine ⟨Estate.rekeep hs fun o a => ?_, fun p d' hp hd => ?_⟩
    · cases o with
      | pipe => exact hpipes a
      | mode => exact iff_of_eq (congrArg (a ∈ ·) hmodes)
      | stack q =>
          rw [keeps_stack, keeps_stack]
          by_cases hq : q = np
          · subst hq
            rw [hst, hks, hem]
            exact and_congr_right fun _ => and_congr_left fun _ => iff_of_true (by decide) (by decide)
          · obtain ⟨h₁, -, h₃, -, -⟩ := core_eq (ha q hq)
            rw [he.procs q hq, ne_eq, ne_eq, h₁, h₃]
    · by_cases hq : p = np
      · subst hq
        rw [Function.update_self] at hd
        cases hd
        rw [hz]
        exact ⟨hsz, hx⟩
      · rw [Function.update_of_ne hq, he.same_spaces (.inr hem)] at hd
        rw [(core_eq (ha p hq)).2.2.2.2]
        obtain ⟨h₁, h₂⟩ := h.sizes p d' hp hd
        exact ⟨h₁, h₂.congr ((hl np).views p d' hq hd)⟩
  · rw [hsp, Function.update_of_ne (hne hd)]
    exact hd

theorem fork_undone (h : World t S k) (hr : Running k) : (fork k).Holds NoLeak (Undone t S k) fun _ _ => True := by
  unfold fork
  rw [holds_bind]
  refine (allocproc_world h).mono ?_ fun _ _ => id
  rintro a k₁ h₁
  cases a with
  | none =>
      dsimp only
      rw [holds_pure]
      refine ⟨.of h₁.world (h₁.leaves _) fun p _ => ⟨by rw [h₁.same], fun _ => h₁.size p⟩, fun _ => ?_⟩
      exact ⟨h₁.same, h₁.failed rfl, h₁.size, h₁.leaves _⟩
  | some np =>
      obtain ⟨he, hem⟩ := h₁.entered np rfl
      have hne : np ≠ k.cur := by
        rintro rfl
        exact hr.unused he.unused
      have hparent : k₁.procs k₁.cur = k.procs k.cur := by
        rw [h₁.cur]
        exact he.procs _ (Ne.symm hne)
      have hspace : spaces k₁ k.cur = some (k.procs k.cur).pgdir := by
        rw [h₁.same]
        exact Running.space hr
      have hnone : spaces k₁ np = none := if_neg fun hc => hc.2.2 hem
      obtain ⟨hsz, hx⟩ := h₁.world.sizes _ _ hr.cur hspace
      rw [h₁.size] at hsz hx
      have hcn : k.cur ≠ np := Ne.symm hne
      dsimp only
      rw [holds_bind, holds_fetch, holds_bind, hparent]
      refine holds_onMm ((copyuvm_estate h₁.world.estate hcn hspace hnone hx hsz).mono (fun a m₂ h₂ => ?_) fun _ _ =>
        id)
      obtain ⟨hl₂, hnone₂, hsome₂⟩ := h₂
      have hl₂ : ∀ s, Leaves (spaces k) s k.mm m₂ := fun s => (h₁.leaves s).trans (by
        rw [← h₁.same]
        exact Leaves.any hl₂ hnone)
      cases a with
      | none =>
          have h₃ := hnone₂ rfl
          have hstack : keeps k₁ (.stack np) (k₁.procs np).kstack := ⟨he.lt, by rw [hem]; decide, rfl⟩
          have h₄ : Estate S m₂ (spaces k₁) (fun o a => o ≠ .stack np ∧ keeps k₁ o a) [(k₁.procs np).kstack] := by
            refine Estate.release h₃ (o := .stack np) hstack (fun y a hy => and_iff_right hy) fun a => ?_
            refine iff_of_false (fun hc => hc.1 rfl) ?_
            rintro ⟨⟨-, -, rfl⟩, hne⟩
            exact hne rfl
          obtain ⟨h₅, -, hwithin⟩ := h₄.push
          have hl₅ := fun s => h₄.leaves (s := s) hwithin (hand_head h₄) (by simp [Place.slot])
          rw [h₁.same] at h₅ hl₅
          dsimp only
          rw [holds_bind]
          refine holds_onMm (E := fun _ _ => True) (holds_ok (kfree_eq (h₄.of (hand_head h₄))) ?_)
          rw [holds_bind, setProc_apply]
          intro _
          rw [holds_pure]
          refine Entered.failed_undone ⟨he.lt, he.unused, fun q hq => ?_, ?_, he.pipes, he.modes, he.cur⟩ h
            (Estate.rekeep h₅ fun o a => and_congr_right fun ho => (he.same_keeps ho a).symm)
              (fun s => (hl₂ s).trans (hl₅ s)) ?_
          · exact ((procs_withProc _ np q _).trans (if_neg hq)).trans (he.procs q hq)
          · rw [procs_withProc, if_pos rfl]
            exact he.sz
          · rw [procs_withProc, if_pos rfl]
      | some d =>
          obtain ⟨h₃, hx₃⟩ := hsome₂ d rfl
          dsimp only
          rw [holds_bind, setProc_apply]
          intro _
          rw [holds_bind]
          refine (aside_dupFiles np _ _).mono (fun _ k₄ ha₄ => ?_) fun _ _ => id
          rw [holds_bind]
          refine Run.Holds.mono (Q := fun _ k₅ => Alike k₄ k₅) ?_ (fun _ k₅ ha₅ => ?_) fun _ _ => id
          · cases (k.procs k.cur).cwd with
            | none => dsimp only; rw [holds_panic]; trivial
            | some cwd =>
                dsimp only
                refine Aside.bind (.onFs _) (fun cwd => ?_) k₄
                exact .setProc fun _ => rfl
          rw [holds_bind, setProc_apply]
          intro _
          rw [holds_bind, setProc_apply]
          intro _
          rw [holds_pure]
          have ha :=
            (ha₄.trans ha₅).trans
            (alike_withProc (p := np) (x := { k₅.procs np with name := safestrcpy (k.procs k.cur).name 16 }) rfl)
          generalize withProc k₅ np _ = k₆ at ha ⊢
          have hmm : k₆.mm = m₂ := ha.mm
          have hself := ha.procs np
          rw [procs_withProc, if_pos rfl] at hself
          obtain ⟨-, -, hks, hpg, hz⟩ := core_eq hself
          refine ⟨?_, fun hpid => absurd hpid (by omega)⟩
          refine he.child_safe hem h (d := d) (n := (k.procs k.cur).sz) ?_ (fun s => ?_) ?_ hsz (fun q hq => ?_)
            (fun q => ha.pipes q) ha.modes ?_ ?_
          · exact hmm ▸ h₃
          · exact hmm ▸ hl₂ s
          · exact hmm ▸ hx₃.weaken fun _ => trivial
          · rw [procs_withProc, if_neg hq, ha.procs q, procs_withProc, if_neg hq]
            exact congrArg core (he.procs q hq)
          · rw [procs_withProc, if_pos rfl]
          · rw [procs_withProc, if_pos rfl]
            exact ⟨hpg, hz, hks⟩

end ArmXv6.FrameProcs
