import ArmXv6.ProcRefs

namespace ArmXv6.References

open Lib.Exec Lib.Bytes Lib.Count Param Blocks Fs Content Sysfile Vm Kernel Proc Exec Descriptors Syscall
open Quiet InodeRefs MemoryStops FileRefs CallRefs PipeRefs ProcRefs

variable {t : Prop} {H R L : List Nat} {k k' : Kstate} {p q f np ip : Nat} {x : Kernel.Proc} {ok : Stop → Prop}

theorem wait_between (hok : Below ok) (hb : Between t k) :
    (Proc.wait k).Holds (fun _ => True) (fun _ k' => Between t k') fun w _ => ok w := by
  unfold Proc.wait
  rw [holds_bind, holds_fetch]
  cases hs : (List.range NPROC).find? fun p => (k.procs p).parent = some k.cur ∧ (k.procs p).state = .zombie with
  | none =>
      dsimp only
      rw [holds_ite]
      exact ⟨fun _ => by rw [holds_pure]; exact hb, fun _ => by rw [holds_sleep]; exact hok.1⟩
  | some p =>
      have hp : p < NPROC := List.mem_range.mp (List.mem_of_find?_eq_some hs)
      have hz : (k.procs p).state = .zombie := by
        have := List.find?_some hs
        simp only [decide_eq_true_eq] at this
        exact this.2
      have hfree := (hb.procs p hp).free (.inr hz)
      have hcwd := (hb.procs p hp).idle (.inr hz)
      dsimp only
      rw [holds_bind]
      refine hb.onMm (tame_kfree hok _) fun _ k₁ hg₁ hs₁ => ?_
      rw [holds_bind, holds_setProc, holds_bind]
      have hg₂ := hg₁.keep (x := { k₁.procs p with kstack := 0 }) hp rfl rfl rfl
      refine hg₂.onMm (tame_freevm hok _) fun _ k₂ hg₃ hs₂ => ?_
      have hp₂ : k₂.procs p = { k.procs p with kstack := 0 } := by
        rw [hs₂.procs, procs_withProc, if_pos rfl, hs₁.procs]
      rw [holds_bind, holds_setProc, holds_pure]
      exact Going.blank hg₃ hp (by rw [hp₂]; exact hfree) (by rw [hp₂]; exact hcwd) rfl
        (by rw [hp₂]; exact hcwd) (.inl rfl)

theorem kill_between (hb : Between t k) (pid : Nat) :
    (Proc.kill pid k).Holds (fun _ => True) (fun _ k' => Between t k') fun w _ => ok w := by
  unfold Proc.kill
  rw [holds_bind, holds_fetch]
  cases hs : (List.range NPROC).find? fun p => (k.procs p).pid = pid with
  | none => dsimp only; rw [holds_pure]; exact hb
  | some p =>
      have hp : p < NPROC := List.mem_range.mp (List.mem_of_find?_eq_some hs)
      dsimp only
      rw [holds_bind, holds_setProc, holds_pure]
      by_cases hsl : (k.procs p).state = .sleeping
      · rw [if_pos hsl]
        refine ⟨Mid.neutral hb.mid hp (slots_congr rfl (by simp [hsl])) (dirIs_congr rfl (by simp [hsl])), ?_⟩
        have h₀ := hb.procs p hp
        have hlive : ¬((ProcState.runnable = .unused) ∨ (ProcState.runnable = .zombie)) := by decide
        exact procs_ok_withProc hb.procs ⟨h₀.slots, fun e => absurd e hlive, h₀.cwd, fun e => absurd e hlive,
          fun _ _ _ => h₀.home (by rw [hsl]; simp) (by rw [hsl]; simp) (by rw [hsl]; simp)⟩
      · rw [if_neg hsl]
        exact hb.keep hp rfl rfl rfl

theorem switchuvm_going {Q : Unit → Kstate → Prop} (hok : Below ok) (hq : Q () k) :
    (switchuvm p k).Holds (fun _ => True) Q fun w _ => ok w := by
  unfold switchuvm
  rw [holds_bind, holds_fetch, holds_ite]
  refine ⟨fun _ => by rw [holds_panic]; exact hok.2 _ (by decide) (by decide), fun _ => ?_⟩
  rw [holds_ite]
  exact ⟨fun _ => by rw [holds_panic]; exact hok.2 _ (by decide) (by decide), fun _ => by rw [holds_pure]; exact hq⟩

theorem sysSbrk_between (hok : Below ok) (hb : Between t k) (hr : Running k) (n : Int) :
    (sysSbrk n k).Holds (fun _ => True) (fun _ k' => Between t k') fun w _ => ok w := by
  have hgrow : (growproc n k).Holds (fun _ => True) (fun _ k' => Between t k') fun w _ => ok w := by
    unfold growproc
    rw [holds_bind, holds_fetch, holds_bind]
    have hend : ∀ sz k', Between t k' → SameProcs k k' →
        ((if n ≠ 0 ∧ sz = 0 then pure (-1)
          else do
            setProc k.cur fun x => { x with sz := sz }
            switchuvm k.cur
            pure 0 : KM Int) k').Holds (fun _ => True) (fun _ k' => Between t k') fun w _ => ok w := by
      intro sz k' hg' _
      rw [holds_ite]
      refine ⟨fun _ => by rw [holds_pure]; exact hg', fun _ => ?_⟩
      rw [holds_bind, holds_setProc, holds_bind]
      refine switchuvm_going hok ?_
      rw [holds_pure]
      exact hg'.keep hr.cur rfl rfl rfl
    rw [holds_ite]
    refine ⟨fun _ => hb.onMm (tame_allocuvm hok _ _ _) hend, fun _ => ?_⟩
    rw [holds_ite]
    refine ⟨fun _ => hb.onMm (tame_deallocuvm hok _ _ _) hend, fun _ => ?_⟩
    rw [holds_pure]
    exact hend _ k hb (.refl k)
  unfold sysSbrk
  rw [holds_bind, holds_fetch, holds_bind]
  refine hgrow.mono (fun a k' h' => ?_) fun _ _ => id
  rw [holds_ite]
  exact ⟨fun _ => by rw [holds_pure]; exact h', fun _ => by rw [holds_pure]; exact h'⟩

theorem loaduvm_going (hok : Below ok) (hg : Going t H R L k) (hip : ip ∈ R) (pgdir addr offset sz : Nat) :
    (loaduvm pgdir addr ip offset sz k).Holds (fun _ => True) (fun _ k' => Going t H R L k' ∧
      SameProcs k k') fun w _ => ok w := by
  have hloop : ∀ fuel i k, Going t H R L k →
      (loaduvm.loop pgdir addr ip offset sz fuel i k).Holds (fun _ => True)
        (fun _ k' => Going t H R L k' ∧ SameProcs k k') fun w _ => ok w := by
    intro fuel
    induction fuel with
    | zero =>
        intro i k hg
        unfold loaduvm.loop
        rw [holds_pure]
        exact ⟨hg, .refl k⟩
    | succ fuel ih =>
        intro i k hg
        unfold loaduvm.loop
        rw [holds_ite]
        refine ⟨fun _ => ?_, fun _ => by rw [holds_pure]; exact ⟨hg, .refl k⟩⟩
        rw [holds_bind]
        refine hg.onMm (tame_walkpgdir _ _ _) fun a k₁ hg₁ hs₁ => ?_
        cases a with
        | none => dsimp only; rw [holds_panic]; exact hok.2 _ (by decide) (by decide)
        | some pte =>
            dsimp only
            rw [holds_bind, holds_fetch]
            rw [holds_bind]
            refine hg₁.onFs_refs (readi_refs hok hg₁.at hip _ _) fun a k₂ hg₂ hs₂ => ?_
            rw [holds_bind]
            refine hg₂.onMm (tame_setRam _) fun _ k₃ hg₃ hs₃ => ?_
            have hs := (hs₁.trans hs₂).trans hs₃
            rw [holds_ite]
            exact ⟨fun _ => by rw [holds_pure]; exact ⟨hg₃, hs⟩,
              fun _ => (ih _ k₃ hg₃).mono (fun _ _ h' => ⟨h'.1, hs.trans h'.2⟩) fun _ _ => id⟩
  unfold loaduvm
  rw [holds_ite]
  exact ⟨fun _ => by rw [holds_panic]; exact hok.2 _ (by decide) (by decide), fun _ => hloop _ _ k hg⟩

theorem segments_going (hok : Below ok) (pgdir : Nat) (ph0 : List UInt8) (count off sz : Nat) (hip : ip ∈ R)
    (hg : Going t H R L k) :
    (exec.segments pgdir ip ph0 count off sz k).Holds (fun _ => True)
      (fun _ k' => Going t H R L k' ∧ SameProcs k k') fun w _ => ok w := by
  induction count generalizing k ph0 off sz with
  | zero =>
      unfold exec.segments
      rw [holds_pure]
      exact ⟨hg, .refl k⟩
  | succ count ih =>
      unfold exec.segments
      rw [holds_bind]
      refine hg.onFs_refs (readi_refs hok hg.at hip _ _) fun a k₁ hg₁ hs₁ => ?_
      rw [holds_ite]
      refine ⟨fun _ => by rw [holds_pure]; exact ⟨hg₁, hs₁⟩, fun _ => ?_⟩
      rw [holds_ite]
      refine ⟨fun _ => (ih _ _ _ hg₁).mono (fun _ _ h' => ⟨h'.1, hs₁.trans h'.2⟩) fun _ _ => id, fun _ => ?_⟩
      rw [holds_ite]
      refine ⟨fun _ => by rw [holds_pure]; exact ⟨hg₁, hs₁⟩, fun _ => ?_⟩
      rw [holds_bind]
      refine hg₁.onMm (tame_allocuvm hok _ _ _) fun sz' k₂ hg₂ hs₂ => ?_
      have hs := hs₁.trans hs₂
      rw [holds_ite]
      refine ⟨fun _ => by rw [holds_pure]; exact ⟨hg₂, hs⟩, fun _ => ?_⟩
      rw [holds_bind]
      refine (loaduvm_going hok hg₂ hip _ _ _ _).mono (fun a k₃ h₃ => ?_) fun _ _ => id
      rw [holds_ite]
      exact ⟨fun _ => by rw [holds_pure]; exact ⟨h₃.1, hs.trans h₃.2⟩,
        fun _ => (ih _ _ _ h₃.1).mono (fun _ _ h' => ⟨h'.1, (hs.trans h₃.2).trans h'.2⟩) fun _ _ => id⟩

theorem exec_bad_between (hok : Below ok) (pgdir : Option Nat) (i : Option Nat) (hg : Going t [] i.toList i.toList k) :
    (exec.bad pgdir i k).Holds (fun _ => True) (fun _ k' => Between t k') fun w _ => ok w := by
  have hput : ∀ k', Going t [] i.toList i.toList k' →
      (exec.bad none i k').Holds (fun _ => True) (fun _ k'' => Between t k'') fun w _ => ok w := by
    intro k' hg'
    unfold exec.bad
    dsimp only
    rw [holds_bind, holds_pure, holds_bind]
    cases i with
    | none => dsimp only; rw [holds_pure, holds_pure]; exact hg'
    | some ip =>
        dsimp only
        refine hg'.onFs_refs (iunlockput_refs hok hg'.at (by simp) (by simp)) fun _ k'' hg'' _ => ?_
        rw [holds_pure]
        exact hg''
  cases pgdir with
  | none => exact hput k hg
  | some d =>
      unfold exec.bad
      rw [holds_bind]
      refine hg.onMm (tame_freevm hok _) fun _ k' hg' _ => ?_
      have h' := hput k' hg'
      unfold exec.bad at h'
      dsimp only at h'
      rw [holds_bind, holds_pure] at h'
      exact h'

theorem exec_commit_between (hok : Below ok) (hb : Between t k) (hr : Running k) (path : List UInt8)
    (argv : List (List UInt8)) (elf : List UInt8) (pgdir sz : Nat) :
    (exec.commit path argv elf pgdir sz k).Holds (fun _ => True) (fun _ k' => Between t k') fun w _ => ok w := by
  unfold exec.commit
  generalize uint (ALIGNUP sz PTE_SZ + 2 * PTE_SZ) = z
  generalize ALIGNUP sz PTE_SZ = y
  rw [holds_bind]
  refine hb.onMm (tame_allocuvm hok _ _ _) fun sz' k₁ hg₁ hs₁ => ?_
  generalize (uint (sz' + (2 ^ 32 - 2 * PTE_SZ))) = v
  rw [holds_ite]
  refine ⟨fun _ => exec_bad_between hok (some pgdir) none hg₁, fun _ => ?_⟩
  rw [holds_bind]
  refine hg₁.onMm (tame_clearpteu hok _ _) fun _ k₂ hg₂ hs₂ => ?_
  have hr₂ := (hr.same hs₁).same hs₂
  rw [holds_bind, holds_fetch, holds_bind]
  refine hg₂.onMm (tame_pushArgs hok _ _ _ _ _) fun a k₃ hg₃ hs₃ => ?_
  cases a with
  | none => exact exec_bad_between hok (some pgdir) none hg₃
  | some y =>
      obtain ⟨sp, ustack⟩ := y
      simp only
      generalize uint (sp + (2 ^ 32 - (ustack.length + 1) * 4)) = sp'
      rw [holds_bind, holds_setProc, holds_bind]
      have hr₃ := hr₂.same hs₃
      have hg₄ := hg₃.keep (p := k₂.cur) (x := { k₃.procs k₂.cur with tf := { (k₃.procs k₂.cur).tf with
        r := Function.update (Function.update (k₃.procs k₂.cur).tf.r 0 ustack.length) 1 sp' } }) hr₂.cur rfl rfl rfl
      refine hg₄.onMm (tame_copyout hok _ _ _ _) fun a k₅ hg₅ hs₅ => ?_
      rw [holds_ite]
      refine ⟨fun _ => exec_bad_between hok (some pgdir) none hg₅, fun _ => ?_⟩
      rw [holds_bind, holds_setProc, holds_bind]
      refine switchuvm_going hok ?_
      rw [holds_bind]
      have hg₆ := hg₅.keep (p := k₂.cur) (x := { k₅.procs k₂.cur with
          name := safestrcpy (basename path) 16
          pgdir := pgdir
          sz := sz'
          tf := { (k₅.procs k₂.cur).tf with pc := field elf 24 4, spUsr := sp' } }) hr₂.cur rfl rfl rfl
      refine hg₆.onMm (tame_freevm hok _) fun _ k₇ hg₇ _ => ?_
      rw [holds_pure]
      exact hg₇

theorem exec_between (hok : Below ok) (hb : Between t k) (hr : Running k) (path : List UInt8)
    (argv : List (List UInt8)) (elf0 ph0 : List UInt8) :
    (Exec.exec path argv elf0 ph0 k).Holds (fun _ => True) (fun _ k' => Between t k') fun w _ => ok w := by
  unfold Exec.exec proc
  rw [holds_bind, holds_bind, holds_fetch, holds_pure, holds_bind]
  refine hb.onFs ((namei_refs hok (hb.cwd hr.cur) hb.at path).mono (fun a fs₁ h₁ => ?_) fun _ _ => id)
  cases a with
  | none =>
      refine ⟨[], [], h₁, fun k' hg' _ => ?_⟩
      dsimp only
      rw [holds_pure]
      exact hg'
  | some ip =>
      refine ⟨[ip], [], h₁.2, fun k₁ hg₁ hs₁ => ?_⟩
      dsimp only
      rw [holds_bind]
      refine hg₁.onFs_refs ((ilock_refs hok hg₁.at List.mem_cons_self).mono (fun _ _ h' => h'.2) fun _ _ => id)
        fun _ k₂ hg₂ hs₂ => ?_
      rw [holds_bind]
      refine hg₂.onFs_refs (readi_refs hok hg₂.at List.mem_cons_self _ _) fun r k₃ hg₃ hs₃ => ?_
      have hs := (hs₁.trans hs₂).trans hs₃
      rw [holds_ite]
      refine ⟨fun _ => exec_bad_between hok none (some ip) hg₃, fun _ => ?_⟩
      rw [holds_ite]
      refine ⟨fun _ => exec_bad_between hok none (some ip) hg₃, fun _ => ?_⟩
      rw [holds_bind]
      refine hg₃.onMm (m := setupvm) tame_kalloc fun a k₄ hg₄ hs₄ => ?_
      cases a with
      | none =>
          dsimp only
          exact exec_bad_between hok none (some ip) hg₄
      | some pgdir =>
          dsimp only
          rw [holds_bind]
          refine (segments_going hok pgdir ph0 _ _ _ List.mem_cons_self hg₄).mono (fun a k₅ h₅ => ?_) fun _ _ => id
          cases a with
          | none =>
              dsimp only
              exact exec_bad_between hok (some pgdir) (some ip) h₅.1
          | some sz =>
              dsimp only
              rw [holds_bind]
              refine h₅.1.onFs_refs (iunlockput_refs hok h₅.1.at (by simp) (by simp)) fun _ k₆ hg₆ hs₆ => ?_
              have hr₆ := hr.same (((hs.trans hs₄).trans h₅.2).trans hs₆)
              exact exec_commit_between hok hg₆ hr₆ path argv _ pgdir sz

/-- The tables before the first process: no file, no process and no cached inode in use. -/
structure Booted (k : Kstate) : Prop where
  files : ∀ f < NFILE, (k.ftable f).ref = 0 ∧ (k.ftable f).type = .none
  procs : ∀ p < NPROC, (k.procs p).state = .unused ∧ (k.procs p).cwd = none ∧ ∀ fd < NOFILE, (k.procs p).ofile fd = none
  inodes : ∀ i < NINODE, (k.fs.icache i).ref = 0 ∧ (k.fs.icache i).busy = false
  pipes : ∀ q, k.piped q = 0 ∧ k.unpiped q = 0

theorem Booted.isPipe (hb : Booted k) (q : Nat) : ¬IsPipe k q := by
  rintro ⟨f, hf, ht, -⟩
  rw [(hb.files f hf).2] at ht
  cases ht

theorem Booted.between (hb : Booted k) : Between t k := by
  have hslots : ∀ p < NPROC, ∀ g, FileRefs.slots (k.procs p) g = 0 := fun p hp g => slots_of_none (hb.procs p hp).2.2 g
  have hholders : ∀ g, holders k g = 0 := by
    intro g
    unfold holders
    rw [List.sum_eq_zero]
    intro n hn
    obtain ⟨p, hp, rfl⟩ := List.mem_map.mp hn
    exact hslots p (List.mem_range.mp hp) g
  have hfiles : ∀ i, fileUsers k i = 0 := by
    intro i
    unfold fileUsers
    rw [List.countP_eq_zero]
    intro f hf
    simp [(hb.files f (List.mem_range.mp hf)).1]
  have hprocs : ∀ i, procUsers k i = 0 := by
    intro i
    unfold procUsers
    rw [List.countP_eq_zero]
    intro p hp
    simp [(hb.procs p (List.mem_range.mp hp)).1]
  have hnot := hb.isPipe
  refine ⟨⟨⟨fun i hi => ?_, fun i hi => ?_, by simp, by simp⟩, fun f hf => ?_, by simp, fun f hf _ => (hb.files f hf).2,
    fun f hf ht => ?_, fun _ => ⟨fun q f hf => absurd ⟨f, hf⟩ (hnot q), fun q f _ hf => absurd ⟨f, hf⟩ (hnot q),
      fun q hq => absurd hq (hnot q), fun q hq => absurd hq (hnot q), fun q _ => ?_⟩⟩, fun p hp => ?_⟩
  · simp [(hb.inodes i hi).1, hfiles, hprocs]
  · simp [(hb.inodes i hi).2]
  · simp [(hb.files f hf).1, hholders]
  · rw [(hb.files f hf).2] at ht
    cases ht
  · rw [(hb.pipes q).1, (hb.pipes q).2]
  · obtain ⟨hu, hc, ho⟩ := hb.procs p hp
    refine ⟨fun fd hfd f hf => ?_, fun _ => ho, fun i hi => ?_, fun _ => hc, fun h => absurd hu h⟩
    · rw [ho fd hfd] at hf
      cases hf
    · rw [hc] at hi
      cases hi

theorem tame_inituvm (hok : Below ok) (pgdir : Nat) (init : List UInt8) : Tame ok (inituvm pgdir init) := by
  refine .ite (.panic (hok.2 _ (by decide) (by decide))) (.bind tame_kalloc fun a => ?_)
  cases a with
  | none => exact .panic (hok.2 _ (by decide) (by decide))
  | some mem =>
      refine .bind (tame_setRam _) fun _ => .bind (tame_mappages hok _ _ _ _ _) fun r => ?_
      exact .bind (.ite (.emit _) (.pure _)) fun _ => tame_setRam _

theorem namei_root_refs {r : Nat → Nat} {fs : Fs} (hok : Below ok) (h : At r R L fs) (cwd : Nat) :
    (namei cwd [slash] fs).Holds (fun _ => True)
      (fun a fs' => ∃ ip, a = some ip ∧ ip < NINODE ∧ At r (ip :: R) L fs') fun w _ => ok w := by
  unfold namei namex
  rw [holds_bind, holds_bind, if_pos (by rfl)]
  refine (iget_refs hok h _ _).mono (fun ip fs' h' => ?_) fun _ _ => id
  have hs : skipelem [slash] = none := by decide
  unfold namex.loop
  rw [hs]
  dsimp only
  rw [if_neg (by simp), holds_pure, holds_pure]
  exact ⟨ip, rfl, h'⟩

theorem userinit_between (hok : Below ok) (hb : Between t k) (initcode : List UInt8) :
    (userinit initcode k).Holds (fun _ => True) (fun _ k' => Between t k') fun w _ => ok w := by
  unfold userinit
  rw [holds_bind]
  refine (allocproc_going hb).mono (fun a k₁ h₁ => ?_) fun _ _ => id
  cases a with
  | none => dsimp only; rw [holds_panic]; exact hok.2 _ (by decide) (by decide)
  | some p =>
      obtain ⟨hg₁, he₁, -, -, -, hcwd⟩ := h₁
      dsimp only
      rw [holds_bind, holds_update, holds_bind]
      have hg₂ : Between t { k₁ with initproc := p } := ⟨hg₁.mid.congr rfl rfl rfl rfl hg₁.mid.inodes, hg₁.procs⟩
      refine hg₂.onMm (m := setupvm) tame_kalloc fun a k₂ hg₃ hs₂ => ?_
      cases a with
      | none => dsimp only; rw [holds_panic]; exact hok.2 _ (by decide) (by decide)
      | some pgdir =>
          dsimp only
          rw [holds_bind, holds_setProc, holds_bind]
          have hg₄ := hg₃.keep (x := { k₂.procs p with pgdir := pgdir }) he₁.lt rfl rfl rfl
          refine hg₄.onMm (tame_inituvm hok _ _) fun _ k₃ hg₅ hs₃ => ?_
          rw [holds_bind, holds_setProc, holds_bind]
          have hg₆ := hg₅.keep (x := { k₃.procs p with
            sz := PTE_SZ, tf := { zeroTf with spUsr := PTE_SZ }, name := safestrcpy initcodeName 16 })
              he₁.lt rfl rfl rfl
          refine hg₆.onFs ((namei_root_refs hok hg₆.at 0).mono (fun a fs' h' => ?_) fun _ _ => id)
          obtain ⟨ip, rfl, hip, hat⟩ := h'
          refine ⟨[ip], [], hat, fun k₄ hg₇ hs₄ => ?_⟩
          have hp₂ : k₂.procs p = k₁.procs p := by rw [hs₂.procs]
          have hp₃ : k₃.procs p = { k₁.procs p with pgdir := pgdir } := by
            rw [hs₃.procs, procs_withProc, if_pos rfl, hp₂]
          have hp₄ : k₄.procs p = { k₃.procs p with
              sz := PTE_SZ, tf := { zeroTf with spUsr := PTE_SZ }, name := safestrcpy initcodeName 16 } := by
            rw [hs₄.procs, procs_withProc, if_pos rfl]
          have hst : (k₄.procs p).state = .embryo := by rw [hp₄, hp₃]; exact he₁.state
          have hnone : (k₄.procs p).cwd = none := by rw [hp₄, hp₃]; exact hcwd
          rw [holds_bind, holds_setProc, holds_setProc]
          have hg₈ : Between t (withProc k₄ p { k₄.procs p with cwd := some ip }) := by
            refine hg₇.withCwd he₁.lt (by rw [hst]; simp) (by rw [hst]; simp) (v := some ip) (fun j _ => ?_) (by simp)
              (fun j e => by cases e; exact hip) (by simp) (by simp)
            rw [hnone]
            by_cases e : ip = j
            · subst e; simp
            · simp [e]
          exact Going.rise hg₈ ⟨he₁.lt, by simpa using hst⟩ (by simp)

/-- The calls that neither make a pipe nor look into a file. -/
def InScope : Call → Prop
  | .pipe _ | .read .. | .write .. | .fstat .. => False
  | _ => True

/-- A process that can make a system call. -/
def Live (k : Kstate) (p : Nat) : Prop :=
  p < NPROC ∧ (k.procs p).state ≠ .unused ∧ (k.procs p).state ≠ .embryo ∧ (k.procs p).state ≠ .zombie

/-- The states between system calls, from the first process on: any live process makes any
call, and the call returns. A call that panics has no state after it; wait sleeps before it
changes anything. -/
inductive Reachable : Kstate → Prop
  | boot {k k' : Kstate} {t : List Event} (initcode : List UInt8) (hb : Booted k)
      (hi : userinit initcode k = .ok () k' t) : Reachable k'
  | call {k k' : Kstate} {t : List Event} {r : Int} (p : Nat) (c : Call) (hr : Reachable k) (hp : Live k p)
      (hc : InScope c) (he : run c { k with cur := p } = .ok r k' t) : Reachable k'

theorem Between.switch (hb : Between t k) (p : Nat) : Between t { k with cur := p } :=
  ⟨hb.mid.congr rfl rfl rfl rfl hb.mid.inodes, hb.procs⟩

/-- A call of the file system from the current directory, without effect on files and processes. -/
theorem onFs_cwd_between {m : Nat → FsM Int} (hb : Between t k) (hr : Running k)
    (hm : ∀ cwd < NINODE, ∀ fs, At (users k) [] [] fs →
      (m cwd fs).Holds (fun _ => True) (fun _ fs' => At (users k) [] [] fs') fun w _ => ok w) :
    ((do
      let p ← proc
      onFs (m (p.cwd.getD 0)) : KM Int) k).Holds (fun _ => True) (fun _ k' => Between t k') fun w _ => ok w := by
  unfold proc
  rw [holds_bind, holds_bind, holds_fetch, holds_pure]
  exact hb.onFs_refs (hm _ (hb.cwd hr.cur) k.fs hb.at) fun _ _ hg' _ => hg'

theorem run_between (hok : Below ok) (hb : Between t k) (hr : Running k) (c : Call) (hc : InScope c) :
    (run c k).Holds (fun _ => True) (fun _ k' => Between t k') fun w _ => ok w := by
  cases c with
  | fork => exact fork_between hok hb hr
  | exit =>
      unfold run
      rw [holds_bind]
      refine (exit_between hok hb hr).mono (fun _ k' h' => ?_) fun _ _ => id
      rw [holds_pure]
      exact h'
  | wait => exact wait_between hok hb
  | pipe => cases hc
  | read => cases hc
  | kill pid => exact kill_between hb pid
  | exec path argv elf0 ph0 => exact exec_between hok hb hr path argv elf0 ph0
  | fstat => cases hc
  | chdir path => exact sysChdir_between hok hb hr path
  | dup fd => exact sysDup_between hb hr fd
  | getpid =>
      unfold run proc
      rw [holds_bind, holds_bind, holds_fetch, holds_pure, holds_pure]
      exact hb
  | sbrk n => exact sysSbrk_between hok hb hr n
  | «open» path omode => exact sysOpen_between hok hb hr path omode
  | write => cases hc
  | mknod path major minor =>
      exact onFs_cwd_between hb hr fun cwd hcwd _ h => makeNode_refs hok hcwd h path _ _ _
  | unlink path => exact onFs_cwd_between hb hr fun cwd hcwd _ h => sysUnlink_refs hok hcwd h path
  | link old new => exact onFs_cwd_between hb hr fun cwd hcwd _ h => sysLink_refs hok hcwd h old new
  | mkdir path => exact onFs_cwd_between hb hr fun cwd hcwd _ h => makeNode_refs hok hcwd h path _ _ _
  | close fd => exact sysClose_between hok hb hr fd

theorem below_true : Below fun _ => True := ⟨trivial, fun _ _ _ => trivial⟩

theorem Reachable.between (h : Reachable k) : Between True k := by
  induction h with
  | boot initcode hb hi =>
      have := userinit_between (t := True) below_true hb.between initcode
      rw [hi] at this
      exact this fun _ _ => trivial
  | @call k k' t r p c _ hp hc he ih =>
      have hr : Running { k with cur := p } := ⟨hp.1, hp.2.1, hp.2.2.1, hp.2.2.2⟩
      have := run_between below_true (Between.switch ih p) hr c hc
      rw [he] at this
      exact this fun _ _ => trivial

theorem inode_reference_conservation (h : Reachable k) (i : Nat) (hi : i < NINODE) :
    (k.fs.icache i).ref = fileUsers k i + procUsers k i ∧ (k.fs.icache i).busy = false := by
  have hat := h.between.at
  constructor
  · simpa [users] using hat.ref i hi
  · have := hat.busy i hi
    simpa using this

/-- Nothing is in use and eight frames are free. -/
def freshKernel : Kstate where
  mm := ⟨.zero, (List.range 8).map fun n => 0x800000 + n * FRAME, 0x100000⟩
  fs :=
    { blk := fun _ => .zero, disksize := 1024, held := [], dirty := [], log := ⟨1014, 10, false, []⟩
      icache := fun _ => ⟨0, 0, 0, false, false, ⟨0, 0, 0, 0, 0, fun _ => 0⟩⟩
      input := [] }
  ftable := fun _ => ⟨.none, 0, false, false, 0, 0, 0⟩
  pipes := fun _ => ⟨fun _ => 0, 0, 0, false, false⟩
  procs := fun _ => ⟨0, 0, 0, .unused, 0, none, zeroTf, false, fun _ => none, none, []⟩
  nextpid := 1
  initproc := 0
  cur := 0
  exstacks := []
  piped := fun _ => 0
  unpiped := fun _ => 0

theorem booted_freshKernel : Booted freshKernel :=
  ⟨fun _ _ => ⟨rfl, rfl⟩, fun _ _ => ⟨rfl, rfl, fun _ _ => rfl⟩, fun _ _ => ⟨rfl, rfl⟩, fun _ => ⟨rfl, rfl⟩⟩

/-- The first process has been made. -/
def firstProc : Kstate := (userinit [] freshKernel).state

/-- It has forked. -/
def afterFork : Kstate := (run .fork { firstProc with cur := 0 }).state

theorem reachable_firstProc : Reachable firstProc := by
  obtain ⟨a, h⟩ := Run.eq_ok (r := userinit [] freshKernel) (by decide +kernel)
  exact .boot [] booted_freshKernel h

theorem reachable_afterFork : Reachable afterFork := by
  obtain ⟨a, h⟩ := Run.eq_ok (r := run .fork { firstProc with cur := 0 }) (by decide +kernel)
  refine .call 0 .fork reachable_firstProc ⟨by decide, ?_, ?_, ?_⟩ trivial h <;> decide +kernel

theorem inode_reference_conservation_fork :
    (afterFork.fs.icache 0).ref = 2 ∧ fileUsers afterFork 0 + procUsers afterFork 0 = 2 := by
  have h := inode_reference_conservation reachable_afterFork 0 (by decide)
  have href : (afterFork.fs.icache 0).ref = 2 := by decide +kernel
  exact ⟨href, h.1.symm.trans href⟩

end ArmXv6.References
