import ArmXv6.PipeRefs

namespace ArmXv6.ProcRefs

open Lib.Exec Lib.Bytes Lib.Count Param Blocks Fs Content Sysfile Vm Kernel Proc Exec Descriptors Syscall
open Quiet InodeRefs MemoryStops FileRefs CallRefs

variable {t : Prop} {H R L : List Nat} {k k' : Kstate} {p q f np ip : Nat} {x : Kernel.Proc} {ok : Stop → Prop}

theorem slots_of_none (h : ∀ fd < NOFILE, x.ofile fd = none) (g : Nat) : slots x g = 0 := by
  unfold FileRefs.slots
  rw [List.countP_eq_zero]
  intro fd hfd
  simp [h fd (List.mem_range.mp hfd)]

theorem dirIs_of_none (h : x.cwd = none) (i : Nat) : DirIs x i = false := by simp [DirIs, h]

theorem Going.blank (hg : Going t H R L k) (hp : p < NPROC) (hf : ∀ fd < NOFILE, (k.procs p).ofile fd = none)
    (hc : (k.procs p).cwd = none) (ho : x.ofile = (k.procs p).ofile) (hxc : x.cwd = none)
    (hs : x.state = .unused ∨ x.state = .embryo ∨ x.state = .zombie) : Going t H R L (withProc k p x) := by
  have hxf : ∀ fd < NOFILE, x.ofile fd = none := by rw [ho]; exact hf
  refine ⟨Mid.neutral hg.mid hp (fun g => ?_) (fun i => ?_),
    procs_ok_withProc hg.procs ⟨?_, fun _ => hxf, ?_, fun _ => hxc, ?_⟩⟩
  · rw [slots_of_none hxf, slots_of_none hf]
  · rw [dirIs_of_none hxc, dirIs_of_none hc]
  · intro fd hfd g hg'
    rw [hxf fd hfd] at hg'
    cases hg'
  · intro i hi
    rw [hxc] at hi
    cases hi
  · intro h₁ h₂ h₃
    rcases hs with e | e | e
    · exact absurd e h₁
    · exact absurd e h₂
    · exact absurd e h₃

structure Others (np : Nat) (k k' : Kstate) : Prop where
  cur : k'.cur = k.cur
  initproc : k'.initproc = k.initproc
  procs : ∀ q, q ≠ np → k'.procs q = k.procs q

theorem Others.refl (np : Nat) (k : Kstate) : Others np k k := ⟨rfl, rfl, fun _ _ => rfl⟩

theorem Others.trans {k'' : Kstate} (h : Others np k k') (h' : Others np k' k'') : Others np k k'' :=
  ⟨h'.cur.trans h.cur, h'.initproc.trans h.initproc, fun q e => (h'.procs q e).trans (h.procs q e)⟩

theorem Others.withProc : Others np k (CallRefs.withProc k np x) := ⟨rfl, rfl, fun q e => by simp [e]⟩

theorem SameProcs.others (h : SameProcs k k') : Others np k k' := ⟨h.cur, h.initproc, fun q _ => by rw [h.procs]⟩

theorem Others.running (h : Others np k k') (hr : Running k) (hn : np ≠ k.cur) : Running k' := by
  have e := h.procs k.cur (Ne.symm hn)
  refine ⟨by rw [h.cur]; exact hr.cur, ?_, ?_, ?_⟩ <;> rw [h.cur, e]
  · exact hr.unused
  · exact hr.embryo
  · exact hr.zombie

structure Embryo (np : Nat) (k : Kstate) : Prop where
  lt : np < NPROC
  state : (k.procs np).state = .embryo

theorem Going.rise (hg : Going t H R L k) (he : Embryo p k) (hc : (k.procs p).cwd ≠ none) :
    Going t H R L (withProc k p { k.procs p with state := .runnable }) := by
  refine ⟨Mid.neutral hg.mid he.lt (slots_congr rfl (by simp [he.state])) (dirIs_congr rfl (by simp [he.state])), ?_⟩
  have h₀ := hg.procs p he.lt
  have hlive : ¬((ProcState.runnable = .unused) ∨ (ProcState.runnable = .zombie)) := by decide
  exact procs_ok_withProc hg.procs ⟨h₀.slots, fun e => absurd e hlive, h₀.cwd, fun e => absurd e hlive, fun _ _ _ => hc⟩

theorem allocproc_going (hb : Between t k) :
    (Proc.allocproc k).Holds (fun _ => True)
      (fun a k' => match a with
        | none => Between t k'
        | some np => Between t k' ∧ Embryo np k' ∧ (k.procs np).state = .unused ∧ Others np k k' ∧
          (∀ fd < NOFILE, (k'.procs np).ofile fd = none) ∧ (k'.procs np).cwd = none) fun w _ => ok w := by
  unfold Proc.allocproc
  rw [holds_bind, holds_fetch]
  cases hs : (List.range NPROC).find? fun p => (k.procs p).state = .unused with
  | none => dsimp only; rw [holds_pure]; exact hb
  | some p =>
      have hp : p < NPROC := List.mem_range.mp (List.mem_of_find?_eq_some hs)
      have hu : (k.procs p).state = .unused := by simpa using List.find?_some hs
      have hfree := (hb.procs p hp).free (.inl hu)
      have hcwd := (hb.procs p hp).idle (.inl hu)
      dsimp only
      rw [holds_bind, holds_setProc, holds_bind, holds_update, holds_bind]
      have hg₁ : Between t (withProc k p { k.procs p with state := .embryo, pid := k.nextpid }) :=
        Going.blank hb hp hfree hcwd rfl hcwd (.inr (.inl rfl))
      have hg₂ :
          Between t
          { withProc k p { k.procs p with state := .embryo, pid := k.nextpid } with nextpid := k.nextpid + 1 } :=
        hg₁.same (hg₁.mid.congr rfl rfl rfl rfl hg₁.mid.inodes) ⟨rfl, rfl, rfl⟩
      refine hg₂.onMm tame_kalloc fun a k₁ hg₃ hs₁ => ?_
      have ho : Others p k k₁ :=
        (show Others p k (withProc k p { k.procs p with state := .embryo, pid := k.nextpid })
          from Others.withProc).trans
          ⟨hs₁.cur, hs₁.initproc, fun q _ => by rw [hs₁.procs]⟩
      have hp₁ : k₁.procs p = { k.procs p with state := .embryo, pid := k.nextpid } := by
        rw [hs₁.procs]
        exact Function.update_self ..
      cases a with
      | none =>
          dsimp only
          rw [holds_bind, holds_setProc, holds_pure]
          exact Going.blank hg₃ hp (by rw [hp₁]; exact hfree) (by rw [hp₁]; exact hcwd) rfl
            (by rw [hp₁]; exact hcwd) (.inl rfl)
      | some stack =>
          dsimp only
          rw [holds_bind, holds_setProc, holds_pure]
          refine ⟨hg₃.keep hp rfl rfl rfl, ⟨hp, ?_⟩, hu, ho.trans Others.withProc, ?_, ?_⟩
          · simp [hp₁]
          · simpa [hp₁] using hfree
          · simpa [hp₁] using hcwd

theorem dupFiles_going (l : List Nat) (hl : ∀ i ∈ l, i < NOFILE) (hd : l.Nodup) (hb : Between t k)
    (hr : Running k) (he : Embryo np k) (hn : np ≠ k.cur) (hfree : ∀ i ∈ l, (k.procs np).ofile i = none) :
    (fork.dupFiles np l k).Holds (fun _ => True)
      (fun _ k' => Between t k' ∧ Embryo np k' ∧ Others np k k' ∧ (k'.procs np).cwd = (k.procs np).cwd) fun w _ =>
        ok w := by
  induction l generalizing k with
  | nil =>
      unfold fork.dupFiles
      rw [holds_pure]
      exact ⟨hb, he, .refl np k, rfl⟩
  | cons i l ih =>
      unfold fork.dupFiles
      rw [holds_bind, holds_fetch, holds_bind]
      have hl' : ∀ j ∈ l, j < NOFILE := fun j hj => hl j (List.mem_cons_of_mem _ hj)
      have hd' := (List.nodup_cons.mp hd).2
      cases hf : (k.procs k.cur).ofile i with
      | none =>
          dsimp only
          rw [holds_pure]
          exact ih hl' hd' hb hr he hn fun j hj => hfree j (List.mem_cons_of_mem _ hj)
      | some f =>
          dsimp only
          have hi := hl i List.mem_cons_self
          obtain ⟨hlt, hpos⟩ := hb.file hr hi hf
          rw [holds_bind]
          refine (filedup_mid hb.mid hlt (by simpa using hpos)).mono (fun a k₁ h₁ => ?_) fun _ _ => id
          obtain ⟨rfl, hm₁, hs₁, -⟩ := h₁
          have hg₁ : Going t [a] [] [] k₁ := hb.same hm₁ hs₁
          have hst : (k₁.procs np).state = .embryo := by rw [hs₁.procs]; exact he.state
          have hnone : (k₁.procs np).ofile i = none := by rw [hs₁.procs]; exact hfree i List.mem_cons_self
          have hg₂ := hg₁.store he.lt (by rw [hst]; simp) (by rw [hst]; simp) hi hnone
          have ho₁ : Others np k k₁ := SameProcs.others hs₁
          have ho₂ : Others np k (withProc k₁ np (withFd (k₁.procs np) i (some a))) := ho₁.trans Others.withProc
          rw [holds_setProc]
          refine (ih hl' hd' hg₂ (ho₂.running hr hn) ⟨he.lt, ?_⟩ (by rw [ho₂.cur]; exact hn) ?_).mono
            (fun _ k₂ h₂ => ?_) fun _ _ => id
          · simpa [withFd] using hst
          · intro j hj
            have hij : j ≠ i := fun e => (List.nodup_cons.mp hd).1 (e ▸ hj)
            have := hfree j (List.mem_cons_of_mem _ hj)
            rw [← hs₁.procs] at this
            simpa [withFd, hij] using this
          · obtain ⟨h₁, h₂, h₃, h₄⟩ := h₂
            refine ⟨h₁, h₂, ho₂.trans h₃, h₄.trans ?_⟩
            rw [procs_withProc, if_pos rfl, hs₁.procs]
            rfl

theorem fork_between (hok : Below ok) (hb : Between t k) (hr : Running k) :
    (Proc.fork k).Holds (fun _ => True) (fun _ k' => Between t k') fun w _ => ok w := by
  unfold Proc.fork
  rw [holds_bind]
  refine (allocproc_going hb).mono (fun a k₁ h₁ => ?_) fun _ _ => id
  cases a with
  | none => dsimp only; rw [holds_pure]; exact h₁
  | some np =>
      obtain ⟨hg₁, he₁, hu, ho₁, hfree, hcwd⟩ := h₁
      have hn : np ≠ k.cur := by
        rintro rfl
        exact hr.unused hu
      have hr₁ := ho₁.running hr hn
      have hn₁ : np ≠ k₁.cur := by rw [ho₁.cur]; exact hn
      obtain ⟨i, hi⟩ := Option.ne_none_iff_exists'.mp ((hg₁.procs _ hr₁.cur).home hr₁.unused hr₁.embryo hr₁.zombie)
      dsimp only
      rw [holds_bind, holds_fetch, holds_bind]
      refine hg₁.onMm (tame_copyuvm hok _ _) fun a k₂ hg₂ hs₂ => ?_
      have hp₂ : k₂.procs = k₁.procs := hs₂.procs
      cases a with
      | none =>
          dsimp only
          rw [holds_bind]
          refine hg₂.onMm (tame_kfree hok _) fun _ k₃ hg₃ hs₃ => ?_
          have hp₃ : k₃.procs = k₁.procs := hs₃.procs.trans hp₂
          rw [holds_bind, holds_setProc, holds_pure]
          exact Going.blank hg₃ he₁.lt (by rw [hp₃]; exact hfree) (by rw [hp₃]; exact hcwd) rfl
            (by rw [hp₃]; exact hcwd) (.inl rfl)
      | some pgdir =>
          dsimp only
          rw [holds_bind, holds_setProc, holds_bind, hp₂]
          have hg₃ : Between t (withProc k₂ np { k₁.procs np with
              pgdir := pgdir
              sz := (k₁.procs k₁.cur).sz
              parent := some k₁.cur
              tf := { (k₁.procs k₁.cur).tf with r := Function.update (k₁.procs k₁.cur).tf.r 0 0 } }) :=
            hg₂.keep he₁.lt (by rw [hp₂]) (by rw [hp₂]) (by rw [hp₂])
          have ho₃ : Others np k₁ (withProc k₂ np { k₁.procs np with
              pgdir := pgdir
              sz := (k₁.procs k₁.cur).sz
              parent := some k₁.cur
              tf := { (k₁.procs k₁.cur).tf with r := Function.update (k₁.procs k₁.cur).tf.r 0 0 } }) :=
            (SameProcs.others hs₂).trans Others.withProc
          refine (dupFiles_going (List.range NOFILE) (fun _ => List.mem_range.mp) List.nodup_range hg₃
            (ho₃.running hr₁ hn₁) ⟨he₁.lt, by simpa using he₁.state⟩ (by rw [ho₃.cur]; exact hn₁) ?_).mono
            (fun _ k₄ h₄ => ?_) fun _ _ => id
          · intro j hj
            simpa using hfree j (List.mem_range.mp hj)
          obtain ⟨hg₄, he₄, ho₄, hc₄⟩ := h₄
          have hcwd₄ : (k₄.procs np).cwd = none := by rw [hc₄]; simpa using hcwd
          rw [hi]
          dsimp only
          rw [holds_bind, holds_bind]
          have hi' := (hg₁.procs _ hr₁.cur).cwd i hi
          refine hg₄.onFs
            ((idup_refs hg₄.at hi').mono (fun a fs' h' => ⟨[i], [], h'.2, fun k₅ hg₅ hs₅ => ?_⟩) fun _ _ => id)
          obtain ⟨rfl, -⟩ := h'
          have hst₅ : (k₅.procs np).state = .embryo := by rw [hs₅.procs]; exact he₄.state
          have hcwd₅ : (k₅.procs np).cwd = none := by rw [hs₅.procs]; exact hcwd₄
          rw [holds_setProc, holds_bind, holds_setProc, holds_bind, holds_setProc, holds_pure]
          have hg₆ : Between t (withProc k₅ np { k₅.procs np with cwd := some a }) := by
            refine hg₅.withCwd he₁.lt (by rw [hst₅]; simp) (by rw [hst₅]; simp) (v := some a) (fun j _ => ?_) (by simp)
              (fun j e => by cases e; exact hi') (by simp) (by simp)
            rw [hcwd₅]
            by_cases e : a = j
            · subst e; simp
            · simp [e]
          have hg₇ := hg₆.keep (x := { (withProc k₅ np { k₅.procs np with cwd := some a }).procs np with
            name := safestrcpy (k₁.procs k₁.cur).name 16 }) he₁.lt rfl rfl rfl
          exact Going.rise hg₇ ⟨he₁.lt, by simpa using hst₅⟩ (by simp)

theorem closeFiles_going (hok : Below ok) (l : List Nat) (hl : ∀ i ∈ l, i < NOFILE) (hb : Between t k)
    (hr : Running k) :
    (exit.closeFiles l k).Holds (fun _ => True)
      (fun _ k' => Between t k' ∧ Running k' ∧ k'.cur = k.cur ∧ k'.initproc = k.initproc ∧
        (k'.procs k.cur).cwd = (k.procs k.cur).cwd ∧ (∀ i ∈ l, (k'.procs k.cur).ofile i = none) ∧
        ∀ i, (k.procs k.cur).ofile i = none → (k'.procs k.cur).ofile i = none) fun w _ => ok w := by
  induction l generalizing k with
  | nil =>
      unfold exit.closeFiles
      rw [holds_pure]
      exact ⟨hb, hr, rfl, rfl, rfl, by simp, fun _ => id⟩
  | cons i l ih =>
      unfold exit.closeFiles
      rw [holds_bind, holds_fetch, holds_bind]
      have hl' : ∀ j ∈ l, j < NOFILE := fun j hj => hl j (List.mem_cons_of_mem _ hj)
      cases hf : (k.procs k.cur).ofile i with
      | none =>
          dsimp only
          rw [holds_pure]
          refine (ih hl' hb hr).mono (fun _ k' h' => ?_) fun _ _ => id
          obtain ⟨h₁, h₂, h₃, h₄, h₅, h₆, h₇⟩ := h'
          refine ⟨h₁, h₂, h₃, h₄, h₅, fun j hj => ?_, h₇⟩
          rcases List.mem_cons.mp hj with rfl | hj
          · exact h₇ j hf
          · exact h₆ j hj
      | some f =>
          dsimp only
          have hi := hl i List.mem_cons_self
          obtain ⟨hlt, hpos⟩ := hb.file hr hi hf
          -- the close comes before the descriptor is cleared, so the reference is set aside first
          have hm₀ : Mid t (fun g => holders k g - if g = f then 1 else 0) (procUsers k) [f] [] [] k := by
            refine Mid.rebase hb.mid (fun g _ => ?_) (by simpa using hlt) (fun _ _ => rfl) (by simp) (by simp)
            by_cases e : g = f
            · subst e
              simp
              omega
            · simp [e, Ne.symm e]
          rw [holds_bind]
          refine (fileclose_mid hok hm₀).mono (fun _ k₁ h₁ => ?_) fun _ _ => id
          obtain ⟨hm₁, hs₁⟩ := h₁
          rw [holds_setProc]
          have hself : (k₁.procs k.cur) = k.procs k.cur := by rw [hs₁.procs]
          have hg₂ : Between t (withProc k₁ k.cur (withFd (k.procs k.cur) i none)) := by
            refine ⟨Mid.rebase (Mid.procs hm₁) (fun g _ => ?_) (by simp) (fun j _ => ?_) (by simp) (by simp), ?_⟩
            · have h₁ := holders_withProc (k := k₁) hr.cur (withFd (k.procs k.cur) i none) g
              have h₂ := slots_withFd hi hr.unused none g
              rw [hself, holders_congr hs₁.procs] at h₁
              rw [hf] at h₂
              by_cases e : g = f
              · subst e
                simp at h₂ ⊢
                omega
              · simp [e, Ne.symm e] at h₂ ⊢
                omega
            · have h₁ := procUsers_withProc (k := k₁) hr.cur (withFd (k.procs k.cur) i none) j
              have e : DirIs (withFd (k.procs k.cur) i none) j = DirIs (k.procs k.cur) j := rfl
              rw [hself, procUsers_congr hs₁.procs, e] at h₁
              simp
              omega
            · exact procs_ok_withProc (by rw [hs₁.procs]; exact hb.procs)
                (procOk_withFd (hb.procs _ hr.cur) hr.unused hr.zombie (by simp))
          have hr₂ : Running (withProc k₁ k.cur (withFd (k.procs k.cur) i none)) := by
            have hcur : (withProc k₁ k.cur (withFd (k.procs k.cur) i none)).cur = k.cur := hs₁.cur
            refine ⟨by rw [hcur]; exact hr.cur, ?_, ?_, ?_⟩ <;> rw [hcur, procs_withProc, if_pos rfl]
            · exact hr.unused
            · exact hr.embryo
            · exact hr.zombie
          rw [hself]
          refine (ih hl' hg₂ hr₂).mono (fun _ k' h' => ?_) fun _ _ => id
          have hcur : (withProc k₁ k.cur (withFd (k.procs k.cur) i none)).cur = k.cur := hs₁.cur
          rw [hcur] at h'
          obtain ⟨h₁, h₂, h₃, h₄, h₅, h₆, h₇⟩ := h'
          rw [procs_withProc, if_pos rfl] at h₅ h₇
          refine ⟨h₁, h₂, h₃, h₄.trans hs₁.initproc, h₅, fun j hj => ?_, fun j hj => h₇ j ?_⟩
          · rcases List.mem_cons.mp hj with rfl | hj
            · exact h₇ j (by simp [withFd])
            · exact h₆ j hj
          · by_cases e : j = i
            · simp [withFd, e]
            · simpa [withFd, e] using hj

theorem going_reparent (hm : Mid t (holders k) (procUsers k) H R L k) :
    Mid t (holders (exit.reparent k)) (procUsers (exit.reparent k)) H R L (exit.reparent k) := by
  have hp : ∀ q, ((exit.reparent k).procs q).ofile = (k.procs q).ofile ∧
      ((exit.reparent k).procs q).state = (k.procs q).state ∧ ((exit.reparent k).procs q).cwd = (k.procs q).cwd := by
    intro q
    unfold exit.reparent
    dsimp only
    split <;> exact ⟨rfl, rfl, rfl⟩
  have hh : holders (exit.reparent k) = holders k := by
    funext g
    unfold holders
    congr 1
    refine List.map_congr_left fun q _ => slots_congr (hp q).1 (by rw [(hp q).2.1]) g
  have hu : procUsers (exit.reparent k) = procUsers k := by
    funext i
    refine List.countP_congr fun q _ => ?_
    rw [(hp q).2.1, (hp q).2.2]
  rw [hh, hu]
  exact hm.congr rfl rfl rfl rfl hm.inodes

theorem exit_between (hok : Below ok) (hb : Between t k) (hr : Running k) :
    (Proc.exit k).Holds (fun _ => True) (fun _ k' => Between t k') fun w _ => ok w := by
  unfold Proc.exit
  rw [holds_bind, holds_fetch, holds_ite]
  refine ⟨fun _ => by rw [holds_panic]; exact hok.2 _ (by decide) (by decide), fun _ => ?_⟩
  rw [holds_bind]
  refine (closeFiles_going hok (List.range NOFILE) (fun _ => List.mem_range.mp) hb hr).mono
    (fun _ k₁ h₁ => ?_) fun _ _ => id
  obtain ⟨hg₁, hr₁, hcur₁, -, hcwd₁, hfree₁, -⟩ := h₁
  obtain ⟨i, hi⟩ := Option.ne_none_iff_exists'.mp ((hb.procs _ hr.cur).home hr.unused hr.embryo hr.zombie)
  rw [hi]
  dsimp only
  rw [holds_bind]
  have hc₁ : (k₁.procs k₁.cur).cwd = some i := by rw [hcur₁, hcwd₁, hi]
  have hnil : ∀ j < NINODE, [].count j = (if none = some j then 1 else 0) + [].count j := fun j _ => by simp
  refine (iput_cwd hok hg₁ hr₁ hc₁ none hnil (by simp) (by simp)).mono (fun _ k₂ h₂ => ?_) fun _ _ => id
  obtain ⟨hs₂, hm₂⟩ := h₂
  rw [holds_bind, holds_setProc, holds_bind, holds_update, holds_setProc, ← hcur₁, hs₂.procs]
  have hm₃ := going_reparent (hm₂ _ rfl)
  -- the process without files and directory becomes a zombie
  have hself : ((exit.reparent (withProc k₂ k₁.cur { k₁.procs k₁.cur with cwd := none })).procs k₁.cur).ofile =
      (k₁.procs k₁.cur).ofile ∧
      ((exit.reparent (withProc k₂ k₁.cur { k₁.procs k₁.cur with cwd := none })).procs k₁.cur).cwd = none := by
    unfold exit.reparent
    dsimp only
    rw [procs_withProc, if_pos rfl]
    split <;> exact ⟨rfl, rfl⟩
  have hfree : ∀ fd < NOFILE,
      ((exit.reparent (withProc k₂ k₁.cur { k₁.procs k₁.cur with cwd := none })).procs k₁.cur).ofile fd = none := by
    intro fd hfd
    rw [hself.1, hcur₁]
    exact hfree₁ fd (List.mem_range.mpr hfd)
  refine ⟨Mid.neutral hm₃ hr₁.cur (fun g => ?_) (fun j => ?_), fun q hq => ?_⟩
  · rw [slots_of_none hfree, slots_of_none (x := { (exit.reparent (withProc k₂ k₁.cur
      { k₁.procs k₁.cur with cwd := none })).procs k₁.cur with state := .zombie }) hfree]
  · rw [dirIs_of_none hself.2, dirIs_of_none (x := { (exit.reparent (withProc k₂ k₁.cur
      { k₁.procs k₁.cur with cwd := none })).procs k₁.cur with state := .zombie }) hself.2]
  · rw [procs_withProc]
    split
    case isTrue e =>
        refine ⟨fun fd hfd g hg' => ?_, fun _ => hfree, fun j hj => ?_, fun _ => hself.2, fun _ _ hz => absurd rfl hz⟩
        · rw [show ({ (exit.reparent (withProc k₂ k₁.cur { k₁.procs k₁.cur with cwd := none })).procs k₁.cur with
            state := .zombie } : Kernel.Proc).ofile fd = none from hfree fd hfd] at hg'
          cases hg'
        · rw [show ({ (exit.reparent (withProc k₂ k₁.cur { k₁.procs k₁.cur with cwd := none })).procs k₁.cur with
            state := .zombie } : Kernel.Proc).cwd = none from hself.2] at hj
          cases hj
    case isFalse e =>
        have h₀ := hg₁.procs q hq
        unfold exit.reparent
        dsimp only
        rw [procs_withProc, if_neg e, hs₂.procs]
        split <;> exact ⟨h₀.slots, h₀.free, h₀.cwd, h₀.idle, h₀.home⟩

end ArmXv6.ProcRefs
