import ArmXv6.OpenFiles
import ArmXv6.FileAccess

namespace ArmXv6.OpenCalls

open Lib.Exec Lib.Bytes Lib.Count Param Blocks Fs Content Sysfile Vm Kernel Proc Exec Descriptors Syscall
  DiskImage BlockSpecs
  BlockAlloc Ownership BlockMap FileData InodeSpecs Directory PathWalk SysfileSpecs CreateSpecs FileRefs
    CallRefs ProcRefs
  References Chunks FileAccess OpenFiles

variable {t : Prop} {v : Volume} {A A' : Image} {fs fs' : Fs} {k k' : Kstate} {ip i f p np : Nat} {b : Bool}
  {L : List Nat}
  {G : Event → Prop}

/-- Between two steps of the kernel outside a transaction, for some image. -/
def Good (v : Volume) (k : Kstate) : Prop := ∃ A, Fine v A false k

theorem Good.congr (h : Good v k) (hf : k'.ftable = k.ftable) (hfs : k'.fs = k.fs) : Good v k' := by
  obtain ⟨A, h⟩ := h
  exact ⟨A, h.congr hf hfs⟩

theorem begin_fine (h : Fine v A b k) :
    Ran (beginTrans k.fs) fun _ fs' => Fine v A true { k with fs := fs' } ∧ fs'.icache = k.fs.icache := by
  refine (begin_spec h.sane.sound lenient_any).mono ?_ fun _ _ => id
  rintro _ fs' ⟨hs, hc, hb⟩
  exact ⟨h.served (served_same h.sane hs (refs_sameCache hc)) hb, hc⟩

theorem commit_fine (h : Fine v A b k) :
    Ran (commitTrans k.fs) fun _ fs' => Fine v A false { k with fs := fs' } ∧ fs'.icache = k.fs.icache := by
  refine (commit_spec h.sane lenient_any).mono ?_ fun _ _ => id
  rintro _ fs' ⟨hs, hc, hb⟩
  exact ⟨h.served ⟨hs, refs_sameCache hc, fun _ _ _ => rfl⟩ hb, hc⟩

theorem pipeclose_good (h : Good v k) (q : Nat) (w : Bool) :
    Ran (pipeclose q w k) fun _ k' => Good v k' ∧ SameProcs k k' := by
  have hend : ∀ k', k'.ftable = k.ftable → k'.fs = k.fs → SameProcs k k' → Ran ((do
      let k ← fetch
      if ¬(k.pipes q).readopen ∧ ¬(k.pipes q).writeopen then do
        countUnpiped q
        onMm (kfree q)
      else pure () : KM Unit) k') fun _ k' => Good v k' ∧ SameProcs k k' := by
    intro k' hf hfs hs
    unfold Ran
    rw [holds_bind, holds_fetch, holds_ite]
    refine ⟨fun _ => ?_, fun _ => by rw [holds_pure]; exact ⟨h.congr hf hfs, hs⟩⟩
    unfold countUnpiped
    rw [holds_bind, holds_update]
    exact ran_onMm fun _ mm => ⟨h.congr hf hfs, hs.procs, hs.cur, hs.initproc⟩
  unfold pipeclose Ran
  rw [holds_bind, holds_ite]
  unfold setPipe
  rw [holds_update, holds_update]
  exact ⟨fun _ => hend _ rfl rfl ⟨rfl, rfl, rfl⟩, fun _ => hend _ rfl rfl ⟨rfl, rfl, rfl⟩⟩

theorem fileclose_good (h : Good v k) (hf : f < NFILE) :
    Ran (fileclose f k) fun _ k' => Good v k' ∧ SameProcs k k' := by
  obtain ⟨A, h⟩ := h
  unfold fileclose Ran
  rw [holds_bind, holds_fetch, holds_ite]
  refine ⟨fun _ => by rw [holds_panic]; trivial, fun hpos => ?_⟩
  rw [holds_ite]
  refine ⟨fun hmore => ?_, fun hlast => ?_⟩
  · unfold setFile
    rw [holds_update]
    refine ⟨⟨A, h.withFile hf (fun hz => ?_) (fun ht => .inl ⟨ht, rfl, id⟩) fun ht => (h.index f hf ht).2⟩,
      rfl, rfl, rfl⟩
    change (k.ftable f).ref - 1 = 0 at hz
    omega
  · have hr : (k.ftable f).ref = 1 := by omega
    rw [holds_bind, setFile_apply]
    intro _
    have h₁ : Fine v A false (withFile k f (closedFile (k.ftable f))) :=
      h.withFile hf (fun _ => rfl) (fun ht => by simp [closedFile] at ht) fun ht => by simp [closedFile] at ht
    cases ht : (k.ftable f).type with
    | pipe =>
        dsimp only
        exact (pipeclose_good ⟨A, h₁⟩ _ _).mono (fun _ _ h' => ⟨h'.1, h'.2.procs, h'.2.cur, h'.2.initproc⟩) fun _ _ =>
          id
    | none =>
        dsimp only
        rw [holds_pure]
        exact ⟨⟨A, h₁⟩, rfl, rfl, rfl⟩
    | inode =>
        dsimp only
        have hip := (h.index f hf ht).1
        -- the file itself was one of those that keep the entry
        have hu : fileUsers (withFile k f (closedFile (k.ftable f))) (k.ftable f).ip <
            (k.fs.icache (k.ftable f).ip).ref := by
          have h₂ := fileUsers_withFile (k := k) hf (closedFile (k.ftable f)) (k.ftable f).ip
          have hkeep : Keeps (k.ftable f) (k.ftable f).ip = true := by simp [Keeps, hr, ht]
          rw [closedFile_keeps, hkeep] at h₂
          simp only [if_true, Bool.false_eq_true, if_false, Nat.add_zero] at h₂
          have := h.bound _ hip
          omega
        rw [holds_onFs, holds_bind]
        refine (begin_fine h₁).mono ?_ fun _ _ => id
        rintro _ fs₁ ⟨h₂, hc₁⟩
        rw [holds_bind]
        refine (iput_spec h₂.sane.sound lenient_any hip (.inr (.inr fun _ => trivial))).mono ?_ fun _ _ => id
        rintro _ fs₂ ⟨A₂, hd⟩
        have hu₁ : fileUsers { withFile k f (closedFile (k.ftable f)) with fs := fs₁ } (k.ftable f).ip <
            (fs₁.icache (k.ftable f).ip).ref := by
          rw [hc₁]
          exact hu
        have h₃ := Fine.dropped h₂ hip hu₁ hd
        refine (commit_fine h₃).mono ?_ fun _ _ => id
        rintro _ fs₃ ⟨h₄, -⟩
        exact ⟨⟨A₂, h₄⟩, rfl, rfl, rfl⟩

theorem filealloc_fine (h : Fine v A b k) :
    Ran (filealloc k) fun a k' => SameProcs k k' ∧ k'.fs = k.fs ∧ Fine v A b k' ∧ match a with
      | none => k' = k
      | some f => f < NFILE ∧ (k.ftable f).ref = 0 ∧ (k'.ftable f).ref = 1 ∧ (k'.ftable f).type = .none ∧
          (∀ g, g ≠ f → k'.ftable g = k.ftable g) ∧ fileUsers k' = fileUsers k := by
  unfold filealloc Ran
  rw [holds_bind, holds_fetch]
  cases hs : (List.range NFILE).find? fun f => (k.ftable f).ref = 0 with
  | none =>
      dsimp only
      rw [holds_pure]
      exact ⟨.refl k, rfl, h, rfl⟩
  | some f =>
      have hf : f < NFILE := List.mem_range.mp (List.mem_of_find?_eq_some hs)
      have hz : (k.ftable f).ref = 0 := by simpa using List.find?_some hs
      have ht := h.closed f hf hz
      dsimp only
      unfold setFile
      rw [holds_bind, holds_update, holds_pure]
      refine ⟨⟨rfl, rfl, rfl⟩, rfl, ?_, hf, hz, ?_, ?_, fun g e => Function.update_of_ne e _ _,
        fileUsers_withFile_of_eq (x := { k.ftable f with ref := 1 }) hf fun i => by simp [Keeps, ht]⟩
      · refine h.withFile hf (by simp) (fun e => ?_) fun e => ?_ <;> exact absurd (ht.symm.trans e) (by simp)
      · simp
      · simpa using ht

/-- Code that touches neither files nor the file system. -/
abbrev Aloof {α : Type} (m : KM α) : Prop := Stable any (fun k => (k.fs, k.ftable)) m

theorem Good.withProc {x : Kernel.Proc} (h : Good v k) : Good v (CallRefs.withProc k p x) := h.congr rfl rfl

theorem ran_setProc {Q : Unit → Kstate → Prop} {E : Stop → Kstate → Prop} (p : Nat) (g : Kernel.Proc → Kernel.Proc) :
    (setProc p g k).Holds G Q E ↔ Q () (withProc k p (g (k.procs p))) := by
  unfold setProc
  rw [holds_update]
  rfl

theorem aloof_setProc (p : Nat) (g : Kernel.Proc → Kernel.Proc) : Aloof (setProc p g) := .update fun _ => rfl

theorem aloof_onMm {α : Type} (m : MmM α) : Aloof (onMm m) := fun k => by
  unfold onMm
  rw [holds_zoom]
  cases m k.mm with
  | ok => exact fun _ => rfl
  | stop => exact fun _ => trivial

theorem aloof_panic {α : Type} (msg : String) : Aloof (.panic msg : KM α) := .panic trivial

theorem Aloof.good {α : Type} {m : KM α} (hm : Aloof m) (h : Good v k) :
    (m k).Holds G (fun _ k' => Good v k') fun _ _ => True :=
  ran_of_holds (hm.holds k fun _ e => h.congr (congrArg Prod.snd e) (congrArg Prod.fst e))

theorem aloof_fdalloc (f : Nat) : Aloof (fdalloc f) := by
  refine .bind .fetch fun k => ?_
  cases (List.range NOFILE).find? fun fd => (k.procs k.cur).ofile fd = none with
  | none => exact .pure _
  | some fd => exact .bind (aloof_setProc _ _) fun _ => .pure _

theorem aloof_allocproc : Aloof allocproc := by
  refine .bind .fetch fun k => ?_
  cases (List.range NPROC).find? fun p => (k.procs p).state = .unused with
  | none => exact .pure _
  | some p =>
      refine .bind (aloof_setProc _ _) fun _ => .bind (.update fun _ => rfl) fun _ => .bind (aloof_onMm _) fun a => ?_
      cases a with
      | none => exact .bind (aloof_setProc _ _) fun _ => .pure _
      | some stack => exact .bind (aloof_setProc _ _) fun _ => .pure _

theorem aloof_switchuvm (p : Nat) : Aloof (switchuvm p) :=
  .bind .fetch fun _ => .ite (aloof_panic _) (.ite (aloof_panic _) (.pure _))

theorem aloof_wait : Aloof wait := by
  refine .bind .fetch fun k => ?_
  cases (List.range NPROC).find? fun p => (k.procs p).parent = some k.cur ∧ (k.procs p).state = .zombie with
  | none => exact .ite (.pure _) (.sleep trivial)
  | some p =>
      exact .bind (aloof_onMm _) fun _ => .bind (aloof_setProc _ _) fun _ => .bind (aloof_onMm _) fun _ =>
        .bind (aloof_setProc _ _) fun _ => .pure _

theorem aloof_kill (pid : Nat) : Aloof (kill pid) := by
  refine .bind .fetch fun k => ?_
  cases (List.range NPROC).find? fun p => (k.procs p).pid = pid with
  | none => exact .pure _
  | some p => exact .bind (aloof_setProc _ _) fun _ => .pure _

theorem aloof_sysSbrk (n : Int) : Aloof (sysSbrk n) := by
  have hgrow : Aloof (growproc n) := by
    refine .bind .fetch fun k => .bind (.ite (aloof_onMm _) (.ite (aloof_onMm _) (.pure _))) fun sz => .ite (.pure _) ?_
    exact .bind (aloof_setProc _ _) fun _ => .bind (aloof_switchuvm _) fun _ => .pure _
  exact .bind .fetch fun k => .bind hgrow fun r => .ite (.pure _) (.pure _)

theorem filedup_good (h : Good v k) (hf : f < NFILE) :
    Ran (filedup f k) fun a k' => a = f ∧ Good v k' ∧ SameProcs k k' ∧ k'.fs = k.fs := by
  obtain ⟨A, h⟩ := h
  unfold filedup Ran
  rw [holds_bind, holds_fetch, holds_ite]
  refine ⟨fun _ => by rw [holds_panic]; trivial, fun _ => ?_⟩
  unfold setFile
  rw [holds_bind, holds_update, holds_pure]
  exact ⟨rfl, ⟨A, h.withFile hf (by simp) (fun ht => .inl ⟨ht, rfl, id⟩) fun ht => (h.index f hf ht).2⟩,
    ⟨rfl, rfl, rfl⟩, rfl⟩

theorem sysDup_good (h : Good v k) (hb : Between t k) (hr : Running k) (fd : Int) :
    Ran (sysDup fd k) fun _ k' => Good v k' := by
  unfold sysDup Ran
  rw [holds_bind, holds_fetch]
  cases ha : argfd k fd with
  | none => dsimp only; rw [holds_pure]; exact h
  | some f =>
      obtain ⟨hfd, hf⟩ := argfd_eq ha
      have hlt := (hb.file hr hfd hf).1
      dsimp only
      rw [holds_bind]
      refine (Aloof.good (aloof_fdalloc f) h).mono (fun a k₁ h₁ => ?_) fun _ _ => id
      cases a with
      | none => dsimp only; rw [holds_pure]; exact h₁
      | some fd' =>
          dsimp only
          rw [holds_bind]
          refine (filedup_good h₁ hlt).mono (fun _ k₂ h₂ => ?_) fun _ _ => id
          rw [holds_pure]
          exact h₂.2.1

theorem sysClose_good (h : Good v k) (hb : Between t k) (hr : Running k) (fd : Int) :
    Ran (sysClose fd k) fun _ k' => Good v k' := by
  unfold sysClose Ran
  rw [holds_bind, holds_fetch]
  cases ha : argfd k fd with
  | none => dsimp only; rw [holds_pure]; exact h
  | some f =>
      obtain ⟨hfd, hf⟩ := argfd_eq ha
      dsimp only
      rw [holds_bind, ran_setProc, holds_bind]
      refine (fileclose_good h.withProc (hb.file hr hfd hf).1).mono (fun _ k₁ h₁ => ?_) fun _ _ => id
      rw [holds_pure]
      exact h₁.1

theorem pipealloc_bad_good (h : Good v k) (q f0 f1 : Option Nat) (h0 : ∀ f, f0 = some f → f < NFILE)
    (h1 : ∀ f, f1 = some f → f < NFILE) : Ran (pipealloc.bad q f0 f1 k) fun a k' => a = none ∧ Good v k' := by
  have hclose : ∀ {k f}, Good v k → f < NFILE → Ran (fileclose f k) fun _ k' => Good v k' := fun h hf =>
    (fileclose_good h hf).mono (fun _ _ h' => h'.1) fun _ _ => id
  unfold pipealloc.bad Ran
  rw [holds_bind]
  refine Run.Holds.mono (Q := fun _ k' => Good v k') ?_ (fun _ k₁ h₁ => ?_) fun _ _ => id
  · cases q with
    | none => dsimp only; rw [holds_pure]; exact h
    | some p => exact ran_onMm fun _ _ => h.congr rfl rfl
  rw [holds_bind]
  refine Run.Holds.mono (Q := fun _ k' => Good v k') ?_ (fun _ k₂ h₂ => ?_) fun _ _ => id
  · cases f0 with
    | none => dsimp only; rw [holds_pure]; exact h₁
    | some f => exact hclose h₁ (h0 f rfl)
  rw [holds_bind]
  refine Run.Holds.mono (Q := fun _ k' => Good v k') ?_ (fun _ k₃ h₃ => ?_) fun _ _ => id
  · cases f1 with
    | none => dsimp only; rw [holds_pure]; exact h₂
    | some f => exact hclose h₂ (h1 f rfl)
  rw [holds_pure]
  exact ⟨rfl, h₃⟩

theorem pipealloc_good (h : Good v k) :
    Ran (pipealloc k) fun a k' => Good v k' ∧ ∀ x, a = some x → x.1 < NFILE ∧ x.2 < NFILE := by
  obtain ⟨A, h⟩ := h
  have hbad : ∀ {k} (q f0 f1 : Option Nat), Good v k → (∀ f, f0 = some f → f < NFILE) → (∀ f, f1 = some f → f < NFILE) →
      Ran (pipealloc.bad q f0 f1 k) fun a k' => Good v k' ∧ ∀ x, a = some x → x.1 < NFILE ∧ x.2 < NFILE := by
    intro k q f0 f1 h h0 h1
    refine (pipealloc_bad_good h q f0 f1 h0 h1).mono ?_ fun _ _ => id
    rintro a k' ⟨rfl, h'⟩
    exact ⟨h', fun _ e => by cases e⟩
  unfold pipealloc Ran
  rw [holds_bind]
  refine (filealloc_fine h).mono (fun a k₁ h₁ => ?_) fun _ _ => id
  obtain ⟨-, -, hf₁, h₁⟩ := h₁
  cases a with
  | none => exact hbad none none none ⟨A, hf₁⟩ (by simp) (by simp)
  | some f0 =>
      obtain ⟨hlt0, -, hr0, ht0, -, -⟩ := h₁
      dsimp only
      rw [holds_bind]
      refine (filealloc_fine hf₁).mono (fun a k₂ h₂ => ?_) fun _ _ => id
      obtain ⟨-, -, hf₂, h₂⟩ := h₂
      cases a with
      | none => exact hbad none (some f0) none ⟨A, hf₂⟩ (by simpa using hlt0) (by simp)
      | some f1 =>
          obtain ⟨hlt1, hz1, hr1, ht1, hsame, -⟩ := h₂
          have hne : f0 ≠ f1 := by
            rintro rfl
            omega
          dsimp only
          rw [holds_bind]
          refine ran_onMm fun a mm => ?_
          have hf₃ : Fine v A false { k₂ with mm := mm } := hf₂.congr rfl rfl
          cases a with
          | none => exact hbad none (some f0) (some f1) ⟨A, hf₃⟩ (by simpa using hlt0) (by simpa using hlt1)
          | some q =>
              dsimp only
              unfold countPiped setPipe setFile
              simp only [holds_bind, holds_update, holds_pure]
              refine ⟨?_, fun x e => by cases e; exact ⟨hlt0, hlt1⟩⟩
              have hr0' : (k₂.ftable f0).ref = 1 := by rw [hsame f0 hne]; exact hr0
              -- neither end is an inode, before and after
              have hf₄ : Fine v A false (withFile k₂ f0
                  { k₂.ftable f0 with type := .pipe, readable := true, writable := false, pipe := q }) :=
                hf₂.withFile hlt0 (fun e => by simp [hr0'] at e) (by simp) (by simp)
              have e1 : (withFile k₂ f0
                  { k₂.ftable f0 with type := .pipe, readable := true, writable := false, pipe := q }).ftable f1 =
                    k₂.ftable f1 := by
                simp [Ne.symm hne]
              have hf₅ :=
                hf₄.withFile (x :=
                { k₂.ftable f1 with type := .pipe, readable := false, writable := true, pipe := q })
                hlt1 (fun e => by simp [hr1] at e) (by simp) (by simp)
              refine ⟨A, hf₅.congr ?_ rfl⟩
              unfold withFile at e1 ⊢
              dsimp only at e1 ⊢
              rw [e1]

theorem sysPipe_good (h : Good v k) (addr : Nat) : Ran (sysPipe addr k) fun _ k' => Good v k' := by
  have hclose : ∀ {k} (rf wf : Nat), Good v k → rf < NFILE → wf < NFILE → Ran ((do
      fileclose rf
      fileclose wf
      pure (-1) : KM Int) k) fun _ k' => Good v k' := by
    intro k rf wf h hr hw
    unfold Ran
    rw [holds_bind]
    refine (fileclose_good h hr).mono (fun _ k₁ h₁ => ?_) fun _ _ => id
    rw [holds_bind]
    refine (fileclose_good h₁.1 hw).mono (fun _ k₂ h₂ => ?_) fun _ _ => id
    rw [holds_pure]
    exact h₂.1
  unfold sysPipe Ran
  rw [holds_bind, holds_fetch, holds_bind]
  refine (pipealloc_good h).mono (fun a k₁ h₁ => ?_) fun _ _ => id
  cases a with
  | none => dsimp only; rw [holds_pure]; exact h₁.1
  | some x =>
      obtain ⟨rf, wf⟩ := x
      obtain ⟨hlt, hlt'⟩ := h₁.2 _ rfl
      dsimp only
      rw [holds_bind]
      refine (Aloof.good (aloof_fdalloc rf) h₁.1).mono (fun a k₂ h₂ => ?_) fun _ _ => id
      cases a with
      | none => exact hclose rf wf h₂ hlt hlt'
      | some fd0 =>
          dsimp only
          rw [holds_bind]
          refine (Aloof.good (aloof_fdalloc wf) h₂).mono (fun a k₃ h₃ => ?_) fun _ _ => id
          cases a with
          | none =>
              dsimp only
              rw [holds_bind, ran_setProc]
              exact hclose rf wf h₃.withProc hlt hlt'
          | some fd1 =>
              dsimp only
              rw [holds_bind]
              refine ran_onMm fun _ mm => ?_
              rw [holds_pure]
              exact h₃.congr rfl rfl

end ArmXv6.OpenCalls
