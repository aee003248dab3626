import ArmXv6.References

namespace ArmXv6.FileAccess

open Lib.Exec Lib.Bytes Lib.Count Param Blocks Fs Content Sysfile Vm Kernel Proc Exec Descriptors Syscall
open Quiet InodeRefs MemoryStops FileRefs CallRefs PipeRefs ProcRefs References

variable {t : Prop} {H R L : List Nat} {k k' : Kstate} {f i q : Nat} {ok : Stop → Prop}

theorem At.repay {r : Nat → Nat} {fs : Fs} (hat : At (fun j => r j - if j = i then 1 else 0) [i] [] fs) (hr : 0 < r i) :
    At r [] [] fs := by
  refine ⟨fun j hj => ?_, hat.busy, by simp, by simp⟩
  have := hat.ref j hj
  by_cases e : j = i
  · subst e
    rw [List.count_singleton_self, if_pos rfl] at this
    rw [this, List.count_nil]
    omega
  · rw [if_neg e, List.count_cons_of_ne (Ne.symm e)] at this
    simpa using this

/-- All of a file but its offset. -/
def fixed (x : File) : File := { x with off := 0 }

theorem fixed_eq {x y : File} (h : fixed x = fixed y) :
    x.type = y.type ∧ x.ref = y.ref ∧ x.readable = y.readable ∧ x.writable = y.writable ∧ x.pipe = y.pipe ∧
      x.ip = y.ip := by
  cases x
  cases y
  cases h
  exact ⟨rfl, rfl, rfl, rfl, rfl, rfl⟩

theorem Between.withOff (hb : Between t k) (hf : f < NFILE) {x : File} (hx : fixed x = fixed (k.ftable f)) :
    Between t (withFile k f x) := by
  obtain ⟨ht, hr, -, hw, hp, hi⟩ := fixed_eq hx
  refine ⟨hb.mid.withFile hf rfl rfl (fun j => ?_) (fun h => (hb.mid.pipes h).withFile (.inr ⟨ht, hp, hw, hf⟩)) ?_
    (fun _ _ => rfl) hb.mid.held (fun hz => ?_) (fun he => ?_), hb.procs⟩
  · unfold Keeps
    rw [hr, ht, hi]
  · rw [hr]
    exact hb.mid.files f hf
  · rw [ht]
    exact hb.mid.closed f hf (hr ▸ hz)
  · rw [hi]
    exact hb.mid.ips f hf (ht ▸ he)

/-- Of the kernel, a read or a write through the file f changes the file system and the
offset of f only. -/
structure Accessed (f : Nat) (k k' : Kstate) : Prop where
  procs : SameProcs k k'
  file : fixed (k'.ftable f) = fixed (k.ftable f)

theorem fileUsers_pos (hf : f < NFILE) (hr : 0 < (k.ftable f).ref) (ht : (k.ftable f).type = .inode) :
    0 < fileUsers k (k.ftable f).ip := countP_range_pos hf (by simp [hr, ht])

/-- The inode of an open file is locked, used and unlocked; the file keeps the reference. -/
theorem access_between {α β : Type} {m : FsM α} {g : α → File → File} {c : α → Prop} [DecidablePred c]
    {rest : α → KM β} {Q : β → Kstate → Prop} (hok : Below ok) (hb : Between t k) (hf : f < NFILE)
    (hr : 0 < (k.ftable f).ref) (ht : (k.ftable f).type = .inode)
    (hm : ∀ r fs, At r [(k.ftable f).ip] [(k.ftable f).ip] fs →
      (m fs).Holds (fun _ => True) (fun _ fs' => At r [(k.ftable f).ip] [(k.ftable f).ip] fs') fun w _ => ok w)
    (hg : ∀ a x, fixed (g a x) = fixed x)
    (hrest : ∀ a k', Between t k' → Accessed f k k' → (rest a k').Holds (fun _ => True) Q fun w _ => ok w) :
    ((do
      onFs (ilock (k.ftable f).ip)
      let a ← onFs m
      (if c a then setFile f (g a) else pure ())
      onFs (iunlock (k.ftable f).ip)
      rest a : KM β) k).Holds (fun _ => True) Q fun w _ => ok w := by
  have hip := hb.mid.ips f hf ht
  have hpos : 0 < users k (k.ftable f).ip := by
    have := fileUsers_pos hf hr ht
    unfold users
    omega
  rw [holds_bind]
  unfold Kernel.onFs
  rw [holds_zoom]
  refine (ilock_refs hok (At.owe hb.at hip hpos) List.mem_cons_self).mono (fun _ fs₁ h₁ => ?_) fun _ _ => id
  rw [holds_bind, holds_zoom]
  refine (hm _ fs₁ h₁.2).mono (fun a fs₂ h₂ => ?_) fun _ _ => id
  -- unlocking ends the call with a file table that has the same references
  have hend : ∀ x, fixed x = fixed (k.ftable f) →
      ((do
        onFs (iunlock (k.ftable f).ip)
        rest a : KM β) (withFile { k with fs := fs₂ } f x)).Holds (fun _ => True) Q fun w _ => ok w := by
    intro x hx
    rw [holds_bind]
    unfold Kernel.onFs
    rw [holds_zoom]
    refine (iunlock_refs hok h₂ (by simp)).mono (fun _ fs₃ h₃ => ?_) fun _ _ => id
    have hb₃ : Between t { k with fs := fs₃ } :=
      ⟨hb.mid.congr rfl rfl rfl rfl (At.repay h₃ hpos), hb.procs⟩
    exact hrest a _ (Between.withOff hb₃ hf hx) ⟨⟨rfl, rfl, rfl⟩, by simpa [withFile] using hx⟩
  rw [holds_bind, holds_ite]
  refine ⟨fun _ => ?_, fun _ => ?_⟩
  · unfold setFile
    rw [holds_update]
    exact hend _ (hg a _)
  · rw [holds_pure]
    have hsame := hend (k.ftable f) rfl
    have he : withFile { k with fs := fs₂ } f (k.ftable f) = { k with fs := fs₂ } := by
      unfold withFile
      simp
    rw [he] at hsame
    exact hsame

theorem Going.withPipe {x : Pipe} (hg : Going t H R L k) (ho : ∀ w, isOpen x w = isOpen (k.pipes q) w) :
    Going t H R L { k with pipes := Function.update k.pipes q x } := by
  refine ⟨⟨hg.mid.inodes, hg.mid.files, hg.mid.held, hg.mid.closed, hg.mid.ips, fun h => ?_⟩, hg.procs⟩
  have hp := hg.mid.pipes h
  have hopen : ∀ q' w, isOpen (Function.update k.pipes q x q') w = isOpen (k.pipes q') w := by
    intro q' w
    by_cases e : q' = q
    · subst e
      rw [Function.update_self, ho]
    · rw [Function.update_of_ne e]
  exact ⟨fun q' f hf => (hopen q' _).trans (hp.ends q' f hf), hp.unique,
    fun q' hq w hw => hp.opened q' hq w ((hopen q' w).symm.trans hw), hp.counted, hp.gone⟩

theorem pipewrite_between (hok : Below ok) (hb : Between t k) (p : Nat) (src : Nat → UInt8) (n : Int) :
    (pipewrite p src n k).Holds (fun _ => True) (fun _ k' => Between t k') fun w _ => ok w := by
  have hloop : ∀ fuel i k, Between t k →
      (pipewrite.loop p src n fuel i k).Holds (fun _ => True) (fun _ k' => Between t k') fun w _ => ok w := by
    intro fuel
    induction fuel with
    | zero =>
        intro i k hb
        unfold pipewrite.loop
        rw [holds_pure]
        exact hb
    | succ fuel ih =>
        intro i k hb
        unfold pipewrite.loop
        rw [holds_bind, holds_fetch, holds_ite]
        refine ⟨fun _ => ?_, fun _ => by rw [holds_pure]; exact hb⟩
        rw [holds_ite]
        refine ⟨fun _ => ?_, fun _ => ?_⟩
        · rw [holds_ite]
          exact ⟨fun _ => by rw [holds_pure]; exact hb, fun _ => by rw [holds_sleep]; exact hok.1⟩
        · unfold Kernel.setPipe
          rw [holds_bind, holds_update]
          exact ih _ _ (Going.withPipe hb fun w => by cases w <;> rfl)
  exact hloop _ _ k hb

theorem piperead_between (hok : Below ok) (hb : Between t k) (p : Nat) (n : Int) :
    (piperead p n k).Holds (fun _ => True) (fun _ k' => Between t k' ∧ SameProcs k k') fun w _ => ok w := by
  have hloop : ∀ fuel acc k', Between t k' → SameProcs k k' →
      (piperead.loop p n fuel acc k').Holds (fun _ => True) (fun _ k'' => Between t k'' ∧ SameProcs k k'') fun w _ =>
        ok w := by
    intro fuel
    induction fuel with
    | zero =>
        intro acc k' hb hs
        unfold piperead.loop
        rw [holds_pure]
        exact ⟨hb, hs⟩
    | succ fuel ih =>
        intro acc k' hb hs
        unfold piperead.loop
        rw [holds_bind, holds_fetch, holds_ite]
        refine ⟨fun _ => ?_, fun _ => by rw [holds_pure]; exact ⟨hb, hs⟩⟩
        unfold Kernel.setPipe
        rw [holds_bind, holds_update]
        exact ih _ _ (Going.withPipe hb fun w => by cases w <;> rfl) ⟨hs.procs, hs.cur, hs.initproc⟩
  unfold piperead
  rw [holds_bind, holds_fetch, holds_ite]
  refine ⟨fun _ => ?_, fun _ => ?_⟩
  · rw [holds_ite]
    exact ⟨fun _ => by rw [holds_pure]; exact ⟨hb, .refl k⟩, fun _ => by rw [holds_sleep]; exact hok.1⟩
  · rw [holds_bind]
    refine (hloop _ _ k hb (.refl k)).mono (fun bytes k' h' => ?_) fun _ _ => id
    rw [holds_pure]
    exact h'

theorem fileread_between (hok : Below ok) (hb : Between t k) (hf : f < NFILE) (hr : 0 < (k.ftable f).ref) (n : Int) :
    (fileread f n k).Holds (fun _ => True) (fun _ k' => Between t k' ∧ SameProcs k k') fun w _ => ok w := by
  unfold fileread
  rw [holds_bind, holds_fetch]
  rw [holds_ite]
  refine ⟨fun _ => by rw [holds_pure]; exact ⟨hb, .refl k⟩, fun _ => ?_⟩
  cases ht : (k.ftable f).type with
  | pipe => exact piperead_between hok hb _ n
  | none => dsimp only; rw [holds_panic]; exact hok.2 _ (by decide) (by decide)
  | inode =>
      dsimp only
      refine access_between (c := fun r : Int × List UInt8 => 0 < r.1) hok hb hf hr ht
        (fun r fs hat => readi_refs hok hat List.mem_cons_self _ _) (fun _ _ => rfl) fun a k' hb' ha => ?_
      rw [holds_pure]
      exact ⟨hb', ha.procs⟩

theorem filewrite_between (hok : Below ok) (hb : Between t k) (hf : f < NFILE) (hr : 0 < (k.ftable f).ref)
    (src : Nat → UInt8) (n : Int) :
    (filewrite f src n k).Holds (fun _ => True) (fun _ k' => Between t k') fun w _ => ok w := by
  have hloop : ∀ fuel i k, Between t k → 0 < (k.ftable f).ref → (k.ftable f).type = .inode →
      (filewrite.loop f src n fuel i k).Holds (fun _ => True) (fun _ k' => Between t k') fun w _ => ok w := by
    intro fuel
    induction fuel with
    | zero =>
        intro i k hb _ _
        unfold filewrite.loop
        rw [holds_pure]
        exact hb
    | succ fuel ih =>
        intro i k hb hr ht
        unfold filewrite.loop
        rw [holds_ite]
        refine ⟨fun _ => ?_, fun _ => by rw [holds_pure]; exact hb⟩
        rw [holds_bind, holds_fetch, holds_bind]
        refine Mid.onFs hb.mid
          ((hb.at.quiet (quiet_beginTrans hok)).mono (fun _ fs₁ hat => ⟨[], [], hat, ?_⟩) fun _ _ => id)
        intro k₁ hm₁ hs₁ hft _
        have hb₁ : Between t k₁ := hb.same hm₁ hs₁
        rw [← hft]
        refine access_between (c := fun r : Int => 0 < r) hok hb₁ hf (by rw [hft]; exact hr) (by rw [hft]; exact ht)
          (fun r fs hat => writei_refs hok hat List.mem_cons_self _ _ _) (fun _ _ => rfl) fun a k₂ hb₂ ha => ?_
        rw [holds_bind]
        refine Mid.onFs hb₂.mid
          ((hb₂.at.quiet (quiet_commitTrans hok)).mono (fun _ fs₃ hat => ⟨[], [], hat, ?_⟩) fun _ _ => id)
        intro k₃ hm₃ hs₃ hft₃ _
        have hb₃ : Between t k₃ := hb₂.same hm₃ hs₃
        obtain ⟨e₁, e₂, -⟩ := fixed_eq ha.file
        rw [holds_ite]
        refine ⟨fun _ => by rw [holds_pure]; exact hb₃, fun _ => ?_⟩
        rw [holds_ite]
        refine ⟨fun _ => by rw [holds_panic]; exact hok.2 _ (by decide) (by decide), fun _ => ?_⟩
        exact ih _ k₃ hb₃ (by rw [hft₃, e₂, hft]; exact hr) (by rw [hft₃, e₁, hft]; exact ht)
  unfold filewrite
  rw [holds_bind, holds_fetch]
  rw [holds_ite]
  refine ⟨fun _ => by rw [holds_pure]; exact hb, fun _ => ?_⟩
  cases ht : (k.ftable f).type with
  | pipe => exact pipewrite_between hok hb _ src n
  | none => dsimp only; rw [holds_panic]; exact hok.2 _ (by decide) (by decide)
  | inode => exact hloop _ _ k hb hr ht

theorem filestat_between (hok : Below ok) (hb : Between t k) (hf : f < NFILE) (hr : 0 < (k.ftable f).ref) :
    (filestat f k).Holds (fun _ => True) (fun _ k' => Between t k' ∧ SameProcs k k') fun w _ => ok w := by
  unfold filestat
  rw [holds_bind, holds_fetch]
  cases ht : (k.ftable f).type with
  | pipe => dsimp only; rw [holds_pure]; exact ⟨hb, .refl k⟩
  | none => dsimp only; rw [holds_pure]; exact ⟨hb, .refl k⟩
  | inode =>
      dsimp only
      have hip := hb.mid.ips f hf ht
      have hpos : 0 < users k (k.ftable f).ip := by
        have := fileUsers_pos hf hr ht
        unfold users
        omega
      unfold Kernel.onFs
      rw [holds_bind, holds_zoom]
      refine (ilock_refs hok (At.owe hb.at hip hpos) List.mem_cons_self).mono (fun _ fs₁ h₁ => ?_) fun _ _ => id
      rw [holds_bind, holds_fetch, holds_bind, holds_zoom]
      refine (iunlock_refs hok h₁.2 (by simp)).mono (fun _ fs₂ h₂ => ?_) fun _ _ => id
      rw [holds_pure]
      exact ⟨⟨hb.mid.congr rfl rfl rfl rfl (At.repay h₂ hpos), hb.procs⟩, ⟨rfl, rfl, rfl⟩⟩

end ArmXv6.FileAccess
