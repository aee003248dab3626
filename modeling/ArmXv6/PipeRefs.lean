import ArmXv6.CallRefs

namespace ArmXv6.PipeRefs

open Lib.Exec Lib.Bytes Lib.Count Param Blocks Fs Content Sysfile Vm Kernel Proc Exec Descriptors Syscall
open Quiet InodeRefs MemoryStops FileRefs CallRefs

variable {t : Prop} {H R L : List Nat} {k k' : Kstate} {f g q : Nat} {ok : Stop → Prop}

/-- The frame that kalloc hands out next holds no pipe. -/
def Fresh (k : Kstate) : Prop := ∀ q, k.mm.freelist.head? = some q → ¬IsPipe k q

/-- The tables after pipealloc made f0 and f1 the ends of a pipe in frame q. -/
def joined (k : Kstate) (f0 f1 q : Nat) : Kstate :=
  { k with
    ftable := Function.update
      (Function.update k.ftable f0 { k.ftable f0 with type := .pipe, readable := true, writable := false, pipe := q })
        f1
      { k.ftable f1 with type := .pipe, readable := false, writable := true, pipe := q }
    pipes := Function.update k.pipes q { k.pipes q with readopen := true, writeopen := true, nwrite := 0, nread := 0 }
    piped := Function.update k.piped q (k.piped q + 1) }

section Joined

variable {f0 f1 : Nat} (hne : f0 ≠ f1) (h0 : f0 < NFILE) (h1 : f1 < NFILE) (ht0 : (k.ftable f0).type = .none)
  (ht1 : (k.ftable f1).type = .none)

include hne h0 h1 ht0 ht1

omit hne h0 h1 ht0 ht1 in
theorem ftable_joined (g : Nat) : (joined k f0 f1 q).ftable g =
    if g = f1 then { k.ftable f1 with type := .pipe, readable := false, writable := true, pipe := q }
    else if g = f0 then { k.ftable f0 with type := .pipe, readable := true, writable := false, pipe := q }
    else k.ftable g := by
  unfold joined
  dsimp only
  rw [Function.update_apply, Function.update_apply]

theorem isEnd_joined {q' : Nat} : IsEnd (joined k f0 f1 q) q' g ↔ q' = q ∧ (g = f0 ∨ g = f1) ∨ IsEnd k q' g := by
  unfold IsEnd
  rw [ftable_joined]
  by_cases e1 : g = f1
  · subst e1
    simp [h1, ht1, eq_comm]
  · by_cases e0 : g = f0
    · subst e0
      simp [h0, ht0, hne, eq_comm]
    · simp [e1, e0]

theorem pipeOk_joined (hp : PipeOk k) (hq : ¬IsPipe k q) : PipeOk (joined k f0 f1 q) := by
  have hend : ∀ q' g, IsEnd (joined k f0 f1 q) q' g ↔ q' = q ∧ (g = f0 ∨ g = f1) ∨ IsEnd k q' g := fun q' g =>
    isEnd_joined hne h0 h1 ht0 ht1
  have hold : ∀ q' g, IsEnd k q' g → g ≠ f0 ∧ g ≠ f1 ∧ q' ≠ q := by
    intro q' g hg
    refine ⟨?_, ?_, ?_⟩
    · rintro rfl
      exact absurd (ht0.symm.trans hg.2.1) (by simp)
    · rintro rfl
      exact absurd (ht1.symm.trans hg.2.1) (by simp)
    · rintro rfl
      exact hq ⟨g, hg⟩
  have hw : ∀ q' g, IsEnd k q' g → ((joined k f0 f1 q).ftable g).writable = (k.ftable g).writable := by
    intro q' g hg
    obtain ⟨e0, e1, _⟩ := hold q' g hg
    rw [ftable_joined, if_neg e1, if_neg e0]
  have hw0 : ((joined k f0 f1 q).ftable f0).writable = false := by
    rw [ftable_joined, if_neg hne, if_pos rfl]
  have hw1 : ((joined k f0 f1 q).ftable f1).writable = true := by
    rw [ftable_joined, if_pos rfl]
  have hopen : ∀ w, isOpen ((joined k f0 f1 q).pipes q) w = true := by
    intro w
    cases w <;> simp [joined, isOpen]
  have hsame : ∀ q', q' ≠ q → (joined k f0 f1 q).pipes q' = k.pipes q' := fun q' e => Function.update_of_ne e _ _
  refine ⟨fun q' g hg => ?_, fun q' g g' hg hg' hww => ?_, fun q' hq' w hw' => ?_, fun q' hq' => ?_, fun q' hq' => ?_⟩
  · rcases (hend q' g).mp hg with ⟨rfl, _⟩ | hg
    · exact hopen _
    · rw [hsame q' (hold q' g hg).2.2, hw q' g hg]
      exact hp.ends q' g hg
  · rcases (hend q' g).mp hg with ⟨rfl, h₁⟩ | hg <;> rcases (hend q' g').mp hg' with ⟨e, h₂⟩ | hg'
    · rcases h₁ with rfl | rfl <;> rcases h₂ with rfl | rfl
      · rfl
      · rw [hw0, hw1] at hww; cases hww
      · rw [hw0, hw1] at hww; cases hww
      · rfl
    · exact absurd rfl (hold q' g' hg').2.2
    · exact absurd e (hold q' g hg).2.2
    · rw [hw q' g hg, hw q' g' hg'] at hww
      exact hp.unique q' g g' hg hg' hww
  · by_cases e : q' = q
    · subst e
      cases w with
      | false => exact ⟨f0, (hend q' f0).mpr (.inl ⟨rfl, .inl rfl⟩), hw0⟩
      | true => exact ⟨f1, (hend q' f1).mpr (.inl ⟨rfl, .inr rfl⟩), hw1⟩
    · obtain ⟨g, hg⟩ := hq'
      rcases (hend q' g).mp hg with ⟨e', _⟩ | hg
      · exact absurd e' e
      · rw [hsame q' e] at hw'
        obtain ⟨g', hg', hgw⟩ := hp.opened q' ⟨g, hg⟩ w hw'
        exact ⟨g', (hend q' g').mpr (.inr hg'), (hw q' g' hg').trans hgw⟩
  · by_cases e : q' = q
    · subst e
      have := hp.gone q' hq
      change Function.update k.piped q' (k.piped q' + 1) q' = k.unpiped q' + 1
      rw [Function.update_self]
      omega
    · obtain ⟨g, hg⟩ := hq'
      rcases (hend q' g).mp hg with ⟨e', _⟩ | hg
      · exact absurd e' e
      · change Function.update k.piped q _ q' = _
        rw [Function.update_of_ne e]
        exact hp.counted q' ⟨g, hg⟩
  · have e : q' ≠ q := by
      rintro rfl
      exact hq' ⟨f0, (hend q' f0).mpr (.inl ⟨rfl, .inl rfl⟩)⟩
    change Function.update k.piped q _ q' = _
    rw [Function.update_of_ne e]
    refine hp.gone q' ?_
    rintro ⟨g, hg⟩
    exact hq' ⟨g, (hend q' g).mpr (.inr hg)⟩

theorem going_joined (hg : Going t [f1, f0] R L k) (hq : t → ¬IsPipe k q) :
    Going t [f1, f0] R L (joined k f0 f1 q) := by
  have href : ∀ g, ((joined k f0 f1 q).ftable g).ref = (k.ftable g).ref := by
    intro g
    rw [ftable_joined]
    split
    case isTrue e => rw [e]
    case isFalse =>
        split
        case isTrue e => rw [e]
        case isFalse => rfl
  have hkeeps : ∀ g i, Keeps ((joined k f0 f1 q).ftable g) i = Keeps (k.ftable g) i := by
    intro g i
    rw [ftable_joined]
    split
    case isTrue e => simp [Keeps, e, ht1]
    case isFalse =>
        split
        case isTrue e => simp [Keeps, e, ht0]
        case isFalse => rfl
  have hpos0 : (k.ftable f0).ref ≠ 0 := by
    have : 0 < [f1, f0].count f0 := List.count_pos_iff.mpr (by simp)
    rw [hg.mid.files f0 h0]
    omega
  have hpos1 : (k.ftable f1).ref ≠ 0 := by
    have : 0 < [f1, f0].count f1 := List.count_pos_iff.mpr (by simp)
    rw [hg.mid.files f1 h1]
    omega
  refine ⟨⟨?_, fun g hg' => by rw [href]; exact hg.mid.files g hg', hg.mid.held, fun g hg' hz => ?_, fun g hg' ht => ?_,
    fun ht => pipeOk_joined hne h0 h1 ht0 ht1 (hg.mid.pipes ht) (hq ht)⟩, hg.procs⟩
  · have : fileUsers (joined k f0 f1 q) = fileUsers k := by
      funext i
      refine List.countP_congr fun g _ => ?_
      have := hkeeps g i
      unfold Keeps at this
      rw [this]
    rw [this]
    exact hg.mid.inodes
  · rw [href] at hz
    have e0 : g ≠ f0 := fun e => hpos0 (e ▸ hz)
    have e1 : g ≠ f1 := fun e => hpos1 (e ▸ hz)
    rw [ftable_joined, if_neg e1, if_neg e0]
    exact hg.mid.closed g hg' hz
  · rw [ftable_joined] at ht ⊢
    split at ht
    case isTrue => cases ht
    case isFalse e1 =>
        split at ht
        case isTrue => cases ht
        case isFalse e0 =>
            rw [if_neg e1, if_neg e0]
            exact hg.mid.ips g hg' ht

end Joined

theorem kalloc_cases (m : Mm) : kalloc m = .ok none m [] ∨
    ∃ q rest, m.freelist = q :: rest ∧ kalloc m = .ok (some q) { m with freelist := rest } [] := by
  unfold kalloc
  rw [bind_apply, fetch_apply]
  cases hl : m.freelist with
  | nil => exact .inl (by simp only [hl]; rfl)
  | cons q rest => exact .inr ⟨q, rest, rfl, by simp only [hl]; rfl⟩

theorem Going.perm {H' : List Nat} (hg : Going t H R L k) (hp : H.Perm H') : Going t H' R L k :=
  ⟨Mid.rebase hg.mid (fun _ _ => by rw [hp.count_eq]) (fun g hg' => hg.mid.held g (hp.mem_iff.mpr hg'))
    (fun _ _ => rfl) hg.mid.inodes.bound hg.mid.inodes.locked, hg.procs⟩

theorem fileclose_both {α : Type} {a : α} (hok : Below ok) (hg : Going t [f, g] R L k) :
    ((do fileclose f; fileclose g; pure a : KM α) k).Holds (fun _ => True)
      (fun b k' => b = a ∧ Going t [] R L k' ∧ SameProcs k k') fun w _ => ok w := by
  rw [holds_bind]
  refine (fileclose_going hok hg).mono (fun _ k₁ h₁ => ?_) fun _ _ => id
  rw [holds_bind]
  refine (fileclose_going hok h₁.1).mono (fun _ k₂ h₂ => ?_) fun _ _ => id
  rw [holds_pure]
  exact ⟨rfl, h₂.1, h₁.2.trans h₂.2⟩

theorem pipealloc_going (hok : Below ok) (hb : Between t k) (hf : t → Fresh k) :
    (pipealloc k).Holds (fun _ => True)
      (fun a k' => SameProcs k k' ∧ match a with
        | none => Between t k'
        | some x => Going t [x.2, x.1] [] [] k') fun w _ => ok w := by
  unfold pipealloc
  rw [holds_bind]
  refine (filealloc_mid hb.mid).mono (fun a k₁ h₁ => ?_) fun _ _ => id
  obtain ⟨hs₁, -, hmm₁, h₁⟩ := h₁
  cases a with
  | none =>
      unfold pipealloc.bad
      simp only [holds_bind, holds_pure]
      exact ⟨hs₁, hb.same h₁ hs₁⟩
  | some f0 =>
      obtain ⟨h0, hm₁, ht0, hp₁, -⟩ := h₁
      have hg₁ : Going t [f0] [] [] k₁ := hb.same hm₁ hs₁
      dsimp only
      rw [holds_bind]
      refine (filealloc_mid hg₁.mid).mono (fun a k₂ h₂ => ?_) fun _ _ => id
      obtain ⟨hs₂, -, hmm₂, h₂⟩ := h₂
      cases a with
      | none =>
          have hg₂ : Going t [f0] [] [] k₂ := hg₁.same h₂ hs₂
          unfold pipealloc.bad
          dsimp only
          rw [holds_bind, holds_pure, holds_bind]
          refine (fileclose_going hok hg₂).mono (fun _ k₃ h₃ => ?_) fun _ _ => id
          simp only [holds_bind, holds_pure]
          exact ⟨(hs₁.trans hs₂).trans h₃.2, h₃.1⟩
      | some f1 =>
          obtain ⟨h1, hm₂, ht1, hp₂, hkeep⟩ := h₂
          have hg₂ : Going t [f1, f0] [] [] k₂ := hg₁.same hm₂ hs₂
          have href0 : (k₁.ftable f0).ref ≠ 0 := by
            rw [hm₁.files f0 h0]
            simp
          obtain ⟨hft0, hne⟩ := hkeep f0 href0
          have ht0' : (k₂.ftable f0).type = .none := by rw [hft0]; exact ht0
          have hs : SameProcs k k₂ := hs₁.trans hs₂
          dsimp only
          rw [holds_bind]
          unfold Kernel.onMm
          rw [holds_zoom]
          rcases kalloc_cases k₂.mm with e | ⟨q, rest, hl, e⟩ <;> rw [e] <;> intro _
          · unfold pipealloc.bad
            dsimp only
            rw [holds_bind, holds_pure]
            have hg₂' : Going t [f0, f1] [] [] k₂ := Going.perm hg₂ (.swap f0 f1 [])
            refine (fileclose_both hok hg₂').mono (fun b k₃ h₃ => ?_) fun _ _ => id
            obtain ⟨rfl, hg₃, hs₃⟩ := h₃
            exact ⟨hs.trans hs₃, hg₃⟩
          · have hfresh : t → ¬IsPipe k₂ q := by
              intro ht
              rw [hp₂, hp₁]
              refine hf ht q ?_
              rw [← hmm₁, ← hmm₂, hl]
              rfl
            have hg₃ := going_joined hne h0 h1 ht0' ht1 hg₂ hfresh
            dsimp only
            unfold countPiped setPipe setFile
            simp only [holds_bind, holds_update, holds_pure]
            refine ⟨⟨hs.procs, hs.cur, hs.initproc⟩, ?_⟩
            have hj := going_joined (k := { k₂ with mm := { k₂.mm with freelist := rest } }) (q := q) hne h0 h1 ht0' ht1
              ⟨hg₂.mid.congr rfl rfl rfl rfl hg₂.mid.inodes, hg₂.procs⟩ hfresh
            unfold joined at hj
            have e1 : Function.update k₂.ftable f0
                { k₂.ftable f0 with type := .pipe, readable := true, writable := false, pipe := q } f1 = k₂.ftable f1 :=
              Function.update_of_ne (Ne.symm hne) _ _
            rw [e1]
            exact hj

theorem sysPipe_between (hok : Below ok) (hb : Between t k) (hr : Running k) (hf : t → Fresh k) (addr : Nat) :
    (sysPipe addr k).Holds (fun _ => True) (fun _ k' => Between t k') fun w _ => ok w := by
  unfold sysPipe
  rw [holds_bind, holds_fetch, holds_bind]
  refine (pipealloc_going hok hb hf).mono (fun a k₁ h₁ => ?_) fun _ _ => id
  obtain ⟨hs₁, h₁⟩ := h₁
  have hr₁ := hr.same hs₁
  cases a with
  | none => dsimp only; rw [holds_pure]; exact h₁
  | some x =>
      obtain ⟨rf, wf⟩ := x
      have hg₁ : Going t [rf, wf] [] [] k₁ := Going.perm h₁ (.swap rf wf [])
      dsimp only
      rw [holds_bind]
      rcases fdalloc_cases rf k₁ with e | ⟨fd0, hfd0, hnone0, e⟩ <;> rw [e] <;> intro _
      · exact (fileclose_both hok hg₁).mono (fun _ _ h' => h'.2.1) fun _ _ => id
      · have hg₂ := hg₁.storeFd hr₁ hfd0 hnone0
        have hr₂ : Running (withProc k₁ k₁.cur (withFd (k₁.procs k₁.cur) fd0 (some rf))) :=
          ⟨hr₁.cur, by simpa [withFd, withProc] using hr₁.unused, by simpa [withFd, withProc] using hr₁.embryo,
            by simpa [withFd, withProc] using hr₁.zombie⟩
        dsimp only
        rw [holds_bind]
        rcases fdalloc_cases wf (withProc k₁ k₁.cur (withFd (k₁.procs k₁.cur) fd0 (some rf)))
          with e | ⟨fd1, hfd1, hnone1, e⟩ <;> rw [e] <;> intro _
        · dsimp only
          rw [holds_bind, holds_setProc, ← hs₁.cur]
          have hg₃ := hg₂.takeFd hr₂ (f := rf) hfd0 (by simp [withFd, withProc])
          exact (fileclose_both hok hg₃).mono (fun _ _ h' => h'.2.1) fun _ _ => id
        · have hg₃ := hg₂.storeFd hr₂ hfd1 hnone1
          dsimp only
          rw [holds_bind]
          refine hg₃.onMm (tame_storeUser hok _ _ _) fun _ k' hg' _ => ?_
          rw [holds_pure]
          exact hg'

end ArmXv6.PipeRefs
