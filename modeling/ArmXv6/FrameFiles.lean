import ArmXv6.FrameAside

namespace ArmXv6.FrameFiles

open Lib.Exec Lib.Bytes Param Blocks Fs Content Sysfile Vm Kernel Proc Descriptors AddressSpace FrameOwners
  SpaceCalls FrameWorld FrameAside
open FileRefs CallRefs PipeRefs
open Growproc (pages)

/-- What the code of files and pipes relies on: the pipes are what the open files say, and a free
entry of the file table is of no type. -/
structure Filed (k : Kstate) : Prop where
  pipes : PipeOk k
  closed : ∀ f < NFILE, (k.ftable f).ref = 0 → (k.ftable f).type = .none

variable {t : Prop} {S : Nat → Prop} {D : Nat → Option Nat} {H H' : List Nat} {k k' k'' : Kstate}
  {p q f g d s : Nat} {x : File}

theorem Filed.between (h : Between True k) : Filed k := ⟨h.mid.pipes trivial, h.mid.closed⟩

/-- A part of a call that works on files: memory changes on the free list and in pipes only. -/
structure Filing (t : Prop) (S : Nat → Prop) (D : Nat → Option Nat) (H : List Nat) (k k' : Kstate) : Prop where
  held : Held t S D H k'
  filed : Filed k'
  procs : SameProcs k k'
  leaves : ∀ s, Leaves D s k.mm k'.mm

theorem Filing.refl (h : Held t S D H k) (hf : Filed k) : Filing t S D H k k := ⟨h, hf, .refl k, fun _ => .refl _ _ _⟩

theorem Filing.trans (h : Filing t S D H k k') (h' : Filing t S D H' k' k'') : Filing t S D H' k k'' :=
  ⟨h'.held, h'.filed, h.procs.trans h'.procs, fun s => (h.leaves s).trans (h'.leaves s)⟩

theorem Held.views (h : Held t S D H k) (he : Estate S k'.mm D (keeps k') H') (hv : ∀ s d, D s = some d →
    Views k.mm k'.mm d)
    (hp : k'.procs = k.procs) : Held t S D H' k' := by
  refine ⟨he, fun p d hlt hd => ?_⟩
  obtain ⟨h₁, h₂⟩ := h.sizes p d hlt hd
  rw [hp]
  exact ⟨h₁, h₂.congr (hv p d hd)⟩

theorem Filed.withFile (hF : Filed k)
    (hx : (k.ftable f).type ≠ .pipe ∧ x.type ≠ .pipe ∨
      x.type = (k.ftable f).type ∧ x.pipe = (k.ftable f).pipe ∧ x.writable = (k.ftable f).writable ∧ f < NFILE)
    (hz : x.ref = 0 → x.type = .none) : Filed (FileRefs.withFile k f x) := by
  refine ⟨hF.pipes.withFile hx, fun g hg => ?_⟩
  rw [ftable_withFile]
  split
  case isTrue => exact hz
  case isFalse => exact hF.closed g hg

theorem Filed.fs (hF : Filed k) (fs : Fs) : Filed { k with fs := fs } := ⟨hF.pipes.congr rfl rfl rfl rfl, hF.closed⟩

theorem filing_withFile (h : Held t S D H k) (hF : Filed k) (ht : (k.ftable f).type ≠ .pipe) (hx : x.type ≠ .pipe)
    (hz : x.ref = 0 → x.type = .none) : Filing t S D H k (withFile k f x) := by
  have ha : Alike k (withFile k f x) := alike_withFile (iff_of_false hx ht) fun hc => absurd hc hx
  exact ⟨Held.alike h ha, hF.withFile (.inl ⟨ht, hx⟩) hz, ⟨rfl, rfl, rfl⟩, fun s => .refl _ _ _⟩

theorem filing_onFs {α : Type} (m : FsM α) (h : Held t S D H k) (hF : Filed k) :
    (onFs m k).Holds NoLeak (fun _ k' => Filing t S D H k k') fun _ _ => True := by
  unfold Kernel.onFs
  rw [holds_zoom]
  refine (holds_any (m k.fs)).mono (fun _ fs' _ => ?_) fun _ _ => id
  exact ⟨Held.alike h ⟨rfl, rfl, fun _ => Iff.rfl, fun _ => rfl, rfl⟩, hF.fs fs', ⟨rfl, rfl, rfl⟩, fun s => .refl _ _ _⟩

theorem filealloc_filing (h : Held t S D H k) (hF : Filed k) :
    (filealloc k).Holds NoLeak (fun a k' => Filing t S D H k k' ∧ k'.mm = k.mm ∧
      ∀ f, a = some f → f < NFILE ∧ (k'.ftable f).type = .none ∧ (k'.ftable f).ref ≠ 0 ∧
        ∀ g, (k.ftable g).ref ≠ 0 → k'.ftable g = k.ftable g ∧ g ≠ f) fun _ _ => True := by
  unfold filealloc
  rw [holds_bind, holds_fetch]
  cases hs : (List.range NFILE).find? fun f => (k.ftable f).ref = 0 with
  | none =>
      dsimp only
      rw [holds_pure]
      exact ⟨.refl h hF, rfl, fun _ hc => by cases hc⟩
  | some f =>
      have hf : f < NFILE := List.mem_range.mp (List.mem_of_find?_eq_some hs)
      have hz : (k.ftable f).ref = 0 := by simpa using List.find?_some hs
      have ht := hF.closed f hf hz
      dsimp only
      rw [holds_bind, setFile_apply]
      intro _
      rw [holds_pure]
      refine ⟨filing_withFile h hF (by rw [ht]; decide) (by simp [ht]) (fun hc => by simp at hc), rfl, fun f' he => ?_⟩
      cases he
      refine ⟨hf, by simpa using ht, by simp, fun g hg => ?_⟩
      have hne : g ≠ f := fun e => hg (e ▸ hz)
      exact ⟨by simp [hne], hne⟩

theorem pipeclose_filing (h : Held t S D H k) (hF : Filed k) (hf : f < NFILE) (ht : (k.ftable f).type = .pipe) :
    (pipeclose (k.ftable f).pipe (k.ftable f).writable (withFile k f (closedFile (k.ftable f)))).Holds NoLeak
      (fun _ k' => Filing t S D H k k') fun _ _ => True := by
  have he : IsEnd k (k.ftable f).pipe f := ⟨hf, ht, rfl⟩
  have hx : (closedFile (k.ftable f)).type ≠ .pipe := by simp [closedFile]
  have hset : ((if (k.ftable f).writable then setPipe (k.ftable f).pipe fun x => { x with writeopen := false }
      else setPipe (k.ftable f).pipe fun x => { x with readopen := false } : KM Unit)
        (withFile k f (closedFile (k.ftable f)))) =
      .ok () (shut k f (k.ftable f).pipe (closedFile (k.ftable f)) (k.ftable f).writable) [] := by
    unfold shut closeEnd
    cases (k.ftable f).writable <;> rfl
  have hclosed :
      ∀ g < NFILE, ((shut k f (k.ftable f).pipe (closedFile (k.ftable f)) (k.ftable f).writable).ftable g).ref = 0 →
      ((shut k f (k.ftable f).pipe (closedFile (k.ftable f)) (k.ftable f).writable).ftable g).type = .none := by
    intro g hg
    change (Function.update k.ftable f (closedFile (k.ftable f)) g).ref = 0 →
      (Function.update k.ftable f (closedFile (k.ftable f)) g).type = .none
    by_cases hgf : g = f
    · subst hgf
      rw [Function.update_self]
      exact fun _ => rfl
    · rw [Function.update_of_ne hgf]
      exact hF.closed g hg
  have hother : ∀ a, a ≠ (k.ftable f).pipe →
      (IsPipe (shut k f (k.ftable f).pipe (closedFile (k.ftable f)) (k.ftable f).writable) a ↔ IsPipe k a) :=
        fun a hne =>
    isPipe_shut_of_ne he hx hne
  have hthis := isPipe_shut_iff hF.pipes he hx
  unfold pipeclose
  rw [holds_bind, hset]
  intro _
  rw [holds_bind, holds_fetch, holds_ite]
  have hflag : (¬((shut k f (k.ftable f).pipe (closedFile (k.ftable f)) (k.ftable f).writable).pipes
        (k.ftable f).pipe).readopen = true ∧
      ¬((shut k f (k.ftable f).pipe (closedFile (k.ftable f)) (k.ftable f).writable).pipes
        (k.ftable f).pipe).writeopen = true) ↔
      isOpen (k.pipes (k.ftable f).pipe) (!(k.ftable f).writable) = false := by
    unfold shut closeEnd isOpen
    cases (k.ftable f).writable <;> simp
  refine ⟨fun hc => ?_, fun hc => ?_⟩
  · have ho := hflag.mp hc
    have hgone : ∀ a, IsPipe (shut k f (k.ftable f).pipe (closedFile (k.ftable f)) (k.ftable f).writable) a ↔
        IsPipe k a ∧ a ≠ (k.ftable f).pipe := by
      intro a
      by_cases hne : a = (k.ftable f).pipe
      · subst hne
        rw [hthis, ho]
        simp
      · rw [hother a hne]
        exact (and_iff_left hne).symm
    have hfree : Estate S k.mm D (keeps (shut k f (k.ftable f).pipe (closedFile (k.ftable f)) (k.ftable f).writable))
        ((k.ftable f).pipe :: H) := by
      refine Estate.release h.estate (o := .pipe) (show keeps k .pipe (k.ftable f).pipe from ⟨f, he⟩)
        (fun y a hy => ?_) hgone
      cases y with
      | pipe => exact absurd rfl hy
      | stack | mode => exact Iff.rfl
    obtain ⟨hpush, hviews, hwithin⟩ := hfree.push
    unfold countUnpiped Kernel.onMm
    rw [holds_bind, holds_update, holds_zoom]
    refine holds_ok (kfree_eq (hfree.of (hand_head hfree))) ⟨Held.views h hpush hviews rfl, ⟨?_, hclosed⟩,
      ⟨rfl, rfl, rfl⟩, fun s => ?_⟩
    · refine pipeOk_shut hF.pipes he hx rfl rfl rfl fun q' => ?_
      change Function.update k.unpiped (k.ftable f).pipe (k.unpiped (k.ftable f).pipe + 1) q' = _
      by_cases e : q' = (k.ftable f).pipe
      · subst e
        simp [ho]
      · simp [e]
    · exact hfree.leaves hwithin (hand_head hfree) (by simp [Place.slot])
  · rw [holds_pure]
    have ho : isOpen (k.pipes (k.ftable f).pipe) (!(k.ftable f).writable) = true := by
      rw [← Bool.not_eq_false]
      exact fun e => hc (hflag.mpr e)
    have ha : Alike k (shut k f (k.ftable f).pipe (closedFile (k.ftable f)) (k.ftable f).writable) := by
      refine ⟨rfl, rfl, fun a => ?_, fun _ => rfl, rfl⟩
      by_cases hne : a = (k.ftable f).pipe
      · subst hne
        rw [hthis, ho]
        exact iff_of_true rfl ⟨f, he⟩
      · exact hother a hne
    exact ⟨Held.alike h ha, ⟨pipeOk_shut hF.pipes he hx rfl rfl rfl fun q' => by simp [ho, shut], hclosed⟩,
      ⟨rfl, rfl, rfl⟩,
      fun s => .refl _ _ _⟩

theorem fileclose_filing (h : Held t S D H k) (hF : Filed k) (hf : f < NFILE) :
    (fileclose f k).Holds NoLeak (fun _ k' => Filing t S D H k k') fun _ _ => True := by
  unfold fileclose
  rw [holds_bind, holds_fetch, holds_ite]
  refine ⟨fun _ => by rw [holds_panic]; trivial, fun hpos => ?_⟩
  rw [holds_ite]
  refine ⟨fun hmore => ?_, fun hlast => ?_⟩
  · rw [setFile_apply]
    intro _
    refine ⟨Held.alike h (alike_withFile Iff.rfl fun _ => rfl), hF.withFile (.inr ⟨rfl, rfl, rfl, hf⟩) fun hz => ?_,
      ⟨rfl, rfl, rfl⟩,
      fun s => .refl _ _ _⟩
    change (k.ftable f).ref - 1 = 0 at hz
    omega
  · rw [holds_bind, setFile_apply]
    intro _
    cases ht : (k.ftable f).type with
    | pipe => exact pipeclose_filing h hF hf ht
    | none =>
        dsimp only
        rw [holds_pure]
        exact filing_withFile h hF (by rw [ht]; decide) (by simp) fun _ => rfl
    | inode =>
        have h₁ : Filing t S D H k (withFile k f (closedFile (k.ftable f))) :=
          filing_withFile h hF (by rw [ht]; decide) (by simp [closedFile]) fun _ => rfl
        exact (filing_onFs _ h₁.held h₁.filed).mono (fun _ _ h₂ => h₁.trans h₂) fun _ _ => id

theorem fileclose_two {α : Type} (a : α) (h : Held t S D H k) (hF : Filed k) (hf : f < NFILE) (hg : g < NFILE) :
    ((do
      fileclose f
      fileclose g
      pure a : KM α) k).Holds NoLeak (fun b k' => Filing t S D H k k' ∧ b = a) fun _ _ => True := by
  rw [holds_bind]
  refine (fileclose_filing h hF hf).mono (fun _ k₁ h₁ => ?_) fun _ _ => id
  rw [holds_bind]
  refine (fileclose_filing h₁.held h₁.filed hg).mono (fun _ k₂ h₂ => ?_) fun _ _ => id
  rw [holds_pure]
  exact ⟨h₁.trans h₂, rfl⟩

theorem pipealloc_filing (h : Held t S D H k) (hF : Filed k) :
    (pipealloc k).Holds NoLeak (fun a k' => Filing t S D H k k' ∧ ∀ x, a = some x → x.1 < NFILE ∧
      x.2 < NFILE) fun _ _ => True := by
  unfold pipealloc
  rw [holds_bind]
  refine (filealloc_filing h hF).mono (fun a k₁ h₁ => ?_) fun _ _ => id
  obtain ⟨h₁, hmm₁, hfile₁⟩ := h₁
  cases a with
  | none =>
      unfold pipealloc.bad
      simp only [holds_bind, holds_pure]
      exact ⟨h₁, fun _ hc => by cases hc⟩
  | some f0 =>
      obtain ⟨h0, ht0, hr0, -⟩ := hfile₁ f0 rfl
      dsimp only
      rw [holds_bind]
      refine (filealloc_filing h₁.held h₁.filed).mono (fun a k₂ h₂ => ?_) fun _ _ => id
      obtain ⟨h₂, hmm₂, hfile₂⟩ := h₂
      have h₁₂ := h₁.trans h₂
      cases a with
      | none =>
          unfold pipealloc.bad
          dsimp only
          rw [holds_bind, holds_pure, holds_bind]
          refine (fileclose_filing h₂.held h₂.filed h0).mono (fun _ k₃ h₃ => ?_) fun _ _ => id
          simp only [holds_bind, holds_pure]
          exact ⟨h₁₂.trans h₃, fun _ hc => by cases hc⟩
      | some f1 =>
          obtain ⟨h1, ht1, hr1, hkeep⟩ := hfile₂ f1 rfl
          obtain ⟨hsame, hne⟩ := hkeep f0 hr0
          have ht0' : (k₂.ftable f0).type = .none := by
            rw [hsame]
            exact ht0
          dsimp only
          rw [holds_bind]
          unfold Kernel.onMm
          rw [holds_zoom]
          rcases kalloc_cases k₂.mm with e | ⟨q, rest, hl, e⟩ <;> refine holds_ok e ?_
          · unfold pipealloc.bad
            dsimp only
            rw [holds_bind, holds_pure]
            exact (fileclose_two none h₂.held h₂.filed h0 h1).mono
              (fun _ _ h₃ => ⟨h₁₂.trans h₃.1, fun _ hc => by rw [h₃.2] at hc; cases hc⟩) fun _ _ => id
          · have hfresh : ¬IsPipe k₂ q := h₂.held.fresh q (by rw [hl]; rfl)
            obtain ⟨htake, -⟩ := h₂.held.estate.take hl
            have hpipe : ∀ a, IsPipe (joined k₂ f0 f1 q) a ↔ IsPipe k₂ a ∨ a = q := by
              intro a
              unfold IsPipe
              rw [exists_congr fun g => isEnd_joined hne h0 h1 ht0' ht1]
              constructor
              · rintro ⟨g, ⟨he, -⟩ | he⟩
                · exact .inr he
                · exact .inl ⟨g, he⟩
              · rintro (⟨g, he⟩ | he)
                · exact ⟨g, .inr he⟩
                · exact ⟨f0, .inl ⟨he, .inl rfl⟩⟩
            have hkept : Estate S { k₂.mm with freelist := rest } D (keeps (joined k₂ f0 f1 q)) H := by
              refine Estate.keep htake (o := .pipe) (fun y a hy => ?_) hpipe
              cases y with
              | pipe => exact absurd rfl hy
              | stack | mode => exact Iff.rfl
            dsimp only
            unfold countPiped setPipe setFile
            simp only [holds_bind, holds_update, holds_pure]
            have hdone : Filing t S D H k₂ { joined k₂ f0 f1 q with mm := { k₂.mm with freelist := rest } } := by
              refine ⟨Held.views h₂.held hkept (fun s d hd => ⟨fun _ _ => rfl, fun _ _ => rfl⟩) rfl,
                ⟨(pipeOk_joined hne h0 h1 ht0' ht1 h₂.filed.pipes hfresh).congr rfl rfl rfl rfl, fun g hg => ?_⟩,
                  ⟨rfl, rfl, rfl⟩,
                fun s => leaves_freelist _ _⟩
              change ((joined k₂ f0 f1 q).ftable g).ref = 0 → ((joined k₂ f0 f1 q).ftable g).type = .none
              rw [ftable_joined]
              split
              case isTrue => exact fun hz => absurd hz hr1
              case isFalse =>
                  split
                  case isTrue =>
                      rw [hsame]
                      exact fun hz => absurd hz hr0
                  case isFalse => exact h₂.filed.closed g hg
            refine ⟨h₁₂.trans ?_, fun x hx => ?_⟩
            · unfold joined at hdone
              have e1 : Function.update k₂.ftable f0
                  { k₂.ftable f0 with type := .pipe, readable := true, writable := false, pipe := q } f1 =
                    k₂.ftable f1 :=
                Function.update_of_ne (Ne.symm hne) _ _
              rw [e1]
              exact hdone
            · cases hx
              exact ⟨h0, h1⟩

/-- A part of a call that keeps the places of frames in the process table. -/
structure Passing (t : Prop) (S : Nat → Prop) (D : Nat → Option Nat) (H : List Nat) (k k' : Kstate) : Prop where
  held : Held t S D H k'
  filed : Filed k'
  procs : ∀ p, core (k'.procs p) = core (k.procs p)
  cur : k'.cur = k.cur
  leaves : ∀ s, Leaves D s k.mm k'.mm

theorem Passing.refl (h : Held t S D H k) (hF : Filed k) : Passing t S D H k k :=
  ⟨h, hF, fun _ => rfl, rfl, fun _ => .refl _ _ _⟩

theorem Passing.filing (h : Passing t S D H k k') (h' : Filing t S D H' k' k'') : Passing t S D H' k k'' :=
  ⟨h'.held, h'.filed, fun p => by rw [h'.procs.procs]; exact h.procs p, h'.procs.cur.trans h.cur, fun s =>
    (h.leaves s).trans (h'.leaves s)⟩

theorem Passing.alike {x : Kstate} (h : Passing t S D H k k') (ha : Alike k' x) (hF : Filed x) : Passing t S D H k x :=
  ⟨Held.alike h.held ha, hF, fun p => (ha.procs p).trans (h.procs p), ha.cur.trans h.cur,
    fun s => by rw [ha.mm]; exact h.leaves s⟩

theorem Filed.withProc {x : Kernel.Proc} (hF : Filed k) : Filed (CallRefs.withProc k p x) :=
  ⟨hF.pipes.congr rfl rfl rfl rfl, hF.closed⟩

end ArmXv6.FrameFiles
