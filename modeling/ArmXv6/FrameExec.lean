import ArmXv6.FrameProcs
import ArmXv6.UserBuffers

namespace ArmXv6.FrameExec

open Lib.Exec Lib.Bytes Param Blocks Fs Content Sysfile Vm Kernel Proc Exec Descriptors Syscall AddressSpace
  Resize FrameOwners SpaceCalls
open FrameWorld FrameAside FrameCalls FrameProcs FileRefs CallRefs UserBuffers
open Growproc (pages)

variable {t : Prop} {S : Nat → Prop} {k₀ k k' : Kstate} {d sz sz' : Nat}

/-- exec builds an address space of size sz in a slot of no process. -/
structure Loading (t : Prop) (S : Nat → Prop) (k₀ k : Kstate) (d sz : Nat) : Prop where
  estate : Estate S k.mm (Function.update (spaces k₀) NPROC (some d)) (keeps k₀) []
  leaves : Leaves (spaces k₀) NPROC k₀.mm k.mm
  extent : Extent t k.mm d (pages sz)
  size : sz < UADDR_SZ
  alike : Alike { k₀ with mm := k.mm } k

theorem loading_slot (k₀ : Kstate) (d : Nat) : Function.update (spaces k₀) NPROC (some d) NPROC = some d :=
  Function.update_self ..

theorem Loading.aside (h : Loading t S k₀ k d sz) (ha : Alike k k') : Loading t S k₀ k' d sz where
  estate := ha.mm.symm ▸ h.estate
  leaves := ha.mm.symm ▸ h.leaves
  extent := ha.mm.symm ▸ h.extent
  size := h.size
  alike :=
    ⟨rfl, ha.modes.trans h.alike.modes, fun q => (ha.pipes q).trans (h.alike.pipes q), fun p =>
    (ha.procs p).trans (h.alike.procs p),
    ha.cur.trans h.alike.cur⟩

theorem Loading.mem (h : Loading t S k₀ k d sz) {m : Mm}
    (he : Estate S m (Function.update (spaces k₀) NPROC (some d)) (keeps k₀) [])
    (hl : Leaves (Function.update (spaces k₀) NPROC (some d)) NPROC k.mm m) (hx : Extent t m d (pages sz'))
      (hsz : sz' < UADDR_SZ) :
    Loading t S k₀ { k with mm := m } d sz' :=
  ⟨he, h.leaves.trans hl.of_update, hx, hsz, rfl, h.alike.modes, h.alike.pipes, h.alike.procs, h.alike.cur⟩

theorem holds_quiet {σ α : Type} {r : Run Event σ α} {Q : α → σ → Prop} {E : Stop → σ → Prop}
    (h : r.Holds (fun _ => True) Q E) :
    r.Holds NoLeak Q E := by
  cases r with
  | ok a s u => exact fun _ => h fun _ _ => trivial
  | stop w s u => exact fun _ => h fun _ _ => trivial

/-- loaduvm stores in a page of the new space. A page that is not there has a zero entry, and the
bytes go to frame 0. -/
theorem Loading.page (h : Loading t S k₀ k d sz) (h0 : ¬S 0) {g : Nat} (hg : g < 65536) {l : List UInt8}
    (hl : l.length ≤ FRAME) (m : Mm)
    (hm : m = { k.mm with ram := k.mm.ram.setSlice (PTE_ADDR (entry k.mm d g)) l }) :
      Loading t S k₀ { k with mm := m } d sz := by
  by_cases hp : present (entry k.mm d g) = true
  · obtain ⟨h₁, h₂, h₃⟩ :=
      h.estate.storePage (loading_slot k₀ d) hg hp (l := l) (show 0 + l.length ≤ FRAME by omega) m
      (by rw [hm, Nat.add_zero])
    exact h.mem h₁ h₂ (h.extent.congr h₃) h.size
  · rw [h.extent.zero g hg (Bool.not_eq_true _ ▸ hp)] at hm
    have hw : Within k.mm m 0 := by
      rw [hm]
      exact within_slice (Nat.zero_mod _) (show 0 + l.length ≤ FRAME by omega)
    obtain ⟨h₁, h₂, h₃⟩ := h.estate.stray (by rw [hm]) (by rw [hm]) hw h0
    exact h.mem h₁ (h₂ _) (h.extent.congr (h₃ _ _ (loading_slot k₀ d))) h.size

theorem load_loop (h0 : ¬S 0) (addr ip offset len fuel i : Nat) (h : Loading t S k₀ k d sz) :
    (loaduvm.loop d addr ip offset len fuel i k).Holds NoLeak (fun _ k' => Loading t S k₀ k' d sz) fun _ _ => True := by
  induction fuel generalizing i k with
  | zero =>
      rw [loaduvm.loop, holds_pure]
      exact h
  | succ fuel ih =>
      unfold loaduvm.loop
      rw [holds_ite]
      refine ⟨fun hi => ?_, fun _ => by rw [holds_pure]; exact h⟩
      rw [holds_bind]
      rcases walk_cases h.estate (loading_slot k₀ d)
        (show uint (addr + i) < 2 ^ 32 from Nat.mod_lt _ (by decide)) with hw | ⟨b, hg, -, hw, hword⟩
      · refine holds_onMm (E := fun _ _ => True) (holds_ok hw ?_)
        rw [holds_panic]
        trivial
      refine holds_onMm (E := fun _ _ => True) (holds_ok hw ?_)
      dsimp only
      rw [holds_bind, holds_fetch, holds_bind]
      have hn : min (len - i) PTE_SZ ≤ 4096 := Nat.min_le_right _ _
      refine ((Aside.onFs _ _).and
        (holds_quiet (gives_onFs (readi_length ip (uint (offset + i)) (min (len - i) PTE_SZ) (by omega)) _))).mono
        ?_ fun _ _ _ => trivial
      rintro r k₁ ⟨ha, hlen⟩
      rw [holds_bind, hword, ← ha.mm]
      refine holds_onMm (E := fun _ _ => True) (holds_ok (update_apply _ _) ?_)
      have h₁ := (h.aside ha).page h0 hg (hlen.trans (hn.trans (by decide))) _ rfl
      rw [holds_ite]
      refine ⟨fun _ => ?_, fun _ => ih _ h₁⟩
      rw [holds_pure]
      exact h₁

theorem Loading.loaduvm (h : Loading t S k₀ k d sz) (h0 : ¬S 0) (addr ip offset len : Nat) :
    (loaduvm d addr ip offset len k).Holds NoLeak (fun _ k' => Loading t S k₀ k' d sz) fun _ _ => True := by
  unfold Exec.loaduvm
  rw [holds_ite]
  exact ⟨fun _ => by rw [holds_panic]; trivial, fun _ => load_loop h0 _ _ _ _ _ _ h⟩

theorem Loading.segments (h0 : ¬S 0) (ip : Nat) (ph0 : List UInt8) (count off : Nat) (h : Loading t S k₀ k d sz) :
    (exec.segments d ip ph0 count off sz k).Holds NoLeak
      (fun r k' => ∃ sz', Loading t S k₀ k' d sz' ∧ ∀ x, r = some x → x = sz') fun _ _ => True := by
  induction count generalizing ph0 off sz k with
  | zero =>
      rw [exec.segments, holds_pure]
      exact ⟨sz, h, fun _ hx => (Option.some.inj hx).symm⟩
  | succ count ih =>
      have hnone : ∀ {k' : Kstate} {sz'}, Loading t S k₀ k' d sz' →
          ((pure none : KM (Option Nat)) k').Holds NoLeak (fun r k' => ∃ sz', Loading t S k₀ k' d sz' ∧ ∀ x,
            r = some x → x = sz')
            fun _ _ => True := by
        intro k' sz' h'
        rw [holds_pure]
        exact ⟨sz', h', fun _ hx => by cases hx⟩
      unfold exec.segments
      rw [holds_bind]
      refine (Aside.onFs _ _).mono (fun r k₁ ha => ?_) fun _ _ => id
      have h₁ := h.aside ha
      rw [holds_ite]
      refine ⟨fun _ => hnone h₁, fun _ => ?_⟩
      rw [holds_ite]
      refine ⟨fun _ => ih _ _ h₁, fun _ => ?_⟩
      rw [holds_ite]
      refine ⟨fun _ => hnone h₁, fun _ => ?_⟩
      rw [holds_bind]
      refine holds_onMm
        ((allocuvm_estate h₁.estate (loading_slot k₀ d) h₁.extent h₁.size _).mono (fun sz₂ m₂ h₂ => ?_) fun _ _ => id)
      obtain ⟨he, hl, hbad, hgood⟩ := h₂
      rw [holds_ite]
      refine ⟨fun hz => hnone (h₁.mem he hl (hbad hz) h₁.size), fun hz => ?_⟩
      rw [holds_bind]
      refine ((h₁.mem he hl (hgood hz).2 (hgood hz).1).loaduvm h0 _ _ _ _).mono (fun r k₃ h₃ => ?_) fun _ _ => id
      rw [holds_ite]
      exact ⟨fun _ => hnone h₃, fun _ => ih _ _ h₃⟩

theorem dropped_undone {r : Int} (h : World t S k₀) (he : Estate S k.mm (spaces k₀) (keeps k₀) [])
    (hl : Leaves (spaces k₀) NPROC k₀.mm k.mm)
    (ha : Alike { k₀ with mm := k.mm } k) : Undone t S k₀ r k := by
  have hw : World t S { k₀ with mm := k.mm } := by
    refine ⟨he, fun p d hp hd => ?_⟩
    obtain ⟨h₁, h₂⟩ := h.sizes p d hp hd
    exact ⟨h₁, h₂.congr (hl.views p d (by omega) hd)⟩
  have hsp : spaces k = spaces k₀ := ha.spaces
  have hsz : ∀ p, (k.procs p).sz = (k₀.procs p).sz := fun p => (core_eq (ha.procs p)).2.2.2.2
  exact ⟨.of (World.alike hw ha) (Leaves.any hl (spaces_top k₀)) fun p _ => ⟨by rw [hsp], fun _ => hsz p⟩,
    fun _ => ⟨hsp, ha.keeps, hsz, hl⟩⟩

theorem Loading.bad (h : World t S k₀) (hk : Loading t S k₀ k d sz) (ip : Option Nat) :
    (exec.bad (some d) ip k).Holds NoLeak (Undone t S k₀) fun _ _ => True := by
  obtain ⟨n, -, hc⟩ := hk.extent.tables
  unfold exec.bad
  rw [holds_bind]
  dsimp only
  refine holds_onMm ((freevm_estate hk.estate (loading_slot k₀ d) ⟨n, hc⟩).mono (fun _ m₁ h₁ => ?_) fun _ _ => id)
  obtain ⟨he, hl⟩ := h₁
  rw [update_none (spaces_top k₀)] at he
  have hl₁ := hk.leaves.trans hl.of_update
  rw [holds_bind]
  refine Run.Holds.mono (Q := fun _ k' => Alike { k with mm := m₁ } k') ?_ (fun _ k₂ ha => ?_) fun _ _ => id
  · cases ip with
    | none => exact Aside.pure _ _
    | some ip => exact Aside.onFs _ _
  · rw [holds_pure]
    have hmm : k₂.mm = m₁ := ha.mm
    have hb : Alike { k₀ with mm := k₂.mm } { k with mm := m₁ } :=
      ⟨hmm.symm, hk.alike.modes, hk.alike.pipes, hk.alike.procs, hk.alike.cur⟩
    exact dropped_undone h (hmm ▸ he) (hmm ▸ hl₁) (hb.trans ha)

theorem Loading.switch {c old : Nat} (h : World t S k₀) (hr : Running k₀) (hk : Loading t S k₀ k d sz)
    (hcur : c = k₀.cur)
    (hdir : old = (k₀.procs k₀.cur).pgdir) {x : Kernel.Proc} (hpg : x.pgdir = d) (hsz : x.sz = sz)
      (hst : x.state = (k.procs c).state)
    (hks : x.kstack = (k.procs c).kstack) :
    (onMm (freevm old) (withProc k c x)).Holds NoLeak (fun _ k' => Safe t S k₀ k') fun _ _ => True := by
  subst hcur hdir
  have hspace := Running.space hr
  have hne : k₀.cur ≠ NPROC := by have := hr.cur; omega
  have hold : Function.update (spaces k₀) NPROC (some d) k₀.cur = some (k₀.procs k₀.cur).pgdir :=
    (Function.update_of_ne hne _ _).trans hspace
  obtain ⟨n, -, hc⟩ := ((h.sizes _ _ hr.cur hspace).2.congr (hk.leaves.views _ _ hne hspace)).tables
  refine holds_onMm (E := fun _ _ => True) ((freevm_estate hk.estate hold ⟨n, hc⟩).mono (fun _ m h' => ?_) fun _ _ =>
    False.elim)
  obtain ⟨he, hl⟩ := h'
  have hdirs :
      Function.update (Function.update (Function.update (spaces k₀) NPROC (some d)) k₀.cur (some d)) NPROC none =
      Function.update (spaces k₀) k₀.cur (some d) := by
    funext q
    by_cases hq : q = NPROC
    · subst hq
      rw [Function.update_self, Function.update_of_ne (Ne.symm hne), spaces_top]
    · rw [Function.update_of_ne hq]
      by_cases hq' : q = k₀.cur
      · subst hq'
        rw [Function.update_self, Function.update_self]
      · rw [Function.update_of_ne hq', Function.update_of_ne hq', Function.update_of_ne hq]
  have he' := Estate.move he (Ne.symm hne)
  rw [loading_slot, hdirs] at he'
  obtain ⟨h₁, h₂, h₃, -, -⟩ := core_eq (hk.alike.procs k₀.cur)
  have hother : ∀ p, p ≠ k₀.cur → core ((withProc k k₀.cur x).procs p) = core (k₀.procs p) := by
    intro p hp
    rw [procs_withProc, if_neg hp]
    exact hk.alike.procs p
  have hself : (withProc k k₀.cur x).procs k₀.cur = x := (procs_withProc k k₀.cur k₀.cur x).trans (if_pos rfl)
  have hsp : spaces { withProc k k₀.cur x with mm := m } = Function.update (spaces k₀) k₀.cur (some d) := by
    funext q
    unfold spaces
    dsimp only
    by_cases hq : q = k₀.cur
    · subst hq
      rw [Function.update_self, hself, hst, hpg,
        if_pos ⟨hr.cur, fun hc => hr.unused (h₁.mp hc), fun hc => hr.embryo (h₂.mp hc)⟩]
    · obtain ⟨h₅, h₆, -, h₇, -⟩ := core_eq (hother q hq)
      rw [Function.update_of_ne hq]
      simp only [ne_eq, h₅, h₆, h₇]
  have hviews : ∀ {p d'}, p < NPROC → p ≠ k₀.cur → spaces k₀ p = some d' →
      Function.update (spaces k₀) NPROC (some d) p = some d' := by
    intro p d' hp _ hd
    rw [Function.update_of_ne (by omega : p ≠ NPROC)]
    exact hd
  have hlt : ∀ {p d'}, spaces k₀ p = some d' → p < NPROC := by
    intro p d' hd
    by_contra hp
    cases (spaces_none hp).symm.trans hd
  refine ⟨?_, fun p d' hp hd => .inr ⟨?_, ?_, ?_, fun g hg hpr => ?_⟩⟩
  · unfold World
    rw [hsp]
    refine ⟨Estate.rekeep he' fun o a => ?_, fun p d' hp hd => ?_⟩
    · cases o with
      | pipe => exact hk.alike.pipes a
      | mode => exact iff_of_eq (congrArg (a ∈ ·) hk.alike.modes)
      | stack q =>
          rw [keeps_stack, keeps_stack]
          dsimp only
          by_cases hq : q = k₀.cur
          · subst hq
            rw [hself, hst, hks, ne_eq, ne_eq, h₁, h₃]
          · obtain ⟨h₅, -, h₆, -, -⟩ := core_eq (hother q hq)
            rw [ne_eq, ne_eq, h₅, h₆]
    · dsimp only
      by_cases hq : p = k₀.cur
      · subst hq
        rw [Function.update_self] at hd
        cases hd
        rw [hself, hsz]
        exact ⟨hk.size, hk.extent.congr (hl.views NPROC d (Ne.symm hne) (loading_slot k₀ d))⟩
      · rw [Function.update_of_ne hq] at hd
        rw [(core_eq (hother p hq)).2.2.2.2]
        obtain ⟨h₅, h₆⟩ := h.sizes p d' hp hd
        exact ⟨h₅, (h₆.congr (hk.leaves.views p d' (by omega) hd)).congr (hl.views p d' hq (hviews hp hq hd))⟩
  · rw [hsp, Function.update_of_ne hp]
    exact hd
  · exact (core_eq (hother p hp)).2.2.2.2
  · exact (hk.leaves.views p d' (Nat.ne_of_lt (hlt hd)) hd).trans (hl.views p d' hp (hviews (hlt hd) hp hd))
  · have hv := hk.leaves.views p d' (Nat.ne_of_lt (hlt hd)) hd
    have hs := hl.same p d' hp (hviews (hlt hd) hp hd) g hg (by rw [hv.entry g hg]; exact hpr)
    rw [hv.entry g hg] at hs
    exact (hk.leaves.same p d' (Nat.ne_of_lt (hlt hd)) hd g hg hpr).trans hs

theorem Loading.keep {α : Type} {m : MmM α} {Q : α → Kstate → Prop} (hk : Loading t S k₀ k d sz)
    (hm : (m k.mm).Holds NoLeak (fun _ m' => Estate S m' (Function.update (spaces k₀) NPROC (some d)) (keeps k₀) [] ∧
      Leaves (Function.update (spaces k₀) NPROC (some d)) NPROC k.mm m' ∧ Views k.mm m' d) fun _ _ => True)
    (hQ : ∀ a m', Loading t S k₀ { k with mm := m' } d sz → Q a { k with mm := m' }) :
    (onMm m k).Holds NoLeak Q fun _ _ => True := by
  refine holds_onMm (hm.mono (fun a m' h' => ?_) fun _ _ => id)
  obtain ⟨he, hl, hv⟩ := h'
  exact hQ a m' (hk.mem he hl (hk.extent.congr hv) hk.size)

theorem Loading.commit (h : World t S k₀) (hr : Running k₀) (hk : Loading t S k₀ k d sz) (path : List UInt8)
    (argv : List (List UInt8))
    (elf : List UInt8) : (exec.commit path argv elf d sz k).Holds NoLeak (Undone t S k₀) fun _ _ => True := by
  have hu : UADDR_SZ = 2 ^ 28 := rfl
  have hlt := hk.size
  have hal : ALIGNUP sz PTE_SZ = pages sz * 4096 := aligned_page (by omega)
  have hself := loading_slot k₀ d
  have hpages : pages (ALIGNUP sz PTE_SZ) = pages sz := by
    rw [hal]
    change (pages sz * 4096 + 4095) / 4096 = pages sz
    omega
  have hle : pages sz ≤ 65536 := pages_le (by omega)
  have htop : ¬ALIGNUP sz PTE_SZ < UADDR_SZ → UADDR_SZ ≤ uint (ALIGNUP sz PTE_SZ + 2 * PTE_SZ) := by
    intro hfull
    change UADDR_SZ ≤ (ALIGNUP sz PTE_SZ + 2 * 4096) % 2 ^ 32
    omega
  clear hal
  unfold exec.commit
  generalize uint (ALIGNUP sz PTE_SZ + 2 * PTE_SZ) = top at htop ⊢
  generalize ALIGNUP sz PTE_SZ = bottom at htop hpages ⊢
  rw [holds_bind]
  refine Run.Holds.mono (Q := fun r k₁ => (r = 0 → Loading t S k₀ k₁ d sz) ∧ (r ≠ 0 → Loading t S k₀ k₁ d r)) ?_ ?_
    fun _ _ => id
  · by_cases hfull : bottom < UADDR_SZ
    · refine holds_onMm
        ((allocuvm_estate hk.estate hself (hpages ▸ hk.extent) hfull top).mono (fun r m h' => ?_) fun _ _ => id)
      obtain ⟨he, hl, hbad, hgood⟩ := h'
      rw [hpages] at hbad
      exact ⟨fun hz => hk.mem he hl (hbad hz) hk.size, fun hz => hk.mem he hl (hgood hz).2 (hgood hz).1⟩
    · -- the space is full, and there is no place for the stack
      refine holds_onMm (E := fun _ _ => True) ?_
      unfold allocuvm
      rw [if_pos (htop hfull), holds_pure]
      exact ⟨fun _ => hk, fun hc => absurd rfl hc⟩
  · rintro r k₁ ⟨hbad, hgood⟩
    have hguard : uint (r + (2 ^ 32 - 2 * PTE_SZ)) < 2 ^ 32 := Nat.mod_lt _ (by decide)
    generalize uint (r + (2 ^ 32 - 2 * PTE_SZ)) = guard at hguard ⊢
    rw [holds_ite]
    refine ⟨fun hz => Loading.bad h (hbad hz) none, fun hz => ?_⟩
    have h₁ := hgood hz
    rw [holds_bind]
    refine holds_onMm ((clearpteu_estate h₁.estate hself h₁.extent hguard).mono (fun _ m₂ h' => ?_) fun _ _ => id)
    obtain ⟨he, hl, hx⟩ := h'
    have h₂ := h₁.mem he hl hx h₁.size
    rw [holds_bind, holds_fetch, holds_bind]
    refine h₂.keep (pushArgs_estate h₂.estate hself _ argv r []) fun a m₃ h₃ => ?_
    cases a with
    | none => exact Loading.bad h h₃ none
    | some a =>
        obtain ⟨sp, ustack⟩ := a
        have hsp : uint (sp + (2 ^ 32 - (ustack.length + 1) * 4)) < 2 ^ 32 := Nat.mod_lt _ (by decide)
        dsimp only
        generalize uint (sp + (2 ^ 32 - (ustack.length + 1) * 4)) = sp' at hsp ⊢
        rw [holds_bind, setProc_apply]
        intro _
        have h₄ := h₃.aside (alike_withProc (p := k₁.cur) (x := { k₁.procs k₁.cur with
          tf := { (k₁.procs k₁.cur).tf with
            r := Function.update (Function.update (k₁.procs k₁.cur).tf.r 0 ustack.length) 1 sp' } }) rfl)
        rw [holds_bind]
        refine h₄.keep (copyout_estate h₄.estate hself _ hsp _) fun r₅ m₅ h₅ => ?_
        rw [holds_ite]
        refine ⟨fun _ => Loading.bad h h₅ none, fun _ => ?_⟩
        rw [holds_bind, setProc_apply]
        intro _
        unfold switchuvm
        rw [holds_bind, holds_bind, holds_fetch, holds_ite]
        refine ⟨fun _ => by rw [holds_panic]; trivial, fun _ => ?_⟩
        rw [holds_ite]
        refine ⟨fun _ => by rw [holds_panic]; trivial, fun _ => ?_⟩
        rw [holds_pure, holds_bind]
        have hcur : k₁.cur = k₀.cur := h₁.alike.cur
        have hdir : (k₁.procs k₁.cur).pgdir = (k₀.procs k₀.cur).pgdir := by
          rw [hcur]
          exact (core_eq (h₁.alike.procs k₀.cur)).2.2.2.1
        refine Run.Holds.mono (Loading.switch h hr h₅ hcur hdir ?_ ?_ ?_ ?_) (fun _ k' hs => ?_) fun _ _ => id
        rotate_right
        · rw [holds_pure]
          exact ⟨hs, fun hc => absurd hc (by decide)⟩
        all_goals rfl

theorem exec_undone (h0 : ¬S 0) (h : World t S k) (hr : Running k) (path : List UInt8) (argv : List (List UInt8))
    (elf0 ph0 : List UInt8) :
    (exec path argv elf0 ph0 k).Holds NoLeak (Undone t S k) fun _ _ => True := by
  have hbad : ∀ {k' : Kstate} (ip : Nat), Alike k k' →
      (exec.bad none (some ip) k').Holds NoLeak (Undone t S k) fun _ _ => True := by
    intro k' ip ha
    have hm : Aside (exec.bad none (some ip)) := .bind (.pure _) fun _ => .bind (.onFs _) fun _ => .pure _
    exact (hm k').mono (fun _ _ ha' => ⟨.alike h (ha.trans ha'), fun _ => .alike (ha.trans ha')⟩) fun _ _ => id
  unfold exec
  rw [holds_bind]
  refine (aside_proc k).mono (fun p k₁ ha₁ => ?_) fun _ _ => id
  rw [holds_bind]
  refine (Aside.onFs _ k₁).mono (fun found k₂ ha₂ => ?_) fun _ _ => id
  have ha₂ := ha₁.trans ha₂
  cases found with
  | none => dsimp only; rw [holds_pure]; exact ⟨.alike h ha₂, fun _ => .alike ha₂⟩
  | some ip =>
      dsimp only
      rw [holds_bind]
      refine (Aside.onFs _ k₂).mono (fun _ k₃ ha₃ => ?_) fun _ _ => id
      rw [holds_bind]
      refine (Aside.onFs _ k₃).mono (fun r k₄ ha₄ => ?_) fun _ _ => id
      have ha₄ := (ha₂.trans ha₃).trans ha₄
      rw [holds_ite]
      refine ⟨fun _ => hbad ip ha₄, fun _ => ?_⟩
      rw [holds_ite]
      refine ⟨fun _ => hbad ip ha₄, fun _ => ?_⟩
      rw [holds_bind]
      unfold setupvm
      cases hl : k₄.mm.freelist with
      | nil =>
          refine holds_onMm (E := fun _ _ => True) (holds_ok (kalloc_nil hl) ?_)
          exact hbad ip ha₄
      | cons d rest =>
          refine holds_onMm (E := fun _ _ => True) (holds_ok (kalloc_cons hl) ?_)
          dsimp only
          obtain ⟨he, hx⟩ : _ ∧ Extent t _ d 0 := new_space h.estate (spaces_top k) (by rw [← ha₄.mm]; exact hl)
          have h₅ : Loading t S k { k₄ with mm := { k₄.mm with freelist := rest } } d 0 := by
            rw [ha₄.mm]
            exact ⟨he, leaves_freelist _ _, hx, by decide, rfl, ha₄.modes, ha₄.pipes, ha₄.procs, ha₄.cur⟩
          rw [holds_bind]
          refine (h₅.segments h0 ip ph0 _ _).mono ?_ fun _ _ => id
          rintro a k₆ ⟨sz, h₆, hsz⟩
          cases a with
          | none => exact Loading.bad h h₆ _
          | some x =>
              obtain rfl := hsz x rfl
              dsimp only
              rw [holds_bind]
              exact (Aside.onFs _ k₆).mono (fun _ k₇ ha₇ => (h₆.aside ha₇).commit h hr path argv _) fun _ _ => id

end ArmXv6.FrameExec
