import ArmXv6.FrameOwners
import ArmXv6.ForkCopy

namespace ArmXv6.SpaceCalls

open Lib.Exec Lib.Bytes Lib.Frames Lib.Owners Param Blocks Vm AddressSpace Resize FrameOwners
open Growproc (pages)
open ForkCopy (get_copy same_copy)

/-- No frame is dropped and nothing goes through a null page table entry. -/
def NoLeak : Event → Prop
  | .lost _ | .nullPte _ => False
  | _ => True

theorem holds_ok {ε σ α : Type} {G : ε → Prop} {Q : α → σ → Prop} {E : Stop → σ → Prop} {r : Run ε σ α} {a : α}
    {s : σ} {u : List ε}
    (h : r = .ok a s u) (hq : Q a s) : r.Holds G Q E := by
  rw [h]
  exact fun _ => hq

theorem holds_any {ε σ α : Type} {G : ε → Prop} (r : Run ε σ α) : r.Holds G (fun _ _ => True) fun _ _ => True := by
  cases r with
  | ok a s u => exact fun _ => trivial
  | stop w s u => exact fun _ => trivial

/-- The page tables of the directory are those of its first entries. -/
def Contiguous (m : Mm) (d n : Nat) : Prop := ∀ i, i < 256 → (table m d i = none ↔ n ≤ i)

/-- No page is mapped from top on, and where t holds, all pages below it are. -/
structure Extent (t : Prop) (m : Mm) (d top : Nat) : Prop where
  le : top ≤ 65536
  tables : ∃ n, top ≤ 256 * n ∧ Contiguous m d n
  inside : ∀ g, g < 65536 → present (entry m d g) = true → g < top
  filled : t → ∀ g, g < top → present (entry m d g) = true
  zero : ∀ g, g < 65536 → present (entry m d g) = false → PTE_ADDR (entry m d g) = 0

variable {ω : Type} {S : Nat → Prop} {m m' m'' : Mm} {dirs : Nat → Option Nat} {kept : ω → Nat → Prop} {H : List Nat}
  {tt : Prop} {s d f x t g top : Nat}

theorem Extent.congr (h : Extent tt m d top) (hv : Views m m' d) : Extent tt m' d top where
  le := h.le
  tables := by
    obtain ⟨n, hn, hc⟩ := h.tables
    refine ⟨n, hn, fun i hi => ?_⟩
    rw [hv.table i hi]
    exact hc i hi
  inside g hg hp := by
    rw [hv.entry g hg] at hp
    exact h.inside g hg hp
  filled ht g hg := by
    have := h.le
    rw [hv.entry g (by omega)]
    exact h.filled ht g hg
  zero g hg hp := by
    rw [hv.entry g hg] at hp ⊢
    exact h.zero g hg hp

theorem Extent.weaken {t' : Prop} (h : Extent tt m d top) (ht : t' → tt) : Extent t' m d top :=
  ⟨h.le, h.tables, h.inside, fun h' => h.filled (ht h'), h.zero⟩

theorem leaves_freelist (m : Mm) (l : List Nat) : Leaves dirs s m { m with freelist := l } :=
  ⟨fun _ _ _ _ => ⟨fun _ _ => rfl, fun _ _ => rfl⟩, fun _ _ _ _ _ _ _ _ _ => rfl⟩

theorem takeStore (h : Estate S m dirs kept H) {rest : List Nat} (hl : m.freelist = f :: rest) (r : Mem PHYSTOP)
    (hr : Within { m with freelist := rest } { m with ram := r, freelist := rest } f) :
    Estate S { m with ram := r, freelist := rest } dirs kept (f :: H) ∧
      Leaves dirs s m { m with ram := r, freelist := rest } ∧
      ∀ s d, dirs s = some d → Views m { m with ram := r, freelist := rest } d := by
  obtain ⟨h₁, -⟩ := h.take hl
  obtain ⟨h₂, hv⟩ := h₁.store (show ({ m with ram := r, freelist := rest } : Mm).kernEnd = _ from rfl) rfl hr
    (hand_head h₁) (by simp) (by simp) (by simp)
  refine ⟨h₂, (leaves_freelist m rest).trans (h₁.leaves hr (hand_head h₁) (by simp [Place.slot])), fun s' d' hd => ?_⟩
  obtain ⟨h₃, h₄⟩ := hv s' d' hd
  exact ⟨h₃, h₄⟩

theorem within_fill (hf : f % FRAME = 0) {len : Nat} (hl : len ≤ FRAME) {l : List Nat} :
    Within { m with freelist := l } { m with ram := m.ram.fill f len 0, freelist := l } f := fun _ ha hne =>
  same_fill hf hl ha hne

theorem attach (h : Estate S m dirs kept (f :: H)) (hs : dirs s = some d) (hg : g < 65536)
    (ht : table m d (g / 256) = some t)
    (hn : present (entry m d g) = false) {ap : Nat} (hap : ap < 4) (m' : Mm)
    (hm : m' = { m with ram := m.ram.setWord (t + 4 * (g % 256)) (mkPte f ap) }) :
    Estate S m' dirs kept H ∧ Leaves dirs s m m' ∧ (∀ i, i < 256 → table m' d i = table m d i) ∧
      (present (entry m' d g) = true ∧ PTE_ADDR (entry m' d g) = f) ∧ ∀ g', g' < 65536 → g' ≠ g →
        entry m' d g' = entry m d g' := by
  have hf := h.of (hand_head h)
  have hal : f % 262144 = 0 := hf.aligned
  have hbelow : f < 134217728 := hf.below
  have hw : mkPte f ap = f + (16 * ap + 14) := by
    rw [mkPte_eq (by omega), Nat.mod_eq_of_lt hap]
  have hadr : PTE_ADDR (mkPte f ap) = f := by
    rw [hw]
    exact pte_addr_add (by omega) (by omega)
  have hp : present (mkPte f ap) = true := by
    rw [hw]
    simp only [present, decide_eq_true_eq]
    omega
  have hlt : mkPte f ap < 2 ^ 32 := by
    rw [hw]
    omega
  subst hm
  obtain ⟨htab, hself, hother, -, hleaves, -, -⟩ := h.setEntry hs hg ht hlt _ rfl
  refine ⟨h.attachPage hs hg ht hlt hadr hp hn, hleaves, htab, ?_, hother⟩
  rw [hself]
  exact ⟨hp, hadr⟩

theorem Extent.next (hx : Extent tt m d g) (hg : g < 65536) {n : Nat} (hn : g / 256 < n) (hc : Contiguous m' d n)
    (hp : present (entry m' d g) = true) (hother : ∀ g', g' < 65536 → g' ≠ g → entry m' d g' = entry m d g') :
      Extent tt m' d (g + 1) where
  le := hg
  tables := ⟨n, by omega, hc⟩
  inside g' hg' hp' := by
    by_cases hgg : g' = g
    · omega
    · rw [hother g' hg' hgg] at hp'
      have := hx.inside g' hg' hp'
      omega
  filled ht g' hg' := by
    by_cases hgg : g' = g
    · rw [hgg]
      exact hp
    · rw [hother g' (by omega) hgg]
      exact hx.filled ht g' (by omega)
  zero g' hg' hp' := by
    by_cases hgg : g' = g
    · rw [hgg, hp] at hp'
      cases hp'
    · rw [hother g' hg' hgg] at hp' ⊢
      exact hx.zero g' hg' hp'

/-- mappages maps the page after the last one, or the free list is empty and a page table missing. -/
theorem map_page (h : Estate S m dirs kept (f :: H)) (hs : dirs s = some d) (hx : Extent tt m d g) (hg : g < 65536)
    {ap : Nat} (hap : ap < 4) :
    (mappages d (g * 4096) PTE_SZ f ap m).Holds NoLeak
      (fun r m' => r = -1 ∨ r = 0 ∧ Estate S m' dirs kept H ∧ Leaves dirs s m m' ∧ Extent tt m' d (g + 1) ∧
        PTE_ADDR (entry m' d g) = f) fun _ _ => False := by
  obtain ⟨n, hn, hc⟩ := hx.tables
  have hi : g / 256 < 256 := by omega
  have hnot : present (entry m d g) = false := by
    rw [← Bool.not_eq_true]
    intro hp
    exact Nat.lt_irrefl g (hx.inside g hg hp)
  cases ht : table m d (g / 256) with
  | some t =>
      refine holds_ok (mappages_some hg f ap ht hnot) (.inr ⟨rfl, ?_⟩)
      obtain ⟨h₁, h₂, h₃, h₄, h₅⟩ := attach h hs hg ht hnot hap _ rfl
      have hlt : g / 256 < n := by
        by_contra hge
        rw [(hc _ hi).mpr (by omega)] at ht
        cases ht
      refine ⟨h₁, h₂, hx.next hg hlt (fun i hi => ?_) h₄.1 h₅, h₄.2⟩
      rw [h₃ i hi]
      exact hc i hi
  | none =>
      have hge : n ≤ g / 256 := (hc _ hi).mp ht
      have he : n = g / 256 := by omega
      cases hl : m.freelist with
      | nil => exact holds_ok (mappages_none hg f ap ht hl) (.inl rfl)
      | cons t rest =>
          have hft := h.of (o := .free) (f := t) (by
            change t ∈ m.freelist
            rw [hl]
            exact List.mem_cons_self)
          have hal : t % 262144 = 0 := hft.aligned
          have hbelow : t < 134217728 := hft.below
          obtain ⟨h₁, hleaves₁, hviews₁⟩ :=
            takeStore (s := s) h hl _ (within_fill hft.aligned (show PGSIZE ≤ FRAME by decide))
          have hv := hviews₁ s d hs
          obtain ⟨h₂, hleaves₂, hself, hother, hent⟩ := h₁.attachTable hs hi ((hv.table _ hi).trans ht) (fun x hx =>
            word_fill_within _ (Nat.le_add_right _ _) (by change _ ≤ t + 65536; omega)
              (by rw [phystop_eq]; change t + 65536 ≤ _; omega)) _ rfl
          have hn₂ : present (entry { m with
              ram := (m.ram.fill t PGSIZE 0).setWord (d + 4 * (g / 256)) (t ||| 1), freelist := rest } d g) =
                false := by
            rw [← Bool.not_eq_true]
            intro hp
            have hent' := (hent g hg).trans (hv.entry g hg)
            rw [show entry _ d g = _ from hent', hnot] at hp
            cases hp
          obtain ⟨h₃, hleaves₃, htab₃, hpage, hent₃⟩ := attach h₂ hs hg hself hn₂ hap _ rfl
          have hword := hn₂
          rw [entry_of_table hself] at hword
          refine holds_ok (mappages_table hg f ap ht hl hword)
            (.inr ⟨rfl, h₃, (hleaves₁.trans hleaves₂).trans hleaves₃, ?_, hpage.2⟩)
          refine hx.next hg (Nat.lt_succ_self (g / 256)) (fun i hi' => ?_) hpage.1 fun g' hg' hne => ?_
          · rw [htab₃ i hi']
            by_cases hii : i = g / 256
            · subst hii
              rw [hself]
              simp
            · rw [hother i hi' hii, hv.table i hi', hc i hi']
              omega
          · exact (hent₃ g' hg' hne).trans ((hent g' hg').trans (hv.entry g' hg'))

structure Emptied (m m' : Mm) (d lo top : Nat) : Prop where
  tables : ∀ i, i < 256 → table m' d i = table m d i
  old : ∀ g, g < 65536 → g < lo ∨ top ≤ g → entry m' d g = entry m d g
  gone : ∀ g, g < 65536 → lo ≤ g → g < top → present (entry m' d g) = false
  zero : ∀ g, g < 65536 → present (entry m' d g) = false → present (entry m d g) = false ∧
    entry m' d g = entry m d g ∨ entry m' d g = 0

theorem Emptied.refl (hn : ∀ x, g ≤ x → x < top → x < 65536 → present (entry m d x) = false) : Emptied m m d g top :=
  ⟨fun _ _ => rfl, fun _ _ _ => rfl, fun x hx h₁ h₂ => hn x h₁ h₂ hx, fun _ _ hp => .inl ⟨hp, rfl⟩⟩

theorem dealloc_loop {oldsz n : Nat} (hs : dirs s = some d) (hold : oldsz ≤ 2 ^ 28) (fuel : Nat)
    (h : Estate S m dirs kept H)
    (hc : Contiguous m d n) (hfuel : oldsz ≤ 4096 * (g + fuel)) :
    (deallocuvm.loop d oldsz fuel (g * 4096) m).Holds NoLeak
      (fun _ m' => Estate S m' dirs kept H ∧ Leaves dirs s m m' ∧ Emptied m m' d g (pages oldsz)) fun _ _ => False := by
  have htop : pages oldsz = (oldsz + 4095) / 4096 := rfl
  induction fuel generalizing g m with
  | zero =>
      rw [deallocuvm.loop, holds_pure]
      exact ⟨h, .refl _ _ _, .refl fun x h₁ h₂ _ => by omega⟩
  | succ fuel ih =>
      by_cases hlt : g * 4096 < oldsz
      · have hg : g < 65536 := by omega
        have hi : g / 256 < 256 := by omega
        have hnext : g * 4096 + PTE_SZ = (g + 1) * 4096 := (Nat.succ_mul g 4096).symm
        cases ht : table m d (g / 256) with
        | none =>
            have hempty : ∀ x, g ≤ x → x < 65536 → present (entry m d x) = false := by
              intro x hx hx'
              have hnone : table m d (x / 256) = none := (hc _ (by omega)).mpr (by have := (hc _ hi).mp ht; omega)
              rw [entry_of_none hnone]
              rfl
            exact holds_ok (dealloc_idle hold _ hempty) ⟨h, .refl _ _ _, .refl fun x h₁ _ h₂ => hempty x h₁ h₂⟩
        | some t =>
            have hwalk : walkpgdir d (g * 4096) false m = .ok (some (t + 4 * (g % 256))) m [] := by
              rw [← pte_idx_page]
              exact walkpgdir_some (by rw [pde_idx_page]; exact ht) false
            have hword : m.ram.word (t + 4 * (g % 256)) = entry m d g := (entry_of_table ht).symm
            unfold deallocuvm.loop
            rw [if_pos hlt, holds_bind]
            refine holds_ok hwalk ?_
            dsimp only
            rw [holds_bind, holds_fetch, hword, holds_bind, hnext, holds_ite]
            refine ⟨fun hp => ?_, fun hp => ?_⟩
            · have hpage : has m dirs kept H (.page s g) (PTE_ADDR (entry m d g)) := ⟨d, hs, hg, hp, rfl⟩
              have hframe := h.of hpage
              rw [if_neg (by have := hframe.pos; omega)]
              refine holds_ok (unmap_run hframe _) ?_
              obtain ⟨h₁, hleaves, htab, hother, hzero⟩ := h.unmap hs hg ht hp _ rfl
              refine (ih h₁ (fun i hi => by rw [htab i hi]; exact hc i hi) (by omega)).mono ?_ fun _ _ => id
              rintro _ m₂ ⟨h₂, hleaves₂, he⟩
              refine ⟨h₂, hleaves.trans hleaves₂, fun i hi => (he.tables i hi).trans (htab i hi), fun x hx hout => ?_,
                fun x hx h₃ h₄ => ?_, fun x hx hpx => ?_⟩
              · rw [he.old x hx (by omega)]
                exact hother x hx (by omega)
              · by_cases hxg : x = g
                · rw [hxg, he.old g hg (.inl (Nat.lt_succ_self g)), hzero]
                  rfl
                · exact he.gone x hx (by omega) h₄
              · by_cases hxg : x = g
                · rw [hxg, he.old g hg (.inl (Nat.lt_succ_self g)), hzero]
                  exact .inr rfl
                · rcases he.zero x hx hpx with h₃ | h₃
                  · rw [hother x hx hxg] at h₃
                    exact .inl h₃
                  · exact .inr h₃
            · rw [holds_pure]
              refine (ih h hc (by omega)).mono ?_ fun _ _ => id
              rintro _ m₂ ⟨h₂, hleaves₂, he⟩
              refine ⟨h₂, hleaves₂, he.tables, fun x hx hout => he.old x hx (by omega), fun x hx h₃ h₄ => ?_, he.zero⟩
              by_cases hxg : x = g
              · rw [hxg, he.old g hg (.inl (Nat.lt_succ_self g))]
                exact Bool.eq_false_of_not_eq_true hp
              · exact he.gone x hx (by omega) h₄
      · unfold deallocuvm.loop
        rw [if_neg hlt, holds_pure]
        exact ⟨h, .refl _ _ _, .refl fun x h₁ h₂ _ => by omega⟩

theorem aligned_page {sz : Nat} (hsz : sz ≤ 2 ^ 28) : ALIGNUP sz PTE_SZ = pages sz * 4096 := by
  change (sz + 4096 - 1) % 4294967296 / 4096 * 4096 = (sz + 4095) / 4096 * 4096
  omega

theorem pages_le {sz : Nat} (hsz : sz ≤ 2 ^ 28) : pages sz ≤ 65536 := by
  change (sz + 4095) / 4096 ≤ 65536
  omega

theorem Extent.cut {lo hi : Nat} (hx : Extent tt m d hi) (he : Emptied m m' d lo top) (hlo : lo ≤ hi) (hhi : hi ≤ top) :
    Extent tt m' d lo where
  le := hlo.trans hx.le
  tables := by
    obtain ⟨n, hn, hc⟩ := hx.tables
    refine ⟨n, by omega, fun i hi => ?_⟩
    rw [he.tables i hi]
    exact hc i hi
  inside g hg hp := by
    by_contra hge
    by_cases hlt : g < top
    · rw [he.gone g hg (by omega) hlt] at hp
      cases hp
    · rw [he.old g hg (.inr (by omega))] at hp
      have := hx.inside g hg hp
      omega
  filled ht g hg := by
    have := hx.le
    rw [he.old g (by omega) (.inl hg)]
    exact hx.filled ht g (by omega)
  zero g hg hp := by
    rcases he.zero g hg hp with ⟨h₁, h₂⟩ | h₁
    · rw [h₂]
      exact hx.zero g hg h₁
    · rw [h₁]
      rfl

theorem alloc_loop {oldsz newsz lo hi : Nat} (hs : dirs s = some d) (hold : lo = pages oldsz)
    (hnew : newsz < UADDR_SZ) (fuel : Nat)
    (h : Estate S m dirs kept H) (hx : Extent tt m d hi) (hlo : lo ≤ hi) (hhi : hi ≤ pages newsz)
      (hfuel : newsz ≤ 4096 * (hi + fuel)) :
    (allocuvm.loop d oldsz newsz fuel (hi * 4096) m).Holds NoLeak
      (fun r m' => Estate S m' dirs kept H ∧ Leaves dirs s m m' ∧
        (r = newsz ∧ Extent tt m' d (pages newsz) ∨ r = 0 ∧ Extent tt m' d lo)) fun _ _ => False := by
  have htop : pages newsz = (newsz + 4095) / 4096 := rfl
  have hbot : pages oldsz = (oldsz + 4095) / 4096 := rfl
  change newsz < 268435456 at hnew
  induction fuel generalizing hi m with
  | zero =>
      rw [allocuvm.loop, holds_pure]
      have he : hi = pages newsz := by omega
      exact ⟨h, .refl _ _ _, .inl ⟨rfl, he ▸ hx⟩⟩
  | succ fuel ih =>
      unfold allocuvm.loop
      rw [holds_ite]
      refine ⟨fun hlt => ?_, fun hge => ?_⟩
      · have hg : hi < 65536 := by omega
        have hnext : hi * 4096 + PTE_SZ = (hi + 1) * 4096 := (Nat.succ_mul hi 4096).symm
        rw [holds_bind]
        cases hl : m.freelist with
        | nil =>
            refine holds_ok (kalloc_nil hl) ?_
            dsimp only
            obtain ⟨n, -, hc⟩ := hx.tables
            rw [holds_bind]
            unfold deallocuvm
            rw [if_neg (by omega), aligned_page (by omega), ← hold, holds_bind]
            refine (dealloc_loop hs (by omega) _ h hc
              (by change newsz ≤ 4096 * (lo + (newsz / 4096 + 1)); omega)).mono ?_ fun _ _ => id
            rintro _ m' ⟨h', hleaves, he⟩
            rw [holds_pure, holds_pure]
            exact ⟨h', hleaves, .inr ⟨rfl, hx.cut he hlo hhi⟩⟩
        | cons f rest =>
            have hf := h.of (o := .free) (f := f) (by
              change f ∈ m.freelist
              rw [hl]
              exact List.mem_cons_self)
            obtain ⟨h₁, hleaves₁, hviews₁⟩ :=
              takeStore (s := s) h hl _ (within_fill hf.aligned (show PTE_SZ ≤ FRAME by decide))
            refine holds_ok (kalloc_cons hl) ?_
            dsimp only
            rw [holds_bind]
            refine holds_ok (update_apply _ _) ?_
            rw [holds_bind]
            refine (map_page h₁ hs (hx.congr (hviews₁ s d hs)) hg (show AP_KU < 4 by decide)).mono
              (fun r m₂ h₂ => ?_) fun _ _ => id
            rw [holds_bind, holds_ite, hnext]
            refine ⟨fun hneg => ?_, fun hneg => ?_⟩
            · rw [holds_emit]
              exact False.elim
            · obtain ⟨-, h₂, hleaves₂, hx₂, -⟩ := h₂.resolve_left fun hr => hneg (by rw [hr]; decide)
              rw [holds_pure]
              refine (ih h₂ hx₂ (by omega) (by omega) (by omega)).mono ?_ fun _ _ => id
              rintro r' m₃ ⟨h₃, hleaves₃, hr⟩
              exact ⟨h₃, (hleaves₁.trans hleaves₂).trans hleaves₃, hr⟩
      · rw [holds_pure]
        have he : hi = pages newsz := by omega
        exact ⟨h, .refl _ _ _, .inl ⟨rfl, he ▸ hx⟩⟩

theorem pages_mono {a b : Nat} (h : a ≤ b) : pages a ≤ pages b := by
  change (a + 4095) / 4096 ≤ (b + 4095) / 4096
  omega

/-- allocuvm grows the space to newsz, or it returns 0 and the space is as large as before. -/
theorem allocuvm_estate {oldsz : Nat} (h : Estate S m dirs kept H) (hs : dirs s = some d)
    (hx : Extent tt m d (pages oldsz))
    (hold : oldsz < UADDR_SZ) (newsz : Nat) :
    (allocuvm d oldsz newsz m).Holds NoLeak
      (fun r m' => Estate S m' dirs kept H ∧ Leaves dirs s m m' ∧ (r = 0 → Extent tt m' d (pages oldsz)) ∧
        (r ≠ 0 → r < UADDR_SZ ∧ Extent tt m' d (pages r))) fun _ _ => False := by
  unfold allocuvm
  rw [holds_ite]
  refine ⟨fun hbig => ?_, fun hfit => ?_⟩
  · rw [holds_pure]
    exact ⟨h, .refl _ _ _, fun _ => hx, fun hc => absurd rfl hc⟩
  · rw [holds_ite]
    refine ⟨fun hlt => ?_, fun hge => ?_⟩
    · rw [holds_pure]
      exact ⟨h, .refl _ _ _, fun _ => hx, fun _ => ⟨hold, hx⟩⟩
    · have hu : UADDR_SZ = 2 ^ 28 := rfl
      rw [aligned_page (by omega)]
      have htop : pages oldsz = (oldsz + 4095) / 4096 := rfl
      refine (alloc_loop hs rfl (by omega) (newsz / PTE_SZ + 1) h hx le_rfl (pages_mono (by omega)) ?_).mono ?_
        fun _ _ => id
      · change newsz ≤ 4096 * (pages oldsz + (newsz / 4096 + 1))
        omega
      · rintro r m' ⟨h', hleaves, hr⟩
        refine ⟨h', hleaves, fun hz => ?_, fun hne => ?_⟩
        · rcases hr with ⟨rfl, hx'⟩ | ⟨-, hx'⟩
          · have he : oldsz = r := by omega
            rw [he]
            exact hx'
          · exact hx'
        · rcases hr with ⟨rfl, hx'⟩ | ⟨rfl, -⟩
          · exact ⟨by omega, hx'⟩
          · exact absurd rfl hne

theorem Extent.thin {lo : Nat} (hx : Extent tt m d top) (he : Emptied m m' d lo top) : Extent False m' d top where
  le := hx.le
  tables := by
    obtain ⟨n, hn, hc⟩ := hx.tables
    refine ⟨n, hn, fun i hi => ?_⟩
    rw [he.tables i hi]
    exact hc i hi
  inside g hg hp := by
    by_contra hge
    rw [he.old g hg (.inr (by omega))] at hp
    exact hge (hx.inside g hg hp)
  filled hc := hc.elim
  zero g hg hp := by
    rcases he.zero g hg hp with ⟨h₁, h₂⟩ | h₁
    · rw [h₂]
      exact hx.zero g hg h₁
    · rw [h₁]
      rfl

theorem deallocuvm_estate {oldsz : Nat} (h : Estate S m dirs kept H) (hs : dirs s = some d)
    (hx : Extent tt m d (pages oldsz))
    (hold : oldsz < UADDR_SZ) (newsz : Nat) :
    (deallocuvm d oldsz newsz m).Holds NoLeak
      (fun r m' => Estate S m' dirs kept H ∧ Leaves dirs s m m' ∧ r = min oldsz newsz ∧ Extent tt m' d (pages r) ∧
        Extent False m' d (pages oldsz)) fun _ _ => False := by
  have hu : UADDR_SZ = 2 ^ 28 := rfl
  unfold deallocuvm
  rw [holds_ite]
  refine ⟨fun hle => ?_, fun hlt => ?_⟩
  · rw [holds_pure]
    exact ⟨h, .refl _ _ _, (Nat.min_eq_left hle).symm, hx, hx.weaken False.elim⟩
  · obtain ⟨n, -, hc⟩ := hx.tables
    rw [aligned_page (by omega), holds_bind]
    have htop : pages newsz = (newsz + 4095) / 4096 := rfl
    refine (dealloc_loop hs (by omega) _ h hc ?_).mono ?_ fun _ _ => id
    · change oldsz ≤ 4096 * (pages newsz + (oldsz / 4096 + 1))
      omega
    · rintro _ m' ⟨h', hleaves, he⟩
      rw [holds_pure]
      exact ⟨h', hleaves, (Nat.min_eq_right (by omega)).symm, hx.cut he (pages_mono (by omega)) le_rfl, hx.thin he⟩

theorem table_push (h : Estate S m dirs kept (f :: H)) (hd : d ∈ H) {i : Nat} (hi : i < 256) :
    table (freed m f) d i = table m d i := by
  have hne : d ≠ f := by
    rintro rfl
    exact head_not_mem h hd
  exact table_congr
    (same_freed (h.of (hand_head h)).aligned (h.of (o := .hand) (List.mem_cons_of_mem f hd)).aligned hne)
    (h.of (o := .hand) (List.mem_cons_of_mem f hd)).aligned hi

theorem freevm_loop (l : List Nat) (hl : ∀ i, i ∈ l → i < 256) (h : Estate S m dirs kept (tables m d l ++ d :: H)) :
    (freevm.loop d l m).Holds NoLeak
      (fun _ m' => Estate S m' dirs kept (d :: H) ∧ ∀ s, Leaves dirs s m m') fun _ _ => False := by
  induction l generalizing m with
  | nil =>
      rw [freevm.loop, holds_pure]
      exact ⟨h, fun s => .refl _ _ _⟩
  | cons i rest ih =>
      have hi := hl i List.mem_cons_self
      have hrest : ∀ j, j ∈ rest → j < 256 := fun j hj => hl j (List.mem_cons_of_mem i hj)
      unfold freevm.loop
      rw [holds_bind, holds_fetch, holds_bind, holds_ite]
      refine ⟨fun hp => ?_, fun hp => ?_⟩
      · have ht : table m d i = some (PTE_ADDR (m.ram.word (d + 4 * i))) := if_pos hp
        have htabs : tables m d (i :: rest) = PTE_ADDR (m.ram.word (d + 4 * i)) :: tables m d rest :=
          List.filterMap_cons_some ht
        rw [htabs, List.cons_append] at h
        refine holds_ok (kfree_eq (h.of (hand_head h))) ?_
        obtain ⟨h₁, -, hw⟩ := h.push
        have hsame : tables (freed m (PTE_ADDR (m.ram.word (d + 4 * i)))) d rest = tables m d rest :=
          List.filterMap_congr fun j hj => table_push h (List.mem_append_right _ List.mem_cons_self) (hrest j hj)
        rw [← hsame] at h₁
        refine (ih hrest h₁).mono (fun _ m' h' => ⟨h'.1, fun s => ?_⟩) fun _ _ => id
        exact (h.leaves hw (hand_head h) (by simp [Place.slot])).trans (h'.2 s)
      · have ht : table m d i = none := if_neg hp
        have htabs : tables m d (i :: rest) = tables m d rest := List.filterMap_cons_none ht
        rw [htabs] at h
        rw [holds_pure]
        exact ih hrest h

theorem freevm_estate (h : Estate S m dirs kept H) (hs : dirs s = some d) (hc : ∃ n, Contiguous m d n) :
    (freevm d m).Holds NoLeak (fun _ m' => Estate S m' (Function.update dirs s none) kept H ∧
      Leaves dirs s m m') fun _ _ => False := by
  obtain ⟨n, hc⟩ := hc
  have hd : d ≠ 0 := (h.of (o := .dir s) hs).pos.ne'
  unfold freevm deallocuvm
  have h0 : ALIGNUP 0 PTE_SZ = 0 * 4096 := by decide
  rw [if_neg hd, holds_bind, if_neg (by decide), h0, holds_bind]
  refine (dealloc_loop hs (by decide) _ h hc (by decide)).mono ?_ fun _ _ => id
  rintro _ m₁ ⟨h₁, hleaves₁, he⟩
  rw [holds_pure, holds_bind]
  have hgone : ∀ g, g < 65536 → present (entry m₁ d g) = false := fun g hg => he.gone g hg (by omega) hg
  refine (freevm_loop (List.range NUM_UPDE) (fun i hi => List.mem_range.mp hi) (h₁.dropDir hs hgone)).mono ?_
    fun _ _ => id
  rintro _ m₂ ⟨h₂, hleaves₂⟩
  refine holds_ok (kfree_eq (h₂.of (hand_head h₂))) ?_
  obtain ⟨h₃, -, hw⟩ := h₂.push
  have hleaves₃ := h₂.leaves (s := s) hw (hand_head h₂) (by simp [Place.slot])
  exact ⟨h₃, (hleaves₁.trans (hleaves₂ s).of_update).trans hleaves₃.of_update⟩

theorem copy_bad (h : Estate S m dirs kept H) (hs : dirs s = some d) (hx : Extent tt m d top) :
    ((do
      freevm d
      pure none : MmM (Option Nat)) m).Holds NoLeak
      (fun r m' => Leaves dirs s m m' ∧ r = none ∧ Estate S m' (Function.update dirs s none) kept H) fun _ _ =>
        False := by
  obtain ⟨n, -, hc⟩ := hx.tables
  rw [holds_bind]
  refine (freevm_estate h hs ⟨n, hc⟩).mono (fun _ m' h' => ?_) fun _ _ => id
  rw [holds_pure]
  exact ⟨h'.2, rfl, h'.1⟩

/-- copyuvm gives the slot s₁ a copy of the pages below sz, or gives back what it took. -/
theorem copy_loop {s₁ p sz : Nat} (hne : s ≠ s₁) (hp : dirs s = some p) (hd : dirs s₁ = some d) (hsz : sz < UADDR_SZ)
    (fuel : Nat) {hi : Nat}
    (h : Estate S m dirs kept H) (hx : Extent True m d hi) (hfull : tt → ∀ g, g < pages sz →
      present (entry m p g) = true)
    (hhi : hi ≤ pages sz) (hfuel : pages sz ≤ hi + fuel) :
    (copyuvm.loop p sz d fuel (hi * 4096) m).Holds NoLeak
      (fun r m' => Leaves dirs s₁ m m' ∧ (r = some d ∧ Estate S m' dirs kept H ∧ Extent True m' d (pages sz) ∨
        r = none ∧ Estate S m' (Function.update dirs s₁ none) kept H)) fun _ _ => ¬tt := by
  have htop : pages sz = (sz + 4095) / 4096 := rfl
  change sz < 268435456 at hsz
  induction fuel generalizing hi m with
  | zero =>
      have he : hi = pages sz := by omega
      subst he
      rw [copyuvm.loop, holds_pure]
      exact ⟨.refl _ _ _, .inl ⟨rfl, h, hx⟩⟩
  | succ fuel ih =>
      unfold copyuvm.loop
      rw [holds_ite]
      refine ⟨fun hlt => ?_, fun hge => ?_⟩
      · have hg : hi < 65536 := by omega
        have hlt' : hi < pages sz := by omega
        rw [holds_bind]
        refine holds_ok (walkpgdir_eq m p _) ?_
        rw [pde_idx_page, pte_idx_page]
        cases ht : table m p (hi / 256) with
        | none =>
            simp only [Option.map_none, holds_panic]
            intro htt
            have := hfull htt hi hlt'
            rw [entry_of_none ht] at this
            cases this
        | some t =>
            have hword : m.ram.word (t + 4 * (hi % 256)) = entry m p hi := (entry_of_table ht).symm
            simp only [Option.map_some]
            rw [holds_bind, holds_fetch, hword, holds_ite]
            refine ⟨fun hpres => ?_, fun hpres => ?_⟩
            · rw [holds_panic]
              exact fun htt => hpres (hfull htt hi hlt')
            · rw [holds_bind]
              cases hl : m.freelist with
              | nil =>
                  exact holds_ok (kalloc_nil hl) ((copy_bad h hd hx).mono (fun _ _ h' => ⟨h'.1, .inr h'.2⟩) fun _ _ =>
                    False.elim)
              | cons f rest =>
                  have hf := h.of (o := .free) (f := f) (by
                    change f ∈ m.freelist
                    rw [hl]
                    exact List.mem_cons_self)
                  have hw : Within { m with freelist := rest }
                      { m with ram := m.ram.copy f (PTE_ADDR (entry m p hi)) PTE_SZ, freelist := rest } f :=
                        fun a ha hne =>
                    same_copy hf.aligned ha hne
                  obtain ⟨h₁, hleaves₁, hviews₁⟩ := takeStore (s := s₁) h hl _ hw
                  refine holds_ok (kalloc_cons hl) ?_
                  dsimp only
                  rw [holds_bind]
                  refine holds_ok (update_apply _ _) ?_
                  rw [holds_bind]
                  have hnext : hi * 4096 + PTE_SZ = (hi + 1) * 4096 := (Nat.succ_mul hi 4096).symm
                  refine (map_page h₁ hd (hx.congr (hviews₁ s₁ d hd)) hg
                    (show PTE_AP (entry m p hi) < 4 from Nat.mod_lt _ (by decide))).mono
                    (fun r m₂ h₂ => ?_) fun _ _ => False.elim
                  rw [holds_ite, hnext]
                  refine ⟨fun hneg => ?_, fun hneg => ?_⟩
                  · rw [holds_bind, holds_emit]
                    exact False.elim
                  · obtain ⟨-, h₂, hleaves₂, hx₂, -⟩ := h₂.resolve_left fun hr => hneg (by rw [hr]; decide)
                    have hleaves := hleaves₁.trans hleaves₂
                    refine (ih h₂ hx₂ (fun htt g hg' => ?_) (by omega) (by omega)).mono ?_ fun _ _ => id
                    · rw [(hleaves.views s p hne hp).entry g (by omega)]
                      exact hfull htt g hg'
                    · rintro r' m₃ ⟨hleaves₃, hr⟩
                      exact ⟨hleaves.trans hleaves₃, hr⟩
      · have he : hi = pages sz := by omega
        subst he
        rw [holds_pure]
        exact ⟨.refl _ _ _, .inl ⟨rfl, h, hx⟩⟩

theorem bare_extent (hn : ∀ i, i < 256 → table m d i = none) : Extent tt m d 0 := by
  have hent : ∀ g, g < 65536 → entry m d g = 0 := fun g hg => entry_of_none (hn _ (by omega))
  refine ⟨Nat.zero_le _, ⟨0, le_rfl, fun i hi => ?_⟩, fun g hg hp => ?_, fun _ g hg => by omega, fun g hg _ => ?_⟩
  · simp [hn i hi]
  · rw [hent g hg] at hp
    cases hp
  · rw [hent g hg]
    rfl

theorem new_space (h : Estate S m dirs kept H) (hs : dirs s = none) {rest : List Nat} (hl : m.freelist = d :: rest) :
    Estate S { m with freelist := rest } (Function.update dirs s (some d)) kept H ∧
      Extent tt { m with freelist := rest } d 0 := by
  obtain ⟨h₁, hb⟩ := h.take hl
  obtain ⟨h₂, htab⟩ := h₁.newDir hs hb
  exact ⟨h₂, bare_extent htab⟩

theorem update_none {v : Option Nat} (hs : dirs s = none) :
    Function.update (Function.update dirs s v) s none = dirs := by
  rw [Function.update_idem, ← hs, Function.update_eq_self]

theorem copyuvm_estate {s₁ p sz : Nat} (h : Estate S m dirs kept H) (hne : s ≠ s₁) (hp : dirs s = some p)
    (hs : dirs s₁ = none)
    (hx : Extent tt m p (pages sz)) (hsz : sz < UADDR_SZ) :
    (copyuvm p sz m).Holds NoLeak
      (fun r m' => Leaves dirs s₁ m m' ∧ (r = none → Estate S m' dirs kept H) ∧
        ∀ d, r = some d → Estate S m' (Function.update dirs s₁ (some d)) kept H ∧
          Extent True m' d (pages sz)) fun _ _ => ¬tt := by
  unfold copyuvm setupvm
  rw [holds_bind]
  cases hl : m.freelist with
  | nil =>
      refine holds_ok (kalloc_nil hl) ?_
      rw [holds_pure]
      exact ⟨.refl _ _ _, fun _ => h, fun _ hc => by cases hc⟩
  | cons d rest =>
      refine holds_ok (kalloc_cons hl) ?_
      obtain ⟨h₁, hx₁⟩ : _ ∧ Extent True _ d 0 := new_space h hs hl
      have hp₁ : Function.update dirs s₁ (some d) s = some p := (Function.update_of_ne hne _ _).trans hp
      have hself : Function.update dirs s₁ (some d) s₁ = some d := Function.update_self ..
      have htop : pages sz = (sz + 4095) / 4096 := rfl
      have hloop := copy_loop hne hp₁ hself hsz (sz / PTE_SZ + 1) h₁ hx₁ (fun htt g hg => hx.filled htt g hg)
        (Nat.zero_le _) (by
        change pages sz ≤ 0 + (sz / 4096 + 1)
        omega)
      rw [Nat.zero_mul] at hloop
      refine hloop.mono ?_ fun _ _ => id
      rintro r m' ⟨hleaves, hr⟩
      refine ⟨(leaves_freelist m rest).trans hleaves.of_update, ?_⟩
      rcases hr with ⟨rfl, h₂, hx₂⟩ | ⟨rfl, h₂⟩
      · refine ⟨fun hc => (by cases hc), fun d' hd' => ?_⟩
        cases hd'
        exact ⟨h₂, hx₂⟩
      · rw [update_none hs] at h₂
        exact ⟨fun _ => h₂, fun _ hc => by cases hc⟩

theorem walk_cases (h : Estate S m dirs kept H) (hs : dirs s = some d) {va : Nat} (hva : va < 2 ^ 32) :
    walkpgdir d va false m = .ok none m [] ∨
      ∃ t, va / 4096 < 65536 ∧ table m d (va / 4096 / 256) = some t ∧
        walkpgdir d va false m = .ok (some (t + 4 * (va / 4096 % 256))) m [] ∧
          m.ram.word (t + 4 * (va / 4096 % 256)) = entry m d (va / 4096) := by
  have hpde : PDE_IDX va = va / 4096 / 256 := by
    change va / 1048576 = va / 4096 / 256
    omega
  have hpte : PTE_IDX va = va / 4096 % 256 := rfl
  rw [walkpgdir_eq, hpde, hpte]
  by_cases hbig : va / 4096 < 65536
  · cases ht : table m d (va / 4096 / 256) with
    | none => exact .inl rfl
    | some t => exact .inr ⟨t, hbig, rfl, rfl, (entry_of_table ht).symm⟩
  · have hnone : table m d (va / 4096 / 256) = none := by
      refine if_neg ?_
      rw [h.upper s d hs (va / 4096 / 256) (by omega) (by rw [frame_eq]; omega)]
      decide
    rw [hnone]
    exact .inl rfl

theorem storeUser_estate (h : Estate S m dirs kept H) (hs : dirs s = some d) {va : Nat} (hva : va < 2 ^ 32)
    (l : List UInt8) :
    (Descriptors.storeUser d va l m).Holds NoLeak
      (fun _ m' => Estate S m' dirs kept H ∧ Leaves dirs s m m' ∧ Views m m' d) fun _ _ => True := by
  induction l generalizing va m with
  | nil =>
      rw [Descriptors.storeUser, holds_pure]
      exact ⟨h, .refl _ _ _, .refl _ _⟩
  | cons b bs ih =>
      unfold Descriptors.storeUser
      rw [holds_bind]
      rcases walk_cases h hs hva with hw | ⟨t, hg, -, hw, hword⟩
      · refine holds_ok hw ?_
        rw [holds_panic]
        trivial
      · refine holds_ok hw ?_
        dsimp only
        rw [holds_bind, holds_fetch, hword, holds_ite]
        refine ⟨fun _ => by rw [holds_panic]; trivial, fun hp => ?_⟩
        obtain ⟨h₁, hleaves, hv⟩ := h.storePage hs hg (not_not.mp hp) (l := [b])
          (show va % PTE_SZ + [b].length ≤ FRAME by have := frame_eq; change va % 4096 + 1 ≤ FRAME; omega) _ rfl
        rw [holds_bind]
        refine holds_ok (update_apply _ _) ?_
        refine (ih h₁ (show uint (va + 1) < 2 ^ 32 from Nat.mod_lt _ (by decide))).mono ?_ fun _ _ => id
        rintro _ m₂ ⟨h₂, hleaves₂, hv₂⟩
        exact ⟨h₂, hleaves.trans hleaves₂, hv.trans hv₂⟩

/-- uva2ka finds pages of the address space, unless it goes through a null page table entry. -/
theorem uva2ka_estate (h : Estate S m dirs kept H) (hs : dirs s = some d) (cur : Nat) {va : Nat} (hva : va < 2 ^ 32) :
    (Exec.uva2ka cur d va m).Holds NoLeak
      (fun r m' => m' = m ∧ ∀ pa, r = some pa → ∃ g, g < 65536 ∧ present (entry m d g) = true ∧
        PTE_ADDR (entry m d g) = pa)
      fun _ _ => True := by
  unfold Exec.uva2ka
  rw [holds_bind]
  rcases walk_cases h hs hva with hw | ⟨t, hg, -, hw, hword⟩
  · refine holds_ok hw ?_
    have hload : (Exec.loadUser cur 0 m).Holds NoLeak (fun _ m' => m' = m) fun _ _ => True := by
      unfold Exec.loadUser
      rw [holds_bind]
      refine holds_ok (walkpgdir_eq m cur 0) ?_
      cases (table m cur (PDE_IDX 0)).map (· + 4 * PTE_IDX 0) with
      | none => dsimp only; rw [holds_panic]; trivial
      | some pte =>
          dsimp only
          rw [holds_bind, holds_fetch, holds_ite]
          refine ⟨fun _ => by rw [holds_panic]; trivial, fun _ => ?_⟩
          rw [holds_pure]
    dsimp only
    rw [holds_bind]
    refine hload.mono (fun w m' he => ?_) fun _ _ => id
    subst he
    rw [holds_ite]
    refine ⟨fun _ => ?_, fun _ => ?_⟩
    · rw [holds_pure]
      exact ⟨rfl, fun _ hc => by cases hc⟩
    · rw [holds_ite]
      refine ⟨fun _ => ?_, fun _ => ?_⟩
      · rw [holds_pure]
        exact ⟨rfl, fun _ hc => by cases hc⟩
      · rw [holds_bind, if_pos rfl, holds_emit]
        exact False.elim
  · refine holds_ok hw ?_
    dsimp only
    rw [holds_bind, holds_bind, holds_fetch, holds_pure, hword, holds_ite]
    refine ⟨fun _ => ?_, fun hp => ?_⟩
    · rw [holds_pure]
      exact ⟨rfl, fun _ hc => by cases hc⟩
    · rw [holds_ite]
      refine ⟨fun _ => ?_, fun _ => ?_⟩
      · rw [holds_pure]
        exact ⟨rfl, fun _ hc => by cases hc⟩
      · rw [holds_bind, if_neg (by simp), holds_pure, holds_pure]
        exact ⟨rfl, fun pa hpa => ⟨va / 4096, hg, not_not.mp hp, Option.some.inj hpa⟩⟩

theorem copyout_estate (h : Estate S m dirs kept H) (hs : dirs s = some d) (cur : Nat) {va : Nat} (hva : va < 2 ^ 32)
    (buf : List UInt8) :
    (Exec.copyout cur d va buf m).Holds NoLeak
      (fun _ m' => Estate S m' dirs kept H ∧ Leaves dirs s m m' ∧ Views m m' d) fun _ _ => True := by
  unfold Exec.copyout
  generalize buf.length + 1 = fuel
  induction fuel generalizing va buf m with
  | zero =>
      rw [Exec.copyout.loop, holds_pure]
      exact ⟨h, .refl _ _ _, .refl _ _⟩
  | succ fuel ih =>
      unfold Exec.copyout.loop
      rw [holds_ite]
      refine ⟨fun _ => ?_, fun _ => ?_⟩
      · dsimp only
        have hdown : ALIGNDOWN va PTE_SZ = va / 4096 * 4096 := rfl
        rw [holds_bind]
        refine (uva2ka_estate h hs cur (show ALIGNDOWN va PTE_SZ < 2 ^ 32 by rw [hdown]; omega)).mono ?_ fun _ _ => id
        rintro r m₁ ⟨rfl, hr⟩
        cases r with
        | none =>
            dsimp only
            rw [holds_pure]
            exact ⟨h, .refl _ _ _, .refl _ _⟩
        | some pa =>
            obtain ⟨g, hg, hp, rfl⟩ := hr pa rfl
            obtain ⟨h₁, hleaves, hv⟩ := h.storePage hs hg hp
              (show va - ALIGNDOWN va PTE_SZ +
                (buf.take (min (PTE_SZ - (va - ALIGNDOWN va PTE_SZ)) buf.length)).length ≤ FRAME by
                have hsz : PTE_SZ = 4096 := rfl
                have := frame_eq
                rw [List.length_take, hdown, hsz]
                omega) _ rfl
            dsimp only
            rw [holds_bind]
            refine holds_ok (update_apply _ _) ?_
            refine (ih h₁ (show uint _ < 2 ^ 32 from Nat.mod_lt _ (by decide)) _).mono ?_ fun _ _ => id
            rintro _ m₂ ⟨h₂, hleaves₂, hv₂⟩
            exact ⟨h₂, hleaves.trans hleaves₂, hv.trans hv₂⟩
      · rw [holds_pure]
        exact ⟨h, .refl _ _ _, .refl _ _⟩

theorem pushArgs_estate (h : Estate S m dirs kept H) (hs : dirs s = some d) (cur : Nat)
    (argv : List (List UInt8)) (sp : Nat)
    (ustack : List Nat) :
    (Exec.exec.pushArgs cur d argv sp ustack m).Holds NoLeak
      (fun _ m' => Estate S m' dirs kept H ∧ Leaves dirs s m m' ∧ Views m m' d) fun _ _ => True := by
  induction argv generalizing sp ustack m with
  | nil =>
      rw [Exec.exec.pushArgs, holds_pure]
      exact ⟨h, .refl _ _ _, .refl _ _⟩
  | cons arg rest ih =>
      unfold Exec.exec.pushArgs
      rw [holds_ite]
      refine ⟨fun _ => ?_, fun _ => ?_⟩
      · rw [holds_pure]
        exact ⟨h, .refl _ _ _, .refl _ _⟩
      · have hlt : ∀ n, uint n / 4 * 4 < 2 ^ 32 := by
          intro n
          have : uint n < 4294967296 := Nat.mod_lt _ (by decide)
          omega
        rw [holds_bind]
        refine (copyout_estate h hs cur (hlt _) _).mono ?_ fun _ _ => id
        rintro r m₁ ⟨h₁, hleaves, hv⟩
        rw [holds_ite]
        refine ⟨fun _ => ?_, fun _ => ?_⟩
        · rw [holds_pure]
          exact ⟨h₁, hleaves, hv⟩
        · refine (ih h₁ _ _).mono ?_ fun _ _ => id
          rintro _ m₂ ⟨h₂, hleaves₂, hv₂⟩
          exact ⟨h₂, hleaves.trans hleaves₂, hv.trans hv₂⟩

theorem retag_word {w : Nat} (hw : w < 2 ^ 32) :
    w &&& (2 ^ 32 - 1 ^^^ 3 <<< 4) ||| AP_KO <<< 4 < 2 ^ 32 ∧
      PTE_ADDR (w &&& (2 ^ 32 - 1 ^^^ 3 <<< 4) ||| AP_KO <<< 4) = PTE_ADDR w ∧
      present (w &&& (2 ^ 32 - 1 ^^^ 3 <<< 4) ||| AP_KO <<< 4) = present w := by
  have hlow : (w &&& (2 ^ 32 - 1 ^^^ 3 <<< 4) ||| AP_KO <<< 4) % 2 ^ 2 = w % 2 ^ 2 := by
    rw [Nat.or_mod_two_pow, Nat.and_mod_two_pow]
    have h₁ : (2 ^ 32 - 1 ^^^ 3 <<< 4) % 2 ^ 2 = 2 ^ 2 - 1 := by decide
    have h₂ : AP_KO <<< 4 % 2 ^ 2 = 0 := by decide
    rw [h₁, h₂, Nat.or_zero, Nat.and_two_pow_sub_one_eq_mod, Nat.mod_mod]
  have hhigh : (w &&& (2 ^ 32 - 1 ^^^ 3 <<< 4) ||| AP_KO <<< 4) / 2 ^ 12 = w / 2 ^ 12 := by
    rw [← Nat.shiftRight_eq_div_pow, ← Nat.shiftRight_eq_div_pow, Nat.shiftRight_or_distrib, Nat.shiftRight_and_distrib]
    have h₁ : (2 ^ 32 - 1 ^^^ 3 <<< 4) >>> 12 = 2 ^ 20 - 1 := by decide
    have h₂ : AP_KO <<< 4 >>> 12 = 0 := by decide
    rw [h₁, h₂, Nat.or_zero, Nat.and_two_pow_sub_one_eq_mod]
    refine Nat.mod_eq_of_lt ?_
    rw [Nat.shiftRight_eq_div_pow]
    omega
  refine ⟨Nat.or_lt_two_pow (Nat.and_lt_two_pow _ (by decide)) (by decide), congrArg (· * 4096) hhigh, ?_⟩
  unfold present
  rw [show (w &&& (2 ^ 32 - 1 ^^^ 3 <<< 4) ||| AP_KO <<< 4) % 4 = w % 4 from hlow]

theorem clearpteu_estate (h : Estate S m dirs kept H) (hs : dirs s = some d) (hx : Extent tt m d top) {va : Nat}
    (hva : va < 2 ^ 32) :
    (clearpteu d va m).Holds NoLeak (fun _ m' => Estate S m' dirs kept H ∧ Leaves dirs s m m' ∧
      Extent tt m' d top) fun _ _ => True := by
  unfold clearpteu
  rw [holds_bind]
  rcases walk_cases h hs hva with hw | ⟨t, hg, ht, hw, hword⟩
  · refine holds_ok hw ?_
    dsimp only
    rw [holds_panic]
    trivial
  · obtain ⟨hlt, hadr, hpres⟩ := retag_word (w := entry m d (va / 4096)) (by
      rw [← hword]
      exact Mem.word_lt _ _)
    refine holds_ok hw (holds_ok (update_apply _ _) ?_)
    dsimp only
    rw [hword]
    obtain ⟨htab, hself, hother, -, hleaves, -, -⟩ := h.setEntry hs hg ht hlt _ rfl
    refine ⟨h.retag hs hg ht hlt hadr hpres _ rfl, hleaves, hx.le, ?_, fun g hg' hp => ?_, fun htt g hg' => ?_,
      fun g hg' hp => ?_⟩
    · obtain ⟨n, hn, hc⟩ := hx.tables
      refine ⟨n, hn, fun i hi => ?_⟩
      rw [htab i hi]
      exact hc i hi
    · by_cases hgg : g = va / 4096
      · rw [hgg, hself, hpres] at hp
        rw [hgg]
        exact hx.inside _ hg hp
      · rw [hother g hg' hgg] at hp
        exact hx.inside g hg' hp
    · have := hx.le
      by_cases hgg : g = va / 4096
      · rw [hgg, hself, hpres, ← hgg]
        exact hx.filled htt g hg'
      · rw [hother g (by omega) hgg]
        exact hx.filled htt g hg'
    · by_cases hgg : g = va / 4096
      · rw [hgg, hself, hpres] at hp
        rw [hgg, hself, hadr]
        exact hx.zero _ hg hp
      · rw [hother g hg' hgg] at hp ⊢
        exact hx.zero g hg' hp

theorem inituvm_estate (h : Estate S m dirs kept H) (hs : dirs s = some d) (hx : Extent tt m d 0) (init : List UInt8) :
    (inituvm d init m).Holds NoLeak (fun _ m' => Estate S m' dirs kept H ∧ Leaves dirs s m m' ∧
      Extent tt m' d 1) fun _ _ => True := by
  unfold inituvm
  rw [holds_ite]
  refine ⟨fun _ => by rw [holds_panic]; trivial, fun hlen => ?_⟩
  rw [holds_bind]
  cases hl : m.freelist with
  | nil =>
      refine holds_ok (kalloc_nil hl) ?_
      dsimp only
      rw [holds_panic]
      trivial
  | cons f rest =>
      have hf := h.of (o := .free) (f := f) (by
        change f ∈ m.freelist
        rw [hl]
        exact List.mem_cons_self)
      obtain ⟨h₁, hleaves₁, hviews₁⟩ :=
        takeStore (s := s) h hl _ (within_fill hf.aligned (show PTE_SZ ≤ FRAME by decide))
      refine holds_ok (kalloc_cons hl) ?_
      dsimp only
      rw [holds_bind]
      refine holds_ok (update_apply _ _) ?_
      rw [holds_bind, ← Nat.zero_mul 4096]
      refine (map_page h₁ hs (hx.congr (hviews₁ s d hs)) (by decide) (show AP_KU < 4 by decide)).mono
        (fun r m₂ h₂ => ?_) fun _ _ => False.elim
      rw [holds_bind, holds_ite]
      refine ⟨fun hneg => ?_, fun hneg => ?_⟩
      · rw [holds_emit]
        exact False.elim
      · obtain ⟨-, h₂, hleaves₂, hx₂, hadr⟩ := h₂.resolve_left fun hr => hneg (by rw [hr]; decide)
        rw [holds_pure]
        have hp : present (entry m₂ d 0) = true := by
          by_contra hp
          have := (hx₂.zero 0 (by decide) (Bool.eq_false_of_not_eq_true hp)).symm.trans hadr
          have := hf.pos
          omega
        have hsz : PTE_SZ ≤ FRAME := by decide
        obtain ⟨h₃, hleaves₃, hv₃⟩ :=
          h₂.storePage hs (by decide) hp (l := init) (show 0 + init.length ≤ FRAME by omega) _ rfl
        rw [hadr, Nat.add_zero] at h₃ hleaves₃ hv₃
        exact holds_ok (update_apply _ _) ⟨h₃, (hleaves₁.trans hleaves₂).trans hleaves₃, hx₂.congr hv₃⟩

end ArmXv6.SpaceCalls
