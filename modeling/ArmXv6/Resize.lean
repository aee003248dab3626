import ArmXv6.AddressSpace

namespace ArmXv6.Resize

open Lib.Exec Lib.Bytes Lib.Frames Param Blocks Vm AddressSpace

/-- The pages from lo up to a are gone, and their frames are on the free list. -/
structure Shrunk (m₁ m : Mm) (d lo a : Nat) : Prop where
  space : Space m d
  kernEnd : m.kernEnd = m₁.kernEnd
  old : ∀ g, g < 65536 → g < lo ∨ a ≤ g → entry m d g = entry m₁ d g
  gone : ∀ g, g < 65536 → lo ≤ g → g < a → present (entry m d g) = false
  tables : ∀ i, i < 256 → table m d i = table m₁ d i
  free : ∀ f, f ∈ m.freelist ↔ f ∈ m₁.freelist ∨ ∃ g, lo ≤ g ∧ g < a ∧ holds m₁ d (.page g) f
  same : ∀ x, x % FRAME = 0 → (∀ i, i < 256 → table m₁ d i ≠ some x) →
    (∀ g, lo ≤ g → g < a → ¬holds m₁ d (.page g) x) → Same m₁ m x

variable {m m₁ : Mm} {d f g lo t : Nat}

theorem Shrunk.start (h : Space m d) (lo : Nat) : Shrunk m m d lo lo where
  space := h
  kernEnd := rfl
  old _ _ _ := rfl
  gone g _ h₁ h₂ := absurd h₁ (by omega)
  tables _ _ := rfl
  free f := by
    refine ⟨.inl, fun h => ?_⟩
    rcases h with h | ⟨g, h₁, h₂, -⟩
    · exact h
    · omega
  same x _ _ _ := .refl _ x

theorem Shrunk.skip (h : Shrunk m₁ m d lo g) {a : Nat} (ha : g ≤ a)
    (hn : ∀ g', g ≤ g' → g' < 65536 → present (entry m d g') = false) : Shrunk m₁ m d lo a where
  space := h.space
  kernEnd := h.kernEnd
  old g' hg' hout := h.old g' hg' (by omega)
  gone g' hg' h₁ h₂ := by
    by_cases hlt : g' < g
    · exact h.gone g' hg' h₁ hlt
    · exact hn g' (by omega) hg'
  tables := h.tables
  free f := by
    rw [h.free f]
    refine or_congr_right ⟨fun ⟨g', h₁, h₂, h₃⟩ => ⟨g', h₁, by omega, h₃⟩, fun ⟨g', h₁, h₂, h₃⟩ => ⟨g', h₁, ?_, h₃⟩⟩
    by_contra hlt
    have hp := hn g' (by omega) h₃.1
    by_cases hlo : g' < lo ∨ g ≤ g'
    · rw [h.old g' h₃.1 hlo, h₃.2.1] at hp
      cases hp
    · omega
  same x hx ht hg := h.same x hx ht fun g' h₁ h₂ => hg g' h₁ (by omega)

/-- The state after the frame of a page is freed and its entry is cleared. -/
def unmapped (m : Mm) (f x : Nat) : Mm := { freed m f with ram := (freed m f).ram.setWord x 0 }

theorem unmapped_eq {x : Nat} (hx : x + 4 ≤ f ∨ f + FRAME ≤ x) :
    unmapped m f x = freed { m with ram := m.ram.setWord x 0 } f := by
  have h₁ : ∀ r : Mem PHYSTOP, (r.setWord f (kernelPtr m.freelist.head?)).setWord x 0 =
      (r.setWord x 0).setWord f (kernelPtr m.freelist.head?) := by
    intro r
    refine setSlice_comm r _ _ ?_
    rw [length_leBytes, length_leBytes]
    have := frame_eq
    omega
  have h₂ : (m.ram.fill f FRAME 0).setWord x 0 = (m.ram.setWord x 0).fill f FRAME 0 := by
    rw [fill_eq_setSlice, fill_eq_setSlice]
    refine setSlice_comm _ _ _ ?_
    rw [length_leBytes, List.length_replicate]
    omega
  unfold unmapped freed
  dsimp only
  rw [h₁, h₂]

theorem Shrunk.unmap (h : Shrunk m₁ m d lo g) (hlo : lo ≤ g) (hg : g < 65536) (ht : table m d (g / 256) = some t)
    (hp : present (entry m d g) = true) :
    Shrunk m₁ (unmapped m (PTE_ADDR (entry m d g)) (t + 4 * (g % 256))) d lo (g + 1) := by
  have hi : g / 256 < 256 := by omega
  have hframe := h.space.frame (.page g) _ ⟨hg, hp, rfl⟩
  have hft := h.space.table hi ht
  have hne : PTE_ADDR (entry m d g) ≠ t := by
    intro he
    cases h.space.apart (.page g) (.table (g / 256)) t ⟨hg, hp, he⟩ ⟨hi, ht⟩
  have hal : PTE_ADDR (entry m d g) % 262144 = 0 := hframe.aligned
  have hal' : t % 262144 = 0 := hft.aligned
  rw [unmapped_eq (by rw [frame_eq]; omega)]
  obtain ⟨htab, hself, hother, hsame⟩ := h.space.setEntry hg ht (w := 0) (by decide)
  obtain ⟨hsp, hloose⟩ := h.space.detachPage hg ht hp
  obtain ⟨hspace, htab', hent'⟩ := hsp.push hloose ⟨hframe.aligned, hframe.above, hframe.below, hframe.pos⟩
  have hpage : holds m₁ d (.page g) (PTE_ADDR (entry m d g)) := by
    have he := h.old g hg (.inr (Nat.le_refl g))
    exact ⟨hg, he ▸ hp, by rw [he]⟩
  refine ⟨hspace, h.kernEnd, fun g' hg' hout => ?_, fun g' hg' h₁ h₂ => ?_, fun i hi => ?_, fun x => ?_,
    fun x hx htx hgx => ?_⟩
  · rw [hent' g' hg', hother g' hg' (by omega)]
    exact h.old g' hg' (by omega)
  · rw [hent' g' hg']
    by_cases hgg : g' = g
    · rw [hgg, hself]
      rfl
    · rw [hother g' hg' hgg]
      exact h.gone g' hg' h₁ (by omega)
  · rw [htab' i hi, htab i hi]
    exact h.tables i hi
  · change x ∈ PTE_ADDR (entry m d g) :: m.freelist ↔ _
    rw [List.mem_cons, h.free x]
    constructor
    · rintro (rfl | h₁ | ⟨g', h₁, h₂, h₃⟩)
      · exact .inr ⟨g, hlo, by omega, hpage⟩
      · exact .inl h₁
      · exact .inr ⟨g', h₁, by omega, h₃⟩
    · rintro (h₁ | ⟨g', h₁, h₂, h₃⟩)
      · exact .inr (.inl h₁)
      · by_cases hgg : g' = g
        · subst hgg
          exact .inl (h₃.2.2.symm.trans hpage.2.2)
        · exact .inr (.inr ⟨g', h₁, by omega, h₃⟩)
  · refine (h.same x hx htx fun g' h₁ h₂ => hgx g' h₁ (by omega)).trans
      ((hsame x hx ?_).trans (same_freed hframe.aligned hx ?_))
    · rintro rfl
      exact htx (g / 256) hi ((h.tables _ hi).symm.trans ht)
    · rintro rfl
      exact hgx g hlo (by omega) hpage

theorem unmap_run (hframe : Frame m f) (x : Nat) :
    (do
      kfree f
      setRam fun r => r.setWord x 0 : MmM Unit) m = .ok () (unmapped m f x) [] := by
  simp only [bind_apply, kfree_eq hframe, Run.after, setRam, update_apply, List.nil_append]
  rfl

theorem dealloc_idle {oldsz : Nat} (hold : oldsz ≤ 2 ^ 28) (fuel : Nat) (hn : ∀ g', g ≤ g' → g' < 65536 →
    present (entry m d g') = false) :
    deallocuvm.loop d oldsz fuel (g * 4096) m = .ok () m [] := by
  induction fuel generalizing g with
  | zero => rfl
  | succ fuel ih =>
      unfold deallocuvm.loop
      by_cases hlt : g * 4096 < oldsz
      · have hg : g < 65536 := by omega
        rw [if_pos hlt]
        simp only [bind_apply, walkpgdir_eq, pde_idx_page, pte_idx_page, Run.after]
        cases ht : table m d (g / 256) with
        | none =>
            have hjump : ∃ g₂, g ≤ g₂ ∧ ALIGNUP (g * 4096) PDE_SZ + PTE_SZ = g₂ * 4096 := by
              refine ⟨(g + 255) / 256 * 256 + 1, by omega, ?_⟩
              change (g * 4096 + 1048576 - 1) % 4294967296 / 1048576 * 1048576 + 4096 = _
              omega
            obtain ⟨g₂, h₁, h₂⟩ := hjump
            simp only [Option.map_none, h₂]
            rw [ih fun g' hg' => hn g' (by omega)]
            rfl
        | some t =>
            have hp := hn g (Nat.le_refl g) hg
            rw [entry_of_table ht] at hp
            have hnext : g * 4096 + PTE_SZ = (g + 1) * 4096 := by
              change g * 4096 + 4096 = _
              omega
            simp only [Option.map_some, bind_apply, fetch_apply, Run.after, hp, Bool.false_eq_true, if_false,
              pure_apply, hnext]
            rw [ih fun g' hg' => hn g' (by omega)]
            rfl
      · rw [if_neg hlt]
        rfl

/-- The pages from lo on are mapped up to top: deallocuvm takes them away up to oldsz. -/
theorem dealloc_loop (oldsz top : Nat) (hold : oldsz ≤ 2 ^ 28) (fuel : Nat) (hlo : lo ≤ g) (h : Shrunk m₁ m d lo g)
    (hbelow : ∀ g', g ≤ g' → g' < 65536 → (present (entry m d g') = true ↔ g' < top))
      (hfuel : oldsz ≤ 4096 * (g + fuel)) :
    ∃ m', deallocuvm.loop d oldsz fuel (g * 4096) m = .ok () m' [] ∧
      Shrunk m₁ m' d lo (max g ((oldsz + 4095) / 4096)) := by
  induction fuel generalizing g m with
  | zero =>
      refine ⟨m, rfl, ?_⟩
      rw [Nat.max_eq_left (by omega)]
      exact h
  | succ fuel ih =>
      by_cases hlt : g * 4096 < oldsz
      · have hg : g < 65536 := by omega
        have hfuel' : oldsz ≤ 4096 * (g + 1 + fuel) := by omega
        by_cases hp : present (entry m d g) = true
        · have ht : ∃ t, table m d (g / 256) = some t := by
            cases ht : table m d (g / 256) with
            | none =>
                rw [entry_of_none ht] at hp
                cases hp
            | some t => exact ⟨t, rfl⟩
          obtain ⟨t, ht⟩ := ht
          have hframe := h.space.frame (.page g) _ ⟨hg, hp, rfl⟩
          have hent := entry_of_table ht
          have hnext : g * 4096 + PTE_SZ = (g + 1) * 4096 := by
            change g * 4096 + 4096 = _
            omega
          have hun := h.unmap hlo hg ht hp
          have hrest : ∀ g', g + 1 ≤ g' → g' < 65536 →
              (present (entry (unmapped m (PTE_ADDR (entry m d g)) (t + 4 * (g % 256))) d g') = true ↔ g' < top) := by
            intro g' h₁ h₂
            rw [hun.old g' h₂ (.inr h₁), ← h.old g' h₂ (.inr (by omega))]
            exact hbelow g' (by omega) h₂
          obtain ⟨m', hrun, hm'⟩ := ih (Nat.le_succ_of_le hlo) hun hrest hfuel'
          refine ⟨m', ?_, ?_⟩
          · rw [hent] at hp hframe hrun
            have hz : PTE_ADDR (m.ram.word (t + 4 * (g % 256))) ≠ 0 := fun hz => by
              have := hframe.pos
              omega
            have hr := unmap_run hframe (t + 4 * (g % 256))
            unfold deallocuvm.loop
            rw [if_pos hlt]
            simp only [bind_apply, walkpgdir_eq, pde_idx_page, pte_idx_page, Run.after, ht, Option.map_some,
              fetch_apply, hp, if_true,
              if_neg hz, hnext] at hr ⊢
            rw [hr]
            simp only [hrun, List.nil_append]
          · rw [Nat.max_eq_right (by omega)] at hm' ⊢
            exact hm'
        · have hnone : ∀ g', g ≤ g' → g' < 65536 → present (entry m d g') = false := by
            intro g' h₁ h₂
            have hg' := hbelow g' h₁ h₂
            have hgt := hbelow g (Nat.le_refl g) hg
            cases hpg : present (entry m d g') with
            | false => rfl
            | true => exact absurd (hgt.2 (by have := hg'.1 hpg; omega)) hp
          exact ⟨m, dealloc_idle hold _ hnone, h.skip (Nat.le_max_left _ _) hnone⟩
      · refine ⟨m, ?_, ?_⟩
        · unfold deallocuvm.loop
          rw [if_neg hlt]
          rfl
        · rw [Nat.max_eq_left (by omega)]
          exact h

variable {m₀ : Mm} {hi b k : Nat} {out : List Nat}

theorem grown_below (hb : Below m₀ d lo) (h : Grown m₀ m d lo hi b out k) (hlo : lo ≤ hi) : Below m d hi := by
  intro g hg
  by_cases hnew : lo ≤ g ∧ g < hi
  · simp [(h.fresh g hnew.1 hnew.2).1, hnew.2]
  · rw [h.old g hg (by omega), hb g hg]
    omega

theorem table_none_iff (hb : Below m₀ d lo) (h : Grown m₀ m d lo hi hi out k) (hlo : lo ≤ hi) (hhi : hi < 65536) :
    table m d (hi / 256) = none ↔ hi % 256 = 0 ∧ table m₀ d (hi / 256) = none := by
  have hi' : hi / 256 < 256 := by omega
  constructor
  · intro ht
    have hmod : hi % 256 = 0 := by
      by_contra hne
      have hp := (grown_below hb h hlo (hi - 1) (by omega)).2 (by omega)
      have hdiv : (hi - 1) / 256 = hi / 256 := by omega
      rw [entry_of_none (hdiv ▸ ht)] at hp
      cases hp
    refine ⟨hmod, ?_⟩
    cases ht₀ : table m₀ d (hi / 256) with
    | none => rfl
    | some t =>
        rw [h.tables _ t hi' ht₀] at ht
        cases ht
  · rintro ⟨hmod, ht₀⟩
    cases ht : table m d (hi / 256) with
    | none => rfl
    | some t =>
        rcases h.created _ t hi' ht with h₁ | h₁
        · rw [ht₀] at h₁
          cases h₁
        · omega

theorem kalloc_cons {rest : List Nat} (hl : m.freelist = f :: rest) :
    kalloc m = .ok (some f) { m with freelist := rest } [] := by
  unfold kalloc
  simp [bind_apply, fetch_apply, update_apply, pure_apply, Run.after, hl]

theorem kalloc_nil (hl : m.freelist = []) : kalloc m = .ok none m [] := by
  unfold kalloc
  simp [bind_apply, fetch_apply, pure_apply, Run.after, hl]

/-- A page and, where it is missing, its page table: all is well unless the free list ends in
between. -/
theorem grow_page (hb : Below m₀ d lo) (h : Grown m₀ m d lo hi hi [] (missing m₀ d lo hi)) (hlo : lo ≤ hi)
    (hhi : hi < 65536)
    {rest : List Nat} (hl : m.freelist = f :: rest) :
    (∃ m', mappages d (hi * 4096) PTE_SZ f AP_KU { m with ram := m.ram.fill f PTE_SZ 0, freelist := rest } =
      .ok 0 m' [] ∧
      Grown m₀ m' d lo (hi + 1) (hi + 1) [] (missing m₀ d lo (hi + 1))) ∨
    (hi % 256 = 0 ∧ table m₀ d (hi / 256) = none ∧ rest = [] ∧
      mappages d (hi * 4096) PTE_SZ f AP_KU { m with ram := m.ram.fill f PTE_SZ 0, freelist := rest } =
        .ok (-1) { m with ram := m.ram.fill f PTE_SZ 0, freelist := rest } [] ∧
      Grown m₀ { m with ram := m.ram.fill f PTE_SZ 0, freelist := rest } d lo hi hi [f] (missing m₀ d lo hi)) := by
  have h₁ := h.take (by omega) hl
  have hnot : present (entry { m with ram := m.ram.fill f PTE_SZ 0, freelist := rest } d hi) = false := by
    have hp := grown_below hb h₁ hlo hi hhi
    simpa using hp
  cases ht : table { m with ram := m.ram.fill f PTE_SZ 0, freelist := rest } d (hi / 256) with
  | some t =>
      refine .inl ⟨_, mappages_some hhi f AP_KU ht hnot, ?_⟩
      have hsucc := missing_succ m₀ d lo hi hlo hhi
      rw [if_neg (by rw [← table_none_iff hb h₁ hlo hhi, ht]; simp), Nat.add_zero] at hsucc
      rw [hsucc]
      exact h₁.attach hlo hhi (by omega) ht
  | none =>
      have hiff := (table_none_iff hb h₁ hlo hhi).1 ht
      cases rest with
      | nil => exact .inr ⟨hiff.1, hiff.2, rfl, mappages_none hhi f AP_KU ht rfl, h₁⟩
      | cons t rest =>
          obtain ⟨h₂, ht₂⟩ := h₁.newTable hhi ht rfl
          have hn₂ := grown_below hb h₂ hlo hi hhi
          rw [lt_self_iff_false, iff_false, Bool.not_eq_true, entry_of_table ht₂] at hn₂
          refine .inl ⟨_, mappages_table hhi f AP_KU ht rfl hn₂, ?_⟩
          have hsucc := missing_succ m₀ d lo hi hlo hhi
          rw [if_pos hiff] at hsucc
          rw [hsucc]
          exact h₂.attach hlo hhi (Nat.le_refl _) ht₂

/-- deallocuvm after a failure takes away what was mapped since the call began. -/
theorem undo {oldsz newsz : Nat} (hb : Below m₀ d lo) (h : Grown m₀ m d lo hi hi out k) (hlo : lo ≤ hi)
    (hold : lo = (oldsz + 4095) / 4096)
    (hnew : newsz < 2 ^ 28) (hlt : hi * 4096 < newsz) :
    ∃ m', deallocuvm d newsz oldsz m = .ok oldsz m' [] ∧ Shrunk m m' d lo ((newsz + 4095) / 4096) := by
  have hup : ALIGNUP oldsz PTE_SZ = lo * 4096 := by
    change (oldsz + 4096 - 1) % 4294967296 / 4096 * 4096 = lo * 4096
    omega
  obtain ⟨m', hrun, hm'⟩ := dealloc_loop newsz hi (by omega) (newsz / 4096 + 1) (Nat.le_refl lo)
    (Shrunk.start h.space lo) (fun g _ hg => grown_below hb h hlo g hg) (by omega)
  rw [Nat.max_eq_right (by omega)] at hm'
  refine ⟨m', ?_, hm'⟩
  unfold deallocuvm
  rw [if_neg (by omega), hup]
  change (do
    deallocuvm.loop d newsz (newsz / 4096 + 1) (lo * 4096)
    pure oldsz : MmM Nat) m = _
  simp only [bind_apply, hrun, Run.after, pure_apply, List.nil_append]

/-- How allocuvm ends: the space has grown; or the free list was empty at page h, and all pages
of the call are gone again; or it was empty where page h needed a page table, and the frame
for the page is lost. -/
inductive Outcome (m₀ : Mm) (d lo newsz : Nat) : Nat → Mm → Prop
  | grown {m' : Mm}
      (h : Grown m₀ m' d lo ((newsz + 4095) / 4096) ((newsz + 4095) / 4096) []
      (missing m₀ d lo ((newsz + 4095) / 4096))) :
      Outcome m₀ d lo newsz newsz m'
  | short {m₁ m' : Mm} (h : Nat) (hlo : lo ≤ h) (hlt : h < (newsz + 4095) / 4096)
      (hg : Grown m₀ m₁ d lo h h [] (missing m₀ d lo h))
      (hl : m₁.freelist = []) (hs : Shrunk m₁ m' d lo ((newsz + 4095) / 4096)) : Outcome m₀ d lo newsz 0 m'
  | lost {m₁ m' : Mm} {r : Nat} (h f : Nat) (hlo : lo ≤ h) (hlt : h < (newsz + 4095) / 4096) (hmod : h % 256 = 0)
      (ht : table m₀ d (h / 256) = none) (hg : Grown m₀ m₁ d lo h h [f] (missing m₀ d lo h)) (hl : m₁.freelist = [])
      (hr : r = newsz ∧ m' = m₁ ∨ r = 0 ∧ Shrunk m₁ m' d lo ((newsz + 4095) / 4096)) : Outcome m₀ d lo newsz r m'

theorem alloc_loop (oldsz newsz : Nat) (hb : Below m₀ d lo) (hold : lo = (oldsz + 4095) / 4096)
    (hnew : newsz < 2 ^ 28) (fuel : Nat)
    (h : Grown m₀ m d lo hi hi [] (missing m₀ d lo hi)) (hlo : lo ≤ hi) (htop : hi ≤ max lo ((newsz + 4095) / 4096))
    (hle : lo ≤ (newsz + 4095) / 4096) (hfuel : newsz ≤ 4096 * (hi + fuel)) :
    ∃ r m' e, allocuvm.loop d oldsz newsz fuel (hi * 4096) m = .ok r m' e ∧ Outcome m₀ d lo newsz r m' := by
  induction fuel generalizing hi m with
  | zero =>
      have hhi : hi = (newsz + 4095) / 4096 := by omega
      subst hhi
      exact ⟨newsz, m, [], rfl, .grown h⟩
  | succ fuel ih =>
      have hfuel' : newsz ≤ 4096 * (hi + 1 + fuel) := by omega
      have hnext : hi * 4096 + PTE_SZ = (hi + 1) * 4096 := by
        change hi * 4096 + 4096 = _
        clear hfuel hfuel'
        omega
      by_cases hlt : hi * 4096 < newsz
      · have hhi : hi < 65536 := by omega
        cases hl : m.freelist with
        | nil =>
            obtain ⟨m', hrun, hm'⟩ := undo hb h hlo hold hnew hlt
            refine ⟨0, m', [], ?_, .short hi hlo (by omega) h hl hm'⟩
            unfold allocuvm.loop
            rw [if_pos hlt]
            simp only [bind_apply, kalloc_nil hl, Run.after, hrun, pure_apply, List.nil_append]
        | cons f rest =>
            rcases grow_page hb h hlo hhi hl with ⟨m', hrun, hm'⟩ | ⟨hmod, ht, hrest, hrun, hm'⟩
            · obtain ⟨r, m'', e, hr, hout⟩ := ih hm' (by omega) (by omega) hfuel'
              refine ⟨r, m'', e, ?_, hout⟩
              unfold allocuvm.loop
              rw [if_pos hlt]
              simp only [bind_apply, kalloc_cons hl, setRam, update_apply, hrun, Run.after, Int.lt_irrefl, if_false,
                pure_apply, hnext, hr,
                List.nil_append]
            · subst hrest
              have htail :
                  ∃ r m',
                  allocuvm.loop d oldsz newsz fuel ((hi + 1) * 4096)
                  { m with ram := m.ram.fill f PTE_SZ 0, freelist := [] } =
                  .ok r m' [] ∧ Outcome m₀ d lo newsz r m' := by
                by_cases hlt' : (hi + 1) * 4096 < newsz
                · -- the next kalloc fails
                  obtain ⟨m', hrun', hm''⟩ := undo hb hm' hlo hold hnew hlt
                  refine ⟨0, m', ?_, .lost hi f hlo (by omega) hmod ht hm' rfl (.inr ⟨rfl, hm''⟩)⟩
                  cases fuel with
                  | zero => omega
                  | succ fuel =>
                      unfold allocuvm.loop
                      rw [if_pos hlt']
                      simp only [bind_apply, kalloc_nil, Run.after, hrun', pure_apply, List.nil_append]
                · refine ⟨newsz, _, ?_, .lost hi f hlo (by omega) hmod ht hm' rfl (.inl ⟨rfl, rfl⟩)⟩
                  cases fuel with
                  | zero => rfl
                  | succ fuel =>
                      unfold allocuvm.loop
                      rw [if_neg hlt']
                      rfl
              obtain ⟨r, m', hr, hout⟩ := htail
              refine ⟨r, m', [.lost f], ?_, hout⟩
              unfold allocuvm.loop
              rw [if_pos hlt]
              simp only [bind_apply, kalloc_cons hl, setRam, update_apply, hrun, Run.after, Int.reduceNeg,
                Int.reduceLT, if_true, emit_apply,
                hnext, hr, List.nil_append, List.append_nil]
      · have hhi : hi = (newsz + 4095) / 4096 := by omega
        subst hhi
        refine ⟨newsz, m, [], ?_, .grown h⟩
        unfold allocuvm.loop
        rw [if_neg hlt]
        rfl

theorem allocuvm_spec {oldsz newsz : Nat} (hs : Space m d) (hb : Below m d ((oldsz + 4095) / 4096))
    (hle : oldsz ≤ newsz)
    (hnew : newsz < UADDR_SZ) :
    ∃ r m' e, allocuvm d oldsz newsz m = .ok r m' e ∧ Outcome m d ((oldsz + 4095) / 4096) newsz r m' := by
  change newsz < 268435456 at hnew
  have hup : ALIGNUP oldsz PTE_SZ = (oldsz + 4095) / 4096 * 4096 := by
    change (oldsz + 4096 - 1) % 4294967296 / 4096 * 4096 = _
    omega
  have hstart : Grown m m d ((oldsz + 4095) / 4096) ((oldsz + 4095) / 4096) ((oldsz + 4095) / 4096) []
      (missing m d ((oldsz + 4095) / 4096) ((oldsz + 4095) / 4096)) := by
    rw [missing_self]
    exact .start hs
  obtain ⟨r, m', e, hrun, hout⟩ := alloc_loop oldsz newsz hb rfl hnew (newsz / 4096 + 1) hstart (Nat.le_refl _)
    (Nat.le_max_left _ _) (by omega) (by omega)
  refine ⟨r, m', e, ?_, hout⟩
  unfold allocuvm
  rw [if_neg (by change ¬268435456 ≤ newsz; omega), if_neg (by omega), hup]
  exact hrun

theorem deallocuvm_spec {oldsz newsz : Nat} (hs : Space m d) (hb : Below m d ((oldsz + 4095) / 4096))
    (hlt : newsz < oldsz)
    (hold : oldsz ≤ UADDR_SZ) :
    ∃ m', deallocuvm d oldsz newsz m = .ok newsz m' [] ∧
      Shrunk m m' d ((newsz + 4095) / 4096) ((oldsz + 4095) / 4096) := by
  change oldsz ≤ 268435456 at hold
  have hup : ALIGNUP newsz PTE_SZ = (newsz + 4095) / 4096 * 4096 := by
    change (newsz + 4096 - 1) % 4294967296 / 4096 * 4096 = _
    omega
  obtain ⟨m', hrun, hm'⟩ := dealloc_loop oldsz ((oldsz + 4095) / 4096) hold (oldsz / 4096 + 1)
    (Nat.le_refl ((newsz + 4095) / 4096)) (Shrunk.start hs _) (fun g _ hg => hb g hg) (by omega)
  rw [Nat.max_eq_right (by omega)] at hm'
  refine ⟨m', ?_, hm'⟩
  unfold deallocuvm
  rw [if_neg (by omega), hup]
  change (do
    deallocuvm.loop d oldsz (oldsz / 4096 + 1) ((newsz + 4095) / 4096 * 4096)
    pure newsz : MmM Nat) m = _
  simp only [bind_apply, hrun, Run.after, pure_apply, List.nil_append]

end ArmXv6.Resize
