import ArmXv6.Resize

namespace ArmXv6.SparseRange

open Lib.Exec Lib.Bytes Lib.Frames Param Blocks Vm AddressSpace Resize

variable {m m₁ : Mm} {d f g i lo t : Nat} {P Q : Nat → Prop}

/-- The mapped pages in P are gone, their frames have been freed once each, and nothing else has changed. -/
structure Cleared (m₁ m : Mm) (d : Nat) (P : Nat → Prop) : Prop where
  space : Space m d
  gone : ∀ g, g < 65536 → P g → present (entry m d g) = false
  old : ∀ g, g < 65536 → ¬(P g ∧ present (entry m₁ d g) = true) → entry m d g = entry m₁ d g
  tables : ∀ i, i < 256 → table m d i = table m₁ d i
  free : ∃ l, m.freelist = l ++ m₁.freelist ∧ ∀ f, f ∈ l ↔ ∃ g, P g ∧ holds m₁ d (.page g) f

theorem Cleared.start (h : Space m d) (hP : ∀ g, ¬P g) : Cleared m m d P where
  space := h
  gone g _ hg := absurd hg (hP g)
  old _ _ _ := rfl
  tables _ _ := rfl
  free := ⟨[], rfl, fun _ => iff_of_false List.not_mem_nil fun ⟨g, hg, _⟩ => hP g hg⟩

theorem Cleared.congr (h : Cleared m₁ m d P) (hPQ : ∀ g, g < 65536 → present (entry m₁ d g) = true → (P g ↔ Q g)) :
    Cleared m₁ m d Q where
  space := h.space
  gone g hg hq := by
    by_cases hp : present (entry m₁ d g) = true
    · exact h.gone g hg ((hPQ g hg hp).mpr hq)
    · rw [h.old g hg fun hc => hp hc.2]
      exact Bool.eq_false_iff.mpr hp
  old g hg hn := h.old g hg fun hc => hn ⟨(hPQ g hg hc.2).mp hc.1, hc.2⟩
  tables := h.tables
  free := by
    obtain ⟨l, hl, hmem⟩ := h.free
    refine ⟨l, hl, fun f => ?_⟩
    rw [hmem f]
    exact exists_congr fun g => and_congr_left fun hh => hPQ g hh.1 hh.2.1

theorem Cleared.unmap (h : Cleared m₁ m d P) (hn : ¬P g) (hg : g < 65536) (ht : table m d (g / 256) = some t)
    (hp : present (entry m d g) = true) :
    Cleared m₁ (unmapped m (PTE_ADDR (entry m d g)) (t + 4 * (g % 256))) d (fun x => P x ∨ x = g) := by
  have hi : g / 256 < 256 := by omega
  have hframe := h.space.frame (.page g) _ ⟨hg, hp, rfl⟩
  have hft := h.space.table hi ht
  have hne : PTE_ADDR (entry m d g) ≠ t := by
    intro he
    cases h.space.apart (.page g) (.table (g / 256)) t ⟨hg, hp, he⟩ ⟨hi, ht⟩
  have hal : PTE_ADDR (entry m d g) % 262144 = 0 := hframe.aligned
  have hal' : t % 262144 = 0 := hft.aligned
  have he : entry m d g = entry m₁ d g := h.old g hg fun hc => hn hc.1
  rw [unmapped_eq (by rw [frame_eq]; omega)]
  obtain ⟨htab, hself, hother, -⟩ := h.space.setEntry hg ht (w := 0) (by decide)
  obtain ⟨hsp, hloose⟩ := h.space.detachPage hg ht hp
  obtain ⟨hspace, htab', hent'⟩ := hsp.push hloose ⟨hframe.aligned, hframe.above, hframe.below, hframe.pos⟩
  refine ⟨hspace, fun x hx hPx => ?_, fun x hx hnx => ?_, fun i hi => ?_, ?_⟩
  · rw [hent' x hx]
    by_cases hxg : x = g
    · rw [hxg, hself]
      rfl
    · rw [hother x hx hxg]
      exact h.gone x hx (hPx.resolve_right hxg)
  · have hxg : x ≠ g := by
      rintro rfl
      exact hnx ⟨.inr rfl, he ▸ hp⟩
    rw [hent' x hx, hother x hx hxg]
    exact h.old x hx fun hc => hnx ⟨.inl hc.1, hc.2⟩
  · rw [htab' i hi, htab i hi]
    exact h.tables i hi
  · obtain ⟨l, hl, hmem⟩ := h.free
    refine ⟨PTE_ADDR (entry m d g) :: l, by rw [List.cons_append, ← hl]; rfl, fun f => ?_⟩
    rw [List.mem_cons, hmem f]
    constructor
    · rintro (rfl | ⟨x, hPx, hh⟩)
      · exact ⟨g, .inr rfl, hg, he ▸ hp, by rw [he]⟩
      · exact ⟨x, .inl hPx, hh⟩
    · rintro ⟨x, hPx | rfl, hh⟩
      · exact .inr ⟨x, hPx, hh⟩
      · exact .inl (by rw [he, hh.2.2])

/-- The loop passes over the first page of a section when it comes from a section without a page table. -/
def Skipped (m : Mm) (d lo g : Nat) : Prop := g % 256 = 0 ∧ lo < g ∧ table m d (g / 256 - 1) = none

/-- What the loop has cleared of the pages below top when it comes to page g. -/
def Passed (m : Mm) (d lo top g x : Nat) : Prop := lo ≤ x ∧ x < top ∧ x < g ∧ ¬Skipped m d lo x

/-- The page after a section without a page table, and after the first page of the next one. -/
def jump (g : Nat) : Nat := (g + 255) / 256 * 256 + 1

theorem lt_jump (g : Nat) : g < jump g := by
  unfold jump
  omega

theorem jump_eq (hg : g < 65536) : ALIGNUP (g * 4096) PDE_SZ + PTE_SZ = jump g * 4096 := by
  change (g * 4096 + 1048576 - 1) % 4294967296 / 1048576 * 1048576 + 4096 = _
  unfold jump
  omega

variable {top : Nat}

/-- Between a page without a page table and where the loop goes on, every mapped page is skipped. -/
theorem passed_jump (hlo : lo ≤ g) (ht : table m d (g / 256) = none) {x : Nat} (hp : present (entry m d x) = true) :
    Passed m d lo top g x ↔ Passed m d lo top (jump g) x := by
  have hsec : x / 256 ≠ g / 256 := by
    intro he
    rw [entry_of_none (he ▸ ht)] at hp
    cases hp
  have hjump := lt_jump g
  refine ⟨fun ⟨h₁, h₂, h₃, h₄⟩ => ⟨h₁, h₂, by omega, h₄⟩, fun ⟨h₁, h₂, h₃, h₄⟩ => ⟨h₁, h₂, ?_, h₄⟩⟩
  by_contra hge
  have hx : x = (g / 256 + 1) * 256 := by
    unfold jump at h₃
    omega
  refine h₄ ⟨by omega, by omega, ?_⟩
  rw [hx, Nat.mul_div_cancel _ (by decide), Nat.add_sub_cancel]
  exact ht

theorem passed_all {top x : Nat} (hge : top ≤ g) : Passed m d lo top g x ↔ lo ≤ x ∧ x < top ∧ ¬Skipped m d lo x := by
  unfold Passed
  constructor
  · rintro ⟨h₁, h₂, -, h₄⟩
    exact ⟨h₁, h₂, h₄⟩
  · rintro ⟨h₁, h₂, h₄⟩
    exact ⟨h₁, h₂, by omega, h₄⟩

theorem passed_succ (hlo : lo ≤ g) (hg : g < top) (hn : ¬Skipped m d lo g) {x : Nat} :
    Passed m d lo top g x ∨ x = g ↔ Passed m d lo top (g + 1) x := by
  constructor
  · rintro (⟨h₁, h₂, h₃, h₄⟩ | rfl)
    · exact ⟨h₁, h₂, by omega, h₄⟩
    · exact ⟨hlo, hg, by omega, hn⟩
  · rintro ⟨h₁, h₂, h₃, h₄⟩
    by_cases hx : x = g
    · exact .inr hx
    · exact .inl ⟨h₁, h₂, by omega, h₄⟩

theorem not_skipped_jump (m : Mm) (d lo : Nat) : ¬Skipped m d lo (jump g) := by
  rintro ⟨h, -, -⟩
  unfold jump at h
  omega

theorem not_skipped_succ (ht : table m d (g / 256) = some t) : ¬Skipped m d lo (g + 1) := by
  rintro ⟨h, -, hn⟩
  have hsec : (g + 1) / 256 - 1 = g / 256 := by omega
  rw [hsec, ht] at hn
  cases hn

/-- The loop clears the range but for the pages that it skips. -/
theorem clear_loop {oldsz : Nat} (hold : oldsz ≤ 2 ^ 28) (fuel : Nat) (hlo : lo ≤ g) (hskip : ¬Skipped m₁ d lo g)
    (h : Cleared m₁ m d (Passed m₁ d lo ((oldsz + 4095) / 4096) g)) (hfuel : oldsz ≤ 4096 * (g + fuel)) :
    ∃ m', deallocuvm.loop d oldsz fuel (g * 4096) m = .ok () m' [] ∧
      Cleared m₁ m' d fun x => lo ≤ x ∧ x < (oldsz + 4095) / 4096 ∧ ¬Skipped m₁ d lo x := by
  have hend : oldsz ≤ g * 4096 → Cleared m₁ m d fun x => lo ≤ x ∧ x < (oldsz + 4095) / 4096 ∧
      ¬Skipped m₁ d lo x := fun hge =>
    h.congr fun x _ _ => passed_all (by omega)
  induction fuel generalizing g m with
  | zero => exact ⟨m, rfl, hend (by omega)⟩
  | succ fuel ih =>
      by_cases hlt : g * 4096 < oldsz
      · have hg : g < 65536 := by omega
        have hi : g / 256 < 256 := by omega
        have hnext : g * 4096 + PTE_SZ = (g + 1) * 4096 := by
          change g * 4096 + 4096 = _
          omega
        unfold deallocuvm.loop
        rw [if_pos hlt]
        simp only [bind_apply, walkpgdir_eq, pde_idx_page, pte_idx_page, Run.after]
        have hgo : ∀ {m₂ : Mm} {g₂ : Nat}, g < g₂ → ¬Skipped m₁ d lo g₂ →
            Cleared m₁ m₂ d (Passed m₁ d lo ((oldsz + 4095) / 4096) g₂) →
            ∃ m', deallocuvm.loop d oldsz fuel (g₂ * 4096) m₂ = .ok () m' [] ∧
              Cleared m₁ m' d fun x => lo ≤ x ∧ x < (oldsz + 4095) / 4096 ∧ ¬Skipped m₁ d lo x := by
          intro m₂ g₂ hlt₂ hn₂ h₂
          refine ih (by omega) hn₂ h₂ (by omega) fun hge => ?_
          exact h₂.congr fun x _ _ => passed_all (by omega)
        cases ht : table m d (g / 256) with
        | none =>
            have ht₁ : table m₁ d (g / 256) = none := (h.tables _ hi).symm.trans ht
            simp only [Option.map_none, jump_eq hg]
            obtain ⟨m', hrun, hm'⟩ :=
              hgo (lt_jump g) (not_skipped_jump m₁ d lo) (h.congr fun x _ hp => passed_jump hlo ht₁ hp)
            exact ⟨m', by rw [hrun]; rfl, hm'⟩
        | some t =>
            have ht₁ : table m₁ d (g / 256) = some t := (h.tables _ hi).symm.trans ht
            have hself : ¬Passed m₁ d lo ((oldsz + 4095) / 4096) g g := fun hc => absurd hc.2.2.1 (Nat.lt_irrefl g)
            have hsucc := @passed_succ m₁ d g lo ((oldsz + 4095) / 4096) hlo (by omega) hskip
            by_cases hp : present (entry m d g) = true
            · have hframe := h.space.frame (.page g) _ ⟨hg, hp, rfl⟩
              have hent := entry_of_table ht
              have hun := (h.unmap hself hg ht hp).congr fun x _ _ => hsucc
              obtain ⟨m', hrun, hm'⟩ := hgo (Nat.lt_succ_self g) (not_skipped_succ ht₁) hun
              refine ⟨m', ?_, hm'⟩
              rw [hent] at hp hframe hrun
              have hz : PTE_ADDR (m.ram.word (t + 4 * (g % 256))) ≠ 0 := fun hz => by
                have hpos := hframe.pos
                omega
              have hr := unmap_run hframe (t + 4 * (g % 256))
              simp only [Option.map_some, bind_apply, fetch_apply, Run.after, hp, if_true, if_neg hz, hnext] at hr ⊢
              rw [hr]
              simp only [hrun, List.nil_append]
            · have hstay := h.congr (Q := Passed m₁ d lo ((oldsz + 4095) / 4096) (g + 1)) fun x hx hpx => by
                rw [← hsucc]
                refine ⟨.inl, fun hc => hc.resolve_right ?_⟩
                rintro rfl
                rw [← h.old x hx fun hc => hself hc.1] at hpx
                exact hp hpx
              obtain ⟨m', hrun, hm'⟩ := hgo (Nat.lt_succ_self g) (not_skipped_succ ht₁) hstay
              refine ⟨m', ?_, hm'⟩
              rw [entry_of_table ht] at hp
              simp only [Option.map_some, bind_apply, fetch_apply, Run.after, hp, Bool.false_eq_true, if_false,
                pure_apply, hnext, hrun,
                List.nil_append]
      · refine ⟨m, ?_, hend (by omega)⟩
        unfold deallocuvm.loop
        rw [if_neg hlt]
        rfl

/-- The page addresses that deallocuvm goes over. -/
def Within (oldsz newsz g : Nat) : Prop := ALIGNUP newsz PTE_SZ ≤ g * PTE_SZ ∧ g * PTE_SZ < oldsz

/-- No page of the range is mapped afterwards, exactly the frames behind them have been freed, once each, and
no entry outside the range has changed. -/
structure Clears (m m' : Mm) (d oldsz newsz : Nat) : Prop where
  gone : ∀ g, Within oldsz newsz g → present (entry m' d g) = false
  freed : ∃ l, m'.freelist = l ++ m.freelist ∧ l.Nodup ∧ ∀ f, f ∈ l ↔ ∃ g, Within oldsz newsz g ∧ holds m d (.page g) f
  outside : ∀ g, g < 65536 → ¬Within oldsz newsz g → entry m' d g = entry m d g

/-- Behind a section without a page table no section of the range begins with a mapped page. -/
def NoneSkipped (m : Mm) (d oldsz newsz : Nat) : Prop :=
  ∀ g, ALIGNUP newsz PTE_SZ < g * PTE_SZ → g * PTE_SZ < oldsz → g % NUM_PTE = 0 → table m d (g / NUM_PTE - 1) = none →
    present (entry m d g) = false

variable {oldsz newsz : Nat}

theorem within_iff (hlt : newsz < oldsz) (hold : oldsz ≤ UADDR_SZ) :
    Within oldsz newsz g ↔ (newsz + 4095) / 4096 ≤ g ∧ g < (oldsz + 4095) / 4096 := by
  change oldsz ≤ 268435456 at hold
  change (newsz + 4096 - 1) % 4294967296 / 4096 * 4096 ≤ g * 4096 ∧ g * 4096 < oldsz ↔ _
  omega

theorem noneSkipped_iff (hlt : newsz < oldsz) (hold : oldsz ≤ UADDR_SZ) :
    NoneSkipped m d oldsz newsz ↔
      ∀ g, g < (oldsz + 4095) / 4096 → Skipped m d ((newsz + 4095) / 4096) g → present (entry m d g) = false := by
  change oldsz ≤ 268435456 at hold
  have hup : ALIGNUP newsz PTE_SZ = (newsz + 4095) / 4096 * 4096 := by
    change (newsz + 4096 - 1) % 4294967296 / 4096 * 4096 = _
    omega
  unfold NoneSkipped
  rw [hup]
  change (∀ g, (newsz + 4095) / 4096 * 4096 < g * 4096 → g * 4096 < oldsz → g % 256 = 0 →
    table m d (g / 256 - 1) = none →
    present (entry m d g) = false) ↔ _
  constructor
  · intro h g hg ⟨hal, hlo, ht⟩
    exact h g (by omega) (by omega) hal ht
  · intro h g h₁ h₂ hal ht
    exact h g (by omega) ⟨hal, by omega, ht⟩

/-- What deallocuvm does to any address space: it clears the range but for the skipped pages. -/
theorem deallocuvm_run (hs : Space m d) (hlt : newsz < oldsz) (hold : oldsz ≤ UADDR_SZ) :
    ∃ m', deallocuvm d oldsz newsz m = .ok newsz m' [] ∧
      Cleared m m' d fun x => (newsz + 4095) / 4096 ≤ x ∧ x < (oldsz + 4095) / 4096 ∧
        ¬Skipped m d ((newsz + 4095) / 4096) x := by
  change oldsz ≤ 268435456 at hold
  have hup : ALIGNUP newsz PTE_SZ = (newsz + 4095) / 4096 * 4096 := by
    change (newsz + 4096 - 1) % 4294967296 / 4096 * 4096 = _
    omega
  have hstart : Cleared m m d (Passed m d ((newsz + 4095) / 4096) ((oldsz + 4095) / 4096) ((newsz + 4095) / 4096)) :=
    .start hs fun x hx => absurd hx.1 (not_le.mpr hx.2.2.1)
  obtain ⟨m', hrun, hm'⟩ :=
    clear_loop hold (oldsz / 4096 + 1) le_rfl (fun hc => absurd hc.2.1 (Nat.lt_irrefl _)) hstart (by omega)
  refine ⟨m', ?_, hm'⟩
  unfold deallocuvm
  rw [if_neg (by omega), hup]
  change (do
    deallocuvm.loop d oldsz (oldsz / 4096 + 1) ((newsz + 4095) / 4096 * 4096)
    pure newsz : MmM Nat) m = _
  simp only [bind_apply, hrun, Run.after, pure_apply, List.nil_append]

theorem clears_iff {m' : Mm} (hlt : newsz < oldsz) (hold : oldsz ≤ UADDR_SZ)
    (h : Cleared m m' d fun x => (newsz + 4095) / 4096 ≤ x ∧ x < (oldsz + 4095) / 4096 ∧
      ¬Skipped m d ((newsz + 4095) / 4096) x) :
    Clears m m' d oldsz newsz ↔ NoneSkipped m d oldsz newsz := by
  have hold' : oldsz ≤ 268435456 := hold
  rw [noneSkipped_iff hlt hold]
  constructor
  · intro hc g hg hskip
    have hgone := hc.gone g ((within_iff hlt hold).mpr ⟨le_of_lt hskip.2.1, hg⟩)
    rwa [h.old g (by omega) fun hp => hp.1.2.2 hskip] at hgone
  · intro hnone
    have hall := h.congr (Q := Within oldsz newsz) fun x _ hp => by
      rw [within_iff hlt hold]
      refine ⟨fun ⟨h₁, h₂, _⟩ => ⟨h₁, h₂⟩, fun ⟨h₁, h₂⟩ => ⟨h₁, h₂, fun hskip => ?_⟩⟩
      rw [hnone x h₂ hskip] at hp
      cases hp
    obtain ⟨l, hl, hmem⟩ := hall.free
    have hnodup := hall.space.nodup
    rw [hl] at hnodup
    refine ⟨fun g hw => hall.gone g ?_ hw, ⟨l, hl, hnodup.of_append_left, hmem⟩, fun g hg hout =>
      hall.old g hg fun hc => hout hc.1⟩
    have hin := ((within_iff hlt hold).mp hw).2
    omega

theorem returned_iff {m' : Mm}
    (h : Cleared m m' d fun x => (0 + 4095) / 4096 ≤ x ∧ x < (UADDR_SZ + 4095) / 4096 ∧
      ¬Skipped m d ((0 + 4095) / 4096) x) :
    (∀ g f, holds m d (.page g) f → f ∈ m'.freelist) ↔ NoneSkipped m d UADDR_SZ 0 := by
  have hpos : 0 < UADDR_SZ := by decide
  constructor
  · intro hall
    rw [noneSkipped_iff hpos le_rfl]
    intro g hg hskip
    by_contra hp
    have hg' : g < 65536 := hg
    have hpage : present (entry m d g) = true := by simpa using hp
    have hsame := h.old g hg' fun hc => hc.1.2.2 hskip
    -- The frame of a skipped page would be mapped and free at once.
    have hfree : holds m' d .free (PTE_ADDR (entry m d g)) := hall g _ ⟨hg', hpage, rfl⟩
    have hheld : holds m' d (.page g) (PTE_ADDR (entry m' d g)) := ⟨hg', hsame.symm ▸ hpage, rfl⟩
    rw [hsame] at hheld
    cases h.space.apart _ _ _ hfree hheld
  · intro hnone g f hh
    obtain ⟨l, hl, -, hmem⟩ := ((clears_iff hpos le_rfl h).mpr hnone).freed
    rw [hl]
    have hw : Within UADDR_SZ 0 g := (within_iff hpos le_rfl).mpr ⟨Nat.zero_le g, hh.1⟩
    exact List.mem_append_left _ ((hmem f).mpr ⟨g, hw, hh⟩)

theorem freevm_eq {m' : Mm} (hd : 0 < d) (hrun : deallocuvm d UADDR_SZ 0 m = .ok 0 m' []) :
    freevm d m = (do
      freevm.loop d (List.range NUM_UPDE)
      kfree d : MmM Unit) m' := by
  unfold freevm
  rw [if_neg hd.ne', bind_apply, hrun]
  simp only [Run.after, List.nil_append]
  split <;> simp_all

/-- On any address space deallocuvm returns newsz, and it clears the whole range exactly if behind no section
without a page table the next one begins with a mapped page; freevm has returned every frame of a user page when it
comes to the page tables under the same condition on the whole user space. -/
theorem deallocuvm_clears_iff (m : Mm) (d oldsz newsz : Nat) (hs : Space m d) (hlt : newsz < oldsz)
    (hold : oldsz ≤ UADDR_SZ) :
    (∃ m', deallocuvm d oldsz newsz m = .ok newsz m' [] ∧ (Clears m m' d oldsz newsz ↔ NoneSkipped m d oldsz newsz)) ∧
      ∃ m', freevm d m = (do
          freevm.loop d (List.range NUM_UPDE)
          kfree d : MmM Unit) m' ∧
        ((∀ g f, holds m d (.page g) f → f ∈ m'.freelist) ↔ NoneSkipped m d UADDR_SZ 0) := by
  constructor
  · obtain ⟨m', hrun, hm'⟩ := deallocuvm_run hs hlt hold
    exact ⟨m', hrun, clears_iff hlt hold hm'⟩
  · obtain ⟨m', hrun, hm'⟩ := deallocuvm_run hs (show 0 < UADDR_SZ by decide) le_rfl
    exact ⟨m', freevm_eq (hs.frame .dir d rfl).pos hrun, returned_iff hm'⟩

/-- One page, the first of the second section; the first section has no page table. -/
def sparse : Mm := ⟨((Mem.zero.setWord (FRAME + 4) (2 * FRAME + 1)).setWord (2 * FRAME) (3 * FRAME + 14)), [], FRAME⟩

theorem sparse_table (hi : i < 256) : table sparse FRAME i = if i = 1 then some (2 * FRAME) else none := by
  have hf := frame_eq
  have hword : sparse.ram.word (FRAME + 4 * i) = if i = 1 then 2 * FRAME + 1 else 0 := by
    unfold sparse
    rw [Mem.word_setWord_of_disjoint _ _ _ _ (by omega)]
    by_cases h1 : i = 1
    · subst h1
      rw [if_pos rfl]
      exact Mem.word_setWord_self _ _ _ (by decide) (by decide)
    · rw [if_neg h1, Mem.word_setWord_of_disjoint _ _ _ _ (by omega), Mem.word_zero]
  unfold table
  rw [hword]
  by_cases h1 : i = 1
  · simp only [h1, if_true]
    decide
  · simp [h1, present]

theorem sparse_entry (hg : g < 65536) : entry sparse FRAME g = if g = 256 then 3 * FRAME + 14 else 0 := by
  have hf := frame_eq
  by_cases h1 : g / 256 = 1
  · have ht : table sparse FRAME (g / 256) = some (2 * FRAME) := by rw [sparse_table (by omega), if_pos h1]
    rw [entry_of_table ht]
    unfold sparse
    by_cases h0 : g = 256
    · subst h0
      rw [if_pos rfl]
      exact Mem.word_setWord_self _ _ _ (by decide) (by decide)
    · rw [if_neg h0, Mem.word_setWord_of_disjoint _ _ _ _ (by omega), Mem.word_setWord_of_disjoint _ _ _ _ (by omega),
        Mem.word_zero]
  · rw [if_neg (by omega), entry_of_none (by rw [sparse_table (by omega), if_neg h1])]

theorem sparse_space : Space sparse FRAME := by
  have hholds : ∀ o f, holds sparse FRAME o f → o = .dir ∧ f = FRAME ∨ o = .table 1 ∧ f = 2 * FRAME ∨ o = .page 256 ∧
      f = 3 * FRAME := by
    intro o f ho
    cases o with
    | dir => exact .inl ⟨rfl, ho⟩
    | free => exact absurd ho List.not_mem_nil
    | table i =>
        obtain ⟨hi, ht⟩ := ho
        rw [sparse_table hi] at ht
        by_cases h1 : i = 1
        · rw [if_pos h1] at ht
          exact .inr (.inl ⟨by rw [h1], (Option.some.inj ht).symm⟩)
        · rw [if_neg h1] at ht
          cases ht
    | page g =>
        obtain ⟨hg, hp, hf⟩ := ho
        rw [sparse_entry hg] at hp hf
        by_cases h1 : g = 256
        · rw [if_pos h1] at hf
          refine .inr (.inr ⟨by rw [h1], ?_⟩)
          rw [← hf]
          decide
        · rw [if_neg h1] at hp
          cases hp
  refine ⟨fun o f ho => ?_, fun o o' f ho ho' => ?_, List.nodup_nil⟩
  · rcases hholds o f ho with ⟨-, rfl⟩ | ⟨-, rfl⟩ | ⟨-, rfl⟩ <;> exact ⟨by decide, by decide, by decide, by decide⟩
  · have hf := frame_eq
    rcases hholds o f ho with ⟨rfl, h₁⟩ | ⟨rfl, h₁⟩ | ⟨rfl, h₁⟩ <;>
      rcases hholds o' f ho' with ⟨rfl, h₂⟩ | ⟨rfl, h₂⟩ | ⟨rfl, h₂⟩
    all_goals first | rfl | omega

theorem deallocuvm_clears_iff_sparse :
    (∃ m', deallocuvm FRAME UADDR_SZ 0 sparse = .ok 0 m' [] ∧
      (Clears sparse m' FRAME UADDR_SZ 0 ↔ NoneSkipped sparse FRAME UADDR_SZ 0)) ∧
      ∃ m', freevm FRAME sparse = (do
          freevm.loop FRAME (List.range NUM_UPDE)
          kfree FRAME : MmM Unit) m' ∧
        ((∀ g f, holds sparse FRAME (.page g) f → f ∈ m'.freelist) ↔ NoneSkipped sparse FRAME UADDR_SZ 0) :=
  deallocuvm_clears_iff sparse FRAME UADDR_SZ 0 sparse_space (by decide) le_rfl

theorem deallocuvm_skips : Space sparse FRAME ∧ ¬∃ m', deallocuvm FRAME UADDR_SZ 0 sparse = .ok 0 m' [] ∧
    Clears sparse m' FRAME UADDR_SZ 0 := by
  have hpos : 0 < UADDR_SZ := by decide
  refine ⟨sparse_space, ?_⟩
  rintro ⟨m', hrun, hc⟩
  obtain ⟨m'', hrun', hm''⟩ := deallocuvm_run sparse_space hpos le_rfl
  rw [hrun'] at hrun
  injection hrun with _ he
  subst he
  have hgone :=
    (clears_iff hpos le_rfl hm'').mp hc 256 (by decide) (by decide) (by decide)
    (by rw [sparse_table (by decide)]; rfl)
  rw [sparse_entry (by decide), if_pos rfl] at hgone
  revert hgone
  decide

end ArmXv6.SparseRange
