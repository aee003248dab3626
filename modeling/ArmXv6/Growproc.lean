import ArmXv6.Resize
import ArmXv6.Proc

namespace ArmXv6.Growproc

open Lib.Exec Lib.Bytes Lib.Frames Param Blocks Vm AddressSpace Resize Kernel Proc

def pages (sz : Nat) : Nat := (sz + 4095) / 4096

/-- The running process has exactly the pages below its size, in frames of their own. -/
structure Shaped (k : Kstate) : Prop where
  space : Space k.mm (k.procs k.cur).pgdir
  below : Below k.mm (k.procs k.cur).pgdir (pages (k.procs k.cur).sz)
  size : (k.procs k.cur).sz < UADDR_SZ
  kstack : (k.procs k.cur).kstack ≠ 0

/-- The frame and the permissions of page g. -/
def mapping (m : Mm) (d g : Nat) : Option Nat := if present (entry m d g) then some (entry m d g) else none

/-- growproc returns 0 with all pages of the new size, the old ones as they were and the new
ones zero, or -1 with nothing changed but page tables. -/
def Exact (k : Kstate) (n : Int) : Prop :=
  ∃ r k' e, growproc n k = .ok r k' e ∧ (r = 0 ∨ r = -1) ∧
    (r = 0 → 0 ≤ (k.procs k.cur).sz + n ∧ (k.procs k.cur).sz + n < UADDR_SZ ∧
      ((k'.procs k.cur).sz : Int) = (k.procs k.cur).sz + n ∧ (k'.procs k.cur).pgdir = (k.procs k.cur).pgdir ∧
      (∀ g, g * 4096 < (k'.procs k.cur).sz → present (entry k'.mm (k.procs k.cur).pgdir g) = true) ∧
      (∀ g, g * 4096 < (k.procs k.cur).sz → g * 4096 < (k'.procs k.cur).sz →
        entry k'.mm (k.procs k.cur).pgdir g = entry k.mm (k.procs k.cur).pgdir g ∧
        k'.mm.ram.slice (PTE_ADDR (entry k.mm (k.procs k.cur).pgdir g)) PTE_SZ =
          k.mm.ram.slice (PTE_ADDR (entry k.mm (k.procs k.cur).pgdir g)) PTE_SZ) ∧
      ∀ g, g < 65536 → present (entry k.mm (k.procs k.cur).pgdir g) = false →
        present (entry k'.mm (k.procs k.cur).pgdir g) = true →
        k'.mm.ram.slice (PTE_ADDR (entry k'.mm (k.procs k.cur).pgdir g)) PTE_SZ = List.replicate PTE_SZ 0) ∧
    (r = -1 → k'.procs = k.procs ∧
      (∀ g, g < 65536 → mapping k'.mm (k.procs k.cur).pgdir g = mapping k.mm (k.procs k.cur).pgdir g) ∧
      ∀ f, (∀ i, i < 256 → table k'.mm (k.procs k.cur).pgdir i ≠ some f) → (f ∈ k'.mm.freelist ↔ f ∈ k.mm.freelist))

/-- The free list ends between a page and the page table that it needs. -/
def Starves (m : Mm) (d lo top : Nat) : Prop :=
  ∃ h, lo ≤ h ∧ h < top ∧ h % 256 = 0 ∧ table m d (h / 256) = none ∧ m.freelist.length = h - lo + missing m d lo h + 1

/-- The size does not shrink to or past 0, and the free list does not end at a page table. -/
def Fits (k : Kstate) (n : Int) : Prop :=
  (n < 0 → (k.procs k.cur).sz = 0 ∨ 0 < (k.procs k.cur).sz + n) ∧
  (0 < n → (k.procs k.cur).sz + n < UADDR_SZ →
    ¬Starves k.mm (k.procs k.cur).pgdir (pages (k.procs k.cur).sz) (pages ((k.procs k.cur).sz + n.toNat)))

variable {k : Kstate} {n : Int} {m' : Mm} {r : Nat} {e : List Event}

theorem growproc_eq (h : Shaped k) (hn : n ≠ 0)
    (hrun : (if 0 < n then allocuvm (k.procs k.cur).pgdir (k.procs k.cur).sz (uint ((k.procs k.cur).sz + bits n)) k.mm
      else deallocuvm (k.procs k.cur).pgdir (k.procs k.cur).sz (uint ((k.procs k.cur).sz + bits n)) k.mm) =
        .ok r m' e) :
    growproc n k =
      if r = 0 then .ok (-1) { k with mm := m' } e
      else .ok 0 { k with mm := m', procs := Function.update k.procs k.cur { k.procs k.cur with sz := r } } e := by
  have hpg : (k.procs k.cur).pgdir ≠ 0 := Nat.ne_of_gt h.space.dir.pos
  have hks := h.kstack
  have hsz :
      (if 0 < n then onMm (allocuvm (k.procs k.cur).pgdir (k.procs k.cur).sz (uint ((k.procs k.cur).sz + bits n)))
      else if n < 0 then onMm (deallocuvm (k.procs k.cur).pgdir (k.procs k.cur).sz (uint ((k.procs k.cur).sz + bits n)))
      else pure (k.procs k.cur).sz : KM Nat) k = .ok r { k with mm := m' } e := by
    by_cases hpos : 0 < n
    · rw [if_pos hpos] at hrun ⊢
      simp only [onMm, zoom, hrun]
    · rw [if_neg hpos] at hrun ⊢
      rw [if_pos (by omega)]
      simp only [onMm, zoom, hrun]
  unfold growproc
  simp only [bind_apply, fetch_apply, Run.after, hsz, List.nil_append]
  by_cases hr : r = 0
  · simp [hr, hn, pure_apply]
  · simp [hr, hn, setProc, switchuvm, bind_apply, update_apply, fetch_apply, pure_apply, Run.after, hpg, hks]

variable {m m₁ : Mm} {d lo newsz : Nat}

theorem missing_mono (m : Mm) (d lo : Nat) {a b : Nat} (h : a ≤ b) : missing m d lo a ≤ missing m d lo b := by
  unfold missing
  refine List.countP_mono_left fun i _ hi => ?_
  simp only [decide_eq_true_eq] at hi ⊢
  exact ⟨hi.1, by omega, hi.2.2⟩

theorem missing_next {h : Nat} (hlo : lo ≤ h) (hlt : h < 65536) (hmod : h % 256 = 0) (ht : table m d (h / 256) = none)
    {b : Nat} (hb : h < b) :
    missing m d lo h + 1 ≤ missing m d lo b := by
  have hsucc := missing_succ m d lo h hlo hlt
  rw [if_pos ⟨hmod, ht⟩] at hsucc
  rw [← hsucc]
  exact missing_mono _ _ _ hb

theorem not_starves_grown {top : Nat} (htop : top ≤ 65536) (hg : Grown m m' d lo top top [] (missing m d lo top)) :
    ¬Starves m d lo top := by
  rintro ⟨h, hlo, hlt, hmod, ht, hc⟩
  have hcount := hg.count
  have hnext := missing_next hlo (by omega) hmod ht hlt
  simp only [List.length_nil] at hcount
  omega

theorem not_starves_short {top h' : Nat} (htop : top ≤ 65536) (hlo' : lo ≤ h')
    (hg : Grown m m₁ d lo h' h' [] (missing m d lo h'))
    (hl : m₁.freelist = []) : ¬Starves m d lo top := by
  rintro ⟨h, hlo, hlt, hmod, ht, hc⟩
  have hcount := hg.count
  rw [hl] at hcount
  simp only [List.length_nil] at hcount
  by_cases hle : h' ≤ h
  · have := missing_mono m d lo hle
    omega
  · have hnext := missing_next hlo (by omega) hmod ht (show h < h' by omega)
    omega

theorem starves_lost {top h f : Nat} (hlo : lo ≤ h) (hlt : h < top) (hmod : h % 256 = 0)
    (ht : table m d (h / 256) = none)
    (hg : Grown m m₁ d lo h h [f] (missing m d lo h)) (hl : m₁.freelist = []) : Starves m d lo top := by
  refine ⟨h, hlo, hlt, hmod, ht, ?_⟩
  have hcount := hg.count
  rw [hl] at hcount
  simp only [List.length_nil, List.length_cons] at hcount
  omega

theorem slice_kept (hs : Space m d) {g hi b c : Nat} {out : List Nat} (hg : g < 65536)
    (hp : present (entry m d g) = true)
    (h : Grown m m' d lo hi b out c) :
      m'.ram.slice (PTE_ADDR (entry m d g)) PTE_SZ = m.ram.slice (PTE_ADDR (entry m d g)) PTE_SZ := by
  have hpage : holds m d (.page g) (PTE_ADDR (entry m d g)) := ⟨hg, hp, rfl⟩
  have hframe := hs.frame _ _ hpage
  refine Same.slice_at (h.same _ hframe.aligned (fun he => ?_) (fun he => ?_) fun i hi he => ?_) hframe.aligned
  · cases hs.apart (.page g) .dir _ hpage he
  · cases hs.apart (.page g) .free _ hpage he
  · cases hs.apart (.page g) (.table i) _ hpage ⟨hi, he⟩

theorem free_restored {h top : Nat} (hb : Below m d lo) (hlo : lo ≤ h) (hlt : h ≤ top) (htop : top ≤ 65536)
    (hg : Grown m m₁ d lo h h [] (missing m d lo h)) (hl : m₁.freelist = []) (hs : Shrunk m₁ m' d lo top) {f : Nat}
    (hf : ∀ i, i < 256 → table m' d i ≠ some f) : f ∈ m'.freelist ↔ f ∈ m.freelist := by
  rw [hs.free f, hl]
  constructor
  · rintro (hn | ⟨g, h₁, h₂, h₃⟩)
    · cases hn
    · have hgh := (grown_below hb hg hlo g h₃.1).1 h₃.2.1
      rw [← h₃.2.2]
      exact (hg.fresh g h₁ hgh).2.1
  · intro hfree
    rcases hg.total f hfree with h₁ | h₁ | ⟨i, hi, h₁⟩ | ⟨g, h₁, h₂, h₃⟩
    · rw [hl] at h₁
      cases h₁
    · cases h₁
    · exact absurd ((hs.tables i hi).trans h₁) (hf i hi)
    · exact .inr ⟨g, h₁, by omega, by omega, (hg.fresh g h₁ h₂).1, h₃⟩

theorem mapping_restored {h top g : Nat} (hb : Below m d lo) (hlt : h ≤ top) {out : List Nat} {c : Nat}
    (hg : Grown m m₁ d lo h h out c) (hs : Shrunk m₁ m' d lo top) (hgb : g < 65536) :
      mapping m' d g = mapping m d g := by
  unfold mapping
  by_cases hin : lo ≤ g ∧ g < top
  · have hnot : present (entry m d g) = false := by
      have := hb g hgb
      cases hp : present (entry m d g) with
      | false => rfl
      | true => exact absurd (this.1 hp) (by omega)
    simp [hs.gone g hgb hin.1 hin.2, hnot]
  · rw [hs.old g hgb (by omega), hg.old g hgb (by omega)]

theorem uint_grow {sz : Nat} (hsz : sz < UADDR_SZ) (hn : 0 < n) (hlt : n < 2 ^ 31) :
    uint (sz + bits n) = sz + n.toNat := by
  change sz < 268435456 at hsz
  have hb : bits n = n.toNat := by
    unfold bits
    rw [Int.emod_eq_of_lt (by omega) (by omega)]
  rw [hb]
  exact Nat.mod_eq_of_lt (by omega)

theorem uint_shrink {sz : Nat} (hsz : sz < UADDR_SZ) (hn : n < 0) (hlt : -2 ^ 31 ≤ n) :
    uint (sz + bits n) = if 0 ≤ (sz : Int) + n then ((sz : Int) + n).toNat else ((sz : Int) + n + 2 ^ 32).toNat := by
  change sz < 268435456 at hsz
  have hb : bits n = (n + 2 ^ 32).toNat := by
    unfold bits
    rw [← Int.add_emod_right, Int.emod_eq_of_lt (by omega) (by omega)]
  rw [hb]
  unfold uint
  split
  · have hsum : sz + (n + 2 ^ 32).toNat = ((sz : Int) + n).toNat + 2 ^ 32 := by omega
    rw [hsum, Nat.add_mod_right]
    exact Nat.mod_eq_of_lt (by omega)
  · have hsum : sz + (n + 2 ^ 32).toNat = ((sz : Int) + n + 2 ^ 32).toNat := by omega
    rw [hsum]
    exact Nat.mod_eq_of_lt (by omega)

theorem growproc_zero (h : Shaped k) :
    growproc 0 k =
    .ok 0 { k with procs := Function.update k.procs k.cur { k.procs k.cur with sz := (k.procs k.cur).sz } } [] := by
  have hpg : (k.procs k.cur).pgdir ≠ 0 := Nat.ne_of_gt h.space.dir.pos
  have hks := h.kstack
  unfold growproc
  simp [bind_apply, fetch_apply, Run.after, pure_apply, setProc, switchuvm, update_apply, hpg, hks]

theorem below_size (h : Shaped k) {g : Nat} (hg : g * 4096 < (k.procs k.cur).sz) :
    g < 65536 ∧ present (entry k.mm (k.procs k.cur).pgdir g) = true := by
  have hsz := h.size
  change (k.procs k.cur).sz < 268435456 at hsz
  have hlt : g < 65536 := by omega
  refine ⟨hlt, (h.below g hlt).2 ?_⟩
  unfold pages
  omega

theorem exact_zero (h : Shaped k) : Exact k 0 := by
  have hsz := h.size
  refine ⟨0, _, [], growproc_zero h, .inl rfl, fun _ => ?_, nofun⟩
  simp only [Function.update_self]
  refine ⟨by omega, by omega, by omega, trivial, fun g hg => (below_size h hg).2, fun g _ _ => ⟨trivial, trivial⟩,
    fun g _ h₁ h₂ => ?_⟩
  rw [h₁] at h₂
  cases h₂

theorem exact_unchanged {k' : Kstate} (hrun : growproc n k = .ok (-1) k' e) (hp : k'.procs = k.procs)
    (hm : k'.mm = k.mm) : Exact k n := by
  refine ⟨-1, k', e, hrun, .inr rfl, nofun, fun _ => ⟨hp, fun g _ => ?_, fun f _ => ?_⟩⟩
  · rw [hm]
  · rw [hm]

theorem shrink_run (h : Shaped k) (hn : n < 0) (hlt : -2 ^ 31 ≤ n) (hpos : 0 ≤ (k.procs k.cur).sz + n) :
    ∃ m', deallocuvm (k.procs k.cur).pgdir (k.procs k.cur).sz (uint ((k.procs k.cur).sz + bits n)) k.mm =
        .ok ((k.procs k.cur).sz + n).toNat m' [] ∧
      Shrunk k.mm m' (k.procs k.cur).pgdir (pages ((k.procs k.cur).sz + n).toNat) (pages (k.procs k.cur).sz) := by
  rw [uint_shrink h.size hn hlt, if_pos hpos]
  exact deallocuvm_spec h.space h.below (by omega) (Nat.le_of_lt h.size)

/-- Past 0 the difference wraps around, and deallocuvm sees a larger size. -/
theorem shrink_wrap (h : Shaped k) (hn : n < 0) (hlt : -2 ^ 31 ≤ n) (hneg : (k.procs k.cur).sz + n < 0) :
    deallocuvm (k.procs k.cur).pgdir (k.procs k.cur).sz (uint ((k.procs k.cur).sz + bits n)) k.mm =
      .ok (k.procs k.cur).sz k.mm [] := by
  have hsz := h.size
  change (k.procs k.cur).sz < 268435456 at hsz
  rw [uint_shrink h.size hn hlt, if_neg (by omega)]
  unfold deallocuvm
  rw [if_pos (by omega)]
  rfl

theorem exact_shrink_iff (h : Shaped k) (hn : n < 0) (hlt : -2 ^ 31 ≤ n) :
    Exact k n ↔ (k.procs k.cur).sz = 0 ∨ 0 < (k.procs k.cur).sz + n := by
  have hne : n ≠ 0 := by omega
  have hnot : ¬0 < n := by omega
  by_cases hneg : (k.procs k.cur).sz + n < 0
  · have hrun := growproc_eq h hne ((if_neg hnot).trans (shrink_wrap h hn hlt hneg))
    by_cases hz : (k.procs k.cur).sz = 0
    · rw [if_pos hz] at hrun
      exact ⟨fun _ => .inl hz, fun _ => exact_unchanged hrun rfl rfl⟩
    · rw [if_neg hz] at hrun
      refine ⟨fun hx => ?_, fun hx => absurd hx (by omega)⟩
      obtain ⟨r, k', e, hr, -, hok, -⟩ := hx
      rw [hrun] at hr
      cases hr
      have := (hok rfl).1
      omega
  · obtain ⟨m', hd, hs⟩ := shrink_run h hn hlt (by omega)
    have hrun := growproc_eq h hne ((if_neg hnot).trans hd)
    by_cases hz : (k.procs k.cur).sz + n = 0
    · -- the pages are gone, but 0 looks like a failure
      rw [if_pos (by omega)] at hrun
      have hsz : 0 < (k.procs k.cur).sz := by omega
      refine ⟨fun hx => ?_, fun hx => absurd hx (by omega)⟩
      obtain ⟨r, k', e, hr, -, -, hfail⟩ := hx
      rw [hrun] at hr
      cases hr
      have hmap := (hfail rfl).2.1 0 (by decide)
      have hold := (below_size h (g := 0) (by omega)).2
      have hgone := hs.gone 0 (by decide) (by rw [hz]; decide) (by unfold pages; omega)
      simp [mapping, hold, hgone] at hmap
    · rw [if_neg (by omega)] at hrun
      refine ⟨fun _ => .inr (by omega), fun _ => ⟨0, _, [], hrun, .inl rfl, fun _ => ?_, nofun⟩⟩
      have hsz := h.size
      simp only [Function.update_self]
      refine ⟨by omega, by omega, by omega, trivial, fun g hg => ?_, fun g _ hg => ?_, fun g hg h₁ h₂ => ?_⟩
      · have hb := below_size h (g := g) (by omega)
        rw [hs.old g hb.1 (.inl (by unfold pages; omega))]
        exact hb.2
      · have hb := below_size h (g := g) (by omega)
        have hframe := h.space.frame (.page g) _ ⟨hb.1, hb.2, rfl⟩
        have hin : g < pages ((k.procs k.cur).sz + n).toNat := by
          unfold pages
          omega
        refine ⟨hs.old g hb.1 (.inl hin),
          (hs.same _ hframe.aligned (fun i hi he => ?_) fun g' h₁ _ h₃ => ?_).slice_at hframe.aligned⟩
        · cases h.space.apart (.page g) (.table i) _ ⟨hb.1, hb.2, rfl⟩ ⟨hi, he⟩
        · have heq := h.space.apart (.page g) (.page g') _ ⟨hb.1, hb.2, rfl⟩ h₃
          injection heq with heq
          omega
      · by_cases hin : pages ((k.procs k.cur).sz + n).toNat ≤ g ∧ g < pages (k.procs k.cur).sz
        · rw [hs.gone g hg hin.1 hin.2] at h₂
          cases h₂
        · rw [hs.old g hg (by omega), h₁] at h₂
          cases h₂

theorem exact_grow_iff (h : Shaped k) (hn : 0 < n) (hlt : n < 2 ^ 31) (hfit : (k.procs k.cur).sz + n < UADDR_SZ) :
    Exact k n ↔
      ¬Starves k.mm (k.procs k.cur).pgdir (pages (k.procs k.cur).sz) (pages ((k.procs k.cur).sz + n.toNat)) := by
  have hne : n ≠ 0 := by omega
  have hnew : (k.procs k.cur).sz + n.toNat < UADDR_SZ := by omega
  have hnew' : (k.procs k.cur).sz + n.toNat < 268435456 := hnew
  have htop : pages ((k.procs k.cur).sz + n.toNat) ≤ 65536 := by
    unfold pages
    omega
  obtain ⟨r, m', e, hal, hout⟩ := allocuvm_spec h.space h.below (Nat.le_add_right _ n.toNat) hnew
  rw [← uint_grow h.size hn hlt] at hal
  have hrun := growproc_eq h hne ((if_pos hn).trans hal)
  cases hout with
  | grown hg =>
      refine ⟨fun _ => not_starves_grown htop hg, fun _ => ?_⟩
      rw [if_neg (by omega)] at hrun
      refine ⟨0, _, e, hrun, .inl rfl, fun _ => ?_, nofun⟩
      simp only [Function.update_self]
      refine ⟨by omega, hfit, by omega, trivial, fun g hg' => ?_, fun g hg' _ => ?_, fun g hgb h₁ h₂ => ?_⟩
      · have hin : g < pages ((k.procs k.cur).sz + n.toNat) := by
          unfold pages
          omega
        exact (grown_below h.below hg (by unfold pages; omega) g (by omega)).2 hin
      · have hb := below_size h hg'
        exact ⟨hg.old g hb.1 (.inl (by omega)), slice_kept h.space hb.1 hb.2 hg⟩
      · have hlo : pages (k.procs k.cur).sz ≤ g := by
          by_contra hc
          rw [(h.below g hgb).2 (by omega)] at h₁
          cases h₁
        exact (hg.fresh g hlo ((grown_below h.below hg (by unfold pages; omega) g hgb).1 h₂)).2.2.2
  | short h' hlo hlt' hg hl hs =>
      refine ⟨fun _ => not_starves_short htop hlo hg hl, fun _ => ?_⟩
      rw [if_pos rfl] at hrun
      refine ⟨-1, _, e, hrun, .inr rfl, nofun, fun _ => ⟨rfl, fun g hgb => ?_, fun f hf => ?_⟩⟩
      · exact mapping_restored h.below (Nat.le_of_lt hlt') hg hs hgb
      · exact free_restored h.below hlo (Nat.le_of_lt hlt') htop hg hl hs hf
  | lost h' f hlo hlt' hmod ht hg hl hr =>
      refine ⟨fun hx => False.elim ?_, fun hno => absurd (starves_lost hlo hlt' hmod ht hg hl) hno⟩
      obtain ⟨hloose, -, hfree, -⟩ := hg.hand f List.mem_cons_self
      obtain ⟨r', k', e', hr', -, hok, hfail⟩ := hx
      rw [hrun] at hr'
      rcases hr with ⟨rfl, rfl⟩ | ⟨rfl, hs⟩
      · -- the page itself is not mapped
        rw [if_neg (by omega)] at hr'
        cases hr'
        have hp := (hok rfl).2.2.2.2.1 h'
        simp only [Function.update_self] at hp
        have hin := (grown_below h.below hg hlo h' (by omega)).1 (hp (by omega))
        omega
      · -- its frame is lost
        rw [if_pos rfl] at hr'
        cases hr'
        have hback := ((hfail rfl).2.2 f fun i hi he => hloose (.table i) ⟨hi, (hs.tables i hi).symm.trans he⟩).2 hfree
        rcases (hs.free f).1 hback with h₁ | ⟨g, -, -, h₁⟩
        · exact hloose .free h₁
        · exact hloose (.page g) h₁

/-- growproc is exact and atomic unless it shrinks the process to nothing or further, or the
free list ends where a page table is needed. -/
theorem growproc_exact_iff (k : Kstate) (n : Int) (h : Shaped k) (hlo : -2 ^ 31 ≤ n) (hhi : n < 2 ^ 31) :
    Exact k n ↔ Fits k n := by
  unfold Fits
  rcases Int.lt_trichotomy n 0 with hn | rfl | hn
  · rw [exact_shrink_iff h hn hlo]
    exact ⟨fun hx => ⟨fun _ => hx, fun hp => absurd hp (by omega)⟩, fun hx => hx.1 hn⟩
  · exact ⟨fun _ => ⟨fun hn => absurd hn (by omega), fun hn => absurd hn (by omega)⟩, fun _ => exact_zero h⟩
  · by_cases hfit : (k.procs k.cur).sz + n < UADDR_SZ
    · rw [exact_grow_iff h hn hhi hfit]
      exact ⟨fun hx => ⟨fun hneg => absurd hneg (by omega), fun _ _ => hx⟩, fun hx => hx.2 hn hfit⟩
    · refine ⟨fun _ => ⟨fun hneg => absurd hneg (by omega), fun _ hc => absurd hc hfit⟩, fun _ => ?_⟩
      have hal : allocuvm (k.procs k.cur).pgdir (k.procs k.cur).sz (uint ((k.procs k.cur).sz + bits n)) k.mm =
          .ok 0 k.mm [] := by
        rw [uint_grow h.size hn hhi]
        unfold allocuvm
        rw [if_pos (by omega)]
        rfl
      have hrun := growproc_eq h (by omega) ((if_pos hn).trans hal)
      rw [if_pos rfl] at hrun
      exact exact_unchanged hrun rfl rfl

/-- A page directory with nothing in it, and two free frames. -/
def bareMm : Mm := ⟨.zero, [2 * FRAME, 3 * FRAME], FRAME⟩

/-- The first process, with its one page. -/
def onePage : Kstate where
  mm := (allocuvm FRAME 0 PTE_SZ bareMm).state
  fs :=
    ⟨fun _ => .zero, 0, [], [], ⟨0, 0, false, []⟩, fun _ => ⟨0, 0, 0, false, false, ⟨0, 0, 0, 0, 0, fun _ => 0⟩⟩, []⟩
  ftable _ := ⟨.none, 0, false, false, 0, 0, 0⟩
  pipes _ := ⟨fun _ => 0, 0, 0, false, false⟩
  procs _ := ⟨PTE_SZ, FRAME, 4 * FRAME, .running, 1, none, zeroTf, false, fun _ => none, none, []⟩
  nextpid := 2
  initproc := 0
  cur := 0
  exstacks := []
  piped _ := 0
  unpiped _ := 0

theorem bare_table (i : Nat) : table bareMm FRAME i = none := by
  unfold table bareMm
  rw [Mem.word_zero]
  rfl

theorem bare_entry (g : Nat) : entry bareMm FRAME g = 0 := entry_of_none (bare_table _)

theorem bare_space : Space bareMm FRAME := by
  have hholds : ∀ o f, holds bareMm FRAME o f → o = .dir ∧ f = FRAME ∨ o = .free ∧ (f = 2 * FRAME ∨ f = 3 * FRAME) := by
    intro o f ho
    cases o with
    | dir => exact .inl ⟨rfl, ho⟩
    | free =>
        refine .inr ⟨rfl, ?_⟩
        have hmem : f ∈ [2 * FRAME, 3 * FRAME] := ho
        simpa using hmem
    | table i =>
        have ht := ho.2
        rw [bare_table] at ht
        cases ht
    | page g =>
        have hp := ho.2.1
        rw [bare_entry] at hp
        cases hp
  refine ⟨fun o f ho => ?_, fun o o' f ho ho' => ?_, by decide⟩
  · rcases hholds o f ho with ⟨-, rfl⟩ | ⟨-, rfl | rfl⟩ <;> exact ⟨by decide, by decide, by decide, by decide⟩
  · have hne : FRAME ≠ 2 * FRAME ∧ FRAME ≠ 3 * FRAME := by decide
    rcases hholds o f ho with ⟨rfl, h₁⟩ | ⟨rfl, h₁⟩ <;> rcases hholds o' f ho' with ⟨rfl, h₂⟩ | ⟨rfl, h₂⟩
    · rfl
    · omega
    · omega
    · rfl

theorem onePage_shaped : Shaped onePage := by
  have hb : Below bareMm FRAME ((0 + 4095) / 4096) := by
    intro g _
    rw [bare_entry]
    simp [present]
  obtain ⟨r, m', e, hrun, hout⟩ := allocuvm_spec bare_space hb (Nat.zero_le PTE_SZ) (by decide)
  have hmm : onePage.mm = m' := by
    change (allocuvm FRAME 0 PTE_SZ bareMm).state = m'
    rw [hrun]
    rfl
  have hlen : bareMm.freelist.length = 2 := rfl
  cases hout with
  | grown hg =>
      refine ⟨?_, ?_, by decide, by decide⟩
      · rw [hmm]
        exact hg.space
      · rw [hmm]
        exact grown_below hb hg (by decide)
  | short h hlo hlt hg hl hs =>
      have hc := hg.count
      obtain rfl : h = 0 := by
        have : (PTE_SZ + 4095) / 4096 = 1 := by decide
        omega
      have hz : missing bareMm FRAME ((0 + 4095) / 4096) 0 = 0 := missing_self bareMm FRAME 0
      rw [hl, hlen, hz] at hc
      simp only [List.length_nil] at hc
      omega
  | lost h f hlo hlt hmod ht hg hl hr =>
      have hc := hg.count
      obtain rfl : h = 0 := by
        have : (PTE_SZ + 4095) / 4096 = 1 := by decide
        omega
      have hz : missing bareMm FRAME ((0 + 4095) / 4096) 0 = 0 := missing_self bareMm FRAME 0
      rw [hl, hlen, hz] at hc
      simp only [List.length_nil, List.length_cons] at hc
      omega

/-- One more page, and one byte less. -/
theorem growproc_exact_iff_onePage : Exact onePage 4096 ∧ Exact onePage (-1) := by
  have hgrow : Fits onePage 4096 := by
    refine ⟨fun hn => absurd hn (by decide), fun _ _ => ?_⟩
    rintro ⟨h, hlo, htop, hmod, -⟩
    have h1 : pages (onePage.procs onePage.cur).sz = 1 := by decide
    have h2 : pages ((onePage.procs onePage.cur).sz + (4096 : Int).toNat) = 2 := by decide
    omega
  have hshrink : Fits onePage (-1) := ⟨fun _ => .inr (by decide), fun hn => absurd hn (by decide)⟩
  exact ⟨(growproc_exact_iff onePage 4096 onePage_shaped (by decide) (by decide)).2 hgrow,
    (growproc_exact_iff onePage (-1) onePage_shaped (by decide) (by decide)).2 hshrink⟩

/-- Giving up the last page reports a failure, but the page is gone. -/
theorem sbrk_all_not_exact : Shaped onePage ∧ ¬Exact onePage (-4096) := by
  refine ⟨onePage_shaped, fun hx => ?_⟩
  have hcases := (exact_shrink_iff onePage_shaped (by decide) (by decide)).1 hx
  revert hcases
  decide

end ArmXv6.Growproc
