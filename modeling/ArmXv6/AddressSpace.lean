import ArmXv6.Vm
import ArmXv6.Lib.Frames
import ArmXv6.Lib.Count

namespace ArmXv6.AddressSpace

open Lib.Exec Lib.Bytes Lib.Frames Param Blocks Vm

/-- The page table for the i-th entry of a page directory. -/
def table (m : Mm) (d i : Nat) : Option Nat :=
  if present (m.ram.word (d + 4 * i)) then some (PTE_ADDR (m.ram.word (d + 4 * i))) else none

/-- The second-level entry for page number g, 0 when there is no page table. -/
def entry (m : Mm) (d g : Nat) : Nat :=
  match table m d (g / 256) with
  | none => 0
  | some t => m.ram.word (t + 4 * (g % 256))

/-- Where a frame can be: with the page directory, on the free list, as a page table, behind a page. -/
inductive Owner
  | dir
  | free
  | table (i : Nat)
  | page (g : Nat)

def holds (m : Mm) (d : Nat) : Owner → Nat → Prop
  | .dir, f => f = d
  | .free, f => f ∈ m.freelist
  | .table i, f => i < 256 ∧ table m d i = some f
  | .page g, f => g < 65536 ∧ present (entry m d g) = true ∧ PTE_ADDR (entry m d g) = f

/-- What kfree accepts. -/
structure Frame (m : Mm) (f : Nat) : Prop where
  aligned : f % FRAME = 0
  above : m.kernEnd ≤ f
  below : f < PHYSTOP
  pos : 0 < f

/-- Every frame of an address space and of the free list has one place. -/
structure Space (m : Mm) (d : Nat) : Prop where
  frame : ∀ o f, holds m d o f → Frame m f
  apart : Apart (holds m d)
  nodup : m.freelist.Nodup

variable {m m' : Mm} {d f g i t : Nat}

theorem frame_eq : FRAME = 262144 := rfl

theorem phystop_eq : PHYSTOP = 134217728 := rfl

/-- The memories agree on the frame at f. -/
abbrev Same (m m' : Mm) (f : Nat) : Prop := SameIn FRAME m.ram m'.ram f

theorem Same.word_at (h : Same m m' f) (hf : f % FRAME = 0) {x : Nat} (hx : x + 4 ≤ FRAME) :
    m'.ram.word (f + x) = m.ram.word (f + x) := by
  rw [frame_eq] at hf hx
  have hs : SameIn FRAME m.ram m'.ram (f + x) := by
    intro j hj
    refine h j ?_
    rw [hj, frame_eq]
    omega
  refine hs.word (by decide) ?_
  rw [frame_eq]
  omega

theorem table_congr (h : Same m m' d) (hd : d % FRAME = 0) (hi : i < 256) : table m' d i = table m d i := by
  unfold table
  rw [h.word_at hd (by rw [frame_eq]; omega)]

theorem entry_congr (h : Same m m' d) (hd : d % FRAME = 0) (ht : ∀ t, table m d (g / 256) = some t → t % FRAME = 0 ∧
    Same m m' t)
    (hg : g < 65536) : entry m' d g = entry m d g := by
  unfold entry
  rw [table_congr h hd (by omega)]
  cases hc : table m d (g / 256) with
  | none => rfl
  | some t =>
      obtain ⟨h₁, h₂⟩ := ht t hc
      exact h₂.word_at h₁ (by rw [frame_eq]; omega)

theorem entry_of_table (h : table m d (g / 256) = some t) : entry m d g = m.ram.word (t + 4 * (g % 256)) := by
  unfold entry
  rw [h]

theorem entry_of_none (h : table m d (g / 256) = none) : entry m d g = 0 := by
  unfold entry
  rw [h]

theorem Space.dir (h : Space m d) : Frame m d := h.frame .dir d rfl

theorem Space.table (h : Space m d) (hi : i < 256) (ht : table m d i = some t) : Frame m t :=
  h.frame (.table i) t ⟨hi, ht⟩

theorem Space.views (h : Space m d) (m' : Mm) (hs : ∀ f, holds m d .dir f ∨ (∃ i, holds m d (.table i) f) →
    Same m m' f) :
    (∀ i, i < 256 → AddressSpace.table m' d i = AddressSpace.table m d i) ∧ ∀ g, g < 65536 →
      entry m' d g = entry m d g := by
  have hd := hs d (.inl rfl)
  refine ⟨fun i hi => table_congr hd h.dir.aligned hi, fun g hg => entry_congr hd h.dir.aligned (fun t ht => ?_) hg⟩
  have hi : g / 256 < 256 := by omega
  exact ⟨(h.table hi ht).aligned, hs t (.inr ⟨g / 256, hi, ht⟩)⟩

theorem holds_congr (ht : ∀ i, i < 256 → table m' d i = table m d i) (he : ∀ g, g < 65536 →
    entry m' d g = entry m d g) {o : Owner}
    (ho : o ≠ .free) (f : Nat) : holds m' d o f ↔ holds m d o f := by
  cases o with
  | dir => exact Iff.rfl
  | free => exact absurd rfl ho
  | table i =>
      refine and_congr_right fun hi => ?_
      rw [ht i hi]
  | page g =>
      refine and_congr_right fun hg => ?_
      rw [he g hg]

theorem table_freelist (m : Mm) (d i : Nat) (l : List Nat) :
    AddressSpace.table { m with freelist := l } d i = AddressSpace.table m d i := by
  unfold AddressSpace.table
  rfl

theorem entry_freelist (m : Mm) (d g : Nat) (l : List Nat) : entry { m with freelist := l } d g = entry m d g := by
  unfold entry
  rw [table_freelist]

theorem Space.pop (h : Space m d) {rest : List Nat} (hl : m.freelist = f :: rest) :
    Space { m with freelist := rest } d ∧ Loose (holds { m with freelist := rest } d) f ∧ Frame m f := by
  have hsub : ∀ o x, holds { m with freelist := rest } d o x → holds m d o x := by
    intro o x ho
    cases o with
    | free =>
        change x ∈ m.freelist
        rw [hl]
        exact List.mem_cons_of_mem f ho
    | dir | table i => exact ho
    | page g =>
        have hx := ho.2
        rw [entry_freelist] at hx
        exact ⟨ho.1, hx⟩
  have hfree : holds m d .free f := by
    change f ∈ m.freelist
    rw [hl]
    exact List.mem_cons_self
  have hnd := h.nodup
  rw [hl, List.nodup_cons] at hnd
  refine ⟨⟨fun o x ho => ?_, h.apart.mono hsub, hnd.2⟩, fun o ho => ?_, h.frame .free f hfree⟩
  · obtain ⟨h₁, h₂, h₃, h₄⟩ := h.frame o x (hsub o x ho)
    exact ⟨h₁, h₂, h₃, h₄⟩
  · have heq := h.apart o .free f (hsub o f ho) hfree
    subst heq
    exact hnd.1 ho

theorem Space.write (h : Space m d) (m' : Mm) (hk : m'.kernEnd = m.kernEnd) (hfree : m'.freelist = m.freelist)
    (hs : ∀ f, holds m d .dir f ∨ (∃ i, holds m d (.table i) f) → Same m m' f) :
    Space m' d ∧ (∀ o f, holds m' d o f ↔ holds m d o f) ∧
      (∀ i, i < 256 → AddressSpace.table m' d i = AddressSpace.table m d i) ∧
      ∀ g, g < 65536 → entry m' d g = entry m d g := by
  obtain ⟨ht, he⟩ := h.views m' hs
  have hiff : ∀ o f, holds m' d o f ↔ holds m d o f := by
    intro o f
    by_cases ho : o = .free
    · subst ho
      change f ∈ m'.freelist ↔ f ∈ m.freelist
      rw [hfree]
    · exact holds_congr ht he ho f
  refine ⟨⟨fun o f ho => ?_, h.apart.mono fun o f => (hiff o f).1, by rw [hfree]; exact h.nodup⟩, hiff, ht, he⟩
  obtain ⟨h₁, h₂, h₃, h₄⟩ := h.frame o f ((hiff o f).1 ho)
  exact ⟨h₁, by rw [hk]; exact h₂, h₃, h₄⟩

theorem Space.setEntry (h : Space m d) (hg : g < 65536) (ht : AddressSpace.table m d (g / 256) = some t) {w : Nat}
    (hw : w < 2 ^ 32) :
    (∀ i, i < 256 → AddressSpace.table { m with ram := m.ram.setWord (t + 4 * (g % 256)) w } d i =
      AddressSpace.table m d i) ∧
      entry { m with ram := m.ram.setWord (t + 4 * (g % 256)) w } d g = w ∧
      (∀ g', g' < 65536 → g' ≠ g → entry { m with ram := m.ram.setWord (t + 4 * (g % 256)) w } d g' = entry m d g') ∧
      ∀ f, f % FRAME = 0 → f ≠ t → Same m { m with ram := m.ram.setWord (t + 4 * (g % 256)) w } f := by
  have hi : g / 256 < 256 := by omega
  have hft := h.table hi ht
  have hal : t % 262144 = 0 := hft.aligned
  have hlt : t < 134217728 := hft.below
  have hsame : ∀ f, f % FRAME = 0 → f ≠ t → Same m { m with ram := m.ram.setWord (t + 4 * (g % 256)) w } f := by
    intro f hf hne
    rw [frame_eq] at hf
    refine sameIn_setWord (by decide) w ?_ ?_
    · rw [frame_eq]
      omega
    · rw [frame_eq]
      omega
  have hdt : d ≠ t := by
    rintro rfl
    have := h.apart .dir (.table (g / 256)) d rfl ⟨hi, ht⟩
    cases this
  have htab : ∀ i, i < 256 → AddressSpace.table { m with ram := m.ram.setWord (t + 4 * (g % 256)) w } d i =
    AddressSpace.table m d i :=
    fun i hi => table_congr (hsame d h.dir.aligned hdt) h.dir.aligned hi
  refine ⟨htab, ?_, fun g' hg' hne => ?_, hsame⟩
  · rw [entry_of_table ((htab _ hi).trans ht)]
    refine Mem.word_setWord_self _ _ _ ?_ hw
    rw [phystop_eq]
    omega
  · have hi' : g' / 256 < 256 := by omega
    cases ht' : AddressSpace.table m d (g' / 256) with
    | none => rw [entry_of_none ((htab _ hi').trans ht'), entry_of_none ht']
    | some t' =>
        rw [entry_of_table ((htab _ hi').trans ht'), entry_of_table ht']
        by_cases htt : t' = t
        · subst htt
          have heq := h.apart (.table (g' / 256)) (.table (g / 256)) t' ⟨hi', ht'⟩ ⟨hi, ht⟩
          have hdiv : g' / 256 = g / 256 := Owner.table.inj heq
          refine Mem.word_setWord_of_disjoint _ _ _ _ ?_
          omega
        · have hft' := h.table hi' ht'
          exact (hsame t' hft'.aligned htt).word_at hft'.aligned (by rw [frame_eq]; omega)

theorem Space.attachPage (h : Space m d) (hf : Loose (holds m d) f) (hframe : Frame m f) (hg : g < 65536)
    (ht : AddressSpace.table m d (g / 256) = some t) {w : Nat} (hw : w < 2 ^ 32) (hadr : PTE_ADDR w = f) :
    Space { m with ram := m.ram.setWord (t + 4 * (g % 256)) w } d := by
  obtain ⟨htab, hself, hother, -⟩ := h.setEntry hg ht hw
  have hgive : ∀ o x, holds { m with ram := m.ram.setWord (t + 4 * (g % 256)) w } d o x → holds m d o x ∨
    o = .page g ∧ x = f := by
    intro o x ho
    cases o with
    | dir | free => exact .inl ho
    | table i => exact .inl ⟨ho.1, (htab i ho.1).symm.trans ho.2⟩
    | page g' =>
        by_cases hgg : g' = g
        · subst hgg
          have hx := ho.2.2
          rw [hself, hadr] at hx
          exact .inr ⟨rfl, hx.symm⟩
        · have hx := ho.2
          rw [hother g' ho.1 hgg] at hx
          exact .inl ⟨ho.1, hx⟩
  refine ⟨fun o x ho => ?_, h.apart.give hf (.page g) hgive, h.nodup⟩
  rcases hgive o x ho with ho' | ⟨-, rfl⟩
  · obtain ⟨h₁, h₂, h₃, h₄⟩ := h.frame o x ho'
    exact ⟨h₁, h₂, h₃, h₄⟩
  · obtain ⟨h₁, h₂, h₃, h₄⟩ := hframe
    exact ⟨h₁, h₂, h₃, h₄⟩

theorem Space.detachPage (h : Space m d) (hg : g < 65536) (ht : AddressSpace.table m d (g / 256) = some t)
    (hp : present (entry m d g) = true) :
    Space { m with ram := m.ram.setWord (t + 4 * (g % 256)) 0 } d ∧
      Loose (holds { m with ram := m.ram.setWord (t + 4 * (g % 256)) 0 } d) (PTE_ADDR (entry m d g)) := by
  obtain ⟨htab, hself, hother, -⟩ := h.setEntry hg ht (w := 0) (by decide)
  have hsub : ∀ o x, holds { m with ram := m.ram.setWord (t + 4 * (g % 256)) 0 } d o x → holds m d o x ∧
    o ≠ .page g := by
    intro o x ho
    cases o with
    | dir | free => exact ⟨ho, by simp⟩
    | table i => exact ⟨⟨ho.1, (htab i ho.1).symm.trans ho.2⟩, by simp⟩
    | page g' =>
        have hgg : g' ≠ g := by
          rintro rfl
          have hx := ho.2.1
          rw [hself] at hx
          cases hx
        have hx := ho.2
        rw [hother g' ho.1 hgg] at hx
        exact ⟨⟨ho.1, hx⟩, by simpa using hgg⟩
  refine ⟨⟨fun o x ho => ?_, h.apart.mono fun o x ho => (hsub o x ho).1, h.nodup⟩, fun o ho => ?_⟩
  · obtain ⟨h₁, h₂, h₃, h₄⟩ := h.frame o x (hsub o x ho).1
    exact ⟨h₁, h₂, h₃, h₄⟩
  · obtain ⟨h₁, h₂⟩ := hsub o _ ho
    exact h₂ (h.apart o (.page g) _ h₁ ⟨hg, hp, rfl⟩)

theorem coarse_eq (hf : f % 4096 = 0) : f ||| 1 = f + 1 := by
  have h := Nat.two_pow_add_eq_or_of_lt (show 1 < 2 ^ 12 by decide) (f / 4096)
  have hdiv : 2 ^ 12 * (f / 4096) = f := by omega
  rw [hdiv] at h
  exact h.symm

theorem pte_addr_add (hf : f % 4096 = 0) {x : Nat} (hx : x < 4096) : PTE_ADDR (f + x) = f := by
  change (f + x) / 4096 * 4096 = f
  omega

theorem Space.attachTable (h : Space m d) (hf : Loose (holds m d) f) (hframe : Frame m f) (hi : i < 256)
    (ht : AddressSpace.table m d i = none) (hzero : ∀ x, x < 256 → m.ram.word (f + 4 * x) = 0) :
    Space { m with ram := m.ram.setWord (d + 4 * i) (f ||| 1) } d ∧
      AddressSpace.table { m with ram := m.ram.setWord (d + 4 * i) (f ||| 1) } d i = some f ∧
      (∀ j, j < 256 → j ≠ i → AddressSpace.table { m with ram := m.ram.setWord (d + 4 * i) (f ||| 1) } d j =
        AddressSpace.table m d j) ∧
      (∀ g, g < 65536 → entry { m with ram := m.ram.setWord (d + 4 * i) (f ||| 1) } d g = entry m d g) ∧
      ∀ a, a % FRAME = 0 → a ≠ d → Same m { m with ram := m.ram.setWord (d + 4 * i) (f ||| 1) } a := by
  have hal : f % 262144 = 0 := hframe.aligned
  have hlt : f < 134217728 := hframe.below
  have hdal : d % 262144 = 0 := h.dir.aligned
  have hdlt : d < 134217728 := h.dir.below
  rw [coarse_eq (by omega)]
  have hsame : ∀ a, a % FRAME = 0 → a ≠ d → Same m { m with ram := m.ram.setWord (d + 4 * i) (f + 1) } a := by
    intro a ha hne
    rw [frame_eq] at ha
    refine sameIn_setWord (by decide) _ ?_ ?_
    · rw [frame_eq]
      omega
    · rw [frame_eq]
      omega
  have hself : AddressSpace.table { m with ram := m.ram.setWord (d + 4 * i) (f + 1) } d i = some f := by
    have hword : (m.ram.setWord (d + 4 * i) (f + 1)).word (d + 4 * i) = f + 1 :=
      Mem.word_setWord_self _ _ _ (by rw [phystop_eq]; omega) (by omega)
    unfold AddressSpace.table
    dsimp only
    rw [hword, pte_addr_add (by omega) (by decide), if_pos]
    simp only [present, decide_eq_true_eq]
    omega
  have hother : ∀ j, j < 256 → j ≠ i →
      AddressSpace.table { m with ram := m.ram.setWord (d + 4 * i) (f + 1) } d j = AddressSpace.table m d j := by
    intro j _ hji
    have hword : (m.ram.setWord (d + 4 * i) (f + 1)).word (d + 4 * j) = m.ram.word (d + 4 * j) :=
      Mem.word_setWord_of_disjoint _ _ _ _ (by omega)
    unfold AddressSpace.table
    dsimp only
    rw [hword]
  have hfd : f ≠ d := fun he => hf .dir he
  have hentry : ∀ g, g < 65536 → entry { m with ram := m.ram.setWord (d + 4 * i) (f + 1) } d g = entry m d g := by
    intro g hg
    by_cases hgi : g / 256 = i
    · subst hgi
      rw [entry_of_table hself, entry_of_none ht,
        (hsame f hframe.aligned hfd).word_at hframe.aligned (by rw [frame_eq]; omega)]
      exact hzero _ (by omega)
    · have hi' : g / 256 < 256 := by omega
      cases htg : AddressSpace.table m d (g / 256) with
      | none => rw [entry_of_none ((hother _ hi' hgi).trans htg), entry_of_none htg]
      | some t' =>
          have hft := h.table hi' htg
          have htd : t' ≠ d := by
            rintro rfl
            cases h.apart .dir (.table (g / 256)) t' rfl ⟨hi', htg⟩
          rw [entry_of_table ((hother _ hi' hgi).trans htg), entry_of_table htg]
          exact (hsame t' hft.aligned htd).word_at hft.aligned (by rw [frame_eq]; omega)
  have hgive : ∀ o x, holds { m with ram := m.ram.setWord (d + 4 * i) (f + 1) } d o x → holds m d o x ∨
    o = .table i ∧ x = f := by
    intro o x ho
    cases o with
    | dir | free => exact .inl ho
    | table j =>
        by_cases hji : j = i
        · subst hji
          have hx := ho.2
          rw [hself] at hx
          exact .inr ⟨rfl, (Option.some.inj hx).symm⟩
        · exact .inl ⟨ho.1, (hother j ho.1 hji).symm.trans ho.2⟩
    | page g =>
        have hx := ho.2
        rw [hentry g ho.1] at hx
        exact .inl ⟨ho.1, hx⟩
  refine ⟨⟨fun o x ho => ?_, h.apart.give hf (.table i) hgive, h.nodup⟩, hself, hother, hentry, hsame⟩
  rcases hgive o x ho with ho' | ⟨-, rfl⟩
  · obtain ⟨h₁, h₂, h₃, h₄⟩ := h.frame o x ho'
    exact ⟨h₁, h₂, h₃, h₄⟩
  · obtain ⟨h₁, h₂, h₃, h₄⟩ := hframe
    exact ⟨h₁, h₂, h₃, h₄⟩

def freed (m : Mm) (f : Nat) : Mm :=
  { m with ram := (m.ram.fill f FRAME 0).setWord f (kernelPtr m.freelist.head?), freelist := f :: m.freelist }

theorem kfree_eq (hf : Frame m f) : kfree f m = .ok () (freed m f) [] := by
  unfold kfree
  have h₁ : ¬f % FRAME ≠ 0 := not_not.2 hf.aligned
  have h₂ : ¬f < m.kernEnd := not_lt.2 hf.above
  have h₃ : ¬PHYSTOP ≤ f := not_le.2 hf.below
  simp only [bind_apply, fetch_apply, h₁, h₂, h₃, if_false, setRam, update_apply, Run.after, List.nil_append]
  rfl

theorem same_freed (hf : f % FRAME = 0) {a : Nat} (ha : a % FRAME = 0) (hne : a ≠ f) : Same m (freed m f) a := by
  rw [frame_eq] at hf ha
  refine SameIn.trans (sameIn_fill (by decide) 0 ?_ ?_) (sameIn_setWord (by decide) _ ?_ ?_)
  all_goals
    rw [frame_eq]
    omega

theorem Space.push (h : Space m d) (hf : Loose (holds m d) f) (hframe : Frame m f) :
    Space (freed m f) d ∧ (∀ i, i < 256 → AddressSpace.table (freed m f) d i = AddressSpace.table m d i) ∧
      ∀ g, g < 65536 → entry (freed m f) d g = entry m d g := by
  obtain ⟨ht, he⟩ := h.views (freed m f) fun a ha => by
    refine same_freed hframe.aligned ?_ ?_
    · rcases ha with ha | ⟨i, ha⟩
      · exact (h.frame _ a ha).aligned
      · exact (h.frame _ a ha).aligned
    · rintro rfl
      rcases ha with ha | ⟨i, ha⟩
      · exact hf _ ha
      · exact hf _ ha
  have hgive : ∀ o x, holds (freed m f) d o x → holds m d o x ∨ o = .free ∧ x = f := by
    intro o x ho
    by_cases hof : o = .free
    · subst hof
      rcases List.mem_cons.1 (show x ∈ f :: m.freelist from ho) with hx | hx
      · exact .inr ⟨rfl, hx⟩
      · exact .inl hx
    · exact .inl ((holds_congr ht he hof x).1 ho)
  refine ⟨⟨fun o x ho => ?_, h.apart.give hf .free hgive, List.nodup_cons.2 ⟨hf .free, h.nodup⟩⟩, ht, he⟩
  rcases hgive o x ho with ho' | ⟨-, rfl⟩
  · obtain ⟨h₁, h₂, h₃, h₄⟩ := h.frame o x ho'
    exact ⟨h₁, h₂, h₃, h₄⟩
  · obtain ⟨h₁, h₂, h₃, h₄⟩ := hframe
    exact ⟨h₁, h₂, h₃, h₄⟩

theorem walkpgdir_eq (m : Mm) (d va : Nat) :
    walkpgdir d va false m = .ok ((table m d (PDE_IDX va)).map (· + 4 * PTE_IDX va)) m [] := by
  unfold walkpgdir table
  simp only [bind_apply, fetch_apply, Run.after, List.nil_append]
  by_cases hp : present (m.ram.word (d + 4 * PDE_IDX va)) = true
  · simp [hp, pure_apply]
  · simp [hp, pure_apply]

theorem walkpgdir_some {va : Nat} (ht : table m d (PDE_IDX va) = some t) (alloc : Bool) :
    walkpgdir d va alloc m = .ok (some (t + 4 * PTE_IDX va)) m [] := by
  unfold table at ht
  by_cases hp : present (m.ram.word (d + 4 * PDE_IDX va)) = true
  · rw [if_pos hp] at ht
    cases ht
    unfold walkpgdir
    simp [bind_apply, fetch_apply, Run.after, hp, pure_apply]
  · rw [if_neg hp] at ht
    cases ht

theorem walkpgdir_alloc {va : Nat} (ht : table m d (PDE_IDX va) = none) :
    walkpgdir d va true m =
      match m.freelist with
      | [] => .ok none m []
      | f :: rest => .ok (some (f + 4 * PTE_IDX va))
          { m with ram := (m.ram.fill f PGSIZE 0).setWord (d + 4 * PDE_IDX va) (f ||| 1), freelist := rest } [] := by
  unfold table at ht
  by_cases hp : present (m.ram.word (d + 4 * PDE_IDX va)) = true
  · rw [if_pos hp] at ht
    cases ht
  · unfold walkpgdir setupvm kalloc setRam
    cases hl : m.freelist with
    | nil => simp [bind_apply, fetch_apply, Run.after, hp, pure_apply, hl]
    | cons f rest => simp [bind_apply, fetch_apply, update_apply, Run.after, hp, pure_apply, hl]

theorem pde_idx_page (g : Nat) : PDE_IDX (g * 4096) = g / 256 := by
  change g * 4096 / 1048576 = g / 256
  omega

theorem pte_idx_page (g : Nat) : PTE_IDX (g * 4096) = g % 256 := by
  change g * 4096 / 4096 % 256 = g % 256
  omega

theorem mappages_eq (hg : g < 65536) (pa ap : Nat) :
    mappages d (g * 4096) PTE_SZ pa ap m = mappages.loop d ap (g * 4096) 1 (g * 4096) pa m := by
  have ha : ALIGNDOWN (g * 4096) PTE_SZ = g * 4096 := by
    change g * 4096 / 4096 * 4096 = g * 4096
    omega
  have hl : ALIGNDOWN (uint (g * 4096 + PTE_SZ - 1)) PTE_SZ = g * 4096 := by
    change (g * 4096 + 4096 - 1) % 4294967296 / 4096 * 4096 = g * 4096
    omega
  unfold mappages
  rw [ha, hl, Nat.sub_self, Nat.zero_div]

theorem mappages_some (hg : g < 65536) (pa ap : Nat) (ht : table m d (g / 256) = some t)
    (hn : present (entry m d g) = false) :
    mappages d (g * 4096) PTE_SZ pa ap m = .ok 0 { m with ram := m.ram.setWord (t + 4 * (g % 256)) (mkPte pa ap) }
      [] := by
  rw [entry_of_table ht] at hn
  rw [← pde_idx_page] at ht
  rw [mappages_eq hg]
  unfold mappages.loop
  simp [bind_apply, walkpgdir_some ht, pte_idx_page, Run.after, fetch_apply, hn, setRam, update_apply, pure_apply]

theorem mappages_none (hg : g < 65536) (pa ap : Nat) (ht : table m d (g / 256) = none) (hl : m.freelist = []) :
    mappages d (g * 4096) PTE_SZ pa ap m = .ok (-1) m [] := by
  rw [← pde_idx_page] at ht
  rw [mappages_eq hg]
  unfold mappages.loop
  simp [bind_apply, walkpgdir_alloc ht, hl, Run.after, pure_apply]

theorem mappages_table (hg : g < 65536) (pa ap : Nat) (ht : table m d (g / 256) = none) {rest : List Nat}
    (hl : m.freelist = f :: rest)
    (hn : present (((m.ram.fill f PGSIZE 0).setWord (d + 4 * (g / 256)) (f ||| 1)).word (f + 4 * (g % 256))) = false) :
    mappages d (g * 4096) PTE_SZ pa ap m =
      .ok 0 { m with
        ram := ((m.ram.fill f PGSIZE 0).setWord (d + 4 * (g / 256)) (f ||| 1)).setWord (f + 4 * (g % 256)) (mkPte pa ap)
        freelist := rest } [] := by
  rw [← pde_idx_page] at ht
  rw [mappages_eq hg]
  unfold mappages.loop
  simp [bind_apply, walkpgdir_alloc ht, hl, pde_idx_page, pte_idx_page, Run.after, fetch_apply, hn, setRam,
    update_apply, pure_apply]

theorem mkPte_eq (hf : f % 4096 = 0) (ap : Nat) : mkPte f ap = f + (16 * (ap % 4) + 14) := by
  have hap : ap &&& 3 = ap % 4 := Nat.and_two_pow_sub_one_eq_mod ap 2
  have hlow : ∀ x, x < 4 → x <<< 4 ||| 8 ||| 4 ||| 2 = 16 * x + 14 := by decide
  have h := Nat.two_pow_add_eq_or_of_lt (show 16 * (ap % 4) + 14 < 2 ^ 12 by omega) (f / 4096)
  have hdiv : 2 ^ 12 * (f / 4096) = f := by omega
  rw [hdiv] at h
  unfold mkPte
  rw [hap, Nat.or_assoc, Nat.or_assoc, Nat.or_assoc, h, ← hlow (ap % 4) (Nat.mod_lt _ (by decide)), Nat.or_assoc,
    Nat.or_assoc]

def Below (m : Mm) (d top : Nat) : Prop := ∀ g, g < 65536 → (present (entry m d g) = true ↔ g < top)

/-- How many page tables are missing for the pages from lo up to hi, in a space that ends at lo. -/
def missing (m : Mm) (d lo hi : Nat) : Nat :=
  (List.range 256).countP fun i => lo ≤ 256 * i ∧ 256 * i < hi ∧ table m d i = none

theorem missing_self (m : Mm) (d lo : Nat) : missing m d lo lo = 0 := by
  unfold missing
  rw [List.countP_eq_zero]
  intro i _
  simp only [decide_eq_true_eq]
  omega

theorem missing_succ (m : Mm) (d lo hi : Nat) (hlo : lo ≤ hi) (hhi : hi < 65536) :
    missing m d lo (hi + 1) = missing m d lo hi + if hi % 256 = 0 ∧ table m d (hi / 256) = none then 1 else 0 := by
  have hcount := Lib.Count.countP_range_congr (N := 256) (p := hi / 256) (by omega)
    (P := fun i => lo ≤ 256 * i ∧ 256 * i < hi + 1 ∧ table m d i = none)
    (Q := fun i => lo ≤ 256 * i ∧ 256 * i < hi ∧ table m d i = none) (by
      intro i hi'
      rw [decide_eq_decide]
      constructor
      · rintro ⟨h₁, h₂, h₃⟩
        exact ⟨h₁, by omega, h₃⟩
      · rintro ⟨h₁, h₂, h₃⟩
        exact ⟨h₁, by omega, h₃⟩)
  simp only [decide_eq_true_eq] at hcount
  unfold missing
  by_cases hm : hi % 256 = 0
  · rw [if_neg (by omega : ¬(lo ≤ 256 * (hi / 256) ∧ 256 * (hi / 256) < hi ∧ table m d (hi / 256) = none))] at hcount
    by_cases ht : table m d (hi / 256) = none
    · rw [if_pos ⟨by omega, by omega, ht⟩] at hcount
      rw [if_pos ⟨hm, ht⟩]
      exact hcount
    · rw [if_neg fun hc => ht hc.2.2] at hcount
      rw [if_neg fun hc => ht hc.2]
      exact hcount
  · rw [if_neg fun hc => hm hc.1]
    have hiff : (lo ≤ 256 * (hi / 256) ∧ 256 * (hi / 256) < hi + 1 ∧ table m d (hi / 256) = none) ↔
        lo ≤ 256 * (hi / 256) ∧ 256 * (hi / 256) < hi ∧ table m d (hi / 256) = none := by
      constructor
      · rintro ⟨h₁, h₂, h₃⟩
        exact ⟨h₁, by omega, h₃⟩
      · rintro ⟨h₁, h₂, h₃⟩
        exact ⟨h₁, by omega, h₃⟩
    simp only [hiff] at hcount
    omega

/-- The space m₀, which ended at page lo, has grown to page hi with frames of the free list. out
are the frames in hand, zeroed and with no owner; k page tables were made, for pages below b. -/
structure Grown (m₀ m : Mm) (d lo hi b : Nat) (out : List Nat) (k : Nat) : Prop where
  space : Space m d
  kernEnd : m.kernEnd = m₀.kernEnd
  old : ∀ g, g < 65536 → g < lo ∨ hi ≤ g → entry m d g = entry m₀ d g
  fresh : ∀ g, lo ≤ g → g < hi → present (entry m d g) = true ∧ PTE_ADDR (entry m d g) ∈ m₀.freelist ∧
    PTE_AP (entry m d g) = AP_KU ∧ m.ram.slice (PTE_ADDR (entry m d g)) PTE_SZ = List.replicate PTE_SZ 0
  hand : ∀ f, f ∈ out → Loose (holds m d) f ∧ Frame m f ∧ f ∈ m₀.freelist ∧
    m.ram.slice f PTE_SZ = List.replicate PTE_SZ 0
  tables : ∀ i t, i < 256 → table m₀ d i = some t → table m d i = some t
  created : ∀ i t, i < 256 → table m d i = some t → table m₀ d i = some t ∨ 256 * i < b ∧ t ∈ m₀.freelist
  free : ∀ f, f ∈ m.freelist → f ∈ m₀.freelist
  total : ∀ f, f ∈ m₀.freelist → f ∈ m.freelist ∨ f ∈ out ∨ (∃ i, i < 256 ∧ table m d i = some f) ∨
    ∃ g, lo ≤ g ∧ g < hi ∧ PTE_ADDR (entry m d g) = f
  same : ∀ a, a % FRAME = 0 → a ≠ d → a ∉ m₀.freelist → (∀ i, i < 256 → table m₀ d i ≠ some a) → Same m₀ m a
  count : m₀.freelist.length = m.freelist.length + out.length + (hi - lo) + k

variable {m₀ : Mm} {lo hi b k : Nat} {out : List Nat}

theorem Grown.start (h : Space m d) : Grown m m d lo lo lo [] 0 where
  space := h
  kernEnd := rfl
  old _ _ _ := rfl
  fresh g h₁ h₂ := absurd h₁ (by omega)
  hand _ hf := by cases hf
  tables _ _ _ ht := ht
  created _ _ _ ht := .inl ht
  free _ hf := hf
  total _ hf := .inl hf
  same a _ _ _ _ := .refl _ a
  count := by simp

theorem Same.slice_at (h : Same m m' f) (hf : f % FRAME = 0) : m'.ram.slice f PTE_SZ = m.ram.slice f PTE_SZ :=
  SameIn.slice h (by decide) (by rw [hf]; decide)

theorem same_fill (hf : f % FRAME = 0) {len : Nat} (hl : len ≤ FRAME) {a : Nat} (ha : a % FRAME = 0) (hne : a ≠ f)
    {l : List Nat} :
    Same m { m with ram := m.ram.fill f len 0, freelist := l } a := by
  rw [frame_eq] at hf hl ha
  refine sameIn_fill (by decide) 0 ?_ ?_
  all_goals
    rw [frame_eq]
    omega

theorem Space.popFill (h : Space m d) {rest : List Nat} (hl : m.freelist = f :: rest) {len : Nat} (hlen : len ≤ FRAME) :
    Space { m with ram := m.ram.fill f len 0, freelist := rest } d ∧
      Loose (holds { m with ram := m.ram.fill f len 0, freelist := rest } d) f ∧ Frame m f ∧
      (∀ a, a % FRAME = 0 → a ≠ f → Same m { m with ram := m.ram.fill f len 0, freelist := rest } a) ∧
      (∀ i, i < 256 → AddressSpace.table { m with ram := m.ram.fill f len 0, freelist := rest } d i =
        AddressSpace.table m d i) ∧
      ∀ g, g < 65536 → entry { m with ram := m.ram.fill f len 0, freelist := rest } d g = entry m d g := by
  obtain ⟨hpop, hloose, hframe⟩ := h.pop hl
  have hsame : ∀ a, a % FRAME = 0 → a ≠ f → Same m { m with ram := m.ram.fill f len 0, freelist := rest } a :=
    fun a ha hne =>
    same_fill hframe.aligned hlen ha hne
  obtain ⟨hspace, hholds, htab, hent⟩ :=
    hpop.write { m with ram := m.ram.fill f len 0, freelist := rest } rfl rfl fun a ha => by
    refine hsame a ?_ ?_
    · rcases ha with ha | ⟨i, ha⟩
      · exact (hpop.frame _ a ha).aligned
      · exact (hpop.frame _ a ha).aligned
    · rintro rfl
      rcases ha with ha | ⟨i, ha⟩
      · exact hloose _ ha
      · exact hloose _ ha
  exact ⟨hspace, fun o ho => hloose o ((hholds o f).1 ho), hframe, hsame, fun i hi =>
    (htab i hi).trans (table_freelist m d i rest),
    fun g hg => (hent g hg).trans (entry_freelist m d g rest)⟩

theorem Grown.take (h : Grown m₀ m d lo hi b [] k) {rest : List Nat} (hhi : hi ≤ 65536) (hl : m.freelist = f :: rest) :
    Grown m₀ { m with ram := m.ram.fill f PTE_SZ 0, freelist := rest } d lo hi b [f] k := by
  obtain ⟨hspace, hloose, hframe, hsame, htab, hent⟩ := h.space.popFill hl (show PTE_SZ ≤ FRAME by decide)
  have hmem : f ∈ m.freelist := by
    rw [hl]
    exact List.mem_cons_self
  refine ⟨hspace, h.kernEnd, fun g hg hout => (hent g hg).trans (h.old g hg hout), fun g h₁ h₂ => ?_, fun x hx => ?_,
    fun i t hi ht => ?_,
    fun i t hi ht => ?_, fun x hx => ?_, fun x hx => ?_, fun a ha hd hfree htabs => ?_, ?_⟩
  · have hg : g < 65536 := by omega
    obtain ⟨hp, hf₀, hap, hzero⟩ := h.fresh g h₁ h₂
    have hframe' := h.space.frame (.page g) _ ⟨hg, hp, rfl⟩
    have hne : PTE_ADDR (entry m d g) ≠ f := by
      intro he
      cases h.space.apart (.page g) .free f ⟨hg, hp, he⟩ hmem
    rw [hent g hg]
    exact ⟨hp, hf₀, hap, ((hsame _ hframe'.aligned hne).slice_at hframe'.aligned).trans hzero⟩
  · cases List.mem_singleton.1 hx
    have hbelow : f < 134217728 := hframe.below
    have hal : f % 262144 = 0 := hframe.aligned
    refine ⟨hloose, ⟨hframe.aligned, hframe.above, hframe.below, hframe.pos⟩, h.free f hmem, ?_⟩
    exact slice_fill_self _ 0 (by rw [phystop_eq]; change f + 4096 ≤ _; omega)
  · exact (htab i hi).trans (h.tables i t hi ht)
  · exact h.created i t hi ((htab i hi).symm.trans ht)
  · refine h.free x ?_
    rw [hl]
    exact List.mem_cons_of_mem f hx
  · rcases h.total x hx with h₁ | h₁ | ⟨i, hi, h₁⟩ | ⟨g, h₁, h₂, h₃⟩
    · rw [hl] at h₁
      rcases List.mem_cons.1 h₁ with h₁ | h₁
      · exact .inr (.inl (List.mem_singleton.2 h₁))
      · exact .inl h₁
    · cases h₁
    · exact .inr (.inr (.inl ⟨i, hi, (htab i hi).trans h₁⟩))
    · exact .inr (.inr (.inr ⟨g, h₁, h₂, (congrArg PTE_ADDR (hent g (by omega))).trans h₃⟩))
  · refine (h.same a ha hd hfree htabs).trans (hsame a ha ?_)
    rintro rfl
    exact hfree (h.free a hmem)
  · rw [h.count, hl]
    simp only [List.length_cons, List.length_nil]

theorem Grown.newTable (h : Grown m₀ m d lo hi hi [f] k) {rest : List Nat} (hhi : hi < 65536)
    (ht : table m d (hi / 256) = none)
    (hl : m.freelist = t :: rest) :
    Grown m₀ { m with ram := (m.ram.fill t PGSIZE 0).setWord (d + 4 * (hi / 256)) (t ||| 1), freelist := rest } d lo
      hi (hi + 1) [f] (k + 1) ∧
      table { m with ram := (m.ram.fill t PGSIZE 0).setWord (d + 4 * (hi / 256)) (t ||| 1), freelist := rest } d
        (hi / 256) = some t := by
  obtain ⟨hsp, hloose, hframe, hsame₁, htab₁, hent₁⟩ := h.space.popFill hl (show PGSIZE ≤ FRAME by decide)
  have hmem : t ∈ m.freelist := by
    rw [hl]
    exact List.mem_cons_self
  have hal : t % 262144 = 0 := hframe.aligned
  have hbelow : t < 134217728 := hframe.below
  have hi' : hi / 256 < 256 := by omega
  obtain ⟨hspace, hself, htab₂, hent₂, hsame₂⟩ := hsp.attachTable hloose
    ⟨hframe.aligned, hframe.above, hframe.below, hframe.pos⟩ hi' ((htab₁ _ hi').trans ht) fun x hx =>
      word_fill_within _ (Nat.le_add_right _ _) (by change _ ≤ t + 65536; omega)
        (by rw [phystop_eq]; change t + 65536 ≤ _; omega)
  have hent : ∀ g, g < 65536 →
      entry { m with ram := (m.ram.fill t PGSIZE 0).setWord (d + 4 * (hi / 256)) (t ||| 1), freelist := rest } d g =
      entry m d g :=
    fun g hg => (hent₂ g hg).trans (hent₁ g hg)
  have htab : ∀ i, i < 256 → i ≠ hi / 256 →
      table { m with ram := (m.ram.fill t PGSIZE 0).setWord (d + 4 * (hi / 256)) (t ||| 1), freelist := rest } d i =
        table m d i :=
    fun i hi hne => (htab₂ i hi hne).trans (htab₁ i hi)
  have hsame : ∀ a, a % FRAME = 0 → a ≠ t → a ≠ d →
      Same m { m with ram := (m.ram.fill t PGSIZE 0).setWord (d + 4 * (hi / 256)) (t ||| 1), freelist := rest } a :=
    fun a ha hne hd => (hsame₁ a ha hne).trans (hsame₂ a ha hd)
  refine ⟨⟨hspace, h.kernEnd, fun g hg hout => (hent g hg).trans (h.old g hg hout), fun g h₁ h₂ => ?_, fun x hx => ?_,
    fun i u hlt hu => ?_,
    fun i u hlt hu => ?_, fun x hx => ?_, fun x hx => ?_, fun a ha hd hfree htabs => ?_, ?_⟩, hself⟩
  · have hg : g < 65536 := by omega
    obtain ⟨hp, hf₀, hap, hzero⟩ := h.fresh g h₁ h₂
    have hframe' := h.space.frame (.page g) _ ⟨hg, hp, rfl⟩
    have hne : PTE_ADDR (entry m d g) ≠ t := by
      intro he
      cases h.space.apart (.page g) .free t ⟨hg, hp, he⟩ hmem
    have hne' : PTE_ADDR (entry m d g) ≠ d := by
      intro he
      cases h.space.apart (.page g) .dir d ⟨hg, hp, he⟩ rfl
    rw [hent g hg]
    exact ⟨hp, hf₀, hap, ((hsame _ hframe'.aligned hne hne').slice_at hframe'.aligned).trans hzero⟩
  · obtain ⟨hl₀, hfr, hfree, hzero⟩ := h.hand x hx
    have hxt : x ≠ t := by
      rintro rfl
      exact hl₀ .free hmem
    have hxd : x ≠ d := fun he => hl₀ .dir he
    refine ⟨fun o ho => ?_, ⟨hfr.aligned, hfr.above, hfr.below, hfr.pos⟩, hfree,
      ((hsame x hfr.aligned hxt hxd).slice_at hfr.aligned).trans hzero⟩
    cases o with
    | dir => exact hxd ho
    | free =>
        refine hl₀ .free ?_
        change x ∈ m.freelist
        rw [hl]
        exact List.mem_cons_of_mem t ho
    | table i =>
        by_cases hih : i = hi / 256
        · subst hih
          exact hxt (Option.some.inj (hself.symm.trans ho.2)).symm
        · exact hl₀ (.table i) ⟨ho.1, (htab i ho.1 hih).symm.trans ho.2⟩
    | page g =>
        have ho' := ho.2
        rw [hent g ho.1] at ho'
        exact hl₀ (.page g) ⟨ho.1, ho'⟩
  · have hu' := h.tables i u hlt hu
    have hih : i ≠ hi / 256 := by
      rintro rfl
      rw [ht] at hu'
      cases hu'
    exact (htab i hlt hih).trans hu'
  · by_cases hih : i = hi / 256
    · subst hih
      cases Option.some.inj (hself.symm.trans hu)
      exact .inr ⟨by omega, h.free t hmem⟩
    · rcases h.created i u hlt ((htab i hlt hih).symm.trans hu) with h₁ | h₁
      · exact .inl h₁
      · exact .inr ⟨by omega, h₁.2⟩
  · refine h.free x ?_
    rw [hl]
    exact List.mem_cons_of_mem t hx
  · rcases h.total x hx with h₁ | h₁ | ⟨i, hlt, h₁⟩ | ⟨g, h₁, h₂, h₃⟩
    · rw [hl] at h₁
      rcases List.mem_cons.1 h₁ with h₁ | h₁
      · exact .inr (.inr (.inl ⟨hi / 256, hi', hself.trans (congrArg some h₁.symm)⟩))
      · exact .inl h₁
    · exact .inr (.inl h₁)
    · have hih : i ≠ hi / 256 := by
        rintro rfl
        rw [ht] at h₁
        cases h₁
      exact .inr (.inr (.inl ⟨i, hlt, (htab i hlt hih).trans h₁⟩))
    · exact .inr (.inr (.inr ⟨g, h₁, h₂, (congrArg PTE_ADDR (hent g (by omega))).trans h₃⟩))
  · refine (h.same a ha hd hfree htabs).trans (hsame a ha ?_ hd)
    rintro rfl
    exact hfree (h.free a hmem)
  · rw [h.count, hl]
    simp only [List.length_cons, List.length_nil]
    omega

theorem Grown.attach (h : Grown m₀ m d lo hi b [f] k) (hlo : lo ≤ hi) (hhi : hi < 65536) (hb : b ≤ hi + 1)
    (ht : table m d (hi / 256) = some t) :
    Grown m₀ { m with ram := m.ram.setWord (t + 4 * (hi % 256)) (mkPte f AP_KU) } d lo (hi + 1) (hi + 1) [] k := by
  obtain ⟨hloose, hframe, hfree, hzero⟩ := h.hand f List.mem_cons_self
  have hal : f % 262144 = 0 := hframe.aligned
  have hbelow : f < 134217728 := hframe.below
  have hi' : hi / 256 < 256 := by omega
  have hw : mkPte f AP_KU = f + 62 := mkPte_eq (by omega) 3
  have hadr : PTE_ADDR (mkPte f AP_KU) = f := by
    rw [hw]
    exact pte_addr_add (by omega) (by decide)
  have hlt : mkPte f AP_KU < 2 ^ 32 := by
    rw [hw]
    omega
  obtain ⟨htab, hself, hother, hsame⟩ := h.space.setEntry hhi ht hlt
  refine ⟨h.space.attachPage hloose hframe hhi ht hlt hadr, h.kernEnd, fun g hg hout => ?_, fun g h₁ h₂ => ?_, nofun,
    fun i u hi hu => ?_,
    fun i u hi hu => ?_, h.free, fun x hx => ?_, fun a ha hd hfr htabs => ?_, ?_⟩
  · rw [hother g hg (by omega)]
    exact h.old g hg (by omega)
  · by_cases hgh : g = hi
    · subst hgh
      have hft : f ≠ t := by
        rintro rfl
        exact hloose (.table (g / 256)) ⟨hi', ht⟩
      rw [hself, hadr]
      refine ⟨?_, hfree, ?_, ((hsame f hframe.aligned hft).slice_at hframe.aligned).trans hzero⟩
      · rw [hw]
        simp only [present, decide_eq_true_eq]
        omega
      · rw [hw]
        change (f + 62) / 16 % 4 = 3
        omega
    · have hg : g < 65536 := by omega
      obtain ⟨hp, hf₀, hap, hz⟩ := h.fresh g h₁ (by omega)
      have hframe' := h.space.frame (.page g) _ ⟨hg, hp, rfl⟩
      have hne : PTE_ADDR (entry m d g) ≠ t := by
        intro he
        cases h.space.apart (.page g) (.table (hi / 256)) t ⟨hg, hp, he⟩ ⟨hi', ht⟩
      rw [hother g hg hgh]
      exact ⟨hp, hf₀, hap, ((hsame _ hframe'.aligned hne).slice_at hframe'.aligned).trans hz⟩
  · exact (htab i hi).trans (h.tables i u hi hu)
  · rcases h.created i u hi ((htab i hi).symm.trans hu) with h₁ | h₁
    · exact .inl h₁
    · exact .inr ⟨by omega, h₁.2⟩
  · rcases h.total x hx with h₁ | h₁ | ⟨i, hi, h₁⟩ | ⟨g, h₁, h₂, h₃⟩
    · exact .inl h₁
    · cases List.mem_singleton.1 h₁
      exact .inr (.inr (.inr ⟨hi, hlo, by omega, by rw [hself, hadr]⟩))
    · exact .inr (.inr (.inl ⟨i, hi, (htab i hi).trans h₁⟩))
    · exact .inr (.inr (.inr ⟨g, h₁, by omega, (congrArg PTE_ADDR (hother g (by omega) (by omega))).trans h₃⟩))
  · refine (h.same a ha hd hfr htabs).trans (hsame a ha ?_)
    rintro rfl
    rcases h.created (hi / 256) a hi' ht with h₁ | h₁
    · exact htabs (hi / 256) hi' h₁
    · exact hfr h₁.2
  · have hc := h.count
    simp only [List.length_cons, List.length_nil] at hc
    simp only [List.length_nil]
    omega

end ArmXv6.AddressSpace
