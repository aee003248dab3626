import ArmXv6.Resize
import ArmXv6.Lib.Owners

namespace ArmXv6.FrameOwners

open Lib.Exec Lib.Bytes Lib.Frames Lib.Owners Param Blocks Vm AddressSpace Resize

/-- Where a frame can be: on the free list, in the hands of a running call, with another owner, or
as the page directory, a page table or a page of the address space in slot s. -/
inductive Place (ω : Type)
  | free
  | hand
  | kept (o : ω)
  | dir (s : Nat)
  | table (s i : Nat)
  | page (s g : Nat)

variable {ω : Type}

/-- dirs gives the page directory of each slot, H what the running call has in hand. -/
def has (m : Mm) (dirs : Nat → Option Nat) (kept : ω → Nat → Prop) (H : List Nat) : Place ω → Nat → Prop
  | .free, f => f ∈ m.freelist
  | .hand, f => f ∈ H
  | .kept o, f => kept o f
  | .dir s, f => dirs s = some f
  | .table s i, f => ∃ d, dirs s = some d ∧ i < 256 ∧ table m d i = some f
  | .page s g, f => ∃ d, dirs s = some d ∧ g < 65536 ∧ present (entry m d g) = true ∧ PTE_ADDR (entry m d g) = f

/-- No word of the frame has the type bits of a descriptor. -/
def Blank (m : Mm) (f : Nat) : Prop := ∀ i, 4 * i + 4 ≤ FRAME → present (m.ram.word (f + 4 * i)) = false

/-- Each frame of the stock S is in one place. A free frame is blank, since setupvm does not clear
the frame it takes for a page directory. -/
structure Estate (S : Nat → Prop) (m : Mm) (dirs : Nat → Option Nat) (kept : ω → Nat → Prop) (H : List Nat) : Prop where
  frame : ∀ f, S f → Frame m f
  apart : Apart (has m dirs kept H)
  stock : ∀ f, (∃ o, has m dirs kept H o f) ↔ S f
  nodup : m.freelist.Nodup
  hand : H.Nodup
  blank : ∀ f, f ∈ m.freelist → Blank m f
  upper : ∀ s d, dirs s = some d → ∀ i, 256 ≤ i → 4 * i + 4 ≤ FRAME → present (m.ram.word (d + 4 * i)) = false

variable {S : Nat → Prop} {m m' m'' : Mm} {dirs : Nat → Option Nat} {kept : ω → Nat → Prop} {H : List Nat}
  {s d f x t g i : Nat} {o : Place ω}

theorem Estate.of (h : Estate S m dirs kept H) (ho : has m dirs kept H o f) : Frame m f :=
  h.frame f ((h.stock f).mp ⟨o, ho⟩)

def inSlot (s : Nat) : Owner → Place ω
  | .dir => .dir s
  | .free => .free
  | .table i => .table s i
  | .page g => .page s g

theorem has_inSlot (hs : dirs s = some d) {y : Owner} (hy : holds m d y f) : has m dirs kept H (inSlot s y) f := by
  cases y with
  | dir =>
      cases hy
      exact hs
  | free => exact hy
  | table i => exact ⟨d, hs, hy⟩
  | page g => exact ⟨d, hs, hy⟩

theorem inSlot_inj {y z : Owner} (h : (inSlot s y : Place ω) = inSlot s z) : y = z := by
  cases y <;> cases z <;> simp_all [inSlot]

theorem Estate.space (h : Estate S m dirs kept H) (hs : dirs s = some d) : Space m d where
  frame _ _ hy := h.of (has_inSlot hs hy)
  apart _ _ _ hy hz := inSlot_inj (h.apart _ _ _ (has_inSlot hs hy) (has_inSlot hs hz))
  nodup := h.nodup

theorem Estate.loose (h : Estate S m dirs kept H) (hf : f ∈ H) (hs : dirs s = some d) : Loose (holds m d) f := by
  intro y hy
  have := h.apart .hand (inSlot s y) f hf (has_inSlot hs hy)
  cases y <;> cases this

/-- The page tables and pages of a directory are the same. -/
structure Views (m m' : Mm) (d : Nat) : Prop where
  table : ∀ i, i < 256 → table m' d i = table m d i
  entry : ∀ g, g < 65536 → entry m' d g = entry m d g

theorem Views.refl (m : Mm) (d : Nat) : Views m m d := ⟨fun _ _ => rfl, fun _ _ => rfl⟩

theorem Views.trans (h : Views m m' d) (h' : Views m' m'' d) : Views m m'' d :=
  ⟨fun i hi => (h'.table i hi).trans (h.table i hi), fun g hg => (h'.entry g hg).trans (h.entry g hg)⟩

/-- The address spaces in other slots keep their pages and what is in them. -/
structure Leaves (dirs : Nat → Option Nat) (s : Nat) (m m' : Mm) : Prop where
  views : ∀ s' d, s' ≠ s → dirs s' = some d → Views m m' d
  same : ∀ s' d, s' ≠ s → dirs s' = some d → ∀ g, g < 65536 → present (entry m d g) = true →
    Same m m' (PTE_ADDR (entry m d g))

theorem Leaves.refl (dirs : Nat → Option Nat) (s : Nat) (m : Mm) : Leaves dirs s m m :=
  ⟨fun _ d _ _ => .refl m d, fun _ _ _ _ _ _ _ => .refl _ _⟩

theorem Leaves.trans (h : Leaves dirs s m m') (h' : Leaves dirs s m' m'') : Leaves dirs s m m'' := by
  refine ⟨fun s' d hne hd => (h.views s' d hne hd).trans (h'.views s' d hne hd), fun s' d hne hd g hg hp => ?_⟩
  have he := (h.views s' d hne hd).entry g hg
  have := h'.same s' d hne hd g hg (by rw [he]; exact hp)
  rw [he] at this
  exact (h.same s' d hne hd g hg hp).trans this

theorem Leaves.of_update {v : Option Nat} (h : Leaves (Function.update dirs s v) s m m') : Leaves dirs s m m' := by
  have hother : ∀ {s'}, s' ≠ s → Function.update dirs s v s' = dirs s' := fun hne => Function.update_of_ne hne _ _
  exact ⟨fun s' d hne hd => h.views s' d hne ((hother hne).trans hd), fun s' d hne hd =>
    h.same s' d hne ((hother hne).trans hd)⟩

def Place.slot : Place ω → Option Nat
  | .dir s | .table s _ | .page s _ => some s
  | _ => none

theorem has_slot {dirs' : Nat → Option Nat} {kept' : ω → Nat → Prop} {H' : List Nat} (ho : o.slot = some s)
    (hd : dirs' s = dirs s)
    (hv : ∀ d, dirs s = some d → Views m m' d) (a : Nat) : has m' dirs' kept' H' o a ↔ has m dirs kept H o a := by
  cases o with
  | free | hand | kept => cases ho
  | dir x =>
      cases ho
      exact iff_of_eq (congrArg (· = some a) hd)
  | table x i =>
      cases ho
      change (∃ d, dirs' s = some d ∧ _) ↔ ∃ d, dirs s = some d ∧ _
      rw [hd]
      refine exists_congr fun d => and_congr_right fun hd => and_congr_right fun hi => ?_
      rw [(hv d hd).table i hi]
  | page x g =>
      cases ho
      change (∃ d, dirs' s = some d ∧ _) ↔ ∃ d, dirs s = some d ∧ _
      rw [hd]
      refine exists_congr fun d => and_congr_right fun hd => and_congr_right fun hg => ?_
      rw [(hv d hd).entry g hg]

/-- The place after the slots have got other numbers. -/
def Place.move (e : Nat → Nat) : Place ω → Place ω
  | .dir s => .dir (e s)
  | .table s i => .table (e s) i
  | .page s g => .page (e s) g
  | o => o

/-- Memory changes in frame x only. -/
def Within (m m' : Mm) (x : Nat) : Prop := ∀ a, a % FRAME = 0 → a ≠ x → Same m m' a

theorem Estate.views (h : Estate S m dirs kept H) (hs : dirs s = some d) (hw : Within m m' x)
    (hx : has m dirs kept H o x)
    (hd : o ≠ .dir s) (ht : ∀ i, o ≠ .table s i) : Views m m' d := by
  obtain ⟨h₁, h₂⟩ := (h.space hs).views m' fun a ha => by
    refine hw a ?_ ?_
    · rcases ha with ha | ⟨i, ha⟩
      · exact ((h.space hs).frame _ a ha).aligned
      · exact ((h.space hs).frame _ a ha).aligned
    · rintro rfl
      rcases ha with ha | ⟨i, ha⟩
      · exact hd (h.apart _ (inSlot s .dir) a hx (has_inSlot hs ha))
      · exact ht i (h.apart _ (inSlot s (.table i)) a hx (has_inSlot hs ha))
  exact ⟨h₁, h₂⟩

theorem Estate.leaves (h : Estate S m dirs kept H) (hw : Within m m' x) (hx : has m dirs kept H o x)
    (ho : ∀ s', s' ≠ s → o.slot ≠ some s') : Leaves dirs s m m' := by
  refine ⟨fun s' d hne hd => h.views hd hw hx ?_ fun i => ?_, fun s' d hne hd g hg hp => ?_⟩
  · rintro rfl
    exact ho s' hne rfl
  · rintro rfl
    exact ho s' hne rfl
  · have hpage : has m dirs kept H (.page s' g) (PTE_ADDR (entry m d g)) := ⟨d, hd, hg, hp, rfl⟩
    refine hw _ (h.of hpage).aligned ?_
    intro he
    have := h.apart _ _ x hx (he ▸ hpage)
    subst this
    exact ho s' hne rfl

theorem Within.word (hw : Within m m' x) (hf : f % FRAME = 0) (hne : f ≠ x) {y : Nat} (hy : y + 4 ≤ FRAME) :
    m'.ram.word (f + y) = m.ram.word (f + y) := (hw f hf hne).word_at hf hy

theorem Within.blank (hw : Within m m' x) (hf : f % FRAME = 0) (hne : f ≠ x) (hb : Blank m f) : Blank m' f := by
  intro i hi
  rw [hw.word hf hne hi]
  exact hb i hi

theorem Estate.handover (h : Estate S m dirs kept H) {o' : Place ω} {dirs' : Nat → Option Nat} {H' : List Nat}
    (hf : has m dirs kept H o f)
    (hh : Handover (has m dirs kept H) (has m' dirs' kept H') f o') (hk : m'.kernEnd = m.kernEnd)
      (hn : m'.freelist.Nodup) (hH : H'.Nodup)
    (hb : ∀ a, a ∈ m'.freelist → Blank m' a)
    (hu : ∀ s d, dirs' s = some d → ∀ i, 256 ≤ i → 4 * i + 4 ≤ FRAME → present (m'.ram.word (d + 4 * i)) = false) :
    Estate S m' dirs' kept H' where
  frame a ha := by
    obtain ⟨h₁, h₂, h₃, h₄⟩ := h.frame a ha
    exact ⟨h₁, by rw [hk]; exact h₂, h₃, h₄⟩
  apart := hh.apart h.apart
  stock a := (hh.owned hf a).trans (h.stock a)
  nodup := hn
  hand := hH
  blank := hb
  upper := hu

theorem has_congr (hl : m'.freelist = m.freelist) (hv : ∀ s d, dirs s = some d → Views m m' d) (y : Place ω) (a : Nat) :
    has m' dirs kept H y a ↔ has m dirs kept H y a := by
  cases y with
  | free => exact iff_of_eq (congrArg (a ∈ ·) hl)
  | hand | kept | dir => exact Iff.rfl
  | table s i =>
      refine exists_congr fun d => and_congr_right fun hd => and_congr_right fun hi => ?_
      rw [(hv s d hd).table i hi]
  | page s g =>
      refine exists_congr fun d => and_congr_right fun hd => and_congr_right fun hg => ?_
      rw [(hv s d hd).entry g hg]

theorem Estate.stay (h : Estate S m dirs kept H) (hk : m'.kernEnd = m.kernEnd) (hl : m'.freelist = m.freelist)
    (hiff : ∀ y a, has m' dirs kept H y a ↔ has m dirs kept H y a) (hw : Within m m' x) (hfree : x ∉ m.freelist)
    (hu : ∀ s, dirs s = some x → ∀ i, 256 ≤ i → 4 * i + 4 ≤ FRAME → m'.ram.word (x + 4 * i) = m.ram.word (x + 4 * i)) :
    Estate S m' dirs kept H := by
  refine ⟨fun a ha => ?_, h.apart.mono fun y a => (hiff y a).mp, fun a =>
    (exists_congr fun y => hiff y a).trans (h.stock a),
    by rw [hl]; exact h.nodup, h.hand, fun a ha => ?_, fun s d hs i hi hi' => ?_⟩
  · obtain ⟨h₁, h₂, h₃, h₄⟩ := h.frame a ha
    exact ⟨h₁, by rw [hk]; exact h₂, h₃, h₄⟩
  · rw [hl] at ha
    refine hw.blank (h.of (o := .free) ha).aligned ?_ (h.blank a ha)
    rintro rfl
    exact hfree ha
  · by_cases hdx : d = x
    · subst hdx
      rw [hu s hs i hi hi']
      exact h.upper s d hs i hi hi'
    · rw [hw.word (h.of (o := .dir s) hs).aligned hdx hi']
      exact h.upper s d hs i hi hi'

theorem Estate.store (h : Estate S m dirs kept H) (hk : m'.kernEnd = m.kernEnd) (hl : m'.freelist = m.freelist)
    (hw : Within m m' x)
    (hx : has m dirs kept H o x) (hfree : o ≠ .free) (hd : ∀ s, o ≠ .dir s) (ht : ∀ s i, o ≠ .table s i) :
    Estate S m' dirs kept H ∧ ∀ s d, dirs s = some d → Views m m' d := by
  have hv : ∀ s d, dirs s = some d → Views m m' d := fun s d hs => h.views hs hw hx (hd s) (ht s)
  refine ⟨h.stay hk hl (has_congr hl hv) hw (fun hc => hfree (h.apart _ .free x hx hc)) fun s hs => ?_, hv⟩
  exact absurd (h.apart _ (.dir s) x hx hs) (hd s)

theorem Estate.stray (h : Estate S m dirs kept H) (hk : m'.kernEnd = m.kernEnd) (hl : m'.freelist = m.freelist)
    (hw : Within m m' x)
    (hx : ¬S x) : Estate S m' dirs kept H ∧ (∀ s, Leaves dirs s m m') ∧ ∀ s d, dirs s = some d → Views m m' d := by
  have hne : ∀ {y a}, has m dirs kept H y a → a ≠ x := by
    rintro y a ha rfl
    exact hx ((h.stock a).mp ⟨y, ha⟩)
  have hv : ∀ s d, dirs s = some d → Views m m' d := by
    intro s d hs
    obtain ⟨h₁, h₂⟩ := (h.space hs).views m' fun a ha => by
      rcases ha with ha | ⟨i, ha⟩
      · exact hw a ((h.space hs).frame _ a ha).aligned (hne (has_inSlot hs ha))
      · exact hw a ((h.space hs).frame _ a ha).aligned (hne (has_inSlot hs ha))
    exact ⟨h₁, h₂⟩
  refine ⟨h.stay hk hl (has_congr hl hv) hw (fun hc => hne (y := .free) hc rfl) fun s hs =>
    absurd rfl (hne (y := .dir s) hs),
    fun s => ⟨fun s' d _ hd => hv s' d hd, fun s' d _ hd g hg hp => ?_⟩, hv⟩
  have hpage : has m dirs kept H (.page s' g) (PTE_ADDR (entry m d g)) := ⟨d, hd, hg, hp, rfl⟩
  exact hw _ (h.of hpage).aligned (hne hpage)

theorem blank_freed (hf : Frame m f) (hl : ∀ a, a ∈ m.freelist → Frame m a) : Blank (freed m f) f := by
  intro i hi
  have hal : f % 262144 = 0 := hf.aligned
  have hlt : f < 134217728 := hf.below
  have hsz := frame_eq
  have hmem := phystop_eq
  have hzero : (m.ram.fill f FRAME 0).word (f + 4 * i) = 0 :=
    word_fill_within _ (Nat.le_add_right _ _) (by omega) (by omega)
  by_cases h0 : i = 0
  · subst h0
    have hlink : kernelPtr m.freelist.head? < 2 ^ 32 ∧ kernelPtr m.freelist.head? % 4 = 0 := by
      cases hhd : m.freelist.head? with
      | none => decide
      | some a =>
          obtain ⟨h₁, -, h₃, -⟩ := hl a (List.mem_of_head? hhd)
          rw [hsz] at h₁
          rw [hmem] at h₃
          change a + 2147483648 < 4294967296 ∧ (a + 2147483648) % 4 = 0
          omega
    have hself : (freed m f).ram.word f = kernelPtr m.freelist.head? :=
      Mem.word_setWord_self _ _ _ (by omega) hlink.1
    rw [Nat.mul_zero, Nat.add_zero, hself]
    simp [present, hlink.2]
  · have hoff : (freed m f).ram.word (f + 4 * i) = (m.ram.fill f FRAME 0).word (f + 4 * i) :=
      Mem.word_setWord_of_disjoint _ _ _ _ (by omega)
    rw [hoff, hzero]
    rfl

theorem Estate.take (h : Estate S m dirs kept H) {rest : List Nat} (hl : m.freelist = f :: rest) :
    Estate S { m with freelist := rest } dirs kept (f :: H) ∧ Blank { m with freelist := rest } f := by
  have hfree : has m dirs kept H .free f := by
    change f ∈ m.freelist
    rw [hl]
    exact List.mem_cons_self
  have hnd := h.nodup
  rw [hl, List.nodup_cons] at hnd
  have hh : Handover (has m dirs kept H) (has { m with freelist := rest } dirs kept (f :: H)) f .hand := by
    refine .of h.apart hfree (by simp) (fun y h₁ h₂ a => ?_) (fun a => ?_) fun a => ?_
    · cases y with
      | free => exact absurd rfl h₁
      | hand => exact absurd rfl h₂
      | kept | dir | table | page => exact Iff.rfl
    · change a ∈ rest ↔ a ∈ m.freelist ∧ a ≠ f
      rw [hl, List.mem_cons]
      refine ⟨fun ha => ⟨.inr ha, ?_⟩, fun hc => hc.1.resolve_left hc.2⟩
      rintro rfl
      exact hnd.1 ha
    · exact List.mem_cons.trans or_comm
  refine ⟨h.handover hfree hh rfl hnd.2 (List.nodup_cons.mpr ⟨fun hH => ?_, h.hand⟩) (fun a ha => ?_) h.upper,
    h.blank f hfree⟩
  · cases h.apart .hand .free f hH hfree
  · refine h.blank a ?_
    rw [hl]
    exact List.mem_cons_of_mem f ha

theorem head_not_mem (h : Estate S m dirs kept (f :: H)) : f ∉ H := (List.nodup_cons.mp h.hand).1

theorem mem_tail_iff (h : Estate S m dirs kept (f :: H)) (a : Nat) : a ∈ H ↔ a ∈ f :: H ∧ a ≠ f := by
  rw [List.mem_cons]
  refine ⟨fun ha => ⟨.inr ha, ?_⟩, fun hc => hc.1.resolve_left hc.2⟩
  rintro rfl
  exact head_not_mem h ha

theorem hand_head (_ : Estate S m dirs kept (f :: H)) : has m dirs kept (f :: H) .hand f := List.mem_cons_self

theorem Estate.push (h : Estate S m dirs kept (f :: H)) :
    Estate S (freed m f) dirs kept H ∧ (∀ s d, dirs s = some d → Views m (freed m f) d) ∧ Within m (freed m f) f := by
  have hhand := hand_head h
  have hf := h.of hhand
  have hw : Within m (freed m f) f := fun a ha hne => same_freed hf.aligned ha hne
  have hv : ∀ s d, dirs s = some d → Views m (freed m f) d := fun s d hs => h.views hs hw hhand (by simp) (by simp)
  have hnot : f ∉ m.freelist := fun hc => by cases h.apart .free .hand f hc hhand
  have hh : Handover (has m dirs kept (f :: H)) (has (freed m f) dirs kept H) f .free := by
    refine .of h.apart hhand (by simp) (fun y h₁ h₂ a => ?_) (fun a => mem_tail_iff h a) fun a =>
      List.mem_cons.trans or_comm
    cases y with
    | hand => exact absurd rfl h₁
    | free => exact absurd rfl h₂
    | kept | dir => exact Iff.rfl
    | table s i =>
        refine exists_congr fun d => and_congr_right fun hd => and_congr_right fun hi => ?_
        rw [(hv s d hd).table i hi]
    | page s g =>
        refine exists_congr fun d => and_congr_right fun hd => and_congr_right fun hg => ?_
        rw [(hv s d hd).entry g hg]
  refine ⟨h.handover hhand hh rfl (List.nodup_cons.mpr ⟨hnot, h.nodup⟩) (List.nodup_cons.mp h.hand).2
    (fun a ha => ?_) fun s d hs i hi hi' => ?_,
    hv, hw⟩
  · rcases List.mem_cons.mp ha with rfl | ha'
    · exact blank_freed hf (fun f hf => h.of (o := .free) hf)
    · refine hw.blank (h.of (o := .free) ha').aligned ?_ (h.blank a ha')
      rintro rfl
      exact hnot ha'
  · have hdf : d ≠ f := by
      rintro rfl
      cases h.apart .hand (.dir s) d hhand hs
    rw [hw.word (h.of (o := .dir s) hs).aligned hdf hi']
    exact h.upper s d hs i hi hi'

theorem within_slice (hf : f % FRAME = 0) {off : Nat} {l : List UInt8} (hl : off + l.length ≤ FRAME) :
    Within m { m with ram := m.ram.setSlice (f + off) l } f := by
  intro a ha hne i hi
  change (m.ram.setSlice (f + off) l).get i = m.ram.get i
  rw [Mem.get_setSlice, if_neg]
  rintro ⟨-, h₁, h₂⟩
  rw [frame_eq] at hf ha hi hl
  omega

section Entries

variable (hs : dirs s = some d) (hg : g < 65536) (ht : table m d (g / 256) = some t)

include hs hg ht

theorem Estate.setEntry (h : Estate S m dirs kept H) {w : Nat} (hw : w < 2 ^ 32) (m' : Mm)
    (hm : m' = { m with ram := m.ram.setWord (t + 4 * (g % 256)) w }) :
    (∀ i, i < 256 → table m' d i = table m d i) ∧ entry m' d g = w ∧
      (∀ g', g' < 65536 → g' ≠ g → entry m' d g' = entry m d g') ∧
      Within m m' t ∧ Leaves dirs s m m' ∧ (∀ s' d', s' ≠ s → dirs s' = some d' → Views m m' d') ∧
      ∀ s' d', dirs s' = some d' → ∀ i, 256 ≤ i → 4 * i + 4 ≤ FRAME → present (m'.ram.word (d' + 4 * i)) = false := by
  subst hm
  obtain ⟨htab, hself, hother, hsame⟩ := (h.space hs).setEntry hg ht hw
  have hx : has m dirs kept H (.table s (g / 256)) t := ⟨d, hs, by omega, ht⟩
  have hwithin : Within m { m with ram := m.ram.setWord (t + 4 * (g % 256)) w } t := hsame
  refine ⟨htab, hself, hother, hwithin, h.leaves hwithin hx ?_, fun s' d' hne hd => h.views hd hwithin hx (by simp) ?_,
    fun s' d' hd i hi hi' => ?_⟩
  · intro s' hne he
    exact hne (Option.some.inj he).symm
  · intro i he
    cases he
    exact hne rfl
  · have hdt : d' ≠ t := by
      rintro rfl
      cases h.apart _ (.dir s') d' hx hd
    rw [hwithin.word (h.of (o := .dir s') hd).aligned hdt hi']
    exact h.upper s' d' hd i hi hi'

theorem Estate.attachPage (h : Estate S m dirs kept (f :: H)) {w : Nat} (hw : w < 2 ^ 32) (hadr : PTE_ADDR w = f)
    (hp : present w = true)
    (hn : present (entry m d g) = false) :
      Estate S { m with ram := m.ram.setWord (t + 4 * (g % 256)) w } dirs kept H := by
  obtain ⟨htab, hself, hother, hwithin, -, hviews, hupper⟩ := h.setEntry hs hg ht hw _ rfl
  have hhand := hand_head h
  have hh :
      Handover (has m dirs kept (f :: H)) (has { m with ram := m.ram.setWord (t + 4 * (g % 256)) w } dirs kept H) f
      (.page s g) := by
    refine .of h.apart hhand (by simp) (fun y h₁ h₂ a => ?_) (fun a => mem_tail_iff h a) fun a => ?_
    · cases y with
      | hand => exact absurd rfl h₁
      | free | kept | dir => exact Iff.rfl
      | table s' i =>
          refine exists_congr fun d' => and_congr_right fun hd => and_congr_right fun hi => ?_
          by_cases hss : s' = s
          · subst hss
            cases hs.symm.trans hd
            rw [htab i hi]
          · rw [(hviews s' d' hss hd).table i hi]
      | page s' g' =>
          refine exists_congr fun d' => and_congr_right fun hd => and_congr_right fun hg' => ?_
          by_cases hss : s' = s
          · subst hss
            cases hs.symm.trans hd
            rw [hother g' hg' fun he => h₂ (by rw [he])]
          · rw [(hviews s' d' hss hd).entry g' hg']
    · constructor
      · rintro ⟨d', hd, -, -, he⟩
        cases hs.symm.trans hd
        rw [hself, hadr] at he
        exact .inr he.symm
      · rintro (⟨d', hd, -, hp', -⟩ | rfl)
        · cases hs.symm.trans hd
          rw [hn] at hp'
          cases hp'
        · exact ⟨d, hs, hg, by rw [hself]; exact hp, by rw [hself]; exact hadr⟩
  refine h.handover hhand hh rfl h.nodup (List.nodup_cons.mp h.hand).2 (fun a ha => ?_) hupper
  refine hwithin.blank (h.of (o := .free) ha).aligned ?_ (h.blank a ha)
  rintro rfl
  cases h.apart .free (.table s (g / 256)) a ha ⟨d, hs, by omega, ht⟩

theorem Estate.detachPage (h : Estate S m dirs kept H) (hp : present (entry m d g) = true) :
    Estate S { m with ram := m.ram.setWord (t + 4 * (g % 256)) 0 } dirs kept (PTE_ADDR (entry m d g) :: H) := by
  obtain ⟨htab, hself, hother, hwithin, -, hviews, hupper⟩ := h.setEntry hs hg ht (w := 0) (by decide) _ rfl
  have hpage : has m dirs kept H (.page s g) (PTE_ADDR (entry m d g)) := ⟨d, hs, hg, hp, rfl⟩
  have hh : Handover (has m dirs kept H)
      (has { m with ram := m.ram.setWord (t + 4 * (g % 256)) 0 } dirs kept (PTE_ADDR (entry m d g) :: H))
        (PTE_ADDR (entry m d g)) .hand := by
    refine .of h.apart hpage (by simp) (fun y h₁ h₂ a => ?_) (fun a => ?_) fun a => List.mem_cons.trans or_comm
    · cases y with
      | hand => exact absurd rfl h₂
      | free | kept | dir => exact Iff.rfl
      | table s' i =>
          refine exists_congr fun d' => and_congr_right fun hd => and_congr_right fun hi => ?_
          by_cases hss : s' = s
          · subst hss
            cases hs.symm.trans hd
            rw [htab i hi]
          · rw [(hviews s' d' hss hd).table i hi]
      | page s' g' =>
          refine exists_congr fun d' => and_congr_right fun hd => and_congr_right fun hg' => ?_
          by_cases hss : s' = s
          · subst hss
            cases hs.symm.trans hd
            rw [hother g' hg' fun he => h₁ (by rw [he])]
          · rw [(hviews s' d' hss hd).entry g' hg']
    · constructor
      · rintro ⟨d', hd, -, hp', -⟩
        cases hs.symm.trans hd
        rw [hself] at hp'
        cases hp'
      · rintro ⟨⟨d', hd, -, -, he⟩, hne⟩
        cases hs.symm.trans hd
        exact absurd he.symm hne
  refine h.handover hpage hh rfl h.nodup (List.nodup_cons.mpr ⟨fun hc => ?_, h.hand⟩) (fun a ha => ?_) hupper
  · cases h.apart .hand _ _ hc hpage
  · refine hwithin.blank (h.of (o := .free) ha).aligned ?_ (h.blank a ha)
    rintro rfl
    cases h.apart .free (.table s (g / 256)) a ha ⟨d, hs, by omega, ht⟩

theorem Estate.unmap (h : Estate S m dirs kept H) (hp : present (entry m d g) = true) (m' : Mm)
    (hm : m' = unmapped m (PTE_ADDR (entry m d g)) (t + 4 * (g % 256))) :
    Estate S m' dirs kept H ∧ Leaves dirs s m m' ∧ (∀ i, i < 256 → table m' d i = table m d i) ∧
      (∀ g', g' < 65536 → g' ≠ g → entry m' d g' = entry m d g') ∧ entry m' d g = 0 := by
  subst hm
  have hpage : has m dirs kept H (.page s g) (PTE_ADDR (entry m d g)) := ⟨d, hs, hg, hp, rfl⟩
  have hx : has m dirs kept H (.table s (g / 256)) t := ⟨d, hs, by omega, ht⟩
  have hf := h.of hpage
  have hft := h.of hx
  have hal : PTE_ADDR (entry m d g) % 262144 = 0 := hf.aligned
  have hal' : t % 262144 = 0 := hft.aligned
  have hne : PTE_ADDR (entry m d g) ≠ t := by
    intro he
    rw [he] at hpage
    cases h.apart _ _ t hpage hx
  rw [unmapped_eq (by rw [frame_eq]; omega)]
  obtain ⟨htab, hself, hother, hwithin, hleaves, -, -⟩ := h.setEntry hs hg ht (w := 0) (by decide) _ rfl
  obtain ⟨hpush, hviews, hwithin'⟩ := (h.detachPage hs hg ht hp).push
  have hv := hviews s d hs
  have hleaves' := (h.detachPage hs hg ht hp).leaves (s := s) hwithin' (hand_head (h.detachPage hs hg ht hp))
    (by simp [Place.slot])
  refine ⟨hpush, hleaves.trans hleaves', fun i hi => (hv.table i hi).trans (htab i hi), fun g' hg' hne => ?_, ?_⟩
  · exact (hv.entry g' hg').trans (hother g' hg' hne)
  · rw [hv.entry g hg, hself]

/-- An entry changes, but not its address or its type. -/
theorem Estate.retag (h : Estate S m dirs kept H) {w : Nat} (hw : w < 2 ^ 32)
    (hadr : PTE_ADDR w = PTE_ADDR (entry m d g))
    (hp : present w = present (entry m d g)) (m' : Mm)
      (hm : m' = { m with ram := m.ram.setWord (t + 4 * (g % 256)) w }) :
    Estate S m' dirs kept H := by
  obtain ⟨htab, hself, hother, hwithin, -, hviews, -⟩ := h.setEntry hs hg ht hw m' hm
  have hx : has m dirs kept H (.table s (g / 256)) t := ⟨d, hs, by omega, ht⟩
  have hiff : ∀ y a, has m' dirs kept H y a ↔ has m dirs kept H y a := by
    intro y a
    cases y with
    | free => rw [hm]; exact Iff.rfl
    | hand | kept | dir => exact Iff.rfl
    | table s' i =>
        refine exists_congr fun d' => and_congr_right fun hd => and_congr_right fun hi => ?_
        by_cases hss : s' = s
        · subst hss
          cases hs.symm.trans hd
          rw [htab i hi]
        · rw [(hviews s' d' hss hd).table i hi]
    | page s' g' =>
        refine exists_congr fun d' => and_congr_right fun hd => and_congr_right fun hg' => ?_
        by_cases hss : s' = s
        · subst hss
          cases hs.symm.trans hd
          by_cases hgg : g' = g
          · rw [hgg, hself, hadr, hp]
          · rw [hother g' hg' hgg]
        · rw [(hviews s' d' hss hd).entry g' hg']
  refine h.stay (by rw [hm]) (by rw [hm]) hiff hwithin (fun hc => ?_) fun s' hs' => ?_
  · cases h.apart .free _ t hc hx
  · cases h.apart (.dir s') _ t hs' hx

end Entries

theorem Estate.storePage (h : Estate S m dirs kept H) (hs : dirs s = some d) (hg : g < 65536)
    (hp : present (entry m d g) = true) {off : Nat} {l : List UInt8}
    (hl : off + l.length ≤ FRAME) (m' : Mm)
      (hm : m' = { m with ram := m.ram.setSlice (PTE_ADDR (entry m d g) + off) l }) :
    Estate S m' dirs kept H ∧ Leaves dirs s m m' ∧ Views m m' d := by
  have hpage : has m dirs kept H (.page s g) (PTE_ADDR (entry m d g)) := ⟨d, hs, hg, hp, rfl⟩
  have hw : Within m m' (PTE_ADDR (entry m d g)) := by
    rw [hm]
    exact within_slice (h.of hpage).aligned hl
  obtain ⟨h', hv⟩ := h.store (by rw [hm]) (by rw [hm]) hw hpage (by simp) (by simp) (by simp)
  exact ⟨h', h.leaves hw hpage fun s' hne he => hne (Option.some.inj he).symm, hv s d hs⟩

theorem Estate.attachTable (h : Estate S m dirs kept (f :: H)) (hs : dirs s = some d) (hi : i < 256)
    (ht : table m d i = none)
    (hzero : ∀ x, x < 256 → m.ram.word (f + 4 * x) = 0) (m' : Mm)
      (hm : m' = { m with ram := m.ram.setWord (d + 4 * i) (f ||| 1) }) :
    Estate S m' dirs kept H ∧ Leaves dirs s m m' ∧ table m' d i = some f ∧
      (∀ j, j < 256 → j ≠ i → table m' d j = table m d j) ∧
      ∀ g, g < 65536 → entry m' d g = entry m d g := by
  subst hm
  have hhand := hand_head h
  obtain ⟨-, hself, hother, hent, hsame⟩ :=
    (h.space hs).attachTable (h.loose List.mem_cons_self hs) (h.of hhand) hi ht hzero
  have hdir : has m dirs kept (f :: H) (.dir s) d := hs
  have hwithin : Within m { m with ram := m.ram.setWord (d + 4 * i) (f ||| 1) } d := hsame
  have hleaves : Leaves dirs s m { m with ram := m.ram.setWord (d + 4 * i) (f ||| 1) } :=
    h.leaves hwithin hdir fun s' hne he =>
    hne (Option.some.inj he).symm
  have hh :
      Handover (has m dirs kept (f :: H)) (has { m with ram := m.ram.setWord (d + 4 * i) (f ||| 1) } dirs kept H) f
      (.table s i) := by
    refine .of h.apart hhand (by simp) (fun y h₁ h₂ a => ?_) (fun a => mem_tail_iff h a) fun a => ?_
    · cases y with
      | hand => exact absurd rfl h₁
      | free | kept | dir => exact Iff.rfl
      | table s' j =>
          refine exists_congr fun d' => and_congr_right fun hd => and_congr_right fun hj => ?_
          by_cases hss : s' = s
          · subst hss
            cases hs.symm.trans hd
            rw [hother j hj fun he => h₂ (by rw [he])]
          · rw [(hleaves.views s' d' hss hd).table j hj]
      | page s' g' =>
          refine exists_congr fun d' => and_congr_right fun hd => and_congr_right fun hg' => ?_
          by_cases hss : s' = s
          · subst hss
            cases hs.symm.trans hd
            rw [hent g' hg']
          · rw [(hleaves.views s' d' hss hd).entry g' hg']
    · constructor
      · rintro ⟨d', hd, -, he⟩
        cases hs.symm.trans hd
        exact .inr (Option.some.inj (hself.symm.trans he)).symm
      · rintro (⟨d', hd, -, he⟩ | rfl)
        · cases hs.symm.trans hd
          rw [ht] at he
          cases he
        · exact ⟨d, hs, hi, hself⟩
  refine ⟨h.handover hhand hh rfl h.nodup (List.nodup_cons.mp h.hand).2 (fun a ha => ?_) fun s' d' hd j hj hj' => ?_,
    hleaves, hself, hother, hent⟩
  · refine hwithin.blank (h.of (o := .free) ha).aligned ?_ (h.blank a ha)
    rintro rfl
    cases h.apart .free _ a ha hdir
  · have hup := h.upper s' d' hd j hj hj'
    by_cases hdd : d' = d
    · subst hdd
      have hword : (m.ram.setWord (d' + 4 * i) (f ||| 1)).word (d' + 4 * j) = m.ram.word (d' + 4 * j) :=
        Mem.word_setWord_of_disjoint _ _ _ _ (by omega)
      rw [hword]
      exact hup
    · rw [hwithin.word (h.of (o := .dir s') hd).aligned hdd hj']
      exact hup

theorem Estate.newDir (h : Estate S m dirs kept (f :: H)) (hs : dirs s = none) (hb : Blank m f) :
    Estate S m (Function.update dirs s (some f)) kept H ∧ ∀ i, i < 256 → table m f i = none := by
  have htab : ∀ i, i < 256 → table m f i = none := by
    intro i hi
    unfold table
    rw [if_neg]
    rw [hb i (by rw [frame_eq]; omega)]
    decide
  have hent : ∀ g, g < 65536 → entry m f g = 0 := fun g hg => entry_of_none (htab _ (by omega))
  have hhand := hand_head h
  have hother : ∀ {s' : Nat}, s' ≠ s → Function.update dirs s (some f) s' = dirs s' :=
    fun hne => Function.update_of_ne hne _ _
  have hself : Function.update dirs s (some f) s = some f := Function.update_self ..
  have hh : Handover (has m dirs kept (f :: H)) (has m (Function.update dirs s (some f)) kept H) f (.dir s) := by
    refine .of h.apart hhand (by simp) (fun y h₁ h₂ a => ?_) (fun a => mem_tail_iff h a) fun a => ?_
    · cases y with
      | hand => exact absurd rfl h₁
      | free | kept => exact Iff.rfl
      | dir s' =>
          have hss : s' ≠ s := fun he => h₂ (by rw [he])
          exact iff_of_eq (congrArg (· = some a) (hother hss))
      | table s' j =>
          by_cases hss : s' = s
          · subst hss
            constructor
            · rintro ⟨d', hd, hj, he⟩
              cases hself.symm.trans hd
              rw [htab j hj] at he
              cases he
            · rintro ⟨d', hd, -⟩
              cases hs.symm.trans hd
          · change (∃ d', Function.update dirs s (some f) s' = some d' ∧ _) ↔ _
            rw [hother hss]
            exact Iff.rfl
      | page s' g' =>
          by_cases hss : s' = s
          · subst hss
            constructor
            · rintro ⟨d', hd, hg', hp, -⟩
              cases hself.symm.trans hd
              rw [hent g' hg'] at hp
              cases hp
            · rintro ⟨d', hd, -⟩
              cases hs.symm.trans hd
          · change (∃ d', Function.update dirs s (some f) s' = some d' ∧ _) ↔ _
            rw [hother hss]
            exact Iff.rfl
    · change Function.update dirs s (some f) s = some a ↔ dirs s = some a ∨ a = f
      rw [hself, hs]
      constructor
      · exact fun he => .inr (Option.some.inj he).symm
      · rintro (hc | rfl)
        · cases hc
        · rfl
  refine ⟨h.handover hhand hh rfl h.nodup (List.nodup_cons.mp h.hand).2 h.blank fun s' d' hd i hi hi' => ?_, htab⟩
  by_cases hss : s' = s
  · subst hss
    cases hself.symm.trans hd
    exact hb i hi'
  · rw [hother hss] at hd
    exact h.upper s' d' hd i hi hi'

/-- The page tables of a directory, in the order of their entries. -/
def tables (m : Mm) (d : Nat) (l : List Nat) : List Nat := l.filterMap (table m d)

theorem mem_tables {l : List Nat} : f ∈ tables m d l ↔ ∃ i, i ∈ l ∧ table m d i = some f := List.mem_filterMap

theorem nodup_tables (h : Estate S m dirs kept H) (hs : dirs s = some d) : (tables m d (List.range 256)).Nodup := by
  refine (List.pairwise_filterMap.mpr ?_ : List.Pairwise _ _)
  refine List.Pairwise.imp_of_mem (R := (· ≠ ·)) (fun {i j} hi hj hne a ha b hb => ?_) List.nodup_range
  rintro rfl
  have := h.apart (.table s i) (.table s j) a ⟨d, hs, List.mem_range.mp hi, ha⟩ ⟨d, hs, List.mem_range.mp hj, hb⟩
  cases this
  exact hne rfl

/-- An address space without pages is given up: its directory and its page tables are in hand. -/
theorem Estate.dropDir (h : Estate S m dirs kept H) (hs : dirs s = some d) (hp : ∀ g, g < 65536 →
    present (entry m d g) = false) :
    Estate S m (Function.update dirs s none) kept (tables m d (List.range 256) ++ d :: H) := by
  have hself : Function.update dirs s (none : Option Nat) s = none := Function.update_self ..
  have hother : ∀ {s' : Nat}, s' ≠ s → Function.update dirs s none s' = dirs s' :=
    fun hne => Function.update_of_ne hne _ _
  have hdir : has m dirs kept H (.dir s) d := hs
  have hmem : ∀ a, a ∈ tables m d (List.range 256) ↔ ∃ i, has m dirs kept H (.table s i) a := by
    intro a
    rw [mem_tables]
    constructor
    · rintro ⟨i, hi, ht⟩
      exact ⟨i, d, hs, List.mem_range.mp hi, ht⟩
    · rintro ⟨i, d', hd, hi, ht⟩
      cases hs.symm.trans hd
      exact ⟨i, List.mem_range.mpr hi, ht⟩
  have hr :
      Renamed (has m dirs kept H) (has m (Function.update dirs s none) kept (tables m d (List.range 256) ++ d :: H))
      fun o => if o.slot = some s then .hand else o := by
    intro y a
    have hsome : ∀ o : Place ω, has m dirs kept H o a → o.slot = some s →
        a ∈ tables m d (List.range 256) ++ d :: H := by
      intro o ho hslot
      cases o with
      | free | hand | kept => cases hslot
      | dir s' =>
          cases hslot
          cases hs.symm.trans ho
          simp
      | table s' i =>
          cases hslot
          exact List.mem_append_left _ ((hmem a).mpr ⟨i, ho⟩)
      | page s' g =>
          cases hslot
          obtain ⟨d', hd, hg, hpres, -⟩ := ho
          cases hs.symm.trans hd
          rw [hp g hg] at hpres
          cases hpres
    have hkeep : ∀ o : Place ω, o.slot ≠ some s → o ≠ .hand →
        (has m (Function.update dirs s none) kept (tables m d (List.range 256) ++ d :: H) o a ↔
          has m dirs kept H o a) := by
      intro o hslot hhand
      cases o with
      | hand => exact absurd rfl hhand
      | free | kept => exact Iff.rfl
      | dir s' =>
          have hss : s' ≠ s := fun he => hslot (congrArg some he)
          exact iff_of_eq (congrArg (· = some a) (hother hss))
      | table s' i =>
          have hss : s' ≠ s := fun he => hslot (congrArg some he)
          change (∃ d', Function.update dirs s none s' = some d' ∧ _) ↔ _
          rw [hother hss]
          exact Iff.rfl
      | page s' g =>
          have hss : s' ≠ s := fun he => hslot (congrArg some he)
          change (∃ d', Function.update dirs s none s' = some d' ∧ _) ↔ _
          rw [hother hss]
          exact Iff.rfl
    constructor
    · intro ha
      by_cases hhand : y = .hand
      · subst hhand
        rcases List.mem_append.mp ha with ht | ht
        · obtain ⟨i, hi⟩ := (hmem a).mp ht
          exact ⟨.table s i, hi, by simp [Place.slot]⟩
        · rcases List.mem_cons.mp ht with rfl | ht
          · exact ⟨.dir s, hdir, by simp [Place.slot]⟩
          · exact ⟨.hand, ht, by simp [Place.slot]⟩
      · by_cases hslot : y.slot = some s
        · cases y with
          | free | hand | kept => cases hslot
          | dir s' =>
              cases hslot
              cases hself.symm.trans ha
          | table s' i | page s' i =>
              cases hslot
              obtain ⟨d', hd, -⟩ := ha
              cases hself.symm.trans hd
        · exact ⟨y, (hkeep y hslot hhand).mp ha, if_neg hslot⟩
    · rintro ⟨o, ho, he⟩
      dsimp only at he
      by_cases hslot : o.slot = some s
      · rw [if_pos hslot] at he
        subst he
        exact hsome o ho hslot
      · rw [if_neg hslot] at he
        subst he
        by_cases hhand : o = .hand
        · subst hhand
          exact List.mem_append_right _ (List.mem_cons_of_mem d ho)
        · exact (hkeep o hslot hhand).mpr ho
  refine ⟨h.frame, hr.apart h.apart, fun a => (hr.owned a).trans (h.stock a), h.nodup, ?_, h.blank, fun s' d' hd => ?_⟩
  · refine List.nodup_append.mpr ⟨nodup_tables h hs, List.nodup_cons.mpr ⟨fun hc => ?_, h.hand⟩, fun a ha b hb => ?_⟩
    · cases h.apart .hand _ d hc hdir
    · obtain ⟨i, hi⟩ := (hmem a).mp ha
      rintro rfl
      rcases List.mem_cons.mp hb with rfl | hb
      · cases h.apart _ _ a hi hdir
      · cases h.apart _ .hand a hi hb
  · by_cases hss : s' = s
    · subst hss
      cases hself.symm.trans hd
    · rw [hother hss] at hd
      exact h.upper s' d' hd

end ArmXv6.FrameOwners
