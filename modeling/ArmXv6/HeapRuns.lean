import ArmXv6.HeapLayout

namespace ArmXv6.HeapRuns

open Param Lib.Chain Umalloc HeapLayout

/-- sbrk fails, or it gives memory that is aligned, above base and above all it gave before. -/
def Honest (base : Nat) (sbrk : Nat → List (Nat × Nat) → Nat → Option Nat) : Prop :=
  ∀ calls regions bytes a, sbrk calls regions bytes = some a →
    a % 8 = 0 ∧ base + 8 ≤ a ∧ a + bytes < 2 ^ 32 ∧ ∀ r ∈ regions, r.1 + r.2 ≤ a

variable {base n nunits prevp q x : Nat} {h g : Heap} {M M' B : List (Nat × Nat)} {b : Nat × Nat}
  {sbrk : Nat → List (Nat × Nat) → Nat → Option Nat}

def rounded (nunits : Nat) : Nat := if nunits < 4096 then 4096 else nunits

/-- The same for the one call of sbrk that the heap makes when it needs so many units. -/
def HonestAt (base : Nat) (sbrk : Nat → List (Nat × Nat) → Nat → Option Nat) (h : Heap) (nunits : Nat) : Prop :=
  ∀ a, sbrk h.calls h.regions (8 * rounded nunits) = some a →
    a % 8 = 0 ∧ base + 8 ≤ a ∧ a + 8 * rounded nunits < 2 ^ 32 ∧ ∀ r ∈ h.regions, r.1 + r.2 ≤ a

theorem Honest.at (hs : Honest base sbrk) (h : Heap) (nunits : Nat) : HonestAt base sbrk h nunits :=
  fun _ ha => hs _ _ _ _ ha

/-- That call of sbrk fails. -/
def Refused (sbrk : Nat → List (Nat × Nat) → Nat → Option Nat) (h : Heap) (nunits : Nat) : Prop :=
  sbrk h.calls h.regions (8 * rounded nunits) = none

/-- What malloc makes of a heap when it has found room: the block q and the heap g. -/
def Takes (base nunits : Nat) (B : List (Nat × Nat)) (r : Option (Nat × Heap)) : Prop :=
  ∃ q g M', r = some (plus q 1, g) ∧ Layout base g M' ((q, nunits) :: B)

theorem take_whole {M₁ M₂ : List (Nat × Nat)} {s a : Nat} (h' : Layout base h (M₁ ++ (x, s) :: (a, nunits) :: M₂) B) :
    Layout base { h.setPtr x (h.ptr a) with freep := x } (M₁ ++ (x, s) :: M₂) ((a, nunits) :: B) := by
  have hsolid : Solid base (a, nunits) := h'.tail_solid _ List.mem_cons_self
  have hcell : Cell base x := h'.cell (b := (x, s)) (by simp)
  have hring := h'.ring
  rw [List.map_append, List.map_cons, List.map_cons] at hring
  obtain ⟨hring₁, hring₂⟩ := hring.split
  obtain ⟨-, hring₂⟩ := hring₂
  obtain ⟨horder₁, horder₂, horder₁₂⟩ := List.pairwise_append.1 h'.order
  obtain ⟨hx, horder₂⟩ := List.pairwise_cons.1 horder₂
  have hmem : ∀ c, c ∈ M₁ ++ (x, s) :: M₂ ++ (a, nunits) :: B ↔ c ∈ M₁ ++ (x, s) :: (a, nunits) :: M₂ ++ B := by
    intro c
    simp only [List.mem_append, List.mem_cons]
    tauto
  constructor
  · have hhead := h'.head
    cases M₁ with
    | nil => exact hhead
    | cons m M₁ => exact hhead
  · change Leads (h.setPtr x (h.ptr a)).ptr base _ base
    rw [List.map_append]
    refine leads_append.2 ⟨x, hring₁.congr fun c hc => ?_, rfl, ?_⟩
    · obtain ⟨b, hb, rfl⟩ := List.mem_map.1 hc
      have hlt := horder₁₂ b hb (x, s) List.mem_cons_self
      simp only at hlt
      exact ptr_setPtr_of_ne _ _ (by omega)
    · change Leads _ ((h.setPtr x (h.ptr a)).ptr x) _ base
      rw [ptr_setPtr_self]
      refine hring₂.congr fun c hc => ?_
      obtain ⟨b, hb, rfl⟩ := List.mem_map.1 hc
      have hlt := hx b (List.mem_cons_of_mem _ hb)
      simp only at hlt
      exact ptr_setPtr_of_ne _ _ (by omega)
  · exact List.mem_map.2 ⟨(x, s), by simp, rfl⟩
  · refine List.pairwise_append.2
      ⟨horder₁, .cons (fun c hc => hx c (List.mem_cons_of_mem _ hc)) (List.pairwise_cons.1 horder₂).2,
      fun c hc d hd => ?_⟩
    rcases List.mem_cons.1 hd with rfl | hd
    · exact horder₁₂ c hc _ List.mem_cons_self
    · exact horder₁₂ c hc d (List.mem_cons_of_mem _ (List.mem_cons_of_mem _ hd))
  · intro c hc
    have hc' := (hmem c).1 hc
    exact (size_setPtr _ _ hcell (h'.cell hc')).trans (h'.sizes c hc')
  · exact fun c hc => h'.solid c ((hmem c).1 hc)
  · intro c hc
    rcases List.mem_cons.1 hc with rfl | hc
    · exact hsolid
    · exact h'.used c hc
  · intro y
    have := h'.cover y
    simp only [covers_append, covers_cons] at this ⊢
    change _ = given h.regions y
    omega
  · exact h'.regions
  · exact h'.once

theorem take_tail {M₁ M₂ : List (Nat × Nat)} {s a : Nat} (h' : Layout base h (M₁ ++ (x, s) :: (a, n) :: M₂) B)
    (hlt : nunits < n) (hpos : 0 < nunits) :
    Layout base { (h.setSize a (n - nunits)).setSize (a + 8 * (n - nunits)) nunits with freep := x }
      (M₁ ++ (x, s) :: (a, n - nunits) :: M₂) ((a + 8 * (n - nunits), nunits) :: B) := by
  have hsolid : Solid base (a, n) := h'.tail_solid _ List.mem_cons_self
  have hlow : base + 8 ≤ a := hsolid.low
  have hal : a % 8 = 0 := hsolid.aligned
  have hhigh : a + 8 * n < 2 ^ 32 := hsolid.high
  have hcella : Cell base a := hsolid.cell
  have hcellq : Cell base (a + 8 * (n - nunits)) := .inr ⟨by omega, by omega⟩
  obtain ⟨horder₁, horder₂, horder₁₂⟩ := List.pairwise_append.1 h'.order
  obtain ⟨hx, horder₂⟩ := List.pairwise_cons.1 horder₂
  obtain ⟨ha, horder₂⟩ := List.pairwise_cons.1 horder₂
  have hxa : x + 8 * s < a := hx (a, n) List.mem_cons_self
  have hptr : ∀ c, Cell base c → ((h.setSize a (n - nunits)).setSize (a + 8 * (n - nunits)) nunits).ptr c =
      h.ptr c := by
    intro c hc
    rw [ptr_setSize _ _ hcellq hc, ptr_setSize _ _ hcella hc]
  have hsize : ∀ c, c ≠ a → c ≠ a + 8 * (n - nunits) →
      ((h.setSize a (n - nunits)).setSize (a + 8 * (n - nunits)) nunits).size c = h.size c := by
    intro c hca hcq
    rw [size_setSize_of_ne _ _ hcq, size_setSize_of_ne _ _ hca]
  -- no other block starts inside the one that is split
  have hout : ∀ b ∈ M₁ ++ (x, s) :: M₂ ++ B, b.1 < a ∨ a + 8 * n ≤ b.1 := by
    intro b hb
    simp only [List.mem_append, List.mem_cons] at hb
    rcases hb with (hb | rfl | hb) | hb
    · have := horder₁₂ b hb (a, n) (by simp)
      simp only at this
      omega
    · simp only
      omega
    · have := ha b hb
      simp only at this
      omega
    · have hap := (List.pairwise_append.1 h'.apart).2.2 (a, n) (by simp) b hb
      have := (h'.used b hb).pos
      unfold Apart at hap
      simp only at hap
      omega
  have hsizes : ∀ b ∈ M₁ ++ (x, s) :: M₂ ++ B,
      ((h.setSize a (n - nunits)).setSize (a + 8 * (n - nunits)) nunits).size b.1 = b.2 := by
    intro b hb
    have := hout b hb
    rw [hsize b.1 (by omega) (by omega)]
    refine h'.sizes b ?_
    simp only [List.mem_append, List.mem_cons] at hb ⊢
    tauto
  have hmem : ∀ c, c ∈ M₁ ++ (x, s) :: (a, n - nunits) :: M₂ ++ (a + 8 * (n - nunits), nunits) :: B →
      c = (a, n - nunits) ∨ c = (a + 8 * (n - nunits), nunits) ∨ c ∈ M₁ ++ (x, s) :: M₂ ++ B := by
    intro c hc
    simp only [List.mem_append, List.mem_cons] at hc ⊢
    tauto
  have hhead : Solid base (a, n - nunits) := ⟨hlow, hal, by simp only; omega, by simp only; omega⟩
  have htail : Solid base (a + 8 * (n - nunits), nunits) :=
    ⟨by simp only; omega, by simp only; omega, hpos, by simp only; omega⟩
  constructor
  · have hhead := h'.head
    cases M₁ with
    | nil => exact hhead
    | cons m M₁ => exact hhead
  · have hring := h'.ring
    simp only [List.map_append, List.map_cons] at hring ⊢
    refine hring.congr fun c hc => hptr c ?_
    have hc' : c ∈ (M₁ ++ (x, s) :: (a, n) :: M₂).map Prod.fst := by simpa using hc
    obtain ⟨b, hb, rfl⟩ := List.mem_map.1 hc'
    exact h'.cell (List.mem_append_left _ hb)
  · exact List.mem_map.2 ⟨(x, s), by simp, rfl⟩
  · refine List.pairwise_append.2 ⟨horder₁, .cons (fun c hc => ?_) (.cons (fun c hc => ?_) horder₂),
      fun c hc d hd => ?_⟩
    · rcases List.mem_cons.1 hc with rfl | hc
      · exact hxa
      · exact hx c (List.mem_cons_of_mem _ hc)
    · have := ha c hc
      simp only at this ⊢
      omega
    · rcases List.mem_cons.1 hd with rfl | hd
      · exact horder₁₂ c hc _ List.mem_cons_self
      · rcases List.mem_cons.1 hd with rfl | hd
        · exact horder₁₂ c hc (a, n) (by simp)
        · exact horder₁₂ c hc d (by simp [hd])
  · intro c hc
    change ((h.setSize a (n - nunits)).setSize (a + 8 * (n - nunits)) nunits).size c.1 = c.2
    rcases hmem c hc with rfl | rfl | hc
    · rw [size_setSize_of_ne _ _ (by simp only; omega), size_setSize_self]
    · rw [size_setSize_self]
    · exact hsizes c hc
  · intro c hc
    rcases hmem c hc with rfl | rfl | hc
    · exact .inr hhead
    · exact .inr htail
    · refine h'.solid c ?_
      simp only [List.mem_append, List.mem_cons] at hc ⊢
      tauto
  · intro c hc
    rcases List.mem_cons.1 hc with rfl | hc
    · exact htail
    · exact h'.used c hc
  · intro y
    have hy := h'.cover y
    have hsplit : covers [(a, n)] y = covers [(a, n - nunits), (a + 8 * (n - nunits), nunits)] y := by
      have hj := covers_joined (a, n - nunits) [(a + 8 * (n - nunits), nunits)] y
      simp only [joined, if_true] at hj
      rw [← hj, show n - nunits + nunits = n by omega]
    simp only [covers_append, covers_cons, covers_nil] at hy hsplit ⊢
    change _ = given h.regions y
    omega
  · exact h'.regions
  · exact h'.once

theorem take_spec (h' : Layout base h M B) (hpos : 0 < nunits) (hprev : prevp ∈ M.map Prod.fst)
    (hfit : nunits ≤ h.size (h.ptr prevp)) (fuel : Nat) :
    Takes base nunits B (malloc.loop sbrk nunits (fuel + 1) prevp (h.ptr prevp) h) := by
  obtain ⟨⟨x, s⟩, hmem, rfl⟩ := List.mem_map.1 hprev
  obtain ⟨M₁, M₂, rfl⟩ := List.append_of_mem hmem
  have hring := h'.ring
  rw [List.map_append, List.map_cons] at hring
  unfold malloc.loop
  rw [if_pos hfit]
  cases M₂ with
  | nil =>
      -- the block after the last one is base, which is empty
      have hnext : h.ptr x = base := hring.next_nil
      have hzero := h'.sizes (base, 0) (List.mem_append_left _ h'.base_mem)
      simp only [hnext, hzero] at hfit
      omega
  | cons c M₂ =>
      obtain ⟨a, n⟩ := c
      have hnext : h.ptr x = a := hring.next_cons
      have hsize : h.size a = n := h'.sizes (a, n) (by simp)
      simp only [hnext, hsize] at hfit ⊢
      by_cases heq : n = nunits
      · subst heq
        rw [if_pos rfl]
        exact ⟨a, _, _, rfl, take_whole h'⟩
      · rw [if_neg heq]
        have hhigh := (h'.tail_solid (a, n) List.mem_cons_self).high
        simp only at hhigh
        have hplus : plus a (n - nunits) = a + 8 * (n - nunits) := Nat.mod_eq_of_lt (by omega)
        simp only [size_setSize_self, hplus]
        exact ⟨_, _, _, rfl, take_tail h' (by omega) hpos⟩

theorem Layout.exists_fit {a : Nat} (h' : Layout base h M B) (ha : a ∈ M.map Prod.fst) (hfit : nunits ≤ h.size a) :
    ∃ b ∈ M, nunits ≤ b.2 := by
  obtain ⟨b, hb, rfl⟩ := List.mem_map.1 ha
  exact ⟨b, hb, h'.sizes b (List.mem_append_left _ hb) ▸ hfit⟩

variable (sbrk) in
/-- One round through the list: malloc finds room, or it comes to the start and asks for more. -/
theorem loop_search (h' : Layout base h M B) (hpos : 0 < nunits) {T : List Nat} (hprev : prevp ∈ M.map Prod.fst)
    (hT : Leads h.ptr (h.ptr prevp) T h.freep) (hsub : ∀ a ∈ T, a ∈ M.map Prod.fst) (hstart : h.freep ∉ T)
      (fuel : Nat) :
    (∃ b ∈ M, nunits ≤ b.2) ∧
      Takes base nunits B (malloc.loop sbrk nunits (fuel + 1 + T.length) prevp (h.ptr prevp) h) ∨
      (∀ a ∈ h.freep :: T, h.size a < nunits) ∧
      malloc.loop sbrk nunits (fuel + 1 + T.length) prevp (h.ptr prevp) h =
        (do
          let (q, h) ← morecore sbrk fuel nunits h
          if q = 0 then some (0, h) else malloc.loop sbrk nunits fuel q (h.ptr q) h) := by
  induction T generalizing prevp with
  | nil =>
      have hend : h.ptr prevp = h.freep := hT
      by_cases hfit : nunits ≤ h.size (h.ptr prevp)
      · exact .inl ⟨Layout.exists_fit h' h'.freep (hend ▸ hfit), take_spec h' hpos hprev hfit fuel⟩
      · refine .inr ⟨fun a ha => ?_, ?_⟩
        · rw [List.mem_singleton.1 ha, ← hend]
          omega
        · change malloc.loop sbrk nunits (fuel + 1) prevp (h.ptr prevp) h = _
          rw [malloc.loop, if_neg hfit, if_pos hend]
  | cons a T ih =>
      obtain ⟨ha, hT⟩ := hT
      by_cases hfit : nunits ≤ h.size (h.ptr prevp)
      · exact .inl ⟨Layout.exists_fit h' (hsub a List.mem_cons_self) (ha ▸ hfit),
          take_spec h' hpos hprev hfit (fuel + 1 + T.length)⟩
      · have hne : h.ptr prevp ≠ h.freep := by
          rw [ha]
          rintro rfl
          exact hstart List.mem_cons_self
        have hstep : malloc.loop sbrk nunits (fuel + 1 + (a :: T).length) prevp (h.ptr prevp) h =
            malloc.loop sbrk nunits (fuel + 1 + T.length) a (h.ptr a) h := by
          change malloc.loop sbrk nunits (fuel + 1 + T.length + 1) prevp (h.ptr prevp) h = _
          rw [malloc.loop, if_neg hfit, if_neg hne, ha]
        rw [hstep]
        rcases ih (hsub a List.mem_cons_self) hT (fun b hb => hsub b (List.mem_cons_of_mem a hb))
          (fun hm => hstart (List.mem_cons_of_mem a hm)) with hfound | ⟨hsmall, hmore⟩
        · exact .inl hfound
        · refine .inr ⟨fun b hb => ?_, hmore⟩
          rcases List.mem_cons.1 hb with rfl | hb
          · exact hsmall _ List.mem_cons_self
          · rcases List.mem_cons.1 hb with rfl | hb
            · rw [← ha]
              omega
            · exact hsmall b (List.mem_cons_of_mem _ hb)

variable (sbrk) in
/-- The same from the start of the search: a round takes as many steps as the list has blocks. -/
theorem round (h' : Layout base h M B) (hpos : 0 < nunits) (fuel : Nat) :
    (∃ b ∈ M, nunits ≤ b.2) ∧
      Takes base nunits B (malloc.loop sbrk nunits (fuel + M.length) h.freep (h.ptr h.freep) h) ∨
      (∀ b ∈ M, b.2 < nunits) ∧
      malloc.loop sbrk nunits (fuel + M.length) h.freep (h.ptr h.freep) h =
        (do
          let (q, h) ← morecore sbrk fuel nunits h
          if q = 0 then some (0, h) else malloc.loop sbrk nunits fuel q (h.ptr q) h) := by
  obtain ⟨X, Y, hXY⟩ := List.append_of_mem h'.freep
  have hring := h'.ring
  rw [hXY] at hring
  have hmem : ∀ a, a ∈ h.freep :: (Y ++ X) ↔ a ∈ M.map Prod.fst := by
    intro a
    rw [hXY]
    simp only [List.mem_append, List.mem_cons]
    tauto
  have hlen : fuel + M.length = fuel + 1 + (Y ++ X).length := by
    have := congrArg List.length hXY
    simp only [List.length_map, List.length_append, List.length_cons] at this ⊢
    omega
  have hnodup : (M.map Prod.fst).Nodup := by
    rw [List.Nodup, List.pairwise_map]
    refine h'.order.imp fun {a b} hab => ?_
    omega
  have hstart : h.freep ∉ Y ++ X := by
    rw [hXY, List.nodup_append] at hnodup
    obtain ⟨-, hY, hdisj⟩ := hnodup
    intro hm
    rcases List.mem_append.1 hm with hm | hm
    · exact (List.nodup_cons.1 hY).1 hm
    · exact hdisj _ hm _ List.mem_cons_self rfl
  rw [hlen]
  rcases loop_search sbrk h' hpos h'.freep hring.rotate.2
    (fun a ha => (hmem a).1 (List.mem_cons_of_mem _ ha)) hstart fuel
    with hfound | ⟨hsmall, hmore⟩
  · exact .inl hfound
  · refine .inr ⟨fun b hb => ?_, hmore⟩
    rw [← h'.sizes b (List.mem_append_left _ hb)]
    exact hsmall b.1 ((hmem b.1).2 (List.mem_map_of_mem hb))

/-- sbrk gives a region, which is a block that is not free yet. -/
theorem grow_spec (h' : Layout base h M B) {hp nu : Nat} (hal : hp % 8 = 0) (hlow : base + 8 ≤ hp)
    (hhigh : hp + 8 * nu < 2 ^ 32)
    (habove : ∀ r ∈ h.regions, r.1 + r.2 ≤ hp) (hpos : 0 < nu) (calls : Nat) :
    Layout base (Heap.setSize { h with calls := calls, regions := (hp, 8 * nu) :: h.regions } hp nu) M
      ((hp, nu) :: B) := by
  have hsolid : Solid base (hp, nu) := ⟨hlow, hal, hpos, hhigh⟩
  have hcell : Cell base hp := hsolid.cell
  have hgiven : ∀ x, hp ≤ x → given h.regions x = 0 := by
    intro x hx
    refine List.countP_eq_zero.2 fun r hr => ?_
    have := habove r hr
    simp only [decide_eq_true_eq]
    omega
  have hbelow : ∀ b ∈ M ++ B, b.1 < hp := by
    intro b hb
    rcases h'.solid b hb with rfl | hs
    · simp only
      omega
    · by_contra hge
      have hzero := hgiven b.1 (by omega)
      rw [← h'.cover b.1] at hzero
      have := covers_pos hb (x := b.1) ⟨le_rfl, by have := hs.pos; omega⟩
      omega
  have hmem : ∀ c, c ∈ M ++ (hp, nu) :: B → c = (hp, nu) ∨ c ∈ M ++ B := by
    intro c hc
    simp only [List.mem_append, List.mem_cons] at hc ⊢
    tauto
  constructor
  · exact h'.head
  · refine h'.ring.congr fun a ha => ?_
    obtain ⟨b, hb, rfl⟩ := List.mem_map.1 ha
    exact ptr_setSize _ _ hcell (h'.cell (List.mem_append_left _ hb))
  · exact h'.freep
  · exact h'.order
  · intro c hc
    rcases hmem c hc with rfl | hc
    · exact size_setSize_self _ _ _
    · have := hbelow c hc
      exact (size_setSize_of_ne _ _ (by omega)).trans (h'.sizes c hc)
  · intro c hc
    rcases hmem c hc with rfl | hc
    · exact .inr hsolid
    · exact h'.solid c hc
  · intro c hc
    rcases List.mem_cons.1 hc with rfl | hc
    · exact hsolid
    · exact h'.used c hc
  · intro y
    have hy := h'.cover y
    change _ = given ((hp, 8 * nu) :: h.regions) y
    simp only [covers_append, covers_cons, given, List.countP_cons, decide_eq_true_eq] at hy ⊢
    have hif : (if Contains y (hp, nu) then 1 else 0) = if hp ≤ y ∧ y < hp + 8 * nu then 1 else 0 :=
      if_congr Iff.rfl rfl rfl
    omega
  · intro r hr
    rcases List.mem_cons.1 hr with rfl | hr
    · exact ⟨hlow, hal, hhigh⟩
    · exact h'.regions r hr
  · intro y
    change given ((hp, 8 * nu) :: h.regions) y ≤ 1
    have hy := h'.once y
    have hzero := hgiven y
    simp only [given, List.countP_cons, decide_eq_true_eq] at hy hzero ⊢
    split <;> omega

theorem Layout.freep_pos (h' : Layout base h M B) (hbase : 0 < base) : h.freep ≠ 0 := by
  obtain ⟨b, hb, hf⟩ := List.mem_map.1 h'.freep
  rcases h'.solid b (List.mem_append_left _ hb) with rfl | hs
  · simp only at hf
    omega
  · have := hs.low
    omega

theorem uint_rounded (hn : nunits < 2 ^ 29) : uint (8 * rounded nunits) = 8 * rounded nunits := by
  refine Nat.mod_eq_of_lt ?_
  unfold rounded
  split <;> omega

theorem morecore_eq (sbrk : Nat → List (Nat × Nat) → Nat → Option Nat) (fuel nunits : Nat) (h : Heap) :
    morecore sbrk fuel nunits h = match sbrk h.calls h.regions (uint (8 * rounded nunits)) with
      | none => some (0, { h with calls := h.calls + 1 })
      | some hp =>
          (free fuel (plus hp 1)
            (Heap.setSize { h with calls := h.calls + 1, regions := (hp, uint (8 * rounded nunits)) :: h.regions } hp
          (rounded nunits))).bind fun g => some (g.freep, g) := by
  rw [Nat.mul_comm]
  rfl

theorem morecore_spec (hbase : 0 < base) (hs : HonestAt base sbrk h nunits) (h' : Layout base h M B)
    (hn : nunits < 2 ^ 29) {fuel : Nat}
    (hfuel : M.length ≤ fuel) :
    (∃ g, morecore sbrk fuel nunits h = some (0, g) ∧ Refused sbrk h nunits ∧ Layout base g M B) ∨
      ∃ g M', morecore sbrk fuel nunits h = some (g.freep, g) ∧ g.freep ≠ 0 ∧ Layout base g M' B ∧
        M'.length ≤ M.length + 1 ∧
        ∃ b ∈ M', nunits ≤ b.2 := by
  have hnu : nunits ≤ rounded nunits ∧ 0 < rounded nunits := by
    unfold rounded
    split <;> omega
  have hmore := morecore_eq sbrk fuel nunits h
  rw [uint_rounded hn] at hmore
  cases hask : sbrk h.calls h.regions (8 * rounded nunits) with
  | none =>
      rw [hask] at hmore
      refine .inl ⟨{ h with calls := h.calls + 1 }, hmore, hask, ?_⟩
      exact ⟨h'.head, h'.ring, h'.freep, h'.order, h'.sizes, h'.solid, h'.used, h'.cover, h'.regions, h'.once⟩
  | some hp =>
      obtain ⟨hal, hlow, hhigh, habove⟩ := hs _ hask
      obtain ⟨M', g, hfree, hg, -, hlen, b, hb, hle⟩ :=
        free_spec (grow_spec h' hal hlow hhigh habove hnu.2 (h.calls + 1)) hfuel
      rw [hask] at hmore
      simp only [hfree, Option.bind_some] at hmore
      exact .inr ⟨g, M', hmore, Layout.freep_pos hg hbase, hg, hlen, b, hb, hnu.1.trans hle⟩

theorem loop_spec (hbase : 0 < base) (hs : HonestAt base sbrk h nunits) (h' : Layout base h M B) (hpos : 0 < nunits)
    (hn : nunits < 2 ^ 29)
    {fuel : Nat} (hfuel : M.length + 1 ≤ fuel) :
    (∃ g M', malloc.loop sbrk nunits (fuel + M.length) h.freep (h.ptr h.freep) h = some (0, g) ∧
      (∀ b ∈ M, b.2 < nunits) ∧
        Refused sbrk h nunits ∧ Layout base g M' B) ∨
      Takes base nunits B (malloc.loop sbrk nunits (fuel + M.length) h.freep (h.ptr h.freep) h) := by
  rcases round sbrk h' hpos fuel with ⟨-, hfound⟩ | ⟨hshort, hmore⟩
  · exact .inr hfound
  · rcases morecore_spec hbase hs h' hn (Nat.le_of_succ_le hfuel) with ⟨g, hm, hno, hg⟩ | ⟨g, M', hm, hne, hg,
      hlen, b, hb, hle⟩
    · refine .inl ⟨g, M, ?_, hshort, hno, hg⟩
      rw [hmore, hm]
      rfl
    · -- now one of the blocks is large enough
      have hcont : malloc.loop sbrk nunits (fuel + M.length) h.freep (h.ptr h.freep) h =
          malloc.loop sbrk nunits (fuel - M'.length + M'.length) g.freep (g.ptr g.freep) g := by
        rw [hmore, hm, show fuel - M'.length + M'.length = fuel by omega]
        change (if g.freep = 0 then some (0, g) else malloc.loop sbrk nunits fuel g.freep (g.ptr g.freep) g) = _
        rw [if_neg hne]
      rw [hcont]
      rcases round sbrk hg hpos (fuel - M'.length) with ⟨-, hfound⟩ | ⟨hsmall, -⟩
      · exact .inr hfound
      · have := hsmall b hb
        omega

/-- The blocks behind the pointers that the program has, with the bytes it asked for. -/
def used (live : List (Nat × Nat)) : List (Nat × Nat) := live.map fun p => (p.1 - 8, (p.2 + 7) / 8 + 1)

/-- No heap yet, or a heap with the blocks that the program has. -/
def Heaped (base : Nat) (h : Heap) (live : List (Nat × Nat)) : Prop :=
  h.freep = 0 ∧ h.regions = [] ∧ live = [] ∨ ∃ M, Layout base h M (used live)

theorem start_layout (base : Nat) (h : Heap) (hr : h.regions = []) :
    Layout base (Heap.setSize { h.setPtr base base with freep := base } base 0) [(base, 0)] [] := by
  have hcell : Cell base base := .inl rfl
  have hptr : (Heap.setSize { h.setPtr base base with freep := base } base 0).ptr base = base := by
    rw [ptr_setSize _ _ hcell hcell]
    exact ptr_setPtr_self h base base
  constructor
  · rfl
  · exact ⟨rfl, hptr⟩
  · exact List.mem_singleton.2 rfl
  · exact List.pairwise_singleton _ _
  · intro b hb
    cases List.mem_singleton.1 hb
    exact size_setSize_self _ _ _
  · intro b hb
    exact .inl (List.mem_singleton.1 hb)
  · intro b hb
    cases hb
  · intro x
    change _ = given h.regions x
    rw [hr]
    have hnot : ¬Contains x (base, 0) := by
      simp only [Contains]
      omega
    simp [given, hnot]
  · intro r hr'
    change r ∈ h.regions at hr'
    rw [hr] at hr'
    cases hr'
  · intro x
    change given h.regions x ≤ 1
    rw [hr]
    exact Nat.zero_le 1

theorem find_mono {bp p a fuel fuel' : Nat} (hf : free.find h bp fuel p = some a) (hle : fuel ≤ fuel') :
    free.find h bp fuel' p = some a := by
  induction fuel generalizing p fuel' with
  | zero => cases hf
  | succ fuel ih =>
      obtain ⟨k, rfl⟩ : ∃ k, fuel' = k + 1 := ⟨fuel' - 1, by omega⟩
      unfold free.find at hf ⊢
      by_cases h₁ : p < bp ∧ bp < h.ptr p
      · rw [if_pos h₁] at hf ⊢
        exact hf
      · rw [if_neg h₁] at hf ⊢
        by_cases h₂ : h.ptr p ≤ p ∧ (p < bp ∨ bp < h.ptr p)
        · rw [if_pos h₂] at hf ⊢
          exact hf
        · rw [if_neg h₂] at hf ⊢
          exact ih hf (Nat.le_of_succ_le_succ hle)

theorem free_mono {ap fuel fuel' : Nat} (hf : free fuel ap h = some g) (hle : fuel ≤ fuel') :
    free fuel' ap h = some g := by
  unfold free at hf ⊢
  obtain ⟨p, hp, hg⟩ := Option.bind_eq_some_iff.1 hf
  exact Option.bind_eq_some_iff.2 ⟨p, find_mono hp hle, hg⟩

theorem morecore_mono {nu fuel fuel' : Nat} {r : Nat × Heap} (hf : morecore sbrk fuel nu h = some r)
    (hle : fuel ≤ fuel') :
    morecore sbrk fuel' nu h = some r := by
  unfold morecore at hf ⊢
  simp only at hf ⊢
  split at hf
  · exact hf
  · obtain ⟨g, hg, hr⟩ := Option.bind_eq_some_iff.1 hf
    exact Option.bind_eq_some_iff.2 ⟨g, free_mono hg hle, hr⟩

theorem loop_mono {p fuel fuel' : Nat} {r : Nat × Heap} (hf : malloc.loop sbrk nunits fuel prevp p h = some r)
    (hle : fuel ≤ fuel') :
    malloc.loop sbrk nunits fuel' prevp p h = some r := by
  induction fuel generalizing prevp p h fuel' with
  | zero => cases hf
  | succ fuel ih =>
      obtain ⟨k, rfl⟩ : ∃ k, fuel' = k + 1 := ⟨fuel' - 1, by omega⟩
      have hk : fuel ≤ k := Nat.le_of_succ_le_succ hle
      unfold malloc.loop at hf ⊢
      by_cases hfit : nunits ≤ h.size p
      · rw [if_pos hfit] at hf ⊢
        exact hf
      · rw [if_neg hfit] at hf ⊢
        by_cases hstart : p = h.freep
        · rw [if_pos hstart] at hf ⊢
          obtain ⟨⟨q, g⟩, hm, hr⟩ := Option.bind_eq_some_iff.1 hf
          refine Option.bind_eq_some_iff.2 ⟨(q, g), morecore_mono hm hk, ?_⟩
          simp only at hr ⊢
          by_cases hq : q = 0
          · rw [if_pos hq] at hr ⊢
            exact hr
          · rw [if_neg hq] at hr ⊢
            exact ih hr hk
        · rw [if_neg hstart] at hf ⊢
          exact ih hf hk

/-- What malloc makes of a heap with the blocks B. -/
def Mallocs (base nbytes : Nat) (live : List (Nat × Nat)) (r : Option (Nat × Heap)) : Prop :=
  ∃ p g, r = some (p, g) ∧ (p = 0 ∧ Heaped base g live ∨ p ≠ 0 ∧ Heaped base g ((p, nbytes) :: live))

/-- The heap in which malloc begins its search. -/
def begun (base : Nat) (h : Heap) : Heap :=
  if h.freep = 0 then Heap.setSize { h.setPtr base base with freep := base } base 0 else h

theorem malloc_eq (sbrk : Nat → List (Nat × Nat) → Nat → Option Nat) (base fuel nbytes : Nat) (h : Heap) :
    malloc sbrk base fuel nbytes h =
      malloc.loop sbrk (uint (nbytes + 8 - 1) / 8 + 1) fuel (begun base h).freep
        ((begun base h).ptr (begun base h).freep) (begun base h) := rfl

@[simp] theorem regions_begun (base : Nat) (h : Heap) : (begun base h).regions = h.regions := by
  unfold begun
  split <;> rfl

@[simp] theorem calls_begun (base : Nat) (h : Heap) : (begun base h).calls = h.calls := by
  unfold begun
  split <;> rfl

theorem begun_layout (hbase : 0 < base) {live : List (Nat × Nat)} (h' : Heaped base h live) :
    ∃ M, Layout base (begun base h) M (used live) := by
  rcases h' with ⟨hz, hr, rfl⟩ | ⟨M, hM⟩
  · refine ⟨[(base, 0)], ?_⟩
    rw [begun, if_pos hz]
    exact start_layout base h hr
  · refine ⟨M, ?_⟩
    rw [begun, if_neg (Layout.freep_pos hM hbase)]
    exact hM

/-- A request that does not wrap: malloc fails because no block is large enough and sbrk fails, or
it gives a block that is used from then
on. -/
theorem malloc_cases (hbase : 0 < base) {live : List (Nat × Nat)} (h' : Layout base (begun base h) M (used live))
    {nbytes : Nat}
    (hs : HonestAt base sbrk h ((nbytes + 7) / 8 + 1)) (hn : nbytes ≤ 2 ^ 32 - 16) :
    ∃ fuel p g, malloc sbrk base fuel nbytes h = some (p, g) ∧
      ((p = 0 ∧ (∀ b ∈ M, b.2 < (nbytes + 7) / 8 + 1) ∧ Refused sbrk h ((nbytes + 7) / 8 + 1) ∧ ∃ M',
        Layout base g M' (used live)) ∨
        (p ≠ 0 ∧ ∃ M', Layout base g M' (used ((p, nbytes) :: live)))) := by
  have hs' : HonestAt base sbrk (begun base h) ((nbytes + 7) / 8 + 1) := by
    unfold HonestAt
    rw [calls_begun, regions_begun]
    exact hs
  have hunits : uint (nbytes + 8 - 1) / 8 + 1 = (nbytes + 7) / 8 + 1 := by
    unfold uint
    omega
  refine ⟨M.length + 1 + M.length, ?_⟩
  rw [malloc_eq, hunits]
  rcases loop_spec hbase hs' h' (Nat.succ_pos _) (by omega) (Nat.le_refl (M.length + 1)) with ⟨g, M', hr, hshort, hno,
    hg⟩ | ⟨q, g, M', hr, hg⟩
  · refine ⟨0, g, hr, .inl ⟨rfl, hshort, ?_, M', hg⟩⟩
    unfold Refused at hno ⊢
    rw [calls_begun, regions_begun] at hno
    exact hno
  · have hsolid := hg.used _ List.mem_cons_self
    have hlow : base + 8 ≤ q := hsolid.low
    have hhigh : q + 8 * ((nbytes + 7) / 8 + 1) < 2 ^ 32 := hsolid.high
    have hplus : plus q 1 = q + 8 := Nat.mod_eq_of_lt (by omega)
    rw [hplus] at hr
    refine ⟨q + 8, g, hr, .inr ⟨by omega, M', ?_⟩⟩
    change Layout base g M' ((q + 8 - 8, (nbytes + 7) / 8 + 1) :: used live)
    rw [Nat.add_sub_cancel]
    exact hg

theorem malloc_spec (hbase : 0 < base) {live : List (Nat × Nat)} (h' : Heaped base h live) {nbytes : Nat}
    (hs : HonestAt base sbrk h ((nbytes + 7) / 8 + 1)) (hn : nbytes ≤ 2 ^ 32 - 16) :
      ∃ fuel, Mallocs base nbytes live (malloc sbrk base fuel nbytes h) := by
  obtain ⟨M, hM⟩ := begun_layout hbase h'
  obtain ⟨fuel, p, g, hm, ⟨rfl, -, -, M', hg⟩ | ⟨hp, M', hg⟩⟩ := malloc_cases hbase hM hs hn
  · exact ⟨fuel, 0, g, hm, .inl ⟨rfl, .inr ⟨M', hg⟩⟩⟩
  · exact ⟨fuel, p, g, hm, .inr ⟨hp, .inr ⟨M', hg⟩⟩⟩

/-- A program's heap, and the pointers it has from malloc with the bytes it asked for. -/
structure Sys where
  heap : Heap
  live : List (Nat × Nat)

/-- A call that returns, or stores to bytes that the program has asked for. -/
inductive Step (sbrk : Nat → List (Nat × Nat) → Nat → Option Nat) (base : Nat) : Sys → Sys → Prop
  | malloc {s : Sys} {fuel nbytes p : Nat} {h : Heap} (hn : nbytes < 2 ^ 28)
      (hm : Umalloc.malloc sbrk base fuel nbytes s.heap = some (p, h)) :
      Step sbrk base s ⟨h, if p = 0 then s.live else (p, nbytes) :: s.live⟩
  | free {s : Sys} {fuel : Nat} {b : Nat × Nat} {h : Heap} (hb : b ∈ s.live)
      (hf : Umalloc.free fuel b.1 s.heap = some h) :
      Step sbrk base s ⟨h, s.live.erase b⟩
  | store {s : Sys} {ram : Nat → Nat} (hs : ∀ a, (∀ b ∈ s.live, ¬(b.1 ≤ a ∧ a < b.1 + b.2)) → ram a = s.heap.ram a) :
      Step sbrk base s ⟨{ s.heap with ram := ram }, s.live⟩

/-- What a program comes to, from the start with any memory. -/
inductive Reaches (sbrk : Nat → List (Nat × Nat) → Nat → Option Nat) (base : Nat) : Sys → Prop
  | start (ram : Nat → Nat) : Reaches sbrk base ⟨⟨ram, 0, [], 0⟩, []⟩
  | step {s s' : Sys} (hr : Reaches sbrk base s) (hs : Step sbrk base s s') : Reaches sbrk base s'

theorem Layout.live_low {live : List (Nat × Nat)} (h' : Layout base h M (used live)) (hb : b ∈ live) :
    base + 16 ≤ b.1 := by
  have hlow := (h'.used (b.1 - 8, (b.2 + 7) / 8 + 1) (List.mem_map.2 ⟨b, hb, rfl⟩)).low
  simp only at hlow
  omega

theorem free_live {live : List (Nat × Nat)} (h' : Layout base h M (used live)) (hb : b ∈ live) :
    ∃ fuel g, Umalloc.free fuel b.1 h = some g ∧ Heaped base g (live.erase b) := by
  have hperm : (used live).Perm ((b.1 - 8, (b.2 + 7) / 8 + 1) :: used (live.erase b)) :=
    (List.perm_cons_erase hb).map fun p : Nat × Nat => (p.1 - 8, (p.2 + 7) / 8 + 1)
  have h₁ := h'.perm hperm
  obtain ⟨M', g, hf, hg, -⟩ := free_spec h₁ (Nat.le_refl M.length)
  have hhigh := (h₁.used _ List.mem_cons_self).high
  have hlow := Layout.live_low h' hb
  simp only at hhigh
  have hplus : plus (b.1 - 8) 1 = b.1 := by
    unfold plus uint
    omega
  rw [hplus] at hf
  exact ⟨M.length, g, hf, .inr ⟨M', hg⟩⟩

theorem store_layout {live : List (Nat × Nat)} {ram : Nat → Nat} (h' : Layout base h M (used live))
    (hs : ∀ a, (∀ b ∈ live, ¬(b.1 ≤ a ∧ a < b.1 + b.2)) → ram a = h.ram a) :
      Layout base { h with ram := ram } M (used live) := by
  have hfree : ∀ c ∈ M ++ used live, ∀ a, c.1 ≤ a → a < c.1 + 8 → ram a = h.ram a := by
    intro c hc a ha₁ ha₂
    refine hs a fun b hb hin => ?_
    have hmem : (b.1 - 8, (b.2 + 7) / 8 + 1) ∈ used live := List.mem_map.2 ⟨b, hb, rfl⟩
    have hlow := Layout.live_low h' hb
    have hpair : c.1 = b.1 - 8 ∨ Apart c (b.1 - 8, (b.2 + 7) / 8 + 1) := by
      by_cases he : c = (b.1 - 8, (b.2 + 7) / 8 + 1)
      · exact .inl (congrArg Prod.fst he)
      · exact .inr (h'.apart.forall hc (List.mem_append_right M hmem) he)
    unfold Apart at hpair
    simp only at hpair
    omega
  constructor
  · exact h'.head
  · refine h'.ring.congr fun a ha => ?_
    obtain ⟨c, hc, rfl⟩ := List.mem_map.1 ha
    exact hfree c (List.mem_append_left _ hc) c.1 le_rfl (by omega)
  · exact h'.freep
  · exact h'.order
  · intro c hc
    exact (hfree c hc (c.1 + 4) (by omega) (by omega)).trans (h'.sizes c hc)
  · exact h'.solid
  · exact h'.used
  · exact h'.cover
  · exact h'.regions
  · exact h'.once

theorem malloc_mono {nbytes fuel fuel' : Nat} {r : Nat × Heap} (hm : malloc sbrk base fuel nbytes h = some r)
    (hle : fuel ≤ fuel') :
    malloc sbrk base fuel' nbytes h = some r := by
  unfold malloc at hm ⊢
  exact loop_mono hm hle

theorem heaped_step (hbase : 0 < base) (hs : Honest base sbrk) {s s' : Sys} (h' : Heaped base s.heap s.live)
    (hstep : Step sbrk base s s') : Heaped base s'.heap s'.live := by
  cases hstep with
  | @malloc fuel nbytes p g hn hm =>
      obtain ⟨fuel', p', g', hm', hg⟩ := malloc_spec hbase h' (hs.at _ _) (show nbytes ≤ 2 ^ 32 - 16 by omega)
      -- both runs of malloc are parts of a longer one
      have he :=
        (malloc_mono hm (Nat.le_max_left fuel fuel')).symm.trans (malloc_mono hm' (Nat.le_max_right fuel fuel'))
      cases he
      rcases hg with ⟨rfl, hg⟩ | ⟨hp, hg⟩
      · rw [if_pos rfl]
        exact hg
      · rw [if_neg hp]
        exact hg
  | @free fuel b g hb hf =>
      rcases h' with ⟨-, -, hnil⟩ | ⟨M, hM⟩
      · rw [hnil] at hb
        cases hb
      · obtain ⟨fuel', g', hf', hg⟩ := free_live hM hb
        have he := (free_mono hf (Nat.le_max_left fuel fuel')).symm.trans (free_mono hf' (Nat.le_max_right fuel fuel'))
        cases he
        exact hg
  | store hstore =>
      rcases h' with h' | ⟨M, hM⟩
      · exact .inl h'
      · exact .inr ⟨M, store_layout hM hstore⟩

theorem heaped_of_reaches (hbase : 0 < base) (hs : Honest base sbrk) {s : Sys} (hr : Reaches sbrk base s) :
    Heaped base s.heap s.live := by
  induction hr with
  | start ram => exact .inl ⟨rfl, rfl, rfl⟩
  | step hr hstep ih => exact heaped_step hbase hs ih hstep

theorem live_apart {live : List (Nat × Nat)} (h' : Layout base h M (used live)) :
    live.Pairwise fun a b => a.1 + a.2 ≤ b.1 ∨ b.1 + b.2 ≤ a.1 := by
  have hap := (List.pairwise_append.1 h'.apart).2.1
  unfold used at hap
  rw [List.pairwise_map] at hap
  refine hap.imp_of_mem fun {a b} ha hb hab => ?_
  have h₁ := Layout.live_low h' ha
  have h₂ := Layout.live_low h' hb
  unfold Apart at hab
  simp only at hab
  omega

theorem contained_iff (h' : Layout base h M B) (x : Nat) :
    (∃ c ∈ M ++ B, Contains x c) ↔ ∃ r ∈ h.regions, r.1 ≤ x ∧ x < r.1 + r.2 := by
  have hcover := h'.cover x
  have h₁ : 0 < covers (M ++ B) x ↔ ∃ c ∈ M ++ B, Contains x c := by
    simp only [covers, List.countP_pos_iff, decide_eq_true_eq]
  have h₂ : 0 < given h.regions x ↔ ∃ r ∈ h.regions, r.1 ≤ x ∧ x < r.1 + r.2 := by
    simp only [given, List.countP_pos_iff, decide_eq_true_eq]
  rw [← h₁, ← h₂, hcover]

theorem heap_representation (hbase : 0 < base) (hs : Honest base sbrk) {s : Sys} (hr : Reaches sbrk base s) :
    (s.heap.freep = 0 ∧ s.heap.regions = [] ∧ s.live = [] ∨
      ∃ M, Layout base s.heap M (used s.live) ∧ (M ++ used s.live).Pairwise Apart ∧
        ∀ x, (∃ c ∈ M ++ used s.live, Contains x c) ↔ ∃ r ∈ s.heap.regions, r.1 ≤ x ∧ x < r.1 + r.2) ∧
    (s.live.Pairwise fun a b => a.1 + a.2 ≤ b.1 ∨ b.1 + b.2 ≤ a.1) ∧
    (∀ nbytes < 2 ^ 28, ∃ fuel, Mallocs base nbytes s.live (malloc sbrk base fuel nbytes s.heap)) ∧
    ∀ b ∈ s.live, ∃ fuel g, free fuel b.1 s.heap = some g ∧ Heaped base g (s.live.erase b) := by
  have h' := heaped_of_reaches hbase hs hr
  refine ⟨?_, ?_, fun nbytes hn => malloc_spec hbase h' (hs.at _ _) (by omega), fun b hb => ?_⟩
  · rcases h' with h' | ⟨M, hM⟩
    · exact .inl h'
    · exact .inr ⟨M, hM, hM.apart, contained_iff hM⟩
  · rcases h' with ⟨-, -, hnil⟩ | ⟨M, hM⟩
    · rw [hnil]
      exact .nil
    · exact live_apart hM
  · rcases h' with ⟨-, -, hnil⟩ | ⟨M, hM⟩
    · rw [hnil] at hb
      cases hb
    · exact free_live hM hb

/-- A kernel that gives one region and no more. -/
def oneRegion (_ : Nat) (regions : List (Nat × Nat)) (bytes : Nat) : Option Nat :=
  if regions = [] ∧ bytes < 2 ^ 20 then some 8192 else none

theorem honest_oneRegion : Honest 4096 oneRegion := by
  intro calls regions bytes a ha
  unfold oneRegion at ha
  split at ha
  · rename_i hb
    cases ha
    refine ⟨by decide, by decide, by omega, fun r hr => ?_⟩
    rw [hb.1] at hr
    cases hr
  · cases ha

def fresh : Heap := ⟨fun _ => 0, 0, [], 0⟩

/-- The heap that an allocation leaves. -/
def left (o : Option (Nat × Heap)) : Heap := (o.map Prod.snd).getD fresh

theorem eq_some_left {o : Option (Nat × Heap)} {p : Nat} (h : o.map Prod.fst = some p) : o = some (p, left o) := by
  cases o with
  | none => cases h
  | some r =>
      cases h
      rfl

/-- A hundred bytes and twenty-four more are allocated, and the first ones are freed. -/
theorem heap_representation_freed :
    ∃ s, Reaches oneRegion 4096 s ∧ s.live = [(40824, 24)] ∧
      ∃ M, Layout 4096 s.heap M (used s.live) ∧ ∀ b ∈ s.live, ∃ fuel g, free fuel b.1 s.heap = some g := by
  have h₁ := eq_some_left (o := malloc oneRegion 4096 10 100 fresh) (p := 40856) (by decide +kernel)
  generalize hg₁ : left (malloc oneRegion 4096 10 100 fresh) = g₁ at h₁
  have h₂ := eq_some_left (o := malloc oneRegion 4096 10 24 g₁) (p := 40824) (by rw [← hg₁]; decide +kernel)
  generalize hg₂ : left (malloc oneRegion 4096 10 24 g₁) = g₂ at h₂
  obtain ⟨g₃, h₃⟩ : ∃ g₃, free 10 40856 g₂ = some g₃ := by
    rw [← Option.isSome_iff_exists, ← hg₂, ← hg₁]
    decide +kernel
  have hs₁ : Step oneRegion 4096 ⟨fresh, []⟩ ⟨g₁, if 40856 = 0 then [] else [(40856, 100)]⟩ := .malloc (by decide) h₁
  have hs₂ : Step oneRegion 4096 ⟨g₁, [(40856, 100)]⟩ ⟨g₂, if 40824 = 0 then _ else (40824, 24) :: [(40856, 100)]⟩ :=
    .malloc (by decide) h₂
  have hr₂ : Reaches oneRegion 4096 ⟨g₂, [(40824, 24), (40856, 100)]⟩ := ((Reaches.start fun _ => 0).step hs₁).step hs₂
  have hr₃ : Reaches oneRegion 4096 ⟨g₃, [(40824, 24)]⟩ := hr₂.step (.free (b := (40856, 100)) (.tail _ (.head _)) h₃)
  obtain ⟨hrep, -, -, hfree⟩ := heap_representation (by decide) honest_oneRegion hr₃
  rcases hrep with ⟨-, -, hnil⟩ | ⟨M, hM, -⟩
  · cases hnil
  · refine ⟨_, hr₃, rfl, M, hM, fun b hb => ?_⟩
    obtain ⟨fuel, g', hf, -⟩ := hfree b hb
    exact ⟨fuel, g', hf⟩

end ArmXv6.HeapRuns
