import ArmXv6.Umalloc
import ArmXv6.Lib.Chain
import Mathlib.Data.List.Pairwise
import Mathlib.Data.List.Count

namespace ArmXv6.HeapLayout

open Param Lib.Chain Umalloc

/-- A block is an address and its size in units of a Header. -/
def Contains (x : Nat) (b : Nat × Nat) : Prop := b.1 ≤ x ∧ x < b.1 + 8 * b.2

instance (x : Nat) (b : Nat × Nat) : Decidable (Contains x b) :=
  inferInstanceAs (Decidable (b.1 ≤ x ∧ x < b.1 + 8 * b.2))

def covers (l : List (Nat × Nat)) (x : Nat) : Nat := l.countP fun b => Contains x b

def given (l : List (Nat × Nat)) (x : Nat) : Nat := l.countP fun r => r.1 ≤ x ∧ x < r.1 + r.2

structure Solid (base : Nat) (b : Nat × Nat) : Prop where
  low : base + 8 ≤ b.1
  aligned : b.1 % 8 = 0
  pos : 0 < b.2
  high : b.1 + 8 * b.2 < 2 ^ 32

/-- The one block ends where the other begins or before. -/
def Apart (a b : Nat × Nat) : Prop := a.1 + 8 * a.2 ≤ b.1 ∨ b.1 + 8 * b.2 ≤ a.1

instance : Std.Symm Apart := ⟨fun _ _ h => h.symm⟩

/-- The free list M, with base first, and the other blocks B. -/
structure Layout (base : Nat) (h : Heap) (M B : List (Nat × Nat)) : Prop where
  head : M.head? = some (base, 0)
  ring : Leads h.ptr base (M.map Prod.fst) base
  freep : h.freep ∈ M.map Prod.fst
  order : M.Pairwise fun a b => a.1 + 8 * a.2 < b.1
  sizes : ∀ b ∈ M ++ B, h.size b.1 = b.2
  solid : ∀ b ∈ M ++ B, b = (base, 0) ∨ Solid base b
  used : ∀ b ∈ B, Solid base b
  cover : ∀ x, covers (M ++ B) x = given h.regions x
  regions : ∀ r ∈ h.regions, base + 8 ≤ r.1 ∧ r.1 % 8 = 0 ∧ r.1 + r.2 < 2 ^ 32
  once : ∀ x, given h.regions x ≤ 1

variable {base bp n s u v x : Nat} {h : Heap} {M M₁ M₂ B l l' : List (Nat × Nat)} {a b c : Nat × Nat}

@[simp] theorem covers_nil (x : Nat) : covers [] x = 0 := rfl

@[simp] theorem covers_cons (b : Nat × Nat) (l : List (Nat × Nat)) (x : Nat) :
    covers (b :: l) x = (if Contains x b then 1 else 0) + covers l x := by
  simp only [covers, List.countP_cons, decide_eq_true_eq]
  omega

@[simp] theorem covers_append (l l' : List (Nat × Nat)) (x : Nat) : covers (l ++ l') x = covers l x + covers l' x :=
  List.countP_append

theorem covers_pos (hb : b ∈ l) (hx : Contains x b) : 0 < covers l x :=
  List.countP_pos_iff.2 ⟨b, hb, by simpa using hx⟩

/-- Blocks of which no two have a byte in common are apart. -/
theorem pairwise_apart (hone : ∀ x, covers l x ≤ 1) (hsolid : ∀ b ∈ l, b = (base, 0) ∨ Solid base b) :
    l.Pairwise Apart := by
  induction l with
  | nil => exact .nil
  | cons a l ih =>
      have htail : ∀ x, covers l x ≤ 1 := by
        intro x
        have := hone x
        rw [covers_cons] at this
        omega
      refine .cons (fun b hb => ?_) (ih htail fun b hb => hsolid b (List.mem_cons_of_mem a hb))
      -- a common byte would be counted twice
      have hnot : ∀ x, Contains x a → ¬Contains x b := by
        intro x hxa hxb
        have h₁ := hone x
        rw [covers_cons, if_pos hxa] at h₁
        have h₂ := covers_pos hb hxb
        omega
      unfold Apart
      rcases hsolid a List.mem_cons_self with rfl | ha
      · rcases hsolid b (List.mem_cons_of_mem _ hb) with rfl | hb'
        · simp
        · have := hb'.low
          simp only
          omega
      · rcases hsolid b (List.mem_cons_of_mem a hb) with rfl | hb'
        · have := ha.low
          simp only
          omega
        · have h₁ := ha.pos
          have h₂ := hb'.pos
          by_contra hne
          have h₃ := hnot (max a.1 b.1)
          simp only [Contains] at h₃
          omega

theorem Layout.apart (h' : Layout base h M B) : (M ++ B).Pairwise Apart :=
  pairwise_apart (fun x => (h'.cover x).trans_le (h'.once x)) h'.solid

theorem Layout.perm {B' : List (Nat × Nat)} (h' : Layout base h M B) (hp : B.Perm B') : Layout base h M B' where
  head := h'.head
  ring := h'.ring
  freep := h'.freep
  order := h'.order
  sizes b hb := h'.sizes b ((hp.append_left M).mem_iff.2 hb)
  solid b hb := h'.solid b ((hp.append_left M).mem_iff.2 hb)
  used b hb := h'.used b (hp.mem_iff.2 hb)
  cover x := by
    rw [← h'.cover x]
    exact ((hp.append_left M).countP_eq _).symm
  regions := h'.regions
  once := h'.once

/-- Where a Header can be. -/
def Cell (base a : Nat) : Prop := a = base ∨ base + 8 ≤ a ∧ a % 8 = 0

theorem Solid.cell (h : Solid base b) : Cell base b.1 := .inr ⟨h.low, h.aligned⟩

theorem Layout.cell (h' : Layout base h M B) (hb : b ∈ M ++ B) : Cell base b.1 := by
  rcases h'.solid b hb with rfl | hs
  · exact .inl rfl
  · exact hs.cell

theorem Cell.size_ne {a c : Nat} (ha : Cell base a) (hc : Cell base c) : a + 4 ≠ c := by
  unfold Cell at ha hc
  omega

@[simp] theorem ptr_setPtr_self (h : Heap) (a v : Nat) : (h.setPtr a v).ptr a = v := by
  simp [Heap.ptr, Heap.setPtr]

theorem ptr_setPtr_of_ne (h : Heap) (v : Nat) {a c : Nat} (hne : c ≠ a) : (h.setPtr a v).ptr c = h.ptr c := by
  simp [Heap.ptr, Heap.setPtr, hne]

theorem size_setPtr (h : Heap) (v : Nat) {a c : Nat} (ha : Cell base a) (hc : Cell base c) :
    (h.setPtr a v).size c = h.size c := by
  simp [Heap.size, Heap.setPtr, hc.size_ne ha]

@[simp] theorem size_setSize_self (h : Heap) (a v : Nat) : (h.setSize a v).size a = v := by
  simp [Heap.size, Heap.setSize]

theorem size_setSize_of_ne (h : Heap) (v : Nat) {a c : Nat} (hne : c ≠ a) : (h.setSize a v).size c = h.size c := by
  simp [Heap.size, Heap.setSize, hne]

theorem ptr_setSize (h : Heap) (v : Nat) {a c : Nat} (ha : Cell base a) (hc : Cell base c) :
    (h.setSize a v).ptr c = h.ptr c := by
  simp [Heap.ptr, Heap.setSize, (ha.size_ne hc).symm]

@[simp] theorem regions_join (u v : Nat) (h : Heap) : (free.join u v h).regions = h.regions := by
  unfold free.join
  split <;> rfl

theorem join_other (hu : Cell base u) {a : Nat} (ha : Cell base a) (hne : a ≠ u) :
    (free.join u v h).ptr a = h.ptr a ∧ (free.join u v h).size a = h.size a := by
  unfold free.join
  split
  · simp only [ptr_setPtr_of_ne _ _ hne, ptr_setSize _ _ hu ha, size_setPtr _ _ hu ha,
      size_setSize_of_ne _ _ hne, and_self]
  · simp only [ptr_setPtr_of_ne _ _ hne, size_setPtr _ _ hu ha, and_self]

/-- The block b in front of the list l, joined with its first block if they meet. -/
def joined (b : Nat × Nat) : List (Nat × Nat) → List (Nat × Nat)
  | [] => [b]
  | c :: l => if b.1 + 8 * b.2 = c.1 then (b.1, b.2 + c.2) :: l else b :: c :: l

theorem covers_joined (b : Nat × Nat) (l : List (Nat × Nat)) (x : Nat) : covers (joined b l) x = covers (b :: l) x := by
  cases l with
  | nil => rfl
  | cons c l =>
      by_cases hm : b.1 + 8 * b.2 = c.1
      · have hor : Contains x (b.1, b.2 + c.2) ↔ Contains x b ∨ Contains x c := by
          simp only [Contains]
          omega
        have hnot : ¬(Contains x b ∧ Contains x c) := by
          simp only [Contains]
          omega
        simp only [joined, if_pos hm, covers_cons, hor]
        by_cases hb : Contains x b
        · have hc : ¬Contains x c := fun hc => hnot ⟨hb, hc⟩
          simp [hb, hc]
        · simp [hb]
      · simp only [joined, if_neg hm]

theorem order_joined (ho : l.Pairwise fun a b => a.1 + 8 * a.2 < b.1) (hlow : ∀ c ∈ l, b.1 + 8 * b.2 ≤ c.1) :
    (joined b l).Pairwise fun a b => a.1 + 8 * a.2 < b.1 := by
  cases l with
  | nil => exact List.pairwise_singleton _ _
  | cons c l =>
      have hc := List.pairwise_cons.1 ho
      by_cases hm : b.1 + 8 * b.2 = c.1
      · simp only [joined, if_pos hm]
        refine .cons (fun d hd => ?_) hc.2
        have := hc.1 d hd
        simp only
        omega
      · simp only [joined, if_neg hm]
        refine .cons (fun d hd => ?_) ho
        have hbc := hlow c List.mem_cons_self
        rcases List.mem_cons.1 hd with rfl | hd
        · omega
        · have := hc.1 d hd
          omega

theorem fst_joined (hc : c ∈ joined b l) : c.1 = b.1 ∨ c ∈ l := by
  cases l with
  | nil =>
      rw [joined, List.mem_singleton] at hc
      exact .inl (congrArg Prod.fst hc)
  | cons d l =>
      by_cases hm : b.1 + 8 * b.2 = d.1
      · simp only [joined, if_pos hm] at hc
        rcases List.mem_cons.1 hc with rfl | hc
        · exact .inl rfl
        · exact .inr (List.mem_cons_of_mem d hc)
      · simp only [joined, if_neg hm] at hc
        rcases List.mem_cons.1 hc with rfl | hc
        · exact .inl rfl
        · exact .inr hc

theorem solid_joined (hb : Solid base b) (hl : ∀ c ∈ l, Solid base c) : ∀ c ∈ joined b l, Solid base c := by
  intro e he
  cases l with
  | nil =>
      rw [joined, List.mem_singleton] at he
      exact he ▸ hb
  | cons c l =>
      by_cases hm : b.1 + 8 * b.2 = c.1
      · simp only [joined, if_pos hm] at he
        rcases List.mem_cons.1 he with rfl | he
        · have hc := hl c List.mem_cons_self
          have := hc.high
          have := hb.pos
          exact ⟨hb.low, hb.aligned, by simp only; omega, by simp only; omega⟩
        · exact hl e (List.mem_cons_of_mem c he)
      · simp only [joined, if_neg hm] at he
        rcases List.mem_cons.1 he with rfl | he
        · exact hb
        · exact hl e he

theorem large_joined (b : Nat × Nat) (l : List (Nat × Nat)) : ∃ n, b.2 ≤ n ∧ (b.1, n) ∈ joined b l := by
  cases l with
  | nil => exact ⟨b.2, le_rfl, List.mem_singleton.2 rfl⟩
  | cons c l =>
      by_cases hm : b.1 + 8 * b.2 = c.1
      · exact ⟨b.2 + c.2, Nat.le_add_right _ _, by simp [joined, hm]⟩
      · exact ⟨b.2, le_rfl, by simp [joined, hm]⟩

theorem length_joined (b : Nat × Nat) (l : List (Nat × Nat)) : (joined b l).length ≤ l.length + 1 := by
  cases l with
  | nil => exact le_rfl
  | cons c l =>
      by_cases hm : b.1 + 8 * b.2 = c.1
      · simp [joined, hm]
      · simp [joined, hm]

theorem grows_joined (b : Nat × Nat) (hc : c ∈ l) : ∃ e ∈ joined b l, c.2 ≤ e.2 := by
  cases l with
  | nil => cases hc
  | cons d l =>
      by_cases hm : b.1 + 8 * b.2 = d.1
      · simp only [joined, if_pos hm]
        rcases List.mem_cons.1 hc with rfl | hc
        · exact ⟨_, List.mem_cons_self, Nat.le_add_left _ _⟩
        · exact ⟨c, List.mem_cons_of_mem _ hc, le_rfl⟩
      · simp only [joined, if_neg hm]
        exact ⟨c, List.mem_cons_of_mem _ hc, le_rfl⟩

theorem join_spec (hu : Cell base u) (hsize : h.size u = n) (hfit : u + 8 * n < 2 ^ 32)
    (hl : Leads h.ptr v (l.map Prod.fst) base) (hsizes : ∀ c ∈ l, h.size c.1 = c.2) (hsolid : ∀ c ∈ l, Solid base c)
    (hne : ∀ c ∈ l, u < c.1) (hend : l = [] → u + 8 * n ≠ base) :
    Leads (free.join u v h).ptr u ((joined (u, n) l).map Prod.fst) base ∧
      ∀ c ∈ joined (u, n) l, (free.join u v h).size c.1 = c.2 := by
  have hplus : plus u n = u + 8 * n := Nat.mod_eq_of_lt hfit
  have hrest : ∀ c ∈ l, (free.join u v h).ptr c.1 = h.ptr c.1 ∧ (free.join u v h).size c.1 = c.2 := by
    intro c hc
    have hoth := join_other (h := h) (v := v) hu (hsolid c hc).cell (Nat.ne_of_gt (hne c hc))
    exact ⟨hoth.1, hoth.2.trans (hsizes c hc)⟩
  have hkeep : ∀ a ∈ l.map Prod.fst, (free.join u v h).ptr a = h.ptr a := by
    intro a ha
    obtain ⟨c, hc, rfl⟩ := List.mem_map.1 ha
    exact (hrest c hc).1
  cases l with
  | nil =>
      cases hl
      have hj : free.join u base h = h.setPtr u base := by
        unfold free.join
        rw [hsize, hplus, if_neg (hend rfl)]
      rw [hj]
      refine ⟨⟨rfl, by simp [Leads]⟩, fun c hc => ?_⟩
      cases List.mem_singleton.1 hc
      rw [size_setPtr _ _ hu hu, hsize]
  | cons c l =>
      obtain ⟨rfl, hl⟩ := hl
      have hhead : h.size c.1 = c.2 := hsizes c List.mem_cons_self
      by_cases hm : u + 8 * n = c.1
      · have hj : free.join u c.1 h = (h.setSize u (n + c.2)).setPtr u (h.ptr c.1) := by
          have hhigh := (hsolid c List.mem_cons_self).high
          have hsum : uint (n + c.2) = n + c.2 := Nat.mod_eq_of_lt (by omega)
          unfold free.join
          rw [hsize, hplus, if_pos hm, hhead, hsum]
          simp only [ptr_setSize _ _ hu (hsolid c List.mem_cons_self).cell]
        simp only [joined, if_pos hm]
        refine ⟨⟨rfl, ?_⟩, fun d hd => ?_⟩
        · have hp : (free.join u c.1 h).ptr u = h.ptr c.1 := by rw [hj, ptr_setPtr_self]
          change Leads _ ((free.join u c.1 h).ptr u) _ _
          rw [hp]
          exact hl.congr fun a ha => hkeep a (List.mem_cons_of_mem _ ha)
        · rcases List.mem_cons.1 hd with rfl | hd
          · rw [hj, size_setPtr _ _ hu hu, size_setSize_self]
          · exact (hrest d (List.mem_cons_of_mem c hd)).2
      · have hj : free.join u c.1 h = h.setPtr u c.1 := by
          unfold free.join
          rw [hsize, hplus, if_neg hm]
        simp only [joined, if_neg hm]
        refine ⟨⟨rfl, ?_⟩, fun d hd => ?_⟩
        · have hp : (free.join u c.1 h).ptr u = c.1 := by rw [hj, ptr_setPtr_self]
          change Leads _ ((free.join u c.1 h).ptr u) _ _
          rw [hp]
          refine ⟨rfl, ?_⟩
          rw [hkeep c.1 List.mem_cons_self]
          exact hl.congr fun a ha => hkeep a (List.mem_cons_of_mem _ ha)
        · rcases List.mem_cons.1 hd with rfl | hd
          · rw [hj, size_setPtr _ _ hu hu, hsize]
          · exact (hrest d hd).2

/-- The loop of free ends at p. -/
def Stops (h : Heap) (bp p : Nat) : Prop := p < bp ∧ bp < h.ptr p ∨ h.ptr p ≤ p ∧ (p < bp ∨ bp < h.ptr p)

theorem find_of_stops {p e : Nat} {L : List Nat} (hl : Leads h.ptr p L e) (hs : ∃ a ∈ L, Stops h bp a) {fuel : Nat}
    (hfuel : L.length ≤ fuel) : ∃ a ∈ L, Stops h bp a ∧ free.find h bp fuel p = some a := by
  induction L generalizing p fuel with
  | nil =>
      obtain ⟨a, ha, -⟩ := hs
      cases ha
  | cons b L ih =>
      obtain ⟨rfl, hl⟩ := hl
      cases fuel with
      | zero => cases hfuel
      | succ fuel =>
          unfold free.find
          by_cases h₁ : p < bp ∧ bp < h.ptr p
          · exact ⟨p, List.mem_cons_self, .inl h₁, by rw [if_pos h₁]⟩
          · rw [if_neg h₁]
            by_cases h₂ : h.ptr p ≤ p ∧ (p < bp ∨ bp < h.ptr p)
            · exact ⟨p, List.mem_cons_self, .inr h₂, by rw [if_pos h₂]⟩
            · rw [if_neg h₂]
              have hs' : ∃ a ∈ L, Stops h bp a := by
                obtain ⟨a, ha, hs⟩ := hs
                rcases List.mem_cons.1 ha with rfl | ha
                · exact absurd hs (not_or.2 ⟨h₁, h₂⟩)
                · exact ⟨a, ha, hs⟩
              obtain ⟨a, ha, hs, hf⟩ := ih hl hs' (Nat.le_of_succ_le_succ hfuel)
              exact ⟨a, List.mem_cons_of_mem p ha, hs, hf⟩

theorem exists_split (hhead : ∃ b ∈ M, b.1 < bp) (ho : M.Pairwise fun a b => a.1 + 8 * a.2 < b.1) :
    ∃ M₁ b M₂, M = M₁ ++ b :: M₂ ∧ b.1 < bp ∧ ∀ c ∈ M₂, bp ≤ c.1 := by
  induction M with
  | nil =>
      obtain ⟨b, hb, -⟩ := hhead
      cases hb
  | cons a M ih =>
      have ha := List.pairwise_cons.1 ho
      by_cases hm : ∃ b ∈ M, b.1 < bp
      · obtain ⟨M₁, b, M₂, rfl, hb, hM₂⟩ := ih hm ha.2
        exact ⟨a :: M₁, b, M₂, rfl, hb, hM₂⟩
      · push Not at hm
        obtain ⟨b, hb, hlt⟩ := hhead
        rcases List.mem_cons.1 hb with rfl | hb
        · exact ⟨[], b, M, rfl, hlt, hm⟩
        · exact absurd (hm b hb) (by omega)

theorem Layout.base_mem (h' : Layout base h M B) : (base, 0) ∈ M := List.mem_of_mem_head? h'.head

theorem Layout.tail_solid (h' : Layout base h (M₁ ++ a :: M₂) B) : ∀ c ∈ M₂, Solid base c := by
  intro c hc
  rcases h'.solid c (by simp [hc]) with rfl | hs
  · have hac := (List.pairwise_append.1 h'.order).2.1
    have hlt := (List.pairwise_cons.1 hac).1 _ hc
    rcases h'.solid a (by simp) with rfl | ha
    · simp at hlt
    · have := ha.low
      simp only at hlt
      omega
  · exact hs

theorem Layout.find (h' : Layout base h M ((bp, n) :: B)) {fuel : Nat} (hfuel : M.length ≤ fuel) :
    ∃ M₁ p s M₂, M = M₁ ++ (p, s) :: M₂ ∧ free.find h bp fuel h.freep = some p ∧ p < bp ∧ ∀ c ∈ M₂, bp < c.1 := by
  have hbp := h'.used (bp, n) List.mem_cons_self
  have hlow : base + 8 ≤ bp := hbp.low
  have hne : ∀ c ∈ M, c.1 ≠ bp := by
    intro c hc
    have hap := (List.pairwise_append.1 h'.apart).2.2 c hc (bp, n) List.mem_cons_self
    have hpos : 0 < n := hbp.pos
    rcases h'.solid c (List.mem_append_left _ hc) with rfl | hs
    · simp only
      omega
    · have := hs.pos
      unfold Apart at hap
      omega
  obtain ⟨M₁, b, M₂, hM, hb, hM₂⟩ := exists_split ⟨_, h'.base_mem, show base < bp by omega⟩ h'.order
  -- the block before bp is a place to stop
  have hstop : Stops h bp b.1 := by
    have hring := h'.ring
    rw [hM, List.map_append, List.map_cons] at hring
    cases M₂ with
    | nil =>
        have hnext : h.ptr b.1 = base := hring.next_nil
        have hle : base ≤ b.1 := by
          rcases h'.solid b (by simp [hM]) with rfl | hs
          · exact le_rfl
          · have := hs.low
            omega
        exact .inr ⟨hnext ▸ hle, .inl hb⟩
    | cons c M₂ =>
        have hnext : h.ptr b.1 = c.1 := hring.next_cons
        have hge := hM₂ c List.mem_cons_self
        have := hne c (by simp [hM])
        exact .inl ⟨hb, by omega⟩
  -- the walk starts anywhere in the ring
  obtain ⟨X, Y, hXY⟩ := List.append_of_mem h'.freep
  have hring := h'.ring
  rw [hXY] at hring
  have hmem : ∀ a, a ∈ h.freep :: Y ++ X ↔ a ∈ M.map Prod.fst := by
    intro a
    rw [hXY]
    simp only [List.mem_append, List.mem_cons]
    tauto
  have hlen : (h.freep :: Y ++ X).length ≤ fuel := by
    have := congrArg List.length hXY
    simp only [List.length_map, List.length_append, List.length_cons] at this ⊢
    omega
  obtain ⟨p, hp, hs, hf⟩ := find_of_stops hring.rotate
    ⟨b.1, (hmem b.1).2 (List.mem_map_of_mem (by simp [hM])), hstop⟩ hlen
  obtain ⟨⟨p', s⟩, hpM, rfl⟩ := List.mem_map.1 ((hmem p).1 hp)
  obtain ⟨N₁, N₂, hN⟩ := List.append_of_mem hpM
  refine ⟨N₁, p', s, N₂, hN, hf, ?_⟩
  have hring' := h'.ring
  have horder := h'.order
  rw [hN, List.map_append, List.map_cons] at hring'
  rw [hN] at horder
  have htail := List.pairwise_cons.1 (List.pairwise_append.1 horder).2.1
  cases N₂ with
  | nil =>
      have hnext : h.ptr p' = base := hring'.next_nil
      unfold Stops at hs
      simp only [hnext] at hs
      refine ⟨by omega, fun c hc => by cases hc⟩
  | cons c N₂ =>
      have hnext : h.ptr p' = c.1 := hring'.next_cons
      have hlt : p' + 8 * s < c.1 := htail.1 c List.mem_cons_self
      unfold Stops at hs
      simp only [hnext] at hs
      refine ⟨by omega, fun d hd => ?_⟩
      rcases List.mem_cons.1 hd with rfl | hd
      · omega
      · have := (List.pairwise_cons.1 htail.2).1 d hd
        omega

/-- base is never joined with a block. -/
theorem joined_base (hl : ∀ c ∈ l, Solid base c) : joined (base, 0) l = (base, 0) :: l := by
  cases l with
  | nil => rfl
  | cons c l =>
      have := (hl c List.mem_cons_self).low
      simp only [joined]
      rw [if_neg (by omega)]

theorem ne_of_apart (ha : a = (base, 0) ∨ Solid base a) (hb : Solid base b) (hab : Apart a b) : a.1 ≠ b.1 := by
  have hb₁ := hb.low
  have hb₂ := hb.pos
  unfold Apart at hab
  rcases ha with rfl | ha
  · simp only
    omega
  · have := ha.pos
    omega

theorem free_spec (h' : Layout base h M ((bp, n) :: B)) {fuel : Nat} (hfuel : M.length ≤ fuel) :
    ∃ M' g, free fuel (plus bp 1) h = some g ∧ Layout base g M' B ∧ g.regions = h.regions ∧ M'.length ≤ M.length + 1 ∧
      ∃ b ∈ M', n ≤ b.2 := by
  obtain ⟨M₁, p, s, M₂, rfl, hfind, hpb, hM₂⟩ := h'.find hfuel
  have hbp := h'.used (bp, n) List.mem_cons_self
  have hpos : 0 < n := hbp.pos
  have hhigh : bp + 8 * n < 2 ^ 32 := hbp.high
  have hlow : base + 8 ≤ bp := hbp.low
  have hp' : (p, s) = (base, 0) ∨ Solid base (p, s) := h'.solid (p, s) (by simp)
  have htail := h'.tail_solid
  have hcellp : Cell base p := h'.cell (b := (p, s)) (by simp)
  have hcellb : Cell base bp := hbp.cell
  obtain ⟨hapM, hapB, hapMB⟩ := List.pairwise_append.1 h'.apart
  obtain ⟨horder₁, horder₂, horder₁₂⟩ := List.pairwise_append.1 h'.order
  obtain ⟨horderp, horder₂⟩ := List.pairwise_cons.1 horder₂
  -- where the neighbours of the block end and begin
  have hbefore : p + 8 * s ≤ bp := by
    have := hapMB (p, s) (by simp) (bp, n) List.mem_cons_self
    unfold Apart at this
    simp only at this
    omega
  have hafter : ∀ c ∈ M₂, bp + 8 * n ≤ c.1 := by
    intro c hc
    have := hapMB c (by simp [hc]) (bp, n) List.mem_cons_self
    have := hM₂ c hc
    have := (htail c hc).pos
    unfold Apart at *
    simp only at *
    omega
  have hring := h'.ring
  rw [List.map_append, List.map_cons] at hring
  obtain ⟨hring₁, hring₂⟩ := hring.split
  -- the upper end
  obtain ⟨hJ, hJsize⟩ :=
    join_spec hcellb (h'.sizes (bp, n) (by simp)) hhigh hring₂ (fun c hc => h'.sizes c (by simp [hc]))
    htail hM₂ (fun _ => by omega)
  have hJsolid : ∀ c ∈ joined (bp, n) M₂, Solid base c := solid_joined hbp htail
  have hJlow : ∀ c ∈ joined (bp, n) M₂, bp ≤ c.1 := by
    intro c hc
    rcases fst_joined hc with hc | hc
    · exact hc.ge
    · exact (hM₂ c hc).le
  have hsizep : (free.join bp (h.ptr p) h).size p = s :=
    (join_other hcellb hcellp (by omega)).2.trans (h'.sizes (p, s) (by simp))
  have hfitp : p + 8 * s < 2 ^ 32 := by omega
  have hJne : joined (bp, n) M₂ ≠ [] := by
    obtain ⟨m, -, hm⟩ := large_joined (bp, n) M₂
    exact List.ne_nil_of_mem hm
  -- the lower end
  obtain ⟨hK, hKsize⟩ := join_spec hcellp hsizep hfitp hJ hJsize hJsolid (fun c hc => lt_of_lt_of_le hpb (hJlow c hc))
    (fun he => absurd he hJne)
  have hKlow : ∀ c ∈ joined (p, s) (joined (bp, n) M₂), p ≤ c.1 := by
    intro c hc
    rcases fst_joined hc with hc | hc
    · exact hc.ge
    · exact hpb.le.trans (hJlow c hc)
  have hKsolid : ∀ c ∈ joined (p, s) (joined (bp, n) M₂), c = (base, 0) ∨ Solid base c := by
    intro c hc
    rcases hp' with hp' | hp'
    · rw [hp', joined_base hJsolid] at hc
      rcases List.mem_cons.1 hc with hc | hc
      · exact .inl hc
      · exact .inr (hJsolid c hc)
    · exact .inr (solid_joined hp' hJsolid c hc)
  have hother : ∀ a, Cell base a → a ≠ p → a ≠ bp →
      (free.join p bp (free.join bp (h.ptr p) h)).ptr a = h.ptr a ∧
        (free.join p bp (free.join bp (h.ptr p) h)).size a = h.size a := by
    intro a ha hap hab
    have h₁ := join_other (h := h) (v := h.ptr p) hcellb ha hab
    have h₂ := join_other (h := free.join bp (h.ptr p) h) (v := bp) hcellp ha hap
    exact ⟨h₂.1.trans h₁.1, h₂.2.trans h₁.2⟩
  have hlt₁ : ∀ b ∈ M₁, b.1 < p := by
    intro b hb
    have := horder₁₂ b hb (p, s) List.mem_cons_self
    simp only at this
    omega
  have hneB : ∀ b ∈ B, b.1 ≠ p ∧ b.1 ≠ bp := by
    intro b hb
    have hsb := h'.used b (List.mem_cons_of_mem _ hb)
    have h₁ := ne_of_apart hp' hsb (hapMB (p, s) (by simp) b (List.mem_cons_of_mem _ hb))
    have h₂ := ne_of_apart (.inr hbp) hsb ((List.pairwise_cons.1 hapB).1 b hb)
    exact ⟨h₁.symm, h₂.symm⟩
  refine ⟨M₁ ++ joined (p, s) (joined (bp, n) M₂), { free.join p bp (free.join bp (h.ptr p) h) with freep := p }, ?_,
    ?_, by simp,
    ?_, ?_⟩
  · have hap : uint (plus bp 1 + (2 ^ 32 - 8)) = bp := by
      unfold plus uint
      omega
    simp only [free, hap, hfind]
    rfl
  · constructor
    · cases M₁ with
      | nil =>
          have hhead := h'.head
          simp only [List.nil_append, List.head?_cons, Option.some.injEq] at hhead
          rw [hhead, joined_base hJsolid]
          rfl
      | cons m M₁ => exact h'.head
    · change Leads (free.join p bp (free.join bp (h.ptr p) h)).ptr base _ base
      rw [List.map_append]
      refine leads_append.2 ⟨p, hring₁.congr fun a ha => ?_, hK⟩
      obtain ⟨b, hb, rfl⟩ := List.mem_map.1 ha
      have := hlt₁ b hb
      exact (hother b.1 (h'.cell (by simp [hb])) (by omega) (by omega)).1
    · obtain ⟨m, -, hm⟩ := large_joined (p, s) (joined (bp, n) M₂)
      exact List.mem_map.2 ⟨(p, m), List.mem_append_right _ hm, rfl⟩
    · refine List.pairwise_append.2 ⟨horder₁, order_joined (order_joined horder₂ hafter) fun c hc => ?_,
        fun b hb c hc => ?_⟩
      · exact hbefore.trans (hJlow c hc)
      · exact lt_of_lt_of_le (horder₁₂ b hb (p, s) List.mem_cons_self) (hKlow c hc)
    · intro b hb
      change (free.join p bp (free.join bp (h.ptr p) h)).size b.1 = b.2
      rcases List.mem_append.1 hb with hb | hb
      · rcases List.mem_append.1 hb with hb | hb
        · have := hlt₁ b hb
          rw [(hother b.1 (h'.cell (by simp [hb])) (by omega) (by omega)).2]
          exact h'.sizes b (by simp [hb])
        · exact hKsize b hb
      · rw [(hother b.1 (h'.cell (by simp [hb])) (hneB b hb).1 (hneB b hb).2).2]
        exact h'.sizes b (by simp [hb])
    · intro b hb
      rcases List.mem_append.1 hb with hb | hb
      · rcases List.mem_append.1 hb with hb | hb
        · exact h'.solid b (by simp [hb])
        · exact hKsolid b hb
      · exact h'.solid b (by simp [hb])
    · exact fun b hb => h'.used b (List.mem_cons_of_mem _ hb)
    · intro x
      have := h'.cover x
      simp only [covers_append, covers_joined, covers_cons, regions_join] at this ⊢
      omega
    · simpa using h'.regions
    · simpa using h'.once
  · have h₁ := length_joined (p, s) (joined (bp, n) M₂)
    have h₂ := length_joined (bp, n) M₂
    simp only [List.length_append, List.length_cons]
    omega
  · -- the block itself, or what it was joined to
    obtain ⟨m, hm, hmem⟩ := large_joined (bp, n) M₂
    obtain ⟨m', hm', hmem'⟩ := grows_joined (p, s) hmem
    exact ⟨m', List.mem_append_right _ hm', hm.trans hmem'⟩

end ArmXv6.HeapLayout
