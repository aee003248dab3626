import ArmXv6.Vm
import ArmXv6.Lib.Moves

namespace ArmXv6.BootFrames

open Lib.Exec Lib.Bytes Lib.Moves Param Blocks Vm

def VEC_TBL : Nat := 0xFFFF0000
def PDE_MASK : Nat := PDE_SZ - 1

/-- The physical address behind the table of exception vectors. -/
def vec_table : Nat := VEC_TBL &&& PDE_MASK

/-- build_pages goes on; otherwise it says that the vector table overlaps the kernel and stops. -/
def build_pages.passes (kern_end : Nat) : Prop := kern_end < vec_table

def Disjoint (a n b k : Nat) : Prop := a + n ≤ b ∨ b + k ≤ a

/-- The free list keeps away from the kernel and from the page of the vectors, every frame passes the checks of
kfree, no two of them meet, and freeing one leaves the vectors alone. -/
structure Guarded (m : Mm) : Prop where
  vectors : ∀ f ∈ m.freelist, Disjoint f FRAME vec_table PTE_SZ
  kernel : ∀ f ∈ m.freelist, m.kernEnd ≤ f
  checks : ∀ f ∈ m.freelist, f % FRAME = 0 ∧ ¬f < m.kernEnd ∧ ¬PHYSTOP ≤ f
  apart : m.freelist.Pairwise fun f g => Disjoint f FRAME g FRAME
  freed : ∀ f ∈ m.freelist, ∀ (k k' : Mm) e, kfree f k = .ok () k' e → ∀ a, vec_table ≤ a → a < vec_table + PTE_SZ →
    k'.ram.get a = k.ram.get a

def frames (p n : Nat) : List Nat := (List.range n).map fun i => p + i * FRAME

theorem mem_frames {p n f : Nat} : f ∈ frames p n ↔ ∃ i, i < n ∧ p + i * FRAME = f := by
  rw [frames, List.mem_map]
  exact exists_congr fun i => by rw [List.mem_range]

/-- Steps of any length: with the length of a frame written out the same equation takes long to check. -/
theorem steps_succ (p s n : Nat) : ((List.range (n + 1)).map fun i => p + i * s) = p :: (List.range n).map fun i =>
    p + s + i * s := by
  rw [List.range_succ_eq_map, List.map_cons, List.map_map, Nat.zero_mul, Nat.add_zero]
  congr 1
  refine List.map_congr_left fun i _ => ?_
  simp only [Function.comp_apply, Nat.succ_mul]
  omega

theorem frames_succ (p n : Nat) : frames p (n + 1) = p :: frames (p + FRAME) n := steps_succ p FRAME n

theorem frames_apart (p n : Nat) : (frames p n).Pairwise fun f g => Disjoint f FRAME g FRAME := by
  refine List.pairwise_map.mpr ((List.pairwise_lt_range).imp fun {i j} hij => ?_)
  have hstep : (i + 1) * FRAME ≤ j * FRAME := Nat.mul_le_mul_right FRAME hij
  rw [Nat.succ_mul] at hstep
  exact .inl (by omega)

theorem kfree_ok {m : Mm} {v : Nat} (hal : v % FRAME = 0) (hlow : ¬v < m.kernEnd) (hhigh : ¬PHYSTOP ≤ v) :
    kfree v m =
      .ok ()
      { m with ram := (m.ram.fill v FRAME 0).setWord v (kernelPtr m.freelist.head?), freelist := v :: m.freelist }
      [] := by
  unfold kfree
  simp only [bind_apply, fetch_apply, not_not.2 hal, hlow, hhigh, if_false, setRam, update_apply, Run.after,
    List.nil_append]

theorem kfree_outside {k k' : Mm} {v : Nat} {e : List Event} (hrun : kfree v k = .ok () k' e) {a : Nat}
    (ha : a < v ∨ v + FRAME ≤ a) :
    k'.ram.get a = k.ram.get a := by
  have hfour : 4 ≤ FRAME := by decide
  by_cases hal : v % FRAME = 0
  · by_cases hlow : v < k.kernEnd
    · simp [kfree, bind_apply, fetch_apply, hal, hlow, Run.after, Prog.panic] at hrun
    · by_cases hhigh : PHYSTOP ≤ v
      · simp [kfree, bind_apply, fetch_apply, hal, hlow, hhigh, Run.after, Prog.panic] at hrun
      · rw [kfree_ok hal hlow hhigh] at hrun
        injection hrun with _ hk
        rw [← hk]
        simp only [Mem.setWord]
        rw [Mem.get_setSlice, length_leBytes, if_neg (by omega), get_fill, if_neg (by omega)]
  · simp [kfree, bind_apply, fetch_apply, hal, Run.after, Prog.panic] at hrun

theorem loop_frames {m : Mm} {p vend n fuel : Nat} (hal : p % FRAME = 0) (hlow : m.kernEnd ≤ p)
    (hend : p + n * FRAME = vend)
    (hhigh : vend ≤ PHYSTOP) (hfuel : n < fuel) :
    ∃ r, freerange.loop vend fuel p m = .ok () ⟨r, (frames p n).reverse ++ m.freelist, m.kernEnd⟩ [] := by
  obtain ⟨fuel, rfl⟩ : ∃ f, fuel = f + 1 := ⟨fuel - 1, by omega⟩
  have hpos : 0 < FRAME := by decide
  induction n generalizing p m fuel with
  | zero =>
      refine ⟨m.ram, ?_⟩
      rw [freerange.loop, if_neg (by omega)]
      rfl
  | succ n ih =>
      obtain ⟨fuel, rfl⟩ : ∃ f, fuel = f + 1 := ⟨fuel - 1, by omega⟩
      rw [Nat.succ_mul] at hend
      have hfree := kfree_ok (m := m) hal (not_lt.mpr hlow) (not_le.mpr (show p < PHYSTOP by omega))
      have hal' : (p + FRAME) % FRAME = 0 := by rw [Nat.add_mod_right, hal]
      obtain ⟨r, hrun⟩ :=
        @ih
        { m with ram := (m.ram.fill p FRAME 0).setWord p (kernelPtr m.freelist.head?), freelist := p :: m.freelist }
        (p + FRAME) hal' (by simp only; omega) (by omega) fuel (by omega)
      have hlist : (frames p (n + 1)).reverse ++ m.freelist = (frames (p + FRAME) n).reverse ++ p :: m.freelist := by
        rw [frames_succ, List.reverse_cons, List.append_assoc, List.singleton_append]
      refine ⟨r, ?_⟩
      rw [freerange.loop, if_pos (by omega), hlist]
      exact bind_ok hfree hrun

theorem alignup_spec {k : Nat} (hk : k < 2 ^ 31) : ALIGNUP k FRAME % FRAME = 0 ∧ k ≤ ALIGNUP k FRAME ∧
    ALIGNUP k FRAME < k + FRAME := by
  have hu : uint (k + FRAME - 1) = k + FRAME - 1 := Nat.mod_eq_of_lt (by have hf : FRAME = 2 ^ 18 := rfl; omega)
  have hf : FRAME = 2 ^ 18 := rfl
  rw [ALIGNUP, hu, hf]
  omega

theorem freerange_eq (vstart vend : Nat) :
    freerange vstart vend = freerange.loop vend (vend / FRAME + 1) (ALIGNUP vstart FRAME) := rfl

theorem freerange_frames {m : Mm} (hk : m.kernEnd ≤ PHYSTOP) :
    ∃ r n, ALIGNUP m.kernEnd FRAME + n * FRAME = PHYSTOP ∧
      freerange m.kernEnd PHYSTOP m = .ok () ⟨r, (frames (ALIGNUP m.kernEnd FRAME) n).reverse ++ m.freelist,
        m.kernEnd⟩ [] := by
  have hf : FRAME = 2 ^ 18 := rfl
  have hp : PHYSTOP = 2 ^ 27 := rfl
  obtain ⟨hal, hlow, hhigh⟩ := alignup_spec (k := m.kernEnd) (by omega)
  have hend : ALIGNUP m.kernEnd FRAME + (PHYSTOP - ALIGNUP m.kernEnd FRAME) / FRAME * FRAME = PHYSTOP := by
    rw [hf] at hal hhigh ⊢
    rw [hp] at hk ⊢
    omega
  have hrounds : (PHYSTOP - ALIGNUP m.kernEnd FRAME) / FRAME < PHYSTOP / FRAME + 1 := by
    rw [hf, hp]
    omega
  obtain ⟨r, hrun⟩ := loop_frames hal hlow hend le_rfl hrounds
  refine ⟨r, _, hend, ?_⟩
  rw [freerange_eq]
  exact hrun

/-- With the check of build_pages passed, the list that kmain starts with in numbers: frames from 256 KB times q on. -/
theorem boot_list {m : Mm} (hnone : m.freelist = []) (hpass : build_pages.passes m.kernEnd) :
    ∃ r n q, freerange m.kernEnd PHYSTOP m = .ok () ⟨r, (frames (262144 * q) n).reverse, m.kernEnd⟩ [] ∧
      262144 * q + n * 262144 = 134217728 ∧ m.kernEnd ≤ 262144 * q ∧ 262144 * q < m.kernEnd + 262144 := by
  have hf : FRAME = 262144 := rfl
  have hp : PHYSTOP = 134217728 := rfl
  have hk : m.kernEnd < 0xF0000 := by
    have hv : vec_table = 0xF0000 := by decide
    exact hv ▸ hpass
  obtain ⟨r, n, hend, hrun⟩ := freerange_frames (m := m) (by rw [hp]; omega)
  obtain ⟨hal, hlow, hhigh⟩ := alignup_spec (k := m.kernEnd) (by omega)
  obtain ⟨q, hq⟩ : ∃ q, ALIGNUP m.kernEnd FRAME = 262144 * q :=
    ⟨_, (Nat.mul_div_cancel' (Nat.dvd_of_mod_eq_zero (hf ▸ hal))).symm⟩
  rw [hnone, List.append_nil, hq] at hrun
  rw [hq, hf, hp] at hend
  rw [hq, hf] at hhigh
  exact ⟨r, n, q, hrun, hend, hq ▸ hlow, hhigh⟩

theorem not_guarded_of_le {m : Mm} (hnone : m.freelist = []) (hpass : build_pages.passes m.kernEnd)
    (hsmall : m.kernEnd ≤ 0xC0000) :
    ¬∃ m', freerange m.kernEnd PHYSTOP m = .ok () m' [] ∧ Guarded m' := by
  have hf : FRAME = 262144 := rfl
  have hv : vec_table = 0xF0000 := by decide
  have hpt : PTE_SZ = 4096 := rfl
  obtain ⟨r, n, q, hrun, hend, hlow, hhigh⟩ := boot_list hnone hpass
  rintro ⟨m', hrun', hg⟩
  rw [hrun] at hrun'
  injection hrun' with _ hm
  have hmem : 0xC0000 ∈ m'.freelist := by
    rw [← hm]
    have hle : q ≤ 3 := by omega
    refine List.mem_reverse.mpr (mem_frames.mpr ⟨3 - q, by omega, ?_⟩)
    rw [hf, Nat.mul_comm, ← Nat.add_mul, Nat.add_sub_of_le hle]
  have hmeet := hg.vectors _ hmem
  rw [Disjoint, hf, hv, hpt] at hmeet
  omega

theorem guarded_of_lt {m : Mm} (hnone : m.freelist = []) (hpass : build_pages.passes m.kernEnd)
    (hbig : 0xC0000 < m.kernEnd) :
    ∃ m', freerange m.kernEnd PHYSTOP m = .ok () m' [] ∧ Guarded m' := by
  have hf : FRAME = 262144 := rfl
  have hp : PHYSTOP = 134217728 := rfl
  have hv : vec_table = 0xF0000 := by decide
  have hpt : PTE_SZ = 4096 := rfl
  have hk : m.kernEnd < 0xF0000 := hv ▸ hpass
  obtain ⟨r, n, q, hrun, hend, hlow, hhigh⟩ := boot_list hnone hpass
  have hin : ∀ f ∈ (frames (262144 * q) n).reverse, f % FRAME = 0 ∧ 0x100000 ≤ f ∧ f < PHYSTOP := by
    intro f hmem
    obtain ⟨i, hi, rfl⟩ := mem_frames.mp (List.mem_reverse.mp hmem)
    rw [hf, hp]
    refine ⟨?_, ?_, ?_⟩ <;> omega
  refine ⟨_, hrun, ⟨fun f hmem => ?_, fun f hmem => ?_, fun f hmem => ?_, ?_, fun f hmem k k' e hfree a ha ha' => ?_⟩⟩
  · have hfrom := (hin f hmem).2.1
    rw [Disjoint, hv, hpt]
    exact .inr (by omega)
  · exact le_trans (by omega : m.kernEnd ≤ 0x100000) (hin f hmem).2.1
  · obtain ⟨hfal, hfrom, hto⟩ := hin f hmem
    exact ⟨hfal, by simp only; omega, by omega⟩
  · exact List.pairwise_reverse.mpr ((frames_apart _ n).imp Or.symm)
  · have hfrom := (hin f hmem).2.1
    rw [hpt, hv] at ha'
    exact kfree_outside hfree (.inl (by omega))

/-- With the check of build_pages passed, the frames that kmain gives out keep away from the kernel and from the
exception vectors exactly if the kernel ends in the last quarter of its first megabyte. -/
theorem freerange_guarded_iff (m : Mm) (hnone : m.freelist = []) (hpass : build_pages.passes m.kernEnd) :
    (∃ m', freerange m.kernEnd PHYSTOP m = .ok () m' [] ∧ Guarded m') ↔ 0xC0000 < m.kernEnd := by
  refine ⟨fun h => ?_, guarded_of_lt hnone hpass⟩
  by_contra hsmall
  exact not_guarded_of_le hnone hpass (not_lt.mp hsmall) h

/-- A machine whose kernel ends where the argument says. -/
def bootMm (kern_end : Nat) : Mm := ⟨.zero, [], kern_end⟩

theorem freerange_guarded_iff_fits :
    (∃ m', freerange (bootMm 0xD0000).kernEnd PHYSTOP (bootMm 0xD0000) = .ok () m' [] ∧ Guarded m') ↔
    0xC0000 < (bootMm 0xD0000).kernEnd :=
  freerange_guarded_iff (bootMm 0xD0000) rfl (by unfold build_pages.passes; decide)

theorem vectors_given_out : build_pages.passes (bootMm 0x80000).kernEnd ∧
    ¬∃ m', freerange (bootMm 0x80000).kernEnd PHYSTOP (bootMm 0x80000) = .ok () m' [] ∧ Guarded m' := by
  have hpass : build_pages.passes (bootMm 0x80000).kernEnd := by
    unfold build_pages.passes
    decide
  exact ⟨hpass, not_guarded_of_le rfl hpass (by decide)⟩

end ArmXv6.BootFrames
