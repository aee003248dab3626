import ArmXv6.HeapRuns
import ArmXv6.UserBuffers

namespace ArmXv6.ProcessHeap

open Lib.Exec Param Vm Kernel Proc UserBuffers Umalloc HeapLayout HeapRuns

/-- The size of the process after growproc, n being the 32 bits of its argument; none when it fails.
Whether allocuvm finds
the frames that it needs is up to the machine. -/
def growproc (room : Bool) (sz n : Nat) : Option Nat :=
  if 0 < sint n then
    let newsz := uint (sz + n)
    let r := if Vm.UADDR_SZ ≤ newsz then 0 else if newsz < sz then sz else if room then newsz else 0
    if r = 0 then none else some r
  else if sint n < 0 then
    let newsz := uint (sz + n)
    let r := if sz ≤ newsz then sz else newsz
    if r = 0 then none else some r
  else some sz

/-- The size of a process that had sz bytes when the first k regions were there, after the
successful calls of sbrk since then: a region is
the old size and the bytes asked for. -/
def sizeAfter (sz k : Nat) : List (Nat × Nat) → Nat
  | [] => sz
  | (old, bytes) :: earlier => if earlier.length < k then sz else (growproc true old bytes).getD old

/-- sys_sbrk: the old size, or none for -1. -/
def sys_sbrk (room : Nat → Bool) (sz k calls : Nat) (regions : List (Nat × Nat)) (bytes : Nat) : Option Nat :=
  (growproc (room calls) (sizeAfter sz k regions) bytes).map fun _ => sizeAfter sz k regions

/-- The regions lie between base and the size of the process, which is one that growproc leaves. -/
structure Fits (base size : Nat) (regions : List (Nat × Nat)) : Prop where
  below : ∀ r ∈ regions, r.1 + r.2 ≤ size
  low : base + 8 ≤ size
  high : size < Vm.UADDR_SZ
  aligned : size % 8 = 0

/-- The request is below 2 GB, or sbrk fails: because it would leave the process with nothing, or
for a request that wraps to one unit because
the free list is empty and the machine or the address space is full. -/
def Safe (room : Nat → Bool) (base sz nbytes : Nat) (h : Heap) : Prop :=
  nbytes ≤ 2 ^ 31 - 16 ∨ nbytes ≤ 2 ^ 32 - 16 ∧ sz + 8 * ((nbytes + 7) / 8 + 1) = 2 ^ 32 ∨
    2 ^ 32 - 7 ≤ nbytes ∧ (h.freep = 0 ∨ h.ptr base = base) ∧ ¬(sz + 32768 < Vm.UADDR_SZ ∧ room h.calls = true)

variable {base sz k n s bytes nunits nbytes fuel p : Nat} {room : Nat → Bool} {h g : Heap} {live M : List (Nat × Nat)}

theorem uaddr_eq : Vm.UADDR_SZ = 2 ^ 28 := rfl

theorem gives_onMm {α : Type} {m : MmM α} {Q : α → Prop} (hm : Gives m Q) : Gives (onMm m) Q := by
  intro k
  unfold onMm
  rw [holds_zoom]
  exact hm k.mm

theorem allocuvm_loop_gives (d old new fuel a : Nat) : Gives (allocuvm.loop d old new fuel a) fun r =>
    r = new ∨ r = 0 := by
  induction fuel generalizing a with
  | zero => exact gives_pure (.inl rfl)
  | succ fuel ih =>
      unfold allocuvm.loop
      refine gives_ite (fun _ => ?_) fun _ => gives_pure (.inl rfl)
      refine Gives.then fun mem => ?_
      cases mem with
      | none => exact Gives.then fun _ => gives_pure (.inr rfl)
      | some mem => exact Gives.then fun _ => Gives.then fun _ => Gives.then fun _ => ih _

theorem allocuvm_gives (d old new : Nat) : Gives (allocuvm d old new) fun r =>
    ∃ b : Bool, r = if Vm.UADDR_SZ ≤ new then 0 else if new < old then old else if b then new else 0 := by
  unfold allocuvm
  refine gives_ite (fun hbig => gives_pure ⟨true, (if_pos hbig).symm⟩) fun hbig => ?_
  simp only [if_neg hbig]
  refine gives_ite (fun hless => gives_pure ⟨true, (if_pos hless).symm⟩) fun hless => ?_
  simp only [if_neg hless]
  intro m
  refine (allocuvm_loop_gives d old new _ _ m).mono (fun r _ hr => ?_) fun _ _ h => h
  rcases hr with rfl | rfl
  · exact ⟨true, rfl⟩
  · exact ⟨false, rfl⟩

theorem deallocuvm_gives (d old new : Nat) : Gives (deallocuvm d old new) fun r =>
    r = if old ≤ new then old else new := by
  unfold deallocuvm
  refine gives_ite (fun hle => gives_pure (if_pos hle).symm) fun hle => ?_
  rw [if_neg hle]
  exact Gives.then fun _ => gives_pure rfl

/-- The kernel's growproc leaves the size that growproc says, or fails where it fails. -/
theorem growproc_sizes {w : Nat} (hw : w < 2 ^ 32) (k : Kstate) : (Proc.growproc (sint w) k).Holds (fun _ => True)
    (fun r k' => ∃ b, r = -1 ∧ growproc b (k.procs k.cur).sz w = none ∨
      r = 0 ∧ growproc b (k.procs k.cur).sz w = some (k'.procs k.cur).sz) fun _ _ => True := by
  have hb := bits_sint hw
  unfold Proc.growproc
  rw [holds_bind, holds_fetch, holds_bind, hb]
  have hsize :
      Gives
      (if 0 < sint w then onMm (allocuvm (k.procs k.cur).pgdir (k.procs k.cur).sz (uint ((k.procs k.cur).sz + w)))
      else if sint w < 0 then onMm (deallocuvm (k.procs k.cur).pgdir (k.procs k.cur).sz (uint ((k.procs k.cur).sz + w)))
      else pure (k.procs k.cur).sz : KM Nat) fun r =>
        ∃ b, growproc b (k.procs k.cur).sz w = if sint w ≠ 0 ∧ r = 0 then none else some r := by
    refine gives_ite (fun hpos => ?_) fun hpos => gives_ite (fun hneg => ?_) fun hneg => gives_pure ⟨true, ?_⟩
    · refine gives_onMm fun m => (allocuvm_gives _ _ _ m).mono (fun r _ hr => ?_) fun _ _ h => h
      obtain ⟨b, rfl⟩ := hr
      refine ⟨b, ?_⟩
      simp only [growproc, if_pos hpos, ne_eq, hpos.ne', not_false_eq_true, true_and]
    · refine gives_onMm fun m => (deallocuvm_gives _ _ _ m).mono (fun r _ hr => ?_) fun _ _ h => h
      refine ⟨true, ?_⟩
      rw [hr]
      simp only [growproc, if_neg hpos, if_pos hneg, ne_eq, hneg.ne, not_false_eq_true, true_and]
    · have hzero : sint w = 0 := by omega
      simp [growproc, hzero]
  refine (hsize k).mono (fun r k₁ hr => ?_) fun _ _ h => h
  obtain ⟨b, hr⟩ := hr
  rw [holds_ite]
  refine ⟨fun hfail => ?_, fun hok => ?_⟩
  · rw [holds_pure]
    exact ⟨b, .inl ⟨rfl, by rw [hr, if_pos hfail]⟩⟩
  · rw [if_neg hok] at hr
    simp only [setProc, switchuvm, holds_bind, holds_update, holds_fetch, holds_ite, holds_panic, holds_pure,
      Function.update_self]
    exact ⟨fun _ => trivial, fun _ => ⟨fun _ => trivial, fun _ => ⟨b, .inr ⟨trivial, hr⟩⟩⟩⟩

theorem sysSbrk_sizes {w : Nat} (hw : w < 2 ^ 32) (k : Kstate) : (Proc.sysSbrk (sint w) k).Holds (fun _ => True)
    (fun r k' => ∃ b, r = -1 ∧ growproc b (k.procs k.cur).sz w = none ∨
      r = sint (k.procs k.cur).sz ∧ growproc b (k.procs k.cur).sz w = some (k'.procs k.cur).sz) fun _ _ => True := by
  unfold Proc.sysSbrk
  rw [holds_bind, holds_fetch, holds_bind]
  refine (growproc_sizes hw k).mono (fun r k' hr => ?_) fun _ _ h => h
  obtain ⟨b, ⟨rfl, hnone⟩ | ⟨rfl, hsome⟩⟩ := hr
  · rw [if_pos (by decide), holds_pure]
    exact ⟨b, .inl ⟨rfl, hnone⟩⟩
  · rw [if_neg (by decide), holds_pure]
    exact ⟨b, .inr ⟨rfl, hsome⟩⟩

theorem growproc_pos {b : Bool} (hs : s < Vm.UADDR_SZ) (hn : 0 < n) (hlt : n < 2 ^ 31) :
    growproc b s n = if s + n < Vm.UADDR_SZ ∧ b = true then some (s + n) else none := by
  have huaddr := uaddr_eq
  have hsint : sint n = n := if_pos hlt
  have hpos : 0 < sint n := by
    rw [hsint]
    omega
  have hu : uint (s + n) = s + n := Nat.mod_eq_of_lt (by omega)
  unfold growproc
  rw [if_pos hpos]
  simp only [hu]
  by_cases hbig : Vm.UADDR_SZ ≤ s + n
  · rw [if_pos hbig, if_pos rfl, if_neg (by omega)]
  · rw [if_neg hbig, if_neg (show ¬s + n < s by omega)]
    cases b with
    | false => rw [if_neg Bool.false_ne_true, if_pos rfl, if_neg fun hb => Bool.false_ne_true hb.2]
    | true => rw [if_pos rfl, if_neg (show s + n ≠ 0 by omega), if_pos ⟨by omega, rfl⟩]

/-- A negative request, by its bits: the process shrinks, or it stays as it is because the sum does not wrap. -/
theorem growproc_neg {b : Bool} (hs : s < Vm.UADDR_SZ) (hs0 : 0 < s) (hn : 2 ^ 31 ≤ n) (hlt : n < 2 ^ 32) :
    growproc b s n = if s + n < 2 ^ 32 then some s else if s + n = 2 ^ 32 then none else some (s + n - 2 ^ 32) := by
  have huaddr := uaddr_eq
  have hsint : sint n = (n : Int) - 2 ^ 32 := if_neg (by omega)
  have hneg : sint n < 0 := by
    rw [hsint]
    omega
  unfold growproc
  rw [if_neg (by omega), if_pos hneg]
  by_cases hwrap : s + n < 2 ^ 32
  · have hu : uint (s + n) = s + n := Nat.mod_eq_of_lt hwrap
    simp only [hu]
    rw [if_pos (show s ≤ s + n by omega), if_neg hs0.ne', if_pos hwrap]
  · have hu : uint (s + n) = s + n - 2 ^ 32 := by
      unfold uint
      omega
    simp only [hu]
    rw [if_neg (show ¬s ≤ s + n - 2 ^ 32 by omega), if_neg hwrap]
    by_cases hzero : s + n = 2 ^ 32
    · rw [if_pos (by omega), if_pos hzero]
    · rw [if_neg (by omega), if_neg hzero]

theorem growproc_zero (b : Bool) (s : Nat) : growproc b s 0 = some s := rfl

theorem sizeAfter_start (sz : Nat) (regions : List (Nat × Nat)) : sizeAfter sz regions.length regions = sz := by
  cases regions with
  | nil => rfl
  | cons r regions => exact if_pos (Nat.lt_succ_self _)

theorem sizeAfter_grown {regions : List (Nat × Nat)} (hk : k ≤ regions.length) (old bytes : Nat) :
    sizeAfter sz k ((old, bytes) :: regions) = (growproc true old bytes).getD old := if_neg (not_lt.mpr hk)

theorem rounded_small (hn : nunits < 2 ^ 28) : 0 < 8 * rounded nunits ∧ 8 * rounded nunits < 2 ^ 31 ∧
    8 * rounded nunits % 8 = 0 := by
  unfold rounded
  split <;> omega

theorem rounded_large (hn : 2 ^ 28 ≤ nunits) : rounded nunits = nunits := if_neg (by omega)

theorem sbrk_some {calls a : Nat} {regions : List (Nat × Nat)}
    (hask : sys_sbrk room sz k calls regions bytes = some a) :
    a = sizeAfter sz k regions ∧ ∃ r, growproc (room calls) a bytes = some r := by
  obtain ⟨r, hr, rfl⟩ := Option.map_eq_some_iff.mp hask
  exact ⟨rfl, r, hr⟩

theorem regions_freep (h : Heap) (q : Nat) : ({ h with freep := q } : Heap).regions = h.regions := rfl

theorem free_eq (fuel ap : Nat) (h : Heap) :
    free fuel ap h = (free.find h (uint (ap + (2 ^ 32 - 8))) fuel h.freep).bind fun p =>
    some
      { free.join p (uint (ap + (2 ^ 32 - 8))) (free.join (uint (ap + (2 ^ 32 - 8))) (h.ptr p) h) with freep := p } :=
      rfl

theorem regions_free {ap : Nat} (hf : free fuel ap h = some g) : g.regions = h.regions := by
  rw [free_eq] at hf
  obtain ⟨q, hq, hr⟩ := Option.bind_eq_some_iff.mp hf
  have hg := congrArg Heap.regions (Option.some.inj hr)
  rw [regions_freep, regions_join, regions_join] at hg
  exact hg.symm

section

variable {sbrk : Nat → List (Nat × Nat) → Nat → Option Nat}

theorem regions_morecore (hm : morecore sbrk fuel nunits h = some (p, g)) :
    g.regions = h.regions ∧ sbrk h.calls h.regions (uint (8 * rounded nunits)) = none ∨
      ∃ hp, sbrk h.calls h.regions (uint (8 * rounded nunits)) = some hp ∧
        g.regions = (hp, uint (8 * rounded nunits)) :: h.regions := by
  rw [morecore_eq] at hm
  cases hask : sbrk h.calls h.regions (uint (8 * rounded nunits)) with
  | none =>
      rw [hask] at hm
      cases hm
      exact .inl ⟨rfl, rfl⟩
  | some hp =>
      rw [hask] at hm
      obtain ⟨g', hg, hr⟩ := Option.bind_eq_some_iff.mp hm
      cases hr
      exact .inr ⟨hp, rfl, regions_free hg⟩

end

/-- For requests below 2 GB the regions stay inside a process that grows. -/
def Grown (base sz k : Nat) (regions : List (Nat × Nat)) : Prop :=
  k ≤ regions.length ∧ Fits base (sizeAfter sz k regions) regions ∧ sz ≤ sizeAfter sz k regions

theorem Grown.start {regions : List (Nat × Nat)} (hf : Fits base sz regions) :
    Grown base sz regions.length regions := by
  unfold Grown
  rw [sizeAfter_start]
  exact ⟨le_rfl, hf, le_rfl⟩

theorem Grown.step (hn : nunits < 2 ^ 28) {q : Nat} (hP : Grown base sz k h.regions)
    (hm : morecore (sys_sbrk room sz k) fuel nunits h = some (q, g)) : Grown base sz k g.regions := by
  obtain ⟨hk, hf, hle⟩ := hP
  obtain ⟨hpos, hlt, hal⟩ := rounded_small hn
  rcases regions_morecore hm with ⟨he, -⟩ | ⟨hp, hask, he⟩
  · rw [he]
    exact ⟨hk, hf, hle⟩
  · rw [uint_rounded (by omega)] at hask he
    obtain ⟨rfl, r, hr⟩ := sbrk_some hask
    rw [growproc_pos hf.high hpos hlt] at hr
    split at hr
    · rename_i hfit
      have hsize : sizeAfter sz k g.regions = sizeAfter sz k h.regions + 8 * rounded nunits := by
        rw [he, sizeAfter_grown hk, growproc_pos hf.high hpos hlt, if_pos ⟨hfit.1, rfl⟩]
        rfl
      have hlow := hf.low
      have hmod := hf.aligned
      refine ⟨?_, ⟨fun r hr => ?_, ?_, ?_, ?_⟩, ?_⟩
      · rw [he]
        exact Nat.le_succ_of_le hk
      · rw [hsize]
        rw [he] at hr
        rcases List.mem_cons.mp hr with rfl | hr
        · exact le_rfl
        · exact (hf.below r hr).trans (Nat.le_add_right _ _)
      · rw [hsize]
        omega
      · rw [hsize]
        exact hfit.1
      · rw [hsize]
        omega
      · rw [hsize]
        omega
    · cases hr

/-- For larger requests the process never grows. -/
def Shrunk (sz k top : Nat) (regions : List (Nat × Nat)) : Prop :=
  k ≤ regions.length ∧ 0 < sizeAfter sz k regions ∧ sizeAfter sz k regions ≤ top

theorem Shrunk.step {top : Nat} (htop : top < Vm.UADDR_SZ) (hn : 2 ^ 28 ≤ nunits) (hn' : nunits ≤ 2 ^ 29) {q : Nat}
    (hP : Shrunk sz k top h.regions)
    (hm : morecore (sys_sbrk room sz k) fuel nunits h = some (q, g)) : Shrunk sz k top g.regions := by
  obtain ⟨hk, hpos, hle⟩ := hP
  rcases regions_morecore hm with ⟨he, -⟩ | ⟨hp, hask, he⟩
  · rw [he]
    exact ⟨hk, hpos, hle⟩
  · obtain ⟨rfl, r, hr⟩ := sbrk_some hask
    have hk' : k ≤ g.regions.length := by
      rw [he]
      exact Nat.le_succ_of_le hk
    refine ⟨hk', ?_⟩
    rw [he, sizeAfter_grown hk]
    rcases Nat.eq_or_lt_of_le hn' with rfl | hlt
    · have hzero : uint (8 * rounded (2 ^ 29)) = 0 := by decide
      rw [hzero, growproc_zero]
      exact ⟨hpos, hle⟩
    · rw [uint_rounded hlt, rounded_large hn, growproc_neg (lt_of_le_of_lt hle htop) hpos (by omega) (by omega)]
      split
      · exact ⟨hpos, hle⟩
      · split
        · exact ⟨hpos, hle⟩
        · rw [Option.getD_some]
          omega

theorem block_below {b : Nat × Nat} (h' : Layout base h M (used live)) (hf : Fits base sz h.regions) (hb : b ∈ M) :
    b.1 + 8 * b.2 ≤ sz := by
  rcases h'.solid b (List.mem_append_left _ hb) with rfl | hs
  · have hlow := hf.low
    simp only
    omega
  · have hpos := hs.pos
    obtain ⟨r, hr, -, hlt⟩ :=
      (contained_iff h' (b.1 + 8 * b.2 - 1)).mp ⟨b, List.mem_append_left _ hb, by omega, by omega⟩
    have hle := hf.below r hr
    omega

section

variable {S : Nat → Prop} {q u v : Nat}

/-- The blocks in S are cells below 256 MB, S is closed under the list, and modulo 2 ^ 32 no block ends above 256 MB. -/
structure Ends (base : Nat) (S : Nat → Prop) (h : Heap) : Prop where
  cell : ∀ a, S a → Cell base a
  range : ∀ a, S a → 0 < a ∧ a < 2 ^ 28
  next : ∀ a, S a → S (h.ptr a)
  stop : ∀ a, S a → plus a (h.size a) ≤ 2 ^ 28

theorem join_self (hu : Cell base u) (hv : Cell base v) :
    ((free.join u v h).ptr u = h.ptr v ∧ plus u ((free.join u v h).size u) = plus v (h.size v)) ∨
      (free.join u v h).ptr u = v ∧ (free.join u v h).size u = h.size u := by
  unfold free.join
  split
  · rename_i hmeet
    refine .inl ⟨?_, ?_⟩
    · rw [ptr_setPtr_self, ptr_setSize _ _ hu hv]
    · rw [size_setPtr _ _ hu hu, size_setSize_self]
      unfold plus uint at hmeet ⊢
      omega
  · exact .inr ⟨ptr_setPtr_self _ _ _, size_setPtr _ _ hu hu⟩

theorem Ends.join (hE : Ends base S h) (hu : Cell base u) (hrange : 0 < u ∧ u < 2 ^ 28)
    (hstop : plus u (h.size u) ≤ 2 ^ 28) (hv : S v) :
    Ends base (fun a => S a ∨ a = u) (free.join u v h) where
  cell a ha := by
    rcases ha with ha | rfl
    · exact hE.cell a ha
    · exact hu
  range a ha := by
    rcases ha with ha | rfl
    · exact hE.range a ha
    · exact hrange
  next a ha := by
    by_cases hau : a = u
    · rw [hau]
      rcases join_self (h := h) hu (hE.cell v hv) with ⟨hptr, -⟩ | ⟨hptr, -⟩
      · rw [hptr]
        exact .inl (hE.next v hv)
      · rw [hptr]
        exact .inl hv
    · have hS := ha.resolve_right hau
      rw [(join_other hu (hE.cell a hS) hau).1]
      exact .inl (hE.next a hS)
  stop a ha := by
    by_cases hau : a = u
    · rw [hau]
      rcases join_self (h := h) hu (hE.cell v hv) with ⟨-, hsize⟩ | ⟨-, hsize⟩
      · rw [hsize]
        exact hE.stop v hv
      · rw [hsize]
        exact hstop
    · have hS := ha.resolve_right hau
      rw [(join_other hu (hE.cell a hS) hau).2]
      exact hE.stop a hS

theorem Ends.find {a bp : Nat} (hE : Ends base S h) (hq : S q) (hf : free.find h bp fuel q = some a) : S a := by
  induction fuel generalizing q with
  | zero => cases hf
  | succ fuel ih =>
      unfold free.find at hf
      split at hf
      · cases hf
        exact hq
      · split at hf
        · cases hf
          exact hq
        · exact ih (hE.next q hq) hf

theorem Ends.freep (hE : Ends base S h) (q : Nat) : Ends base S { h with freep := q } :=
  ⟨hE.cell, hE.range, hE.next, hE.stop⟩

theorem Ends.free {hp : Nat} (hE : Ends base S h) (hS : S h.freep) (hcell : Cell base hp) (hrange : 0 < hp ∧
    hp < 2 ^ 28)
    (hstop : plus hp (h.size hp) ≤ 2 ^ 28) (hf : Umalloc.free fuel (plus hp 1) h = some g) :
    Ends base (fun a => S a ∨ a = hp) g ∧ S g.freep := by
  have hap : uint (plus hp 1 + (2 ^ 32 - 8)) = hp := by
    unfold plus uint
    omega
  rw [free_eq, hap] at hf
  obtain ⟨q, hq, hr⟩ := Option.bind_eq_some_iff.mp hf
  rw [← Option.some.inj hr]
  have hSq := hE.find hS hq
  have h₁ := hE.join hcell hrange hstop (hE.next q hSq)
  have h₂ := h₁.join (h₁.cell q (.inl hSq)) (h₁.range q (.inl hSq)) (h₁.stop q (.inl hSq)) (.inr rfl)
  have hset : (fun a => (S a ∨ a = hp) ∨ a = q) = fun a => S a ∨ a = hp := by
    funext a
    refine propext ⟨fun ha => ha.elim id ?_, .inl⟩
    rintro rfl
    exact .inl hSq
  rw [hset] at h₂
  exact ⟨h₂.freep q, hSq⟩

/-- A request of 2 ^ 29 units asks sbrk for no bytes: the block that it is given ends where it begins. -/
theorem Ends.morecore (hf : base + 8 ≤ sz ∧ sz % 8 = 0 ∧ sz < Vm.UADDR_SZ) (hE : Ends base S h) (hS : S h.freep)
    (hk : k ≤ h.regions.length) (hsize : sizeAfter sz k h.regions = sz)
      (hm : Umalloc.morecore (sys_sbrk room sz k) fuel (2 ^ 29) h = some (q, g)) :
    q = g.freep ∧ Ends base (fun a => S a ∨ a = sz) g ∧ S g.freep ∧ k ≤ g.regions.length ∧
      sizeAfter sz k g.regions = sz := by
  have huaddr := uaddr_eq
  obtain ⟨hlow, hal, hhigh⟩ := hf
  have hcell : Cell base sz := .inr ⟨hlow, hal⟩
  have hzero : uint (8 * rounded (2 ^ 29)) = 0 := by decide
  have hround : rounded (2 ^ 29) = 2 ^ 29 := rounded_large (by decide)
  have hask : sys_sbrk room sz k h.calls h.regions 0 = some sz := by
    rw [sys_sbrk, hsize, growproc_zero]
    rfl
  rw [morecore_eq, hzero, hround, hask] at hm
  obtain ⟨g', hfree, hr⟩ := Option.bind_eq_some_iff.mp hm
  cases hr
  have hreg : g.regions = (sz, 0) :: h.regions := regions_free hfree
  let h₁ : Heap := Heap.setSize { h with calls := h.calls + 1, regions := (sz, 0) :: h.regions } sz (2 ^ 29)
  have hwhole : plus sz (2 ^ 29) ≤ 2 ^ 28 := by
    unfold plus uint
    omega
  have h₁E : Ends base S h₁ := by
    refine ⟨hE.cell, hE.range, fun a ha => ?_, fun a ha => ?_⟩
    · have hptr : h₁.ptr a = h.ptr a := ptr_setSize _ _ hcell (hE.cell a ha)
      rw [hptr]
      exact hE.next a ha
    · by_cases has : a = sz
      · rw [has, size_setSize_self]
        exact hwhole
      · have hsame : h₁.size a = h.size a := size_setSize_of_ne _ _ has
        rw [hsame]
        exact hE.stop a ha
  have hstop : plus sz (h₁.size sz) ≤ 2 ^ 28 := by
    rw [size_setSize_self]
    exact hwhole
  obtain ⟨hg, hSg⟩ := h₁E.free hS hcell ⟨by omega, by omega⟩ hstop hfree
  refine ⟨rfl, hg, hSg, ?_, ?_⟩
  · rw [hreg]
    exact Nat.le_succ_of_le hk
  · rw [hreg, sizeAfter_grown hk, growproc_zero]
    rfl

/-- Such a request never returns 0. -/
theorem Ends.loop (hf : base + 8 ≤ sz ∧ sz % 8 = 0 ∧ sz < Vm.UADDR_SZ) {prevp : Nat} (hE : Ends base S h)
    (hS : S h.freep) (hq : S q)
    (hk : k ≤ h.regions.length) (hsize : sizeAfter sz k h.regions = sz)
    (hm : malloc.loop (sys_sbrk room sz k) (2 ^ 29) fuel prevp q h = some (p, g)) : p ≠ 0 := by
  induction fuel generalizing S prevp q h with
  | zero => cases hm
  | succ fuel ih =>
      have hrange := hE.range q hq
      have hstop := hE.stop q hq
      unfold malloc.loop at hm
      by_cases hfit : 2 ^ 29 ≤ h.size q
      · rw [if_pos hfit] at hm
        by_cases heq : h.size q = 2 ^ 29
        · rw [if_pos heq] at hm
          obtain ⟨rfl, -⟩ := Prod.mk.inj (Option.some.inj hm)
          unfold plus uint
          omega
        · rw [if_neg heq] at hm
          simp only [size_setSize_self] at hm
          obtain ⟨rfl, -⟩ := Prod.mk.inj (Option.some.inj hm)
          unfold plus uint at hstop ⊢
          omega
      · rw [if_neg hfit] at hm
        by_cases hend : q = h.freep
        · rw [if_pos hend] at hm
          obtain ⟨⟨q', k'⟩, hmore, hrest⟩ := Option.bind_eq_some_iff.mp hm
          obtain ⟨rfl, hE', hS', hk', hsize'⟩ := hE.morecore hf hS hk hsize hmore
          have hpos := hE'.range _ (.inl hS')
          simp only at hrest
          rw [if_neg hpos.1.ne'] at hrest
          exact ih hE' (.inl hS') (hE'.next _ (.inl hS')) hk' hsize' hrest
        · rw [if_neg hend] at hm
          exact ih hE hS (hE.next q hq) hk hsize hm

theorem Ends.start (hbase : 0 < base) (h' : Layout base h M (used live)) (hf : Fits base sz h.regions) :
    Ends base (· ∈ M.map Prod.fst) h where
  cell a ha := by
    obtain ⟨b, hb, rfl⟩ := List.mem_map.mp ha
    exact h'.cell (List.mem_append_left _ hb)
  range a ha := by
    obtain ⟨b, hb, rfl⟩ := List.mem_map.mp ha
    have hend := block_below h' hf hb
    have hhigh := hf.high
    have huaddr := uaddr_eq
    rcases h'.solid b (List.mem_append_left _ hb) with rfl | hs
    · exact ⟨hbase, by omega⟩
    · have hlow := hs.low
      exact ⟨by omega, by omega⟩
  next a ha := by
    obtain ⟨X, Y, hXY⟩ := List.append_of_mem ha
    have hring := h'.ring
    rw [hXY] at hring
    cases Y with
    | nil =>
        rw [hring.next_nil]
        exact List.mem_map.mpr ⟨_, h'.base_mem, rfl⟩
    | cons c Y =>
        rw [hring.next_cons, hXY]
        simp
  stop a ha := by
    obtain ⟨b, hb, rfl⟩ := List.mem_map.mp ha
    have hend := block_below h' hf hb
    have hhigh := hf.high
    have huaddr := uaddr_eq
    rw [h'.sizes b (List.mem_append_left _ hb)]
    unfold plus uint
    omega

end

/-- A process of two pages that has not called malloc. -/
def fresh : Heap := ⟨fun _ => 0, 0, [], 0⟩

end ArmXv6.ProcessHeap
