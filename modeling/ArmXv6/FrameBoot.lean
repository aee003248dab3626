import ArmXv6.FrameRuns
import ArmXv6.BootFrames

namespace ArmXv6.FrameBoot

open Lib.Exec Lib.Bytes Lib.Frames Param Blocks Fs Content Vm Kernel Proc AddressSpace Resize FrameOwners
  SpaceCalls FrameWorld FrameProcs FrameRuns
open CallRefs References BootFrames
open ExecInputs (onMm_run)

variable {k k' : Kstate} {m m' : Mm} {f : Nat} {handlers : List Nat}

/-- Stores of words one behind the other. -/
def storeWords (a : Nat) : List Nat → MmM Unit
  | [] => pure ()
  | w :: ws => do
      setRam fun r => r.setWord a w
      storeWords (a + 4) ws

/-- The instruction LDR pc, [pc, #0x18], which goes to the handler eight words on. -/
def LDR_PC : Nat := 0xE59FF018

/-- The modes FIQ, IRQ, ABT and UND. -/
def modes : List Nat := [0x11, 0x12, 0x17, 0x1b]

/-- One frame for the stack of each mode. -/
def trapInit.stacks : List Nat → KM Unit
  | [] => pure ()
  | _ :: rest => do
      match ← onMm kalloc with
      | none => .panic "irq stack allocation failed"
      | some stk => do
          update fun k => { k with exstacks := k.exstacks ++ [stk] }
          trapInit.stacks rest

/-- handlers are the addresses of the eight exception handlers. -/
def trapInit (handlers : List Nat) : KM Unit := do
  onMm (storeWords vec_table (List.replicate 8 LDR_PC ++ handlers))
  trapInit.stacks modes

/-- What kmain does to memory before userinit. -/
def kmain.memory (handlers : List Nat) : KM Unit := do
  let k ← fetch
  onMm (freerange k.mm.kernEnd PHYSTOP)
  trapInit handlers

theorem blank_setWord {a w : Nat} (hb : Blank m f) (hf : f % 4 = 0) (ha : a % 4 = 0) (hle : a + 4 ≤ PHYSTOP)
    (hw : w < 2 ^ 32) (hw4 : w % 4 = 0) :
    Blank { m with ram := m.ram.setWord a w } f := by
  intro i hi
  by_cases he : f + 4 * i = a
  · subst he
    have hself : (m.ram.setWord (f + 4 * i) w).word (f + 4 * i) = w := Mem.word_setWord_self _ _ _ hle hw
    rw [hself]
    simp [present, hw4]
  · have hother : (m.ram.setWord a w).word (f + 4 * i) = m.ram.word (f + 4 * i) :=
      Mem.word_setWord_of_disjoint _ _ _ _ (by omega)
    rw [hother]
    exact hb i hi

theorem storeWords_blank {a : Nat} {ws : List Nat} (ha : a % 4 = 0) (hle : a + 4 * ws.length ≤ PHYSTOP)
    (hws : ∀ w ∈ ws, w < 2 ^ 32 ∧ w % 4 = 0) :
    ∃ m', storeWords a ws m = .ok () m' [] ∧ m'.freelist = m.freelist ∧ m'.kernEnd = m.kernEnd ∧
      ∀ f, f % 4 = 0 → Blank m f → Blank m' f := by
  induction ws generalizing a m with
  | nil => exact ⟨m, rfl, rfl, rfl, fun _ _ => id⟩
  | cons w ws ih =>
      rw [List.length_cons] at hle
      obtain ⟨hw, hw4⟩ := hws w List.mem_cons_self
      obtain ⟨m', hrun, hl, hk, hb⟩ := ih (m := { m with ram := m.ram.setWord a w }) (a := a + 4) (by omega) (by omega)
        fun w hw => hws w (List.mem_cons_of_mem _ hw)
      refine ⟨m', bind_ok (update_apply _ _) hrun, hl, hk, fun f hf hbl => hb f hf ?_⟩
      exact blank_setWord hbl hf ha (by omega) hw hw4

theorem freerange_blank {vend p : Nat} (fuel : Nat) (hpos : 0 < p) (hal : p % FRAME = 0) (hlow : m.kernEnd ≤ p)
    (hvend : vend ≤ PHYSTOP)
    (hf : ∀ f ∈ m.freelist, f < p ∧ Frame m f ∧ Blank m f) :
    (freerange.loop vend fuel p m).Holds NoLeak (fun _ m' => ∀ f ∈ m'.freelist, Blank m' f) fun _ _ => False := by
  have hsz : 0 < FRAME := by decide
  induction fuel generalizing p m with
  | zero =>
      rw [freerange.loop, holds_pure]
      exact fun f hmem => (hf f hmem).2.2
  | succ fuel ih =>
      rw [freerange.loop, holds_ite]
      refine ⟨fun hle => ?_, fun _ => by rw [holds_pure]; exact fun f hmem => (hf f hmem).2.2⟩
      have hp : Frame m p := ⟨hal, hlow, by omega, hpos⟩
      rw [holds_bind]
      refine holds_ok (kfree_eq hp) (ih (m := freed m p) (by omega) (by rw [Nat.add_mod_right, hal]) ?_ fun f hmem =>
        ?_)
      · exact hlow.trans (Nat.le_add_right p FRAME)
      · rcases List.mem_cons.mp hmem with rfl | hmem
        · exact ⟨by omega, ⟨hal, hlow, by omega, hpos⟩, blank_freed hp fun a ha => (hf a ha).2.1⟩
        · obtain ⟨hlt, hfr, hb⟩ := hf f hmem
          have hw : Within m (freed m p) p := fun a ha hne => same_freed hal ha hne
          exact ⟨by omega, ⟨hfr.aligned, hfr.above, hfr.below, hfr.pos⟩, hw.blank hfr.aligned (by omega) hb⟩

/-- The frames between the end of the kernel and the end of memory. -/
def BootStock (kern_end f : Nat) : Prop := f % FRAME = 0 ∧ kern_end ≤ f ∧ f < PHYSTOP

theorem mem_boot {q n e : Nat} (hend : 262144 * q + n * 262144 = 134217728) (hlow : e ≤ 262144 * q)
    (hhigh : 262144 * q < e + 262144) : f ∈ (frames (262144 * q) n).reverse ↔ BootStock e f := by
  have hf : FRAME = 262144 := rfl
  have hp : PHYSTOP = 134217728 := rfl
  rw [List.mem_reverse, mem_frames]
  unfold BootStock
  rw [hf, hp]
  constructor
  · rintro ⟨i, hi, rfl⟩
    omega
  · rintro ⟨hal, hlo, hhi⟩
    obtain ⟨j, rfl⟩ := Nat.dvd_of_mod_eq_zero hal
    have hqj : q ≤ j := by omega
    obtain ⟨d, rfl⟩ := Nat.exists_eq_add_of_le hqj
    have hd : d < n := by omega
    refine ⟨d, hd, ?_⟩
    rw [Nat.mul_add, Nat.mul_comm d]

theorem nodup_frames (p n : Nat) : (frames p n).Nodup := by
  refine (frames_apart p n).imp ?_
  rintro a b hab rfl
  have hf : 0 < FRAME := by decide
  rcases hab with h | h <;> omega

theorem stacks_take {l rest : List Nat} (ms : List Nat) (hl : k.mm.freelist = l ++ rest) (hlen : l.length = ms.length) :
    trapInit.stacks ms k = .ok () { k with mm := { k.mm with freelist := rest }, exstacks := k.exstacks ++ l } [] := by
  induction ms generalizing k l with
  | nil =>
      obtain rfl := List.length_eq_zero_iff.mp hlen
      rw [List.nil_append] at hl
      rw [trapInit.stacks, pure_apply, ← hl, List.append_nil]
  | cons x ms ih =>
      cases l with
      | nil => cases hlen
      | cons f l =>
          have hrun : onMm kalloc k = .ok (some f) { k with mm := { k.mm with freelist := l ++ rest } } [] := by
            unfold Kernel.onMm zoom
            rw [kalloc_cons hl]
            rfl
          rw [trapInit.stacks]
          refine bind_ok hrun (bind_ok (update_apply _ _) ?_)
          rw [ih rfl (Nat.succ.inj hlen), List.append_assoc, List.singleton_append]

/-- What kmain leaves to userinit when it has started with no frame on the free list. -/
structure Started (S : Nat → Prop) (k' : Kstate) : Prop where
  booted : Booted k'
  stocked : Stocked S k'
  modes : k'.exstacks.length = 4 ∧ k'.exstacks.Nodup

theorem loop_blank {fuel p : Nat} (hnone : m.freelist = []) (hpos : 0 < p) (hal : p % FRAME = 0) (hlow : m.kernEnd ≤ p)
    (hrun : freerange.loop PHYSTOP fuel p m = .ok () m' []) : ∀ f ∈ m'.freelist, Blank m' f := by
  have h := freerange_blank fuel hpos hal hlow (Nat.le_refl PHYSTOP) fun f hf => by
    rw [hnone] at hf
    cases hf
  rw [hrun] at h
  exact h fun _ he => by cases he

theorem boot_blank (hnone : m.freelist = []) (hpos : 0 < m.kernEnd) (hlt : m.kernEnd < 2 ^ 31)
    (hrun : freerange m.kernEnd PHYSTOP m = .ok () m' []) : ∀ f ∈ m'.freelist, Blank m' f := by
  obtain ⟨hal, hge, -⟩ := alignup_spec hlt
  rw [freerange_eq] at hrun
  exact loop_blank hnone (Nat.lt_of_lt_of_le hpos hge) hal hge hrun

theorem fetch_onMm {f : Kstate → MmM Unit} {g : KM Unit} {s : Kstate} (h : f k k.mm = .ok () m' [])
    (hg : g { k with mm := m' } = .ok () s []) :
    (fetch >>= fun k => onMm (f k) >>= fun _ => g : KM Unit) k = .ok () s [] :=
  bind_ok_of_eq (fetch_apply k) (bind_ok_of_eq (onMm_run h) hg rfl) rfl

theorem memory_runs {s : Kstate} (hrun : freerange k.mm.kernEnd PHYSTOP k.mm = .ok () m' [])
    (hinit : trapInit handlers { k with mm := m' } = .ok () s []) : kmain.memory handlers k = .ok () s [] := by
  -- freerange gets a name, so that nobody runs its loop
  obtain ⟨range, hrange⟩ : ∃ f : Kstate → MmM Unit, f = fun k => freerange k.mm.kernEnd PHYSTOP := ⟨_, rfl⟩
  have hmain :
      kmain.memory handlers = (fetch >>= fun k => onMm (range k) >>= fun _ => trapInit handlers : KM Unit) := by
    simp only [hrange, kmain.memory]
  have hk : range k k.mm = .ok () m' [] := by
    rw [hrange]
    exact hrun
  rw [hmain]
  exact fetch_onMm hk hinit

/-- kmain puts every frame behind the kernel on the free list, cleared, and takes the stacks of
the exception modes from there. -/
theorem kmain_stock (hb : Booted k) (hnone : k.mm.freelist = []) (hst : k.exstacks = []) (hpos : 0 < k.mm.kernEnd)
    (hpass : build_pages.passes k.mm.kernEnd) (hlen : handlers.length = 8)
    (hword : ∀ w ∈ handlers, w < 2 ^ 32 ∧ w % 4 = 0) :
    ∃ k', kmain.memory handlers k = .ok () k' [] ∧ Started (BootStock k.mm.kernEnd) k' := by
  have hv : vec_table = 0xF0000 := by decide
  have hkern : k.mm.kernEnd < 0xF0000 := hv ▸ hpass
  have hframe : FRAME = 262144 := rfl
  have hstop : PHYSTOP = 134217728 := rfl
  obtain ⟨r, n, q, hrun, hend, hlow, hhigh⟩ := boot_list hnone hpass
  have hmem : ∀ f, f ∈ (frames (262144 * q) n).reverse ↔ BootStock k.mm.kernEnd f := fun f => mem_boot hend hlow hhigh
  have hnd : (frames (262144 * q) n).reverse.Nodup := List.nodup_reverse.mpr (nodup_frames _ n)
  have hblank := boot_blank hnone hpos (by omega) hrun
  have hlong : 4 ≤ (frames (262144 * q) n).reverse.length := by
    rw [List.length_reverse, frames, List.length_map, List.length_range]
    omega
  generalize (frames (262144 * q) n).reverse = l at hrun hmem hnd hblank hlong
  have hvectors : ∀ w ∈ List.replicate 8 LDR_PC ++ handlers, w < 2 ^ 32 ∧ w % 4 = 0 := by
    intro w hw
    rcases List.mem_append.mp hw with hw | hw
    · rw [List.eq_of_mem_replicate hw]
      decide
    · exact hword w hw
  have hend : vec_table + 4 * (List.replicate 8 LDR_PC ++ handlers).length ≤ PHYSTOP := by
    rw [List.length_append, List.length_replicate, hlen]
    decide
  obtain ⟨m', hvec, hl, hk, hclear⟩ := storeWords_blank (m := ⟨r, l, k.mm.kernEnd⟩) (by decide) hend hvectors
  have hsplit : l.take 4 ++ l.drop 4 = l := List.take_append_drop 4 l
  have htake := stacks_take (k := { k with mm := m' }) modes (hl.trans hsplit.symm)
    (by rw [List.length_take]; exact min_eq_left hlong)
  rw [← hsplit] at hnd
  obtain ⟨hnd₁, hnd₂, hapart⟩ := List.nodup_append.mp hnd
  have hinit : trapInit handlers { k with mm := ⟨r, l, k.mm.kernEnd⟩ } =
      .ok () { k with mm := { m' with freelist := l.drop 4 }, exstacks := k.exstacks ++ l.take 4 } [] := by
    unfold trapInit
    exact bind_ok (onMm_run (k := { k with mm := ⟨r, l, k.mm.kernEnd⟩ }) hvec) htake
  have hmemory : kmain.memory handlers k =
      .ok () { k with mm := { m' with freelist := l.drop 4 }, exstacks := k.exstacks ++ l.take 4 } [] := by
    exact memory_runs hrun hinit
  refine ⟨_, hmemory, ⟨hb.files, hb.procs, hb.inodes, hb.pipes⟩,
    ⟨fun f hf => ?_, fun f => ?_, fun f hf hm => ?_, hnd₂, fun f hf => ?_⟩, ?_⟩
  · obtain ⟨hal, hlo, hhi⟩ := hf
    exact ⟨hal, by change m'.kernEnd ≤ f; rw [hk]; exact hlo, hhi, by omega⟩
  · have hcut : f ∈ l.take 4 ++ l.drop 4 ↔ f ∈ l.take 4 ∨ f ∈ l.drop 4 := List.mem_append
    rw [hsplit] at hcut
    rw [hst, List.nil_append]
    exact (hmem f).symm.trans (hcut.trans or_comm)
  · rw [hst, List.nil_append] at hm
    exact hapart f hm f hf rfl
  · have hfl : f ∈ l := hsplit ▸ List.mem_append_right _ hf
    have hal : f % FRAME = 0 := ((hmem f).mp hfl).1
    rw [hframe] at hal
    exact hclear f (by omega) (hblank f hfl)
  · rw [hst, List.nil_append]
    exact ⟨by rw [List.length_take]; exact min_eq_left hlong, hnd₁⟩

theorem leakless_boot {t : Prop} {initcode : List UInt8} {k₁ : Kstate} {u w : List Event} (hb : Booted k)
    (hnone : k.mm.freelist = []) (hst : k.exstacks = []) (hpos : 0 < k.mm.kernEnd)
    (hpass : build_pages.passes k.mm.kernEnd) (hlen : handlers.length = 8)
    (hword : ∀ w ∈ handlers, w < 2 ^ 32 ∧ w % 4 = 0) (hm : kmain.memory handlers k = .ok () k₁ w)
    (hi : userinit initcode k₁ = .ok () k' u) (hu : ∀ e ∈ u, NoLeak e) : Leakless t (BootStock k.mm.kernEnd) k' := by
  obtain ⟨k₂, hmem, h₂⟩ := kmain_stock hb hnone hst hpos hpass hlen hword
  obtain rfl : k₂ = k₁ := by
    rw [hmem] at hm
    injection hm
  exact .boot initcode h₂.booted h₂.stocked hi hu

end ArmXv6.FrameBoot
