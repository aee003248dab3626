import ArmXv6.SpaceCalls
import ArmXv6.Runs

namespace ArmXv6.FrameWorld

open Lib.Exec Lib.Bytes Lib.Frames Lib.Owners Param Blocks Fs Content Vm Kernel Proc AddressSpace Resize
  FrameOwners SpaceCalls
open FileRefs CallRefs
open Growproc (pages)

/-- Who keeps a frame besides the address spaces: a process its kernel stack, the file table the
pipes, the exception modes their stacks. -/
inductive Keeper
  | stack (p : Nat)
  | pipe
  | mode

def keeps (k : Kstate) : Keeper → Nat → Prop
  | .stack p, f => p < NPROC ∧ (k.procs p).state ≠ .unused ∧ (k.procs p).kstack = f
  | .pipe, q => IsPipe k q
  | .mode, f => f ∈ k.exstacks

theorem keeps_stack {k : Kstate} {p f : Nat} :
    keeps k (.stack p) f ↔ p < NPROC ∧ (k.procs p).state ≠ .unused ∧ (k.procs p).kstack = f := Iff.rfl

/-- The page directories of the processes, from the end of fork to the wait of the parent. -/
def spaces (k : Kstate) (p : Nat) : Option Nat :=
  if p < NPROC ∧ (k.procs p).state ≠ .unused ∧ (k.procs p).state ≠ .embryo then some (k.procs p).pgdir else none

/-- The middle of a call: D are the address spaces, H is what the call has in hand. Where t holds,
the pages of each process are those below its size. -/
structure Held (t : Prop) (S : Nat → Prop) (D : Nat → Option Nat) (H : List Nat) (k : Kstate) : Prop where
  estate : Estate S k.mm D (keeps k) H
  sizes : ∀ p d, p < NPROC → D p = some d → (k.procs p).sz < UADDR_SZ ∧ Extent t k.mm d (pages (k.procs p).sz)

/-- Between two calls every frame is in one place. -/
abbrev World (t : Prop) (S : Nat → Prop) (k : Kstate) : Prop := Held t S (spaces k) [] k

/-- What the places of frames are read from in a process. -/
def core (x : Kernel.Proc) : Bool × Bool × Nat × Nat × Nat :=
  (x.state = .unused, x.state = .embryo, x.kstack, x.pgdir, x.sz)

theorem core_eq {x y : Kernel.Proc} (h : core x = core y) :
    (x.state = .unused ↔ y.state = .unused) ∧ (x.state = .embryo ↔ y.state = .embryo) ∧ x.kstack = y.kstack ∧
      x.pgdir = y.pgdir ∧ x.sz = y.sz := by
  simpa [core] using h

/-- The memory and the places of frames are the same. -/
structure Alike (k k' : Kstate) : Prop where
  mm : k'.mm = k.mm
  modes : k'.exstacks = k.exstacks
  pipes : ∀ q, IsPipe k' q ↔ IsPipe k q
  procs : ∀ p, core (k'.procs p) = core (k.procs p)
  cur : k'.cur = k.cur

variable {t : Prop} {S : Nat → Prop} {D : Nat → Option Nat} {H : List Nat} {k k' k'' : Kstate} {p q f d c : Nat}

theorem Alike.refl (k : Kstate) : Alike k k := ⟨rfl, rfl, fun _ => Iff.rfl, fun _ => rfl, rfl⟩

theorem Alike.trans (h : Alike k k') (h' : Alike k' k'') : Alike k k'' :=
  ⟨h'.mm.trans h.mm, h'.modes.trans h.modes, fun q => (h'.pipes q).trans (h.pipes q), fun p =>
    (h'.procs p).trans (h.procs p),
    h'.cur.trans h.cur⟩

theorem Alike.keeps (h : Alike k k') (o : Keeper) (a : Nat) : keeps k' o a ↔ keeps k o a := by
  cases o with
  | stack p =>
      obtain ⟨h₁, -, h₃, -, -⟩ := core_eq (h.procs p)
      rw [keeps_stack, keeps_stack, ne_eq, ne_eq, h₁, h₃]
  | pipe => exact h.pipes a
  | mode => exact iff_of_eq (congrArg (a ∈ ·) h.modes)

theorem Alike.spaces (h : Alike k k') : spaces k' = spaces k := by
  funext p
  obtain ⟨h₁, h₂, -, h₄, -⟩ := core_eq (h.procs p)
  unfold FrameWorld.spaces
  simp only [ne_eq, h₁, h₂, h₄]

theorem Estate.rekeep {ω : Type} {m : Mm} {kept kept' : ω → Nat → Prop} (h : Estate S m D kept H)
    (hk : ∀ o a, kept' o a ↔ kept o a) :
    Estate S m D kept' H := by
  have he : kept' = kept := by
    funext o a
    exact propext (hk o a)
  rw [he]
  exact h

theorem Held.alike (h : Held t S D H k) (ha : Alike k k') : Held t S D H k' := by
  refine ⟨?_, fun p d hp hd => ?_⟩
  · rw [ha.mm]
    exact Estate.rekeep h.estate ha.keeps
  · rw [(core_eq (ha.procs p)).2.2.2.2, ha.mm]
    exact h.sizes p d hp hd

theorem World.alike (h : World t S k) (ha : Alike k k') : World t S k' := by
  unfold World
  rw [ha.spaces]
  exact Held.alike h ha

theorem Estate.keep {ω : Type} {m : Mm} {kept kept' : ω → Nat → Prop} {o : ω} (h : Estate S m D kept (f :: H))
    (hrest : ∀ y a, y ≠ o → (kept' y a ↔ kept y a)) (ho : ∀ a, kept' o a ↔ kept o a ∨ a = f) :
      Estate S m D kept' H := by
  have hhand := hand_head h
  have hh : Handover (has m D kept (f :: H)) (has m D kept' H) f (.kept o) := by
    refine .of h.apart hhand (by simp) (fun y h₁ h₂ a => ?_) (fun a => mem_tail_iff h a) ho
    cases y with
    | hand => exact absurd rfl h₁
    | kept y => exact hrest y a fun he => h₂ (by rw [he])
    | free | dir | table | page => exact Iff.rfl
  exact ⟨h.frame, hh.apart h.apart, fun a => (hh.owned hhand a).trans (h.stock a), h.nodup,
    (List.nodup_cons.mp h.hand).2, h.blank, h.upper⟩

theorem Estate.release {ω : Type} {m : Mm} {kept kept' : ω → Nat → Prop} {o : ω} (h : Estate S m D kept H)
    (hf : kept o f)
    (hrest : ∀ y a, y ≠ o → (kept' y a ↔ kept y a)) (ho : ∀ a, kept' o a ↔ kept o a ∧ a ≠ f) :
      Estate S m D kept' (f :: H) := by
  have hkept : has m D kept H (.kept o) f := hf
  have hh : Handover (has m D kept H) (has m D kept' (f :: H)) f .hand := by
    refine .of h.apart hkept (by simp) (fun y h₁ h₂ a => ?_) (fun a => ho a) fun a => List.mem_cons.trans or_comm
    cases y with
    | hand => exact absurd rfl h₂
    | kept y => exact hrest y a fun he => h₁ (by rw [he])
    | free | dir | table | page => exact Iff.rfl
  refine ⟨h.frame, hh.apart h.apart, fun a => (hh.owned hkept a).trans (h.stock a), h.nodup,
    List.nodup_cons.mpr ⟨fun hc => ?_, h.hand⟩,
    h.blank, h.upper⟩
  cases h.apart .hand _ f hc hkept

theorem Estate.rename {ω : Type} {m : Mm} {kept : ω → Nat → Prop} (h : Estate S m D kept H) (e : Nat ≃ Nat) :
    Estate S m (D ∘ e) kept H := by
  have hr : Renamed (has m D kept H) (has m (D ∘ e) kept H) (Place.move e.symm) := by
    intro y a
    constructor
    · intro ha
      cases y with
      | free => exact ⟨.free, ha, rfl⟩
      | hand => exact ⟨.hand, ha, rfl⟩
      | kept o => exact ⟨.kept o, ha, rfl⟩
      | dir s => exact ⟨.dir (e s), ha, by simp [Place.move]⟩
      | table s i => exact ⟨.table (e s) i, ha, by simp [Place.move]⟩
      | page s g => exact ⟨.page (e s) g, ha, by simp [Place.move]⟩
    · rintro ⟨x, hx, rfl⟩
      cases x with
      | free | hand | kept => exact hx
      | dir s =>
          change D (e (e.symm s)) = some a
          rw [Equiv.apply_symm_apply]
          exact hx
      | table s i | page s i =>
          change ∃ d, D (e (e.symm s)) = some d ∧ _
          rw [Equiv.apply_symm_apply]
          exact hx
  exact ⟨h.frame, hr.apart h.apart, fun a => (hr.owned a).trans (h.stock a), h.nodup, h.hand, h.blank, fun s d hs =>
    h.upper (e s) d hs⟩

theorem Leaves.any {m m' : Mm} {s s' : Nat} (h : Leaves D s m m') (hs : D s = none) : Leaves D s' m m' := by
  have hne : ∀ {x d}, D x = some d → x ≠ s := by
    rintro x d hd rfl
    cases hs.symm.trans hd
  exact ⟨fun x d _ hd => h.views x d (hne hd) hd, fun x d _ hd => h.same x d (hne hd) hd⟩

theorem spaces_none (h : ¬p < NPROC) : spaces k p = none := if_neg fun hc => h hc.1

theorem Held.fresh (h : Held t S D H k) : PipeRefs.Fresh k := by
  intro q hq hp
  cases h.estate.apart .free (.kept .pipe) q (List.mem_of_head? hq) hp

end ArmXv6.FrameWorld
