import ArmXv6.OnDisk
import ArmXv6.FailedCalls

namespace ArmXv6.Mounted

open Lib.Exec Lib.Bytes Param Blocks Fs Content Sysfile Vm Kernel Proc Exec Descriptors Syscall DiskImage
  BlockSpecs BlockAlloc
  Ownership FileData InodeSpecs Namespace Directory SysfileSpecs FileRefs ProcRefs References DirectoryMap FsRuns OnDisk

variable {v : Volume} {A : Image} {img : Nat → Block} {k : Kstate}

/-- A disk that can be mounted: every inode has its blocks and a link, every directory its entries. -/
structure Mountable (v : Volume) (A : Image) (img : Nat → Block) : Prop where
  disk : DiskRep v A ∅ img
  owns : Owns v A ∅ ∅
  full : ∀ i, Live v A i → Full A i
  tidy : Tidy v A
  linked : ∀ i, Live v A i → (A.ino i).nlink ≠ 0

/-- The file system after initlog on a disk with an empty log. -/
def mount (v : Volume) (img : Nat → Block) : Fs where
  blk := img
  disksize := v.disksize
  held := []
  dirty := []
  log := ⟨(decodeSb (img 1)).size - (decodeSb (img 1)).nlog, (decodeSb (img 1)).nlog, false, []⟩
  icache _ := ⟨0, 0, 0, false, false, emptyDinode⟩
  input := []

theorem Mountable.sane (h : Mountable v A img) : Sane v A (mount v img) := by
  have hno : ∀ ip, ¬0 < ((mount v img).icache ip).ref := fun ip => Nat.lt_irrefl 0
  have hlog : LogRep v (mount v img) := by
    refine ⟨rfl, ?_, ?_, List.nodup_nil, fun s hs => (by cases hs), Nat.zero_le _,
      fun n s hs => (by cases hs), .refl _⟩
    · change (decodeSb (img 1)).size - (decodeSb (img 1)).nlog = v.logStart
      rw [h.disk.sb]
      rfl
    · change (decodeSb (img 1)).nlog = v.sb.nlog
      rw [h.disk.sb]
  exact ⟨⟨⟨hlog, h.disk, fun ip _ hr => absurd hr (hno ip), fun ip _ jp _ hr => absurd hr (hno ip), fun ip _ hr =>
    absurd hr (hno ip)⟩,
    h.owns, h.full, fun ip _ hr => absurd hr (hno ip)⟩, h.tidy, fun i hl hn => absurd hn (h.linked i hl)⟩

theorem started_mount {u : List Event} {k' : Kstate} (h : Mountable v A img) (hb : Booted k) (hfs : k.fs = mount v img)
    (initcode : List UInt8) (hi : userinit initcode k = .ok () k' u) : Started v k' :=
  .boot initcode hb (hfs ▸ h.sane) (by rw [hfs]; rfl) hi

theorem mountable_small : Mountable smallVolume smallImage smallBlocks where
  disk := sound_small.rep.disk
  owns := owns_small
  full := sound_small.full
  tidy := FailedCalls.ready_full.sane.tidy
  linked i hl := by
    obtain rfl := (live_small i).mp hl
    decide +kernel

instance : DecidablePred Roomy
  | .balloc _ room => inferInstanceAs (Decidable (room = true))
  | .lost _ => .isTrue trivial
  | .nullPte _ => .isTrue trivial

/-- One more call, which is seen to return and to find room. -/
theorem Started.step {p : Nat} {c : Call} (h : Started v k) (hp : References.Live k p)
    (hc : (run c { k with cur := p }).returns = true ∧ ∀ e ∈ (run c { k with cur := p }).trace, Roomy e) :
    Started v (run c { k with cur := p }).state := by
  obtain ⟨r, he⟩ := Run.eq_ok hc.1
  exact .call p c h hp he hc.2

/-- A machine with that disk before its first process. -/
def smallMachine : Kstate := { freshKernel with fs := mount smallVolume smallBlocks }

def afterInit : Kstate := (userinit [] smallMachine).state

/-- The first process has opened a new file "a". -/
def afterOpen : Kstate := (run (.open [97] (O_CREATE ||| O_RDWR)) { afterInit with cur := 0 }).state

/-- It has written two bytes to it. -/
def afterWrite : Kstate := (run (.write 0 (fun _ => 7) 2) { afterOpen with cur := 0 }).state

/-- It has unlinked it. -/
def afterUnlink : Kstate := (run (.unlink [97]) { afterWrite with cur := 0 }).state

theorem started_afterInit : Started smallVolume afterInit := by
  obtain ⟨a, hi⟩ := Run.eq_ok (r := userinit [] smallMachine) (by decide +kernel)
  have hb : Booted smallMachine :=
    ⟨fun _ _ => ⟨rfl, rfl⟩, fun _ _ => ⟨rfl, rfl, fun _ _ => rfl⟩, fun _ _ => ⟨rfl, rfl⟩, fun _ => ⟨rfl, rfl⟩⟩
  exact started_mount mountable_small hb rfl [] hi

theorem live_first {k : Kstate} (h : (k.procs 0).state = .runnable) : References.Live k 0 := by
  simp [References.Live, h, NPROC]

theorem started_afterOpen : Started smallVolume afterOpen :=
  Started.step started_afterInit (live_first (by decide +kernel)) (by decide +kernel)

theorem started_afterWrite : Started smallVolume afterWrite :=
  Started.step started_afterOpen (live_first (by decide +kernel)) (by decide +kernel)

theorem started_afterUnlink : Started smallVolume afterUnlink :=
  Started.step started_afterWrite (live_first (by decide +kernel)) (by decide +kernel)

end ArmXv6.Mounted
