import ArmXv6.InodeRefs
import ArmXv6.Lib.Count
import ArmXv6.MemoryStops

namespace ArmXv6.FileRefs

open Lib.Exec Lib.Bytes Lib.Count Param Blocks Fs Content Sysfile Vm Kernel Proc Exec Descriptors Syscall
open Quiet InodeRefs MemoryStops

/-- The open files that keep a cache entry. -/
def fileUsers (k : Kstate) (i : Nat) : Nat :=
  (List.range NFILE).countP fun f =>
    0 < (k.ftable f).ref ∧ (k.ftable f).type = .inode ∧ (k.ftable f).ip = i

/-- The live processes with the cache entry as current directory. -/
def procUsers (k : Kstate) (i : Nat) : Nat :=
  (List.range NPROC).countP fun p =>
    ((k.procs p).state ≠ .unused ∧ (k.procs p).state ≠ .zombie) ∧ (k.procs p).cwd = some i

/-- The descriptors of a process that point to a file. -/
def slots (x : Proc) (f : Nat) : Nat :=
  (List.range NOFILE).countP fun fd => x.state ≠ .unused ∧ x.ofile fd = some f

/-- The descriptors of all processes that point to a file. -/
def holders (k : Kstate) (f : Nat) : Nat := ((List.range NPROC).map fun p => slots (k.procs p) f).sum

def isOpen (x : Pipe) (writable : Bool) : Bool := if writable then x.writeopen else x.readopen

def IsEnd (k : Kstate) (q f : Nat) : Prop := f < NFILE ∧ (k.ftable f).type = .pipe ∧ (k.ftable f).pipe = q

def IsPipe (k : Kstate) (q : Nat) : Prop := ∃ f, IsEnd k q f

/-- Each end of a pipe is one file at most, and is open exactly when there is that file. -/
structure PipeOk (k : Kstate) : Prop where
  ends : ∀ q f, IsEnd k q f → isOpen (k.pipes q) (k.ftable f).writable = true
  unique : ∀ q f g, IsEnd k q f → IsEnd k q g → (k.ftable f).writable = (k.ftable g).writable → f = g
  opened : ∀ q, IsPipe k q → ∀ w, isOpen (k.pipes q) w = true → ∃ f, IsEnd k q f ∧ (k.ftable f).writable = w
  counted : ∀ q, IsPipe k q → k.piped q = k.unpiped q + 1
  gone : ∀ q, ¬IsPipe k q → k.piped q = k.unpiped q

/-- The middle of a call: beyond the descriptors h and the directories c that are accounted
for, the call holds the files H, the cache entries R and the locks L. What pipes are is part of
it when t holds. -/
structure Mid (t : Prop) (h c : Nat → Nat) (H R L : List Nat) (k : Kstate) : Prop where
  inodes : At (fun i => fileUsers k i + c i) R L k.fs
  files : ∀ f < NFILE, (k.ftable f).ref = h f + H.count f
  held : ∀ f ∈ H, f < NFILE
  closed : ∀ f < NFILE, (k.ftable f).ref = 0 → (k.ftable f).type = .none
  ips : ∀ f < NFILE, (k.ftable f).type = .inode → (k.ftable f).ip < NINODE
  pipes : t → PipeOk k

structure SameProcs (k k' : Kstate) : Prop where
  procs : k'.procs = k.procs
  cur : k'.cur = k.cur
  initproc : k'.initproc = k.initproc

theorem SameProcs.refl (k : Kstate) : SameProcs k k := ⟨rfl, rfl, rfl⟩

theorem SameProcs.trans {k k' k'' : Kstate} (h : SameProcs k k') (h' : SameProcs k' k'') : SameProcs k k'' :=
  ⟨h'.procs.trans h.procs, h'.cur.trans h.cur, h'.initproc.trans h.initproc⟩

variable {t : Prop} {h c : Nat → Nat} {H R L R' L' : List Nat} {k k' : Kstate} {f : Nat} {ok : Stop → Prop}

theorem fileUsers_congr (hf : k'.ftable = k.ftable) : fileUsers k' = fileUsers k := by
  funext i
  unfold fileUsers
  rw [hf]

theorem PipeOk.congr (hp : PipeOk k) (hf : k'.ftable = k.ftable) (hq : k'.pipes = k.pipes)
    (hn : k'.piped = k.piped) (hu : k'.unpiped = k.unpiped) : PipeOk k' := by
  have he : ∀ q f, IsEnd k' q f ↔ IsEnd k q f := fun q f => by unfold IsEnd; rw [hf]
  have hi : ∀ q, IsPipe k' q ↔ IsPipe k q := fun q => exists_congr (he q)
  refine ⟨fun q f hf' => ?_, fun q f g hf' hg => ?_, fun q hq' w hw => ?_, fun q hq' => ?_, fun q hq' => ?_⟩
  · rw [hq, hf]
    exact hp.ends q f ((he q f).mp hf')
  · rw [hf]
    exact hp.unique q f g ((he q f).mp hf') ((he q g).mp hg)
  · rw [hq] at hw
    obtain ⟨f, h₁, h₂⟩ := hp.opened q ((hi q).mp hq') w hw
    exact ⟨f, (he q f).mpr h₁, by rw [hf]; exact h₂⟩
  · rw [hn, hu]
    exact hp.counted q ((hi q).mp hq')
  · rw [hn, hu]
    exact hp.gone q fun hc => hq' ((hi q).mpr hc)

/-- Everything but the files may change under new inode counts. -/
theorem Mid.congr {c' : Nat → Nat} (hm : Mid t h c H R L k) (hf : k'.ftable = k.ftable) (hq : k'.pipes = k.pipes)
    (hn : k'.piped = k.piped) (hu : k'.unpiped = k.unpiped)
    (hat : At (fun i => fileUsers k i + c' i) R' L' k'.fs) : Mid t h c' H R' L' k' where
  inodes := by
    rw [fileUsers_congr hf]
    exact hat
  files := by rw [hf]; exact hm.files
  held := hm.held
  closed := by rw [hf]; exact hm.closed
  ips := by rw [hf]; exact hm.ips
  pipes ht := (hm.pipes ht).congr hf hq hn hu

theorem Mid.onFs {α : Type} {m : FsM α} {Q : α → Kstate → Prop} (hm : Mid t h c H R L k)
    (hs : (m k.fs).Holds (fun _ => True) (fun a fs' => ∃ R' L', At (fun i => fileUsers k i + c i) R' L' fs' ∧
      ∀ k', Mid t h c H R' L' k' → SameProcs k k' → k'.ftable = k.ftable → k'.fs = fs' → Q a k') fun w _ => ok w) :
    (onFs m k).Holds (fun _ => True) Q fun w _ => ok w := by
  unfold Kernel.onFs
  rw [holds_zoom]
  refine hs.mono (fun a fs' h' => ?_) fun _ _ => id
  obtain ⟨R', L', hat, hq⟩ := h'
  exact hq _ (hm.congr rfl rfl rfl rfl hat) ⟨rfl, rfl, rfl⟩ rfl rfl

theorem Mid.onMm {α : Type} {m : MmM α} {Q : α → Kstate → Prop} (hm : Mid t h c H R L k) (ht : Tame ok m)
    (hq : ∀ a k', Mid t h c H R L k' → SameProcs k k' → k'.fs = k.fs → k'.ftable = k.ftable → Q a k') :
    (onMm m k).Holds (fun _ => True) Q fun w _ => ok w := by
  unfold Kernel.onMm
  rw [holds_zoom]
  exact (ht k.mm).mono (fun a _ _ => hq a _ (hm.congr rfl rfl rfl rfl hm.inodes) ⟨rfl, rfl, rfl⟩ rfl rfl) fun _ _ => id

def withFile (k : Kstate) (f : Nat) (x : File) : Kstate := { k with ftable := Function.update k.ftable f x }

theorem setFile_apply (f : Nat) (g : File → File) (k : Kstate) :
    setFile f g k = .ok () (withFile k f (g (k.ftable f))) [] := rfl

@[simp] theorem ftable_withFile (k : Kstate) (f g : Nat) (x : File) :
    (withFile k f x).ftable g = if g = f then x else k.ftable g := Function.update_apply ..

theorem isEnd_withFile {x : File} {q g : Nat} (hx : x.type = .pipe → x.pipe = q → IsEnd k q f)
    (hx' : IsEnd k q f → x.type = .pipe ∧ x.pipe = q) : IsEnd (withFile k f x) q g ↔ IsEnd k q g := by
  by_cases e : g = f
  · subst e
    refine ⟨fun hg => ?_, fun hg => ⟨hg.1, ?_, ?_⟩⟩
    · exact hx (by simpa using hg.2.1) (by simpa using hg.2.2)
    · simpa using (hx' hg).1
    · simpa using (hx' hg).2
  · unfold IsEnd
    simp [e]

theorem PipeOk.withFile {x : File} (hp : PipeOk k)
    (hx : (k.ftable f).type ≠ .pipe ∧ x.type ≠ .pipe ∨
      x.type = (k.ftable f).type ∧ x.pipe = (k.ftable f).pipe ∧ x.writable = (k.ftable f).writable ∧ f < NFILE) :
    PipeOk (FileRefs.withFile k f x) := by
  have he : ∀ q g, IsEnd (FileRefs.withFile k f x) q g ↔ IsEnd k q g := by
    intro q g
    refine isEnd_withFile (fun h₁ h₂ => ?_) fun hg => ?_
    · rcases hx with ⟨_, h⟩ | ⟨h, h', _, hf⟩
      · exact absurd h₁ h
      · exact ⟨hf, h ▸ h₁, h' ▸ h₂⟩
    · rcases hx with ⟨h, _⟩ | ⟨h, h', _, _⟩
      · exact absurd hg.2.1 h
      · exact ⟨h.trans hg.2.1, h'.trans hg.2.2⟩
  have hw : ∀ q g, IsEnd k q g → ((FileRefs.withFile k f x).ftable g).writable = (k.ftable g).writable := by
    intro q g hg
    by_cases e : g = f
    · subst e
      rcases hx with ⟨h, _⟩ | ⟨_, _, h, _⟩
      · exact absurd hg.2.1 h
      · simpa using h
    · simp [e]
  have hi : ∀ q, IsPipe (FileRefs.withFile k f x) q ↔ IsPipe k q := fun q => exists_congr (he q)
  refine ⟨fun q g hg => ?_, fun q g g' hg hg' => ?_, fun q hq w hw' => ?_, fun q hq => ?_, fun q hq => ?_⟩
  · have hg' := (he q g).mp hg
    rw [hw q g hg']
    exact hp.ends q g hg'
  · have h₁ := (he q g).mp hg
    have h₂ := (he q g').mp hg'
    rw [hw q g h₁, hw q g' h₂]
    exact hp.unique q g g' h₁ h₂
  · obtain ⟨g, h₁, h₂⟩ := hp.opened q ((hi q).mp hq) w hw'
    exact ⟨g, (he q g).mpr h₁, (hw q g h₁).trans h₂⟩
  · exact hp.counted q ((hi q).mp hq)
  · exact hp.gone q fun hc => hq ((hi q).mpr hc)

/-- The file keeps the cache entry i. -/
def Keeps (x : File) (i : Nat) : Bool := 0 < x.ref ∧ x.type = .inode ∧ x.ip = i

theorem fileUsers_withFile (hf : f < NFILE) (x : File) (i : Nat) :
    fileUsers (withFile k f x) i + (if Keeps (k.ftable f) i then 1 else 0) =
      fileUsers k i + if Keeps x i then 1 else 0 :=
  countP_range_update hf k.ftable x fun y => Keeps y i

theorem fileUsers_withFile_of_eq (hf : f < NFILE) {x : File} (hx : ∀ i, Keeps x i = Keeps (k.ftable f) i) :
    fileUsers (withFile k f x) = fileUsers k := by
  funext i
  have := fileUsers_withFile (k := k) hf x i
  rw [hx] at this
  omega

theorem Mid.withFile' {H' : List Nat} {x : File} (hm : Mid t h c H R L k)
    (hft : k'.ftable = Function.update k.ftable f x)
    (hat : At (fun i => fileUsers k' i + c i) R' L' k'.fs) (hpipe : t → PipeOk k')
    (href : x.ref = h f + H'.count f) (hother : ∀ g, g ≠ f → H'.count g = H.count g) (hheld : ∀ g ∈ H', g < NFILE)
    (hclosed : x.ref = 0 → x.type = .none) (hip : x.type = .inode → x.ip < NINODE) :
    Mid t h c H' R' L' k' where
  inodes := hat
  files g hg := by
    rw [hft]
    by_cases e : g = f
    · subst e; simpa using href
    · simpa [e, hother g e] using hm.files g hg
  held := hheld
  closed g hg := by
    rw [hft]
    by_cases e : g = f
    · subst e; simpa using hclosed
    · simpa [e] using hm.closed g hg
  ips g hg := by
    rw [hft]
    by_cases e : g = f
    · subst e; simpa using hip
    · simpa [e] using hm.ips g hg
  pipes := hpipe

theorem Mid.withFile {H' : List Nat} {x : File} (hm : Mid t h c H R L k) (hf : f < NFILE)
    (hft : k'.ftable = Function.update k.ftable f x) (hfs : k'.fs = k.fs)
    (hx : ∀ i, Keeps x i = Keeps (k.ftable f) i) (hpipe : t → PipeOk k')
    (href : x.ref = h f + H'.count f) (hother : ∀ g, g ≠ f → H'.count g = H.count g) (hheld : ∀ g ∈ H', g < NFILE)
    (hclosed : x.ref = 0 → x.type = .none) (hip : x.type = .inode → x.ip < NINODE) : Mid t h c H' R L k' := by
  refine hm.withFile' hft ?_ hpipe href hother hheld hclosed hip
  have : fileUsers k' = fileUsers k :=
    (fileUsers_congr (k := FileRefs.withFile k f x) hft).trans (fileUsers_withFile_of_eq hf hx)
  rw [this, hfs]
  exact hm.inodes

theorem held_cons (hm : Mid t h c H R L k) (hf : f < NFILE) : ∀ g ∈ f :: H, g < NFILE := by
  intro g hg
  rcases List.mem_cons.mp hg with rfl | hg
  · exact hf
  · exact hm.held g hg

theorem filealloc_mid (hm : Mid t h c H R L k) :
    (filealloc k).Holds (fun _ => True)
      (fun a k' => SameProcs k k' ∧ k'.fs = k.fs ∧ k'.mm = k.mm ∧ match a with
        | none => Mid t h c H R L k'
        | some f => f < NFILE ∧ Mid t h c (f :: H) R L k' ∧ (k'.ftable f).type = .none ∧
          (∀ q, IsPipe k' q ↔ IsPipe k q) ∧ ∀ g, (k.ftable g).ref ≠ 0 → k'.ftable g = k.ftable g ∧ g ≠ f)
      fun w _ => ok w := by
  unfold filealloc
  rw [holds_bind, holds_fetch]
  cases hs : (List.range NFILE).find? fun f => (k.ftable f).ref = 0 with
  | none =>
      dsimp only
      rw [holds_pure]
      exact ⟨.refl k, rfl, rfl, hm⟩
  | some f =>
      dsimp only
      have hf : f < NFILE := List.mem_range.mp (List.mem_of_find?_eq_some hs)
      have hz : (k.ftable f).ref = 0 := by simpa using List.find?_some hs
      have ht := hm.closed f hf hz
      have hp : t → PipeOk (FileRefs.withFile k f { k.ftable f with ref := 1 }) :=
        fun hp => (hm.pipes hp).withFile (.inl ⟨by rw [ht]; simp, by simp [ht]⟩)
      unfold setFile
      rw [holds_bind, holds_update, holds_pure]
      refine ⟨⟨rfl, rfl, rfl⟩, rfl, rfl, hf, ?_, ?_, fun q => ?_, fun g hg => ?_⟩
      · refine hm.withFile hf rfl rfl (fun i => by simp [Keeps, ht]) hp ?_
          (fun g e => List.count_cons_of_ne (Ne.symm e))
          (held_cons hm hf) (by simp) (by simp [ht])
        have := hm.files f hf
        rw [List.count_cons_self]
        change 1 = _
        omega
      · change ((FileRefs.withFile k f { k.ftable f with ref := 1 }).ftable f).type = .none
        simpa using ht
      · refine exists_congr fun g => isEnd_withFile (fun h₁ => ?_) fun h₁ => ?_
        · exact absurd (ht.symm.trans h₁) (by simp)
        · exact absurd (ht.symm.trans h₁.2.1) (by simp)
      · have e : g ≠ f := fun e => hg (e ▸ hz)
        exact ⟨Function.update_of_ne e _ _, e⟩

theorem filedup_mid (hm : Mid t h c H R L k) (hf : f < NFILE) (hpos : 0 < h f + H.count f) :
    (filedup f k).Holds (fun _ => True)
      (fun a k' => a = f ∧ Mid t h c (f :: H) R L k' ∧ SameProcs k k' ∧ k'.fs = k.fs) fun w _ => ok w := by
  have hr := hm.files f hf
  unfold filedup
  rw [holds_bind, holds_fetch, holds_ite]
  refine ⟨fun hlt => by omega, fun _ => ?_⟩
  unfold setFile
  rw [holds_bind, holds_update, holds_pure]
  refine ⟨rfl, ?_, ⟨rfl, rfl, rfl⟩, rfl⟩
  refine hm.withFile hf rfl rfl (fun i => ?_) (fun hp => (hm.pipes hp).withFile (.inr ⟨rfl, rfl, rfl, hf⟩)) ?_
    (fun g e => List.count_cons_of_ne (Ne.symm e)) (held_cons hm hf) (by simp) (hm.ips f hf)
  · have : 0 < (k.ftable f).ref := by omega
    simp [Keeps, this]
  · rw [List.count_cons_self]
    change (k.ftable f).ref + 1 = _
    omega

def closeEnd (x : Pipe) (writable : Bool) : Pipe :=
  if writable then { x with writeopen := false } else { x with readopen := false }

theorem isOpen_closeEnd (x : Pipe) (w w' : Bool) :
    isOpen (closeEnd x w) w' = (isOpen x w' && decide (w' ≠ w)) := by
  cases w <;> cases w' <;> simp [isOpen, closeEnd]

def shut (k : Kstate) (f q : Nat) (x : File) (w : Bool) : Kstate :=
  { k with
    ftable := Function.update k.ftable f x
    pipes := Function.update k.pipes q (closeEnd (k.pipes q) w) }

theorem isEnd_shut {q q' g : Nat} {x : File} {w : Bool} (hx : x.type ≠ .pipe) :
    IsEnd (shut k f q x w) q' g ↔ g ≠ f ∧ IsEnd k q' g := by
  unfold IsEnd shut
  by_cases e : g = f
  · subst e; simp [hx]
  · simp [e]

section Close

variable {q : Nat} {x : File} (hp : PipeOk k) (he : IsEnd k q f) (hx : x.type ≠ .pipe)

include hp he hx

omit hp in
theorem isPipe_shut_of_ne {w : Bool} {q' : Nat} (hq : q' ≠ q) : IsPipe (shut k f q x w) q' ↔ IsPipe k q' := by
  refine exists_congr fun g => (isEnd_shut hx).trans ⟨And.right, fun hg => ⟨?_, hg⟩⟩
  rintro rfl
  exact hq (hg.2.2.symm.trans he.2.2)

theorem isPipe_shut_iff : IsPipe (shut k f q x (k.ftable f).writable) q ↔
    isOpen (k.pipes q) (!(k.ftable f).writable) = true := by
  constructor
  · rintro ⟨g, hg⟩
    obtain ⟨hne, hg⟩ := (isEnd_shut hx).mp hg
    have hw : (k.ftable g).writable ≠ (k.ftable f).writable := fun e => hne (hp.unique q g f hg he e)
    have := hp.ends q g hg
    rwa [Bool.eq_not_of_ne hw] at this
  · intro ho
    obtain ⟨g, hg, hw⟩ := hp.opened q ⟨f, he⟩ _ ho
    refine ⟨g, (isEnd_shut hx).mpr ⟨?_, hg⟩⟩
    rintro rfl
    simp at hw

theorem pipeOk_shut {k' : Kstate} (hft : k'.ftable = (shut k f q x (k.ftable f).writable).ftable)
    (hps : k'.pipes = (shut k f q x (k.ftable f).writable).pipes) (hn : k'.piped = k.piped)
    (hu : ∀ q', k'.unpiped q' = k.unpiped q' +
      if q' = q ∧ isOpen (k.pipes q) (!(k.ftable f).writable) = false then 1 else 0) : PipeOk k' := by
  have hend : ∀ q' g, IsEnd k' q' g ↔ g ≠ f ∧ IsEnd k q' g := fun q' g => by
    rw [← isEnd_shut (w := (k.ftable f).writable) (q := q) hx]
    unfold IsEnd
    rw [hft]
  have hw : ∀ g, g ≠ f → (k'.ftable g).writable = (k.ftable g).writable := fun g e => by
    rw [hft]
    simp [shut, e]
  have hpi : ∀ q', IsPipe k' q' ↔ IsPipe (shut k f q x (k.ftable f).writable) q' := fun q' =>
    exists_congr fun g => by rw [hend, isEnd_shut hx]
  have hopen : ∀ q' w, isOpen (k'.pipes q') w =
      if q' = q then isOpen (k.pipes q) w && decide (w ≠ (k.ftable f).writable) else isOpen (k.pipes q') w := by
    intro q' w
    rw [hps]
    by_cases e : q' = q
    · subst e; simp [shut, isOpen_closeEnd]
    · simp [shut, e]
  refine ⟨fun q' g hg => ?_, fun q' g g' hg hg' hww => ?_, fun q' hq' w hw' => ?_, fun q' hq' => ?_, fun q' hq' => ?_⟩
  · obtain ⟨hne, hg⟩ := (hend q' g).mp hg
    rw [hopen, hw g hne]
    have ho := hp.ends q' g hg
    split
    case isTrue e =>
        subst e
        have : (k.ftable g).writable ≠ (k.ftable f).writable := fun e => hne (hp.unique q' g f hg he e)
        simp [ho, this]
    case isFalse => exact ho
  · obtain ⟨h₁, hg⟩ := (hend q' g).mp hg
    obtain ⟨h₂, hg'⟩ := (hend q' g').mp hg'
    rw [hw g h₁, hw g' h₂] at hww
    exact hp.unique q' g g' hg hg' hww
  · rw [hopen] at hw'
    by_cases e : q' = q
    · subst e
      rw [if_pos rfl, Bool.and_eq_true, decide_eq_true_eq] at hw'
      obtain ⟨g, hg, hgw⟩ := hp.opened q' ⟨f, he⟩ w hw'.1
      have hne : g ≠ f := by
        rintro rfl
        exact hw'.2 hgw.symm
      exact ⟨g, (hend q' g).mpr ⟨hne, hg⟩, by rw [hw g hne]; exact hgw⟩
    · rw [if_neg e] at hw'
      have hq := (isPipe_shut_of_ne he hx e).mp ((hpi q').mp hq')
      obtain ⟨g, hg, hgw⟩ := hp.opened q' hq w hw'
      have hne : g ≠ f := by
        rintro rfl
        exact e (hg.2.2.symm.trans he.2.2)
      exact ⟨g, (hend q' g).mpr ⟨hne, hg⟩, by rw [hw g hne]; exact hgw⟩
  · rw [hn, hu]
    by_cases e : q' = q
    · subst e
      have ho := (isPipe_shut_iff hp he hx).mp ((hpi q').mp hq')
      simp only [ho, true_and, Bool.true_eq_false, if_false, Nat.add_zero]
      exact hp.counted q' ⟨f, he⟩
    · have hq := (isPipe_shut_of_ne he hx e).mp ((hpi q').mp hq')
      simp only [e, false_and, if_false, Nat.add_zero]
      exact hp.counted q' hq
  · rw [hn, hu]
    by_cases e : q' = q
    · subst e
      have ho : isOpen (k.pipes q') (!(k.ftable f).writable) = false := by
        rw [← Bool.not_eq_true]
        exact fun ho => hq' ((hpi q').mpr ((isPipe_shut_iff hp he hx).mpr ho))
      simp only [ho, and_self, if_true]
      exact hp.counted q' ⟨f, he⟩
    · have hq : ¬IsPipe k q' := fun hc => hq' ((hpi q').mpr ((isPipe_shut_of_ne he hx e).mpr hc))
      simp only [e, false_and, if_false, Nat.add_zero]
      exact hp.gone q' hq

end Close

def closedFile (x : File) : File := { x with ref := 0, type := .none }

theorem closedFile_keeps (x : File) (i : Nat) : Keeps (closedFile x) i = false := by simp [Keeps, closedFile]

theorem count_of_last (hm : Mid t h c (f :: H) R L k) (hf : f < NFILE) (hr : (k.ftable f).ref = 1) :
    (closedFile (k.ftable f)).ref = h f + H.count f := by
  have := hm.files f hf
  rw [List.count_cons_self] at this
  change 0 = _
  omega

/-- What the last close of a file leaves, once pipes and the cache are accounted for. -/
theorem Mid.close (hm : Mid t h c (f :: H) R L k) (hr : (k.ftable f).ref = 1)
    (hft : k'.ftable = Function.update k.ftable f (closedFile (k.ftable f)))
    (hat : At (fun i => fileUsers k' i + c i) R' L' k'.fs) (hpipe : t → PipeOk k') : Mid t h c H R' L' k' :=
  hm.withFile' hft hat hpipe (count_of_last hm (hm.held f List.mem_cons_self) hr)
    (fun _ e => (List.count_cons_of_ne (Ne.symm e)).symm) (fun g hg => hm.held g (List.mem_cons_of_mem _ hg))
    (fun _ => rfl) (fun e => by cases e)

theorem pipeclose_mid (hok : Below ok) (hm : Mid t h c (f :: H) R L k) (hr : (k.ftable f).ref = 1)
    (ht : (k.ftable f).type = .pipe) :
    (pipeclose (k.ftable f).pipe (k.ftable f).writable (withFile k f (closedFile (k.ftable f)))).Holds (fun _ => True)
      (fun _ k' => Mid t h c H R L k' ∧ SameProcs k k') fun w _ => ok w := by
  have hf := hm.held f List.mem_cons_self
  have he : IsEnd k (k.ftable f).pipe f := ⟨hf, ht, rfl⟩
  have hx : (closedFile (k.ftable f)).type ≠ .pipe := by simp [closedFile]
  have hset : ((if (k.ftable f).writable then setPipe (k.ftable f).pipe fun x => { x with writeopen := false }
      else setPipe (k.ftable f).pipe fun x => { x with readopen := false } : KM Unit)
        (withFile k f (closedFile (k.ftable f)))) =
      .ok () (shut k f (k.ftable f).pipe (closedFile (k.ftable f)) (k.ftable f).writable) [] := by
    unfold shut closeEnd
    cases (k.ftable f).writable <;> rfl
  -- a state with the end shut and the frees counted
  have hdone : ∀ k', k'.ftable = (shut k f (k.ftable f).pipe (closedFile (k.ftable f)) (k.ftable f).writable).ftable →
      k'.pipes = (shut k f (k.ftable f).pipe (closedFile (k.ftable f)) (k.ftable f).writable).pipes →
      k'.piped = k.piped → k'.fs = k.fs →
      (∀ q', k'.unpiped q' = k.unpiped q' +
        if q' = (k.ftable f).pipe ∧ isOpen (k.pipes (k.ftable f).pipe) (!(k.ftable f).writable) = false then 1 else 0) →
      Mid t h c H R L k' := by
    intro k' hft hps hn hfs hu
    refine hm.close hr hft ?_ (fun hp => pipeOk_shut (hm.pipes hp) he hx hft hps hn hu)
    have hus : fileUsers k' = fileUsers k :=
      (fileUsers_congr (k := withFile k f (closedFile (k.ftable f))) hft).trans
        (fileUsers_withFile_of_eq hf fun i => by simp [Keeps, closedFile, ht])
    rw [hus, hfs]
    exact hm.inodes
  unfold pipeclose
  rw [holds_bind, hset]
  intro _
  rw [holds_bind, holds_fetch, holds_ite]
  have hflag : (¬((shut k f (k.ftable f).pipe (closedFile (k.ftable f)) (k.ftable f).writable).pipes
        (k.ftable f).pipe).readopen = true ∧
      ¬((shut k f (k.ftable f).pipe (closedFile (k.ftable f)) (k.ftable f).writable).pipes
        (k.ftable f).pipe).writeopen = true) ↔
      isOpen (k.pipes (k.ftable f).pipe) (!(k.ftable f).writable) = false := by
    unfold shut closeEnd isOpen
    cases (k.ftable f).writable <;> simp
  refine ⟨fun hc => ?_, fun hc => ?_⟩
  · have ho := hflag.mp hc
    unfold countUnpiped
    rw [holds_bind, holds_update]
    refine Mid.onMm (hdone _ rfl rfl rfl rfl fun q' => ?_) (tame_kfree hok _)
      fun _ k' hm' hs _ _ => ⟨hm', hs.procs, hs.cur, hs.initproc⟩
    by_cases e : q' = (k.ftable f).pipe
    · subst e
      simp [ho, shut]
    · simp [e, shut]
  · rw [holds_pure]
    have ho : isOpen (k.pipes (k.ftable f).pipe) (!(k.ftable f).writable) = true := by
      rw [← Bool.not_eq_false]
      exact fun e => hc (hflag.mpr e)
    exact ⟨hdone _ rfl rfl rfl rfl fun q' => by simp [ho, shut], rfl, rfl, rfl⟩

theorem fileclose_mid (hok : Below ok) (hm : Mid t h c (f :: H) R L k) :
    (fileclose f k).Holds (fun _ => True) (fun _ k' => Mid t h c H R L k' ∧ SameProcs k k') fun w _ => ok w := by
  have hf := hm.held f List.mem_cons_self
  have href := hm.files f hf
  rw [List.count_cons_self] at href
  unfold fileclose
  rw [holds_bind, holds_fetch, holds_ite]
  refine ⟨fun hlt => by omega, fun _ => ?_⟩
  rw [holds_ite]
  refine ⟨fun hmore => ?_, fun hlast => ?_⟩
  · unfold setFile
    rw [holds_update]
    refine ⟨hm.withFile hf rfl rfl (fun i => ?_) (fun hp => (hm.pipes hp).withFile (.inr ⟨rfl, rfl, rfl, hf⟩)) ?_
      (fun g e => (List.count_cons_of_ne (Ne.symm e)).symm) (fun g hg => hm.held g (List.mem_cons_of_mem _ hg))
      (fun e => ?_) (hm.ips f hf), rfl, rfl, rfl⟩
    · have h₁ : 0 < (k.ftable f).ref - 1 := by omega
      have h₂ : 0 < (k.ftable f).ref := by omega
      simp [Keeps, h₁, h₂]
    · change (k.ftable f).ref - 1 = _
      omega
    · change (k.ftable f).ref - 1 = 0 at e
      omega
  · have hr : (k.ftable f).ref = 1 := by omega
    rw [holds_bind, setFile_apply]
    intro _
    cases ht : (k.ftable f).type with
    | pipe => exact pipeclose_mid hok hm hr ht
    | none =>
        dsimp only
        rw [holds_pure]
        have hk : ∀ i, Keeps (closedFile (k.ftable f)) i = Keeps (k.ftable f) i := fun i => by
          simp [Keeps, closedFile, ht]
        refine ⟨hm.close hr rfl ?_ (fun hp => (hm.pipes hp).withFile (.inl ⟨by rw [ht]; simp, by simp⟩)), rfl, rfl, rfl⟩
        change At (fun i => fileUsers (withFile k f (closedFile (k.ftable f))) i + c i) R L k.fs
        rw [fileUsers_withFile_of_eq hf hk]
        exact hm.inodes
    | inode =>
        dsimp only
        have hip := hm.ips f hf ht
        -- the reference of the file passes to the call
        have hat : At (fun i => fileUsers (withFile k f (closedFile (k.ftable f))) i + c i)
            ((k.ftable f).ip :: R) L k.fs := by
          refine ⟨fun i hi => ?_, hm.inodes.busy, fun i hi => List.mem_cons_of_mem _ (hm.inodes.locked i hi),
            fun i hi => ?_⟩
          · have h₁ := hm.inodes.ref i hi
            have h₂ := fileUsers_withFile (k := k) hf (closedFile (k.ftable f)) i
            simp only [closedFile_keeps, Bool.false_eq_true, if_false, Nat.add_zero] at h₂
            by_cases e : (k.ftable f).ip = i
            · rw [if_pos (by simp [Keeps, hr, ht, e])] at h₂
              rw [e, List.count_cons_self]
              omega
            · rw [if_neg (by simp [Keeps, e])] at h₂
              rw [List.count_cons_of_ne e]
              omega
          · rcases List.mem_cons.mp hi with rfl | hi
            · exact hip
            · exact hm.inodes.bound i hi
        have hm' : Mid t h c H ((k.ftable f).ip :: R) L (withFile k f (closedFile (k.ftable f))) :=
          hm.close hr rfl hat (fun hp => (hm.pipes hp).withFile (.inl ⟨by rw [ht]; simp, by simp [closedFile]⟩))
        refine hm'.onFs ?_
        rw [holds_bind]
        refine (hat.quiet (quiet_beginTrans hok)).mono (fun _ fs₁ h₁ => ?_) fun _ _ => id
        rw [holds_bind]
        refine (iput_refs hok h₁ hm.inodes.locked).mono (fun _ fs₂ h₂ => ?_) fun _ _ => id
        exact (h₂.quiet (quiet_commitTrans hok)).mono
          (fun _ fs₃ h₃ => ⟨R, L, h₃, fun k' hk hs _ _ => ⟨hk, hs.procs, hs.cur, hs.initproc⟩⟩) fun _ _ => id

end ArmXv6.FileRefs
