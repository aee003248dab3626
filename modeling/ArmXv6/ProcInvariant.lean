import ArmXv6.ProcTable

namespace ArmXv6.ProcInvariant

open Param Kernel ProcTable

/-- A process that runs or can come to run: it can be a parent. -/
def Active : ProcState → Prop
  | .sleeping | .runnable | .running => True
  | _ => False

instance : DecidablePred Active := fun x => by
  cases x <;> simp only [Active] <;> infer_instance

/-- The pids handed out so far. -/
def allocs (t : List Event) : Nat :=
  t.countP fun e => match e with
    | .alloc _ => true
    | _ => false

/-- How often wait has returned the pid. -/
def waits (pid : Int) (t : List Event) : Nat :=
  t.countP fun e => match e with
    | .wait _ q => q = pid
    | _ => false

theorem allocs_append (t u : List Event) : allocs (t ++ u) = allocs t + allocs u := List.countP_append

theorem waits_append (pid : Int) (t u : List Event) : waits pid (t ++ u) = waits pid t + waits pid u :=
  List.countP_append

/-- The steps of fork keep the processor and the embryo they work on. -/
def PcOk (s : Table) (p : Fin NPROC) : Prop :=
  match s.pc p with
  | .embryo np | .stacked np => s.proc = some p ∧ (s.slots np).state = .embryo
  | .copied np => s.proc = some p ∧ (s.slots np).state = .embryo ∧ (s.slots np).parent = some p
  | .exiting => p ≠ s.initproc
  | _ => True

structure Family (s : Table) : Prop where
  running : ∀ p, (s.slots p).state = .running ↔ s.proc = some p
  pcs : ∀ p, PcOk s p
  init : Active (s.slots s.initproc).state
  orphan : (s.slots s.initproc).parent = none
  parents : ∀ p, p ≠ s.initproc → (s.slots p).state ≠ .unused → (s.slots p).state ≠ .embryo →
    ∃ q, (s.slots p).parent = some q ∧ q ≠ p ∧ Active (s.slots q).state

/-- A slot keeps its pid when it is given up without wait, so pids other than 0 are
distinct over all slots. -/
structure Pids (s : Table) (t : List Event) : Prop where
  next : s.nextpid = allocs t + 1
  lt : ∀ p, (s.slots p).pid < s.nextpid
  nonneg : ∀ p, 0 ≤ (s.slots p).pid
  pos : ∀ p, (s.slots p).state ≠ .unused → 0 < (s.slots p).pid
  inj : ∀ p q, (s.slots p).pid = (s.slots q).pid → (s.slots p).pid ≠ 0 → p = q
  zombie : ∀ p, (s.slots p).state = .zombie → .exit p (s.slots p).pid ∈ t
  once : ∀ pid, waits pid t ≤ 1
  gone : ∀ pid, waits pid t ≠ 0 → 0 < pid ∧ pid < s.nextpid ∧ ∀ p, (s.slots p).pid ≠ pid

/-- Two tables that differ only in which processes run, sleep or are killed. -/
structure Shuffled (s s' : Table) : Prop where
  initproc : s'.initproc = s.initproc
  nextpid : s'.nextpid = s.nextpid
  pid : ∀ p, (s'.slots p).pid = (s.slots p).pid
  parent : ∀ p, (s'.slots p).parent = (s.slots p).parent
  state : ∀ p, (s'.slots p).state = (s.slots p).state ∨
    Active (s.slots p).state ∧ Active (s'.slots p).state

theorem Shuffled.refl (s : Table) : Shuffled s s := ⟨rfl, rfl, fun _ => rfl, fun _ => rfl, fun _ => .inl rfl⟩

theorem Shuffled.active {s s' : Table} (h : Shuffled s s') {p : Fin NPROC}
    (ha : Active (s.slots p).state) : Active (s'.slots p).state := by
  rcases h.state p with e | ⟨_, b⟩
  · exact e ▸ ha
  · exact b

theorem Shuffled.idle {s s' : Table} (h : Shuffled s s') {p : Fin NPROC} {x : ProcState}
    (hx : ¬Active x) : (s'.slots p).state = x ↔ (s.slots p).state = x := by
  rcases h.state p with e | ⟨a, b⟩
  · rw [e]
  · exact ⟨fun e => absurd (e ▸ b) hx, fun e => absurd (e ▸ a) hx⟩

/-- The pids stay what they are when slots change hands without a call of allocproc or wait. -/
theorem Pids.keep {s s' : Table} {t e : List Event} (hp : Pids s t) (hn : s'.nextpid = s.nextpid)
    (hi : ∀ p, (s'.slots p).pid = (s.slots p).pid)
    (hu : ∀ p, (s'.slots p).state ≠ .unused → (s.slots p).state ≠ .unused)
    (hz : ∀ p, (s'.slots p).state = .zombie → (s.slots p).state = .zombie ∨ .exit p (s.slots p).pid ∈ e)
    (ha : allocs e = 0) (hw : ∀ pid, waits pid e = 0) : Pids s' (t ++ e) where
  next := by rw [allocs_append, ha, hn, hp.next, Nat.add_zero]
  lt p := by rw [hi, hn]; exact hp.lt p
  nonneg p := by rw [hi]; exact hp.nonneg p
  pos p h := by rw [hi]; exact hp.pos p (hu p h)
  inj p q := by rw [hi, hi]; exact hp.inj p q
  zombie p h := by
    rw [hi]
    rcases hz p h with h | h
    · exact List.mem_append_left _ (hp.zombie p h)
    · exact List.mem_append_right _ h
  once pid := by rw [waits_append, hw, Nat.add_zero]; exact hp.once pid
  gone pid h := by
    rw [waits_append, hw, Nat.add_zero] at h
    obtain ⟨h₀, h₁, h₂⟩ := hp.gone pid h
    exact ⟨h₀, by rw [hn]; exact h₁, fun p => by rw [hi]; exact h₂ p⟩

theorem Shuffled.pids {s s' : Table} {t : List Event} (h : Shuffled s s') (hp : Pids s t) :
    Pids s' (t ++ []) :=
  hp.keep h.nextpid h.pid (fun _ hu e => hu ((h.idle (by simp [Active])).mpr e))
    (fun _ hz => .inl ((h.idle (by simp [Active])).mp hz)) rfl fun _ => rfl

theorem Shuffled.parents {s s' : Table} (h : Shuffled s s')
    (hp : ∀ p, p ≠ s.initproc → (s.slots p).state ≠ .unused → (s.slots p).state ≠ .embryo →
      ∃ q, (s.slots p).parent = some q ∧ q ≠ p ∧ Active (s.slots q).state) :
    ∀ p, p ≠ s'.initproc → (s'.slots p).state ≠ .unused → (s'.slots p).state ≠ .embryo →
      ∃ q, (s'.slots p).parent = some q ∧ q ≠ p ∧ Active (s'.slots q).state := by
  intro p hi hu he
  rw [h.initproc] at hi
  obtain ⟨q, hq, hne, ha⟩ := hp p hi (fun e => hu ((h.idle (by simp [Active])).mpr e))
    (fun e => he ((h.idle (by simp [Active])).mpr e))
  exact ⟨q, by rw [h.parent]; exact hq, hne, h.active ha⟩

/-- A shuffle that hands over the processor correctly keeps the family relations, if no
process is inside fork, or the processor stays where it is. -/
theorem Shuffled.family {s s' : Table} (h : Shuffled s s') (hf : Family s)
    (hr : ∀ p, (s'.slots p).state = .running ↔ s'.proc = some p) (hpc : ∀ p, PcOk s' p) : Family s' where
  running := hr
  pcs := hpc
  init := by rw [h.initproc]; exact h.active hf.init
  orphan := by rw [h.parent, h.initproc]; exact hf.orphan
  parents := h.parents hf.parents

theorem Shuffled.pcOk {s s' : Table} (h : Shuffled s s') {p : Fin NPROC} (hc : s'.pc p = s.pc p)
    (hp : s'.proc = s.proc) (ho : PcOk s p) : PcOk s' p := by
  unfold PcOk at ho ⊢
  rw [hc, hp, h.initproc]
  cases hs : s.pc p with
  | embryo np | stacked np =>
      rw [hs] at ho
      exact ⟨ho.1, (h.idle (by simp [Active])).mpr ho.2⟩
  | copied np =>
      rw [hs] at ho
      exact ⟨ho.1, (h.idle (by simp [Active])).mpr ho.2.1, by rw [h.parent]; exact ho.2.2⟩
  | exiting => rw [hs] at ho; exact ho
  | other | waiting => trivial

theorem PcOk.of_idle {s s' : Table} {p : Fin NPROC} (ho : PcOk s p) (hc : s'.pc p = s.pc p)
    (hi : s'.initproc = s.initproc)
    (hn : ∀ np, s.pc p ≠ .embryo np ∧ s.pc p ≠ .stacked np ∧ s.pc p ≠ .copied np) : PcOk s' p := by
  unfold PcOk at ho ⊢
  rw [hc, hi]
  cases hs : s.pc p with
  | embryo np => exact absurd hs (hn np).1
  | stacked np => exact absurd hs (hn np).2.1
  | copied np => exact absurd hs (hn np).2.2
  | exiting => rw [hs] at ho; exact ho
  | other | waiting => trivial

theorem Family.not_forking {s : Table} (hf : Family s) {p : Fin NPROC} (hp : s.proc ≠ some p) (np : Fin NPROC) :
    s.pc p ≠ .embryo np ∧ s.pc p ≠ .stacked np ∧ s.pc p ≠ .copied np := by
  have h := hf.pcs p
  unfold PcOk at h
  refine ⟨?_, ?_, ?_⟩ <;>
  · intro e
    rw [e] at h
    exact hp h.1

@[simp] theorem slots_setSlot (s : Table) (p q : Fin NPROC) (x : Slot) :
    (setSlot s p x).slots q = if q = p then x else s.slots q := Function.update_apply ..

@[simp] theorem pc_setSlot (s : Table) (p : Fin NPROC) (x : Slot) : (setSlot s p x).pc = s.pc := rfl

@[simp] theorem proc_setSlot (s : Table) (p : Fin NPROC) (x : Slot) : (setSlot s p x).proc = s.proc := rfl

@[simp] theorem initproc_setSlot (s : Table) (p : Fin NPROC) (x : Slot) :
    (setSlot s p x).initproc = s.initproc := rfl

@[simp] theorem nextpid_setSlot (s : Table) (p : Fin NPROC) (x : Slot) :
    (setSlot s p x).nextpid = s.nextpid := rfl

@[simp] theorem pc_setPc (s : Table) (p q : Fin NPROC) (c : Pc) :
    (setPc s p c).pc q = if q = p then c else s.pc q := Function.update_apply ..

@[simp] theorem slots_setPc (s : Table) (p : Fin NPROC) (c : Pc) : (setPc s p c).slots = s.slots := rfl

@[simp] theorem proc_setPc (s : Table) (p : Fin NPROC) (c : Pc) : (setPc s p c).proc = s.proc := rfl

@[simp] theorem initproc_setPc (s : Table) (p : Fin NPROC) (c : Pc) : (setPc s p c).initproc = s.initproc := rfl

@[simp] theorem nextpid_setPc (s : Table) (p : Fin NPROC) (c : Pc) : (setPc s p c).nextpid = s.nextpid := rfl

/-- Two tables with the slots, init and pids of a shuffle, whatever their processor. -/
theorem Shuffled.of_slots {s s' s'' : Table} (h : Shuffled s s') (hs : s''.slots = s'.slots)
    (hi : s''.initproc = s'.initproc) (hn : s''.nextpid = s'.nextpid) : Shuffled s s'' where
  initproc := hi.trans h.initproc
  nextpid := hn.trans h.nextpid
  pid p := by rw [hs]; exact h.pid p
  parent p := by rw [hs]; exact h.parent p
  state p := by rw [hs]; exact h.state p

theorem shuffled_setSlot {s : Table} {p : Fin NPROC} {x : Slot} (hi : x.pid = (s.slots p).pid)
    (hp : x.parent = (s.slots p).parent)
    (hs : x.state = (s.slots p).state ∨ Active (s.slots p).state ∧ Active x.state) :
    Shuffled s (setSlot s p x) where
  initproc := rfl
  nextpid := rfl
  pid q := by
    rw [slots_setSlot]
    split
    case isTrue e => rw [hi, e]
    case isFalse => rfl
  parent q := by
    rw [slots_setSlot]
    split
    case isTrue e => rw [hp, e]
    case isFalse => rfl
  state q := by
    rw [slots_setSlot]
    split
    case isTrue e => rw [e]; exact hs
    case isFalse => exact .inl rfl

theorem shuffled_wakeup1 (s : Table) (ch : Chan) : Shuffled s (wakeup1 s ch) where
  initproc := rfl
  nextpid := rfl
  pid p := by unfold wakeup1; dsimp only; split <;> rfl
  parent p := by unfold wakeup1; dsimp only; split <;> rfl
  state p := by
    unfold wakeup1
    dsimp only
    split
    case isTrue e => rw [e.1]; exact .inr ⟨trivial, trivial⟩
    case isFalse => exact .inl rfl

theorem running_wakeup1 (s : Table) (ch : Chan) (p : Fin NPROC) :
    ((wakeup1 s ch).slots p).state = .running ↔ (s.slots p).state = .running := by
  unfold wakeup1
  dsimp only
  split
  case isTrue e => simp [e.1]
  case isFalse => rfl

theorem family_wakeup1 {s : Table} (hf : Family s) (ch : Chan) : Family (wakeup1 s ch) :=
  (shuffled_wakeup1 s ch).family hf (fun p => (running_wakeup1 s ch p).trans (hf.running p))
    fun p => (shuffled_wakeup1 s ch).pcOk rfl rfl (hf.pcs p)

theorem shuffled_scheduler {s s' : Table} {p : Fin NPROC} (h : scheduler s p = some s') : Shuffled s s' := by
  unfold scheduler at h
  split at h
  case isFalse => cases h
  case isTrue hc =>
      cases h
      refine (shuffled_setSlot (x := { s.slots p with state := .running, chan := none }) rfl rfl ?_).of_slots rfl rfl
        rfl
      rw [hc.2]
      exact .inr ⟨trivial, trivial⟩

theorem family_scheduler {s s' : Table} {p : Fin NPROC} (hf : Family s) (h : scheduler s p = some s') :
    Family s' := by
  have hs := shuffled_scheduler h
  unfold scheduler at h
  split at h
  case isFalse => cases h
  case isTrue hc =>
      cases h
      refine hs.family hf (fun q => ?_) fun q => (hf.pcs q).of_idle rfl rfl (hf.not_forking (by simp [hc.1]))
      have hq := hf.running q
      rw [hc.1] at hq
      change (Function.update s.slots p _ q).state = .running ↔ some p = some q
      by_cases e : q = p
      · subst e; simp
      · rw [Function.update_of_ne e, hq]
        simp [Ne.symm e]

theorem family_release {s : Table} {p : Fin NPROC} {x : Slot} (hf : Family s) (hp : s.proc = some p)
    (hn : ∀ np, s.pc p ≠ .embryo np ∧ s.pc p ≠ .stacked np ∧ s.pc p ≠ .copied np)
    (hx : x.state ≠ .running) (hs : Shuffled s (setSlot s p x)) :
    Family { setSlot s p x with proc := none } := by
  have hs' : Shuffled s { setSlot s p x with proc := none } := hs.of_slots rfl rfl rfl
  refine hs'.family hf (fun q => ?_) fun q => (hf.pcs q).of_idle rfl rfl ?_
  · change (Function.update s.slots p x q).state = .running ↔ none = some q
    by_cases e : q = p
    · subst e; simp [hx]
    · rw [Function.update_of_ne e, hf.running, hp]
      simp [Ne.symm e]
  · by_cases e : q = p
    · subst e; exact hn
    · exact hf.not_forking (by rw [hp]; simpa using Ne.symm e)

theorem active_of_proc {s : Table} {p : Fin NPROC} (hf : Family s) (hp : s.proc = some p) :
    Active (s.slots p).state := by
  rw [(hf.running p).mpr hp]
  trivial

theorem shuffled_yield {s : Table} {p : Fin NPROC} (hf : Family s) (hp : s.proc = some p) :
    Shuffled s (setSlot s p { s.slots p with state := .runnable }) :=
  shuffled_setSlot rfl rfl (.inr ⟨active_of_proc hf hp, trivial⟩)

theorem shuffled_sleep {s : Table} {p : Fin NPROC} (hf : Family s) (hp : s.proc = some p) (ch : Chan) :
    Shuffled s (setSlot s p { s.slots p with chan := some ch, state := .sleeping }) :=
  shuffled_setSlot rfl rfl (.inr ⟨active_of_proc hf hp, trivial⟩)

theorem shuffled_kill (s : Table) (pid : Int) : Shuffled s (kill s pid).2 := by
  unfold kill
  split
  case h_1 p hp =>
      refine shuffled_setSlot rfl rfl ?_
      dsimp only
      split
      case isTrue e => rw [e]; exact .inr ⟨trivial, trivial⟩
      case isFalse => exact .inl rfl
  case h_2 => exact .refl s

theorem running_kill (s : Table) (pid : Int) (p : Fin NPROC) :
    ((kill s pid).2.slots p).state = .running ↔ (s.slots p).state = .running := by
  unfold kill
  split
  case h_1 q hq =>
      rw [slots_setSlot]
      split
      case isTrue e =>
          rw [e]
          dsimp only
          split
          case isTrue e' => simp [e']
          case isFalse => rfl
      case isFalse => rfl
  case h_2 => rfl

theorem kill_pc (s : Table) (pid : Int) : (kill s pid).2.pc = s.pc := by
  unfold kill
  split <;> rfl

theorem kill_proc (s : Table) (pid : Int) : (kill s pid).2.proc = s.proc := by
  unfold kill
  split <;> rfl

theorem family_kill {s : Table} (hf : Family s) (pid : Int) : Family (kill s pid).2 :=
  (shuffled_kill s pid).family hf (fun p => (running_kill s pid p).trans (by rw [kill_proc]; exact hf.running p))
    fun p => (shuffled_kill s pid).pcOk (by rw [kill_pc]) (kill_proc s pid) (hf.pcs p)

theorem family_setPc {s : Table} {p : Fin NPROC} {c : Pc} (hf : Family s)
    (hc : PcOk (setPc s p c) p) : Family (setPc s p c) := by
  have hs : Shuffled s (setPc s p c) := (Shuffled.refl s).of_slots rfl rfl rfl
  refine hs.family hf hf.running fun q => ?_
  by_cases e : q = p
  · subst e; exact hc
  · exact hs.pcOk (by simp [e]) rfl (hf.pcs q)

/-- A slot that no family relation depends on: it was idle and becomes unused or an embryo. -/
theorem family_idle {s s' : Table} {np : Fin NPROC} {x : Slot} (hf : Family s)
    (ha : ¬Active (s.slots np).state) (hx : x.state = .unused ∨ x.state = .embryo)
    (hs : s'.slots = Function.update s.slots np x) (hp : s'.proc = s.proc) (hi : s'.initproc = s.initproc)
    (hpc : ∀ p, PcOk s' p) : Family s' := by
  have hne : s.initproc ≠ np := fun e => ha (e ▸ hf.init)
  refine ⟨fun p => ?_, hpc, ?_, ?_, ?_⟩
  · rw [hs, hp, ← hf.running]
    by_cases e : p = np
    · subst e
      rw [Function.update_self]
      constructor
      · intro h
        rcases hx with hx | hx <;> rw [hx] at h <;> cases h
      · intro h
        rw [h] at ha
        exact absurd trivial ha
    · rw [Function.update_of_ne e]
  · rw [hi, hs, Function.update_of_ne hne]; exact hf.init
  · rw [hi, hs, Function.update_of_ne hne]; exact hf.orphan
  · intro p hpi hu he
    rw [hs] at hu he ⊢
    by_cases e : p = np
    · subst e
      rw [Function.update_self] at hu he
      exact (hx.elim hu he).elim
    · rw [Function.update_of_ne e] at hu he ⊢
      obtain ⟨q, hq, hqp, haq⟩ := hf.parents p (hi ▸ hpi) hu he
      have hqn : q ≠ np := fun e' => ha (e' ▸ haq)
      exact ⟨q, hq, hqp, by rw [Function.update_of_ne hqn]; exact haq⟩

theorem Family.pcs_of_step {s s' : Table} {p : Fin NPROC} (hf : Family s) (hp : s.proc = some p)
    (hc : ∀ q, q ≠ p → s'.pc q = s.pc q) (hi : s'.initproc = s.initproc) (ho : PcOk s' p) (q : Fin NPROC) :
    PcOk s' q := by
  by_cases e : q = p
  · subst e; exact ho
  · exact (hf.pcs q).of_idle (hc q e) hi (hf.not_forking (by rw [hp]; simpa using Ne.symm e))

theorem pcOk_other {s : Table} {p : Fin NPROC} (h : s.pc p = .other) : PcOk s p := by
  unfold PcOk
  rw [h]
  trivial

theorem allocproc_eq {s s' : Table} {np : Fin NPROC} (h : allocproc s = some (np, s')) :
    (s.slots np).state = .unused ∧
      s' = { setSlot s np { s.slots np with state := .embryo, pid := s.nextpid } with nextpid := succ s.nextpid } := by
  unfold allocproc at h
  cases hf : (List.finRange NPROC).find? fun p => (s.slots p).state = .unused with
  | none => rw [hf] at h; cases h
  | some p =>
      rw [hf] at h
      cases h
      exact ⟨by simpa using List.find?_some hf, rfl⟩

theorem family_allocproc {s s' : Table} {p np : Fin NPROC} (hf : Family s) (hp : s.proc = some p)
    (h : allocproc s = some (np, s')) : Family (setPc s' p (.embryo np)) := by
  obtain ⟨hu, rfl⟩ := allocproc_eq h
  refine family_idle hf (by rw [hu]; exact id) (.inr rfl) rfl rfl rfl ?_
  refine hf.pcs_of_step hp (fun q e => by simp [e]) rfl ?_
  unfold PcOk
  simp [hp]

theorem family_fail {s : Table} {p np : Fin NPROC} (hf : Family s) (hp : s.proc = some p)
    (he : (s.slots np).state = .embryo) : Family (fork.fail s p np) :=
  family_idle hf (by rw [he]; exact id) (.inl rfl) rfl rfl rfl
    (hf.pcs_of_step hp (fun q e => by simp [fork.fail, e]) rfl (pcOk_other (by simp [fork.fail])))

theorem family_copy {s : Table} {p np : Fin NPROC} (hf : Family s) (hp : s.proc = some p)
    (he : (s.slots np).state = .embryo) : Family (fork.copy s p np) := by
  refine family_idle (x := { s.slots np with parent := some p }) hf (by rw [he]; exact id) (.inr he) rfl rfl rfl ?_
  refine hf.pcs_of_step hp (fun q e => by simp [fork.copy, e]) rfl ?_
  unfold PcOk
  simp [fork.copy, hp, he]

theorem family_ready {s : Table} {p np : Fin NPROC} (hf : Family s) (hp : s.proc = some p)
    (he : (s.slots np).state = .embryo) (hpar : (s.slots np).parent = some p) : Family (fork.ready s p np) := by
  have hne : s.initproc ≠ np := by
    intro e
    have := hf.init
    rw [e, he] at this
    exact this
  have hpn : p ≠ np := by
    intro e
    have := active_of_proc hf hp
    rw [e, he] at this
    exact this
  have hslot : ∀ q, q ≠ np → (fork.ready s p np).slots q = s.slots q := fun q e => Function.update_of_ne e _ _
  have hself : (fork.ready s p np).slots np = { s.slots np with state := .runnable } := Function.update_self ..
  have hpcs : ∀ q, q ≠ p → q ≠ np → (fork.ready s p np).pc q = s.pc q := by
    intro q e e'
    simp [fork.ready, e, e']
  refine ⟨fun q => ?_, fun q => ?_, ?_, ?_, ?_⟩
  · change _ ↔ s.proc = some q
    rw [← hf.running]
    by_cases e : q = np
    · rw [e, hself, he]; simp
    · rw [hslot q e]
  · by_cases e : q = p
    · exact pcOk_other (by simp [fork.ready, e])
    · by_cases e' : q = np
      · exact pcOk_other (by simp [fork.ready, e', Function.update_of_ne (Ne.symm hpn)])
      · exact (hf.pcs q).of_idle (hpcs q e e') rfl (hf.not_forking (by rw [hp]; simpa using Ne.symm e))
  · change Active ((fork.ready s p np).slots s.initproc).state
    rw [hslot _ hne]; exact hf.init
  · change ((fork.ready s p np).slots s.initproc).parent = none
    rw [hslot _ hne]; exact hf.orphan
  · intro q hq hu he'
    by_cases e : q = np
    · refine ⟨p, by rw [e, hself]; exact hpar, fun e' => hpn (e'.trans e), ?_⟩
      rw [hslot p hpn]
      exact active_of_proc hf hp
    · rw [hslot q e] at hu he' ⊢
      obtain ⟨r, hr, hrq, hra⟩ := hf.parents q hq hu he'
      refine ⟨r, hr, hrq, ?_⟩
      by_cases e' : r = np
      · rw [e', hself]; trivial
      · rw [hslot r e']; exact hra

theorem family_reap {s : Table} {p q : Fin NPROC} (hf : Family s) (hp : s.proc = some p)
    (hz : (s.slots q).state = .zombie) : Family (wait.reap s p q) :=
  family_idle hf (by rw [hz]; exact id) (.inl rfl) rfl rfl rfl
    (hf.pcs_of_step hp (fun r e => by simp [wait.reap, e]) rfl (pcOk_other (by simp [wait.reap])))

theorem parent_reparent (s : Table) (p q : Fin NPROC) :
    ((exit.reparent s p).slots q).parent =
      if (s.slots q).parent = some p then some s.initproc else (s.slots q).parent := by
  unfold exit.reparent
  dsimp only
  split <;> rfl

theorem state_reparent (s : Table) (p q : Fin NPROC) :
    ((exit.reparent s p).slots q).state = (s.slots q).state := by
  unfold exit.reparent
  dsimp only
  split <;> rfl

theorem pid_reparent (s : Table) (p q : Fin NPROC) :
    ((exit.reparent s p).slots q).pid = (s.slots q).pid := by
  unfold exit.reparent
  dsimp only
  split <;> rfl

theorem family_reparent {s : Table} {p : Fin NPROC} (hf : Family s) (hp : s.proc = some p)
    (hc : s.pc p = .exiting) : Family (exit.reparent s p) where
  running q := by rw [state_reparent]; exact hf.running q
  pcs := hf.pcs_of_step hp (fun _ _ => rfl) rfl ((hf.pcs p).of_idle rfl rfl (by simp [hc]))
  init := by rw [state_reparent]; exact hf.init
  orphan := by
    change ((exit.reparent s p).slots s.initproc).parent = none
    rw [parent_reparent, hf.orphan, if_neg (by simp)]
  parents q hq hu he := by
    rw [state_reparent] at hu he
    obtain ⟨r, hr, hrq, hra⟩ := hf.parents q hq hu he
    rw [parent_reparent]
    split
    case isTrue => exact ⟨s.initproc, rfl, Ne.symm hq, by rw [state_reparent]; exact hf.init⟩
    case isFalse => exact ⟨r, hr, hrq, by rw [state_reparent]; exact hra⟩

theorem family_zombie {s : Table} {p : Fin NPROC} (hf : Family s) (hp : s.proc = some p)
    (hi : p ≠ s.initproc) (hc : s.pc p = .exiting) (hk : ∀ q, (s.slots q).parent ≠ some p) :
    Family { setSlot s p { s.slots p with state := .zombie } with proc := none } := by
  have hslot : ∀ q, q ≠ p →
      (setSlot s p { s.slots p with state := .zombie }).slots q = s.slots q := fun q e => by simp [e]
  refine ⟨fun q => ?_, fun q => ?_, ?_, ?_, ?_⟩
  · change ((setSlot s p _).slots q).state = .running ↔ none = some q
    by_cases e : q = p
    · subst e; simp
    · rw [hslot q e, hf.running, hp]
      simp [Ne.symm e]
  · refine (hf.pcs q).of_idle rfl rfl ?_
    by_cases e : q = p
    · subst e; simp [hc]
    · exact hf.not_forking (by rw [hp]; simpa using Ne.symm e)
  · change Active ((setSlot s p _).slots s.initproc).state
    rw [hslot _ (Ne.symm hi)]; exact hf.init
  · change ((setSlot s p _).slots s.initproc).parent = none
    rw [hslot _ (Ne.symm hi)]; exact hf.orphan
  · intro q hq hu he
    change ∃ r, ((setSlot s p { s.slots p with state := .zombie }).slots q).parent = some r ∧ r ≠ q ∧
      Active ((setSlot s p { s.slots p with state := .zombie }).slots r).state
    have hq' : ((setSlot s p { s.slots p with state := .zombie }).slots q).parent = (s.slots q).parent := by
      rw [slots_setSlot]
      split
      case isTrue e => rw [e]
      case isFalse => rfl
    have hlive : (s.slots q).state ≠ .unused ∧ (s.slots q).state ≠ .embryo := by
      by_cases e : q = p
      · rw [e, (hf.running p).mpr hp]; simp
      · have h := hslot q e
        exact ⟨fun h' => hu (by rw [← h'] ; exact congrArg Slot.state h), fun h' =>
          he (by rw [← h']; exact congrArg Slot.state h)⟩
    obtain ⟨r, hr, hrq, hra⟩ := hf.parents q hq hlive.1 hlive.2
    have hrp : r ≠ p := fun e => hk q (by rw [hr, e])
    exact ⟨r, hq'.trans hr, hrq, by rw [hslot r hrp]; exact hra⟩

theorem wakeParent_spec (s : Table) (p : Fin NPROC) (hf : Family s) :
    Family (exit.wakeParent s p) ∧ Shuffled s (exit.wakeParent s p) ∧
      (exit.wakeParent s p).pc = s.pc ∧ (exit.wakeParent s p).proc = s.proc := by
  unfold exit.wakeParent
  split
  case h_1 q _ => exact ⟨family_wakeup1 hf _, shuffled_wakeup1 s _, rfl, rfl⟩
  case h_2 => exact ⟨hf, .refl s, rfl, rfl⟩

theorem finish_eq (s : Table) (p : Fin NPROC) : ∃ u,
    exit.finish s p = { setSlot u p { u.slots p with state := .zombie } with proc := none } ∧
      (u = exit.reparent (exit.wakeParent s p) p ∨
        u = wakeup1 (exit.reparent (exit.wakeParent s p) p) (.proc s.initproc)) := by
  unfold exit.finish
  dsimp only
  split
  case isTrue => exact ⟨_, rfl, .inr rfl⟩
  case isFalse => exact ⟨_, rfl, .inl rfl⟩

/-- The state just before the process becomes a zombie: a shuffle of the table with new parents. -/
theorem before_zombie {s : Table} {p : Fin NPROC} (hf : Family s) (hp : s.proc = some p)
    (hc : s.pc p = .exiting) : ∃ u,
    exit.finish s p = { setSlot u p { u.slots p with state := .zombie } with proc := none } ∧
      Family u ∧ u.proc = some p ∧ u.pc p = .exiting ∧ u.initproc = s.initproc ∧ u.nextpid = s.nextpid ∧
      (∀ q, (u.slots q).parent ≠ some p) ∧ (∀ q, (u.slots q).pid = (s.slots q).pid) ∧
      ∀ q x, ¬Active x → ((u.slots q).state = x ↔ (s.slots q).state = x) := by
  obtain ⟨h₁, h₂, h₃, h₄⟩ := wakeParent_spec s p hf
  have hi : p ≠ s.initproc := by
    have h := hf.pcs p
    unfold PcOk at h
    rw [hc] at h
    exact h
  have hr := family_reparent h₁ (h₄.trans hp) (by rw [h₃]; exact hc)
  have hk : ∀ q, ((exit.reparent (exit.wakeParent s p) p).slots q).parent ≠ some p := by
    intro q
    rw [parent_reparent, h₂.initproc]
    split
    case isTrue => simpa using Ne.symm hi
    case isFalse h => exact h
  obtain ⟨u, hu, rfl | rfl⟩ := finish_eq s p
  · refine ⟨_, hu, hr, h₄.trans hp, by rw [← hc, ← h₃]; rfl, h₂.initproc, h₂.nextpid, hk, fun q => ?_, fun q x hx => ?_⟩
    · rw [pid_reparent, h₂.pid]
    · rw [state_reparent, h₂.idle hx]
  · have hw := shuffled_wakeup1 (exit.reparent (exit.wakeParent s p) p) (.proc s.initproc)
    refine ⟨_, hu, family_wakeup1 hr _, h₄.trans hp, by rw [← hc, ← h₃]; rfl, h₂.initproc, h₂.nextpid,
      fun q => ?_, fun q => ?_, fun q x hx => ?_⟩
    · rw [hw.parent]; exact hk q
    · rw [hw.pid, pid_reparent, h₂.pid]
    · rw [hw.idle hx, state_reparent, h₂.idle hx]

theorem family_finish {s : Table} {p : Fin NPROC} (hf : Family s) (hp : s.proc = some p)
    (hc : s.pc p = .exiting) : Family (exit.finish s p) := by
  obtain ⟨u, hu, hfu, hpu, hcu, hiu, -, hk, -, -⟩ := before_zombie hf hp hc
  have hi := hf.pcs p
  unfold PcOk at hi
  rw [hc] at hi
  rw [hu]
  exact family_zombie hfu hpu (by rw [hiu]; exact hi) hcu hk

theorem succ_of_lt {n : Int} (h₀ : 0 ≤ n) (h : n < 2 ^ 31 - 1) : succ n = n + 1 := by
  unfold succ
  rw [Int.bmod_eq_of_le] <;> omega

theorem pids_allocproc {s s' : Table} {t : List Event} {p np : Fin NPROC} (hp : Pids s t)
    (h : allocproc s = some (np, s')) (hb : allocs (t ++ [.alloc s.nextpid]) < 2 ^ 31 - 1) :
    Pids (setPc s' p (.embryo np)) (t ++ [.alloc s.nextpid]) := by
  obtain ⟨hu, rfl⟩ := allocproc_eq h
  have ha : allocs (t ++ [.alloc s.nextpid]) = allocs t + 1 := allocs_append ..
  have hw : ∀ pid, waits pid (t ++ [.alloc s.nextpid]) = waits pid t := fun pid => waits_append ..
  have hn := hp.next
  have hs : succ s.nextpid = s.nextpid + 1 := succ_of_lt (by omega) (by omega)
  have hpid : ∀ q, q ≠ np → ((setSlot s np { s.slots np with state := .embryo, pid := s.nextpid }).slots q) =
    s.slots q :=
    fun q e => by simp [e]
  have hself : ((setSlot s np { s.slots np with state := .embryo, pid := s.nextpid }).slots np).pid = s.nextpid := by
    simp
  constructor
  · change succ s.nextpid = _
    rw [hs, ha]
    omega
  · intro q
    change ((setSlot s np _).slots q).pid < succ s.nextpid
    rw [hs]
    by_cases e : q = np
    · rw [e, hself]; omega
    · rw [hpid q e]; exact lt_trans (hp.lt q) (by omega)
  · intro q
    change 0 ≤ ((setSlot s np _).slots q).pid
    by_cases e : q = np
    · rw [e, hself]; omega
    · rw [hpid q e]; exact hp.nonneg q
  · intro q hq
    change 0 < ((setSlot s np _).slots q).pid
    by_cases e : q = np
    · rw [e, hself]; omega
    · change ((setSlot s np _).slots q).state ≠ .unused at hq
      rw [hpid q e] at hq ⊢
      exact hp.pos q hq
  · intro q r
    change ((setSlot s np _).slots q).pid = ((setSlot s np _).slots r).pid → ((setSlot s np _).slots q).pid ≠ 0 → _
    by_cases e : q = np <;> by_cases e' : r = np
    · exact fun _ _ => e.trans e'.symm
    · rw [e, hself, hpid r e']
      intro h _
      exact absurd h (ne_of_gt (hp.lt r))
    · rw [e', hself, hpid q e]
      intro h _
      exact absurd h (ne_of_lt (hp.lt q))
    · rw [hpid q e, hpid r e']
      exact hp.inj q r
  · intro q hz
    change ((setSlot s np _).slots q).state = .zombie at hz
    change Event.exit q ((setSlot s np _).slots q).pid ∈ _
    by_cases e : q = np
    · rw [e] at hz; simp at hz
    · rw [hpid q e] at hz ⊢
      exact List.mem_append_left _ (hp.zombie q hz)
  · intro pid
    rw [hw]; exact hp.once pid
  · intro pid h
    rw [hw] at h
    obtain ⟨h₀, h₁, h₂⟩ := hp.gone pid h
    refine ⟨h₀, ?_, fun q => ?_⟩
    · change pid < succ s.nextpid
      omega
    · change ((setSlot s np _).slots q).pid ≠ pid
      by_cases e : q = np
      · rw [e, hself]; omega
      · rw [hpid q e]; exact h₂ q

theorem waits_wait (pid : Int) (p : Fin NPROC) (pid' : Int) :
    waits pid [.wait p pid'] = if pid' = pid then 1 else 0 := by
  simp [waits, List.countP_cons]

theorem pids_reap {s : Table} {t : List Event} {p q : Fin NPROC} (hp : Pids s t)
    (hz : (s.slots q).state = .zombie) :
    Pids (wait.reap s p q) (t ++ [.wait p (s.slots q).pid]) := by
  have hpos : 0 < (s.slots q).pid := hp.pos q (by rw [hz]; simp)
  have hslot : ∀ r, r ≠ q → (wait.reap s p q).slots r = s.slots r := fun r e => by simp [wait.reap, e]
  have hself : (wait.reap s p q).slots q =
      { s.slots q with state := .unused, pid := 0, parent := none, killed := false } := by simp [wait.reap]
  have hother : ∀ r, ((wait.reap s p q).slots r).pid = 0 ∨ r ≠ q ∧
      ((wait.reap s p q).slots r).pid = (s.slots r).pid := by
    intro r
    by_cases e : r = q
    · rw [e, hself]; exact .inl rfl
    · rw [hslot r e]; exact .inr ⟨e, rfl⟩
  have hnext : (wait.reap s p q).nextpid = s.nextpid := rfl
  have hn := hp.next
  have hfresh : waits (s.slots q).pid t = 0 := by
    by_contra h
    exact (hp.gone _ h).2.2 q rfl
  have halloc : allocs [Event.wait p (s.slots q).pid] = 0 := rfl
  constructor
  · rw [hnext, allocs_append, halloc, hn, Nat.add_zero]
  · intro r
    rw [hnext]
    rcases hother r with e | ⟨_, e⟩ <;> rw [e]
    · omega
    · exact hp.lt r
  · intro r
    rcases hother r with e | ⟨_, e⟩ <;> rw [e]
    exact hp.nonneg r
  · intro r hr
    by_cases e : r = q
    · rw [e, hself] at hr; exact absurd rfl hr
    · rw [hslot r e] at hr ⊢; exact hp.pos r hr
  · intro r r' h h₀
    rcases hother r with e | ⟨_, e⟩
    · exact absurd e h₀
    · rcases hother r' with e' | ⟨_, e'⟩
      · rw [e'] at h; exact absurd h h₀
      · rw [e, e'] at h
        rw [e] at h₀
        exact hp.inj r r' h h₀
  · intro r hr
    by_cases e : r = q
    · rw [e, hself] at hr; cases hr
    · rw [hslot r e] at hr ⊢
      exact List.mem_append_left _ (hp.zombie r hr)
  · intro pid
    rw [waits_append, waits_wait]
    split
    case isTrue e => rw [← e, hfresh]
    case isFalse => exact hp.once pid
  · intro pid h
    rw [waits_append, waits_wait] at h
    rw [hnext]
    by_cases e : (s.slots q).pid = pid
    · refine ⟨e ▸ hpos, e ▸ hp.lt q, fun r hr => ?_⟩
      rcases hother r with e' | ⟨hne, e'⟩
      · omega
      · exact hne (hp.inj r q (by omega) (by omega))
    · rw [if_neg e, Nat.add_zero] at h
      obtain ⟨h₀, h₁, h₂⟩ := hp.gone pid h
      refine ⟨h₀, h₁, fun r => ?_⟩
      rcases hother r with e' | ⟨_, e'⟩ <;> rw [e']
      · omega
      · exact h₂ r

/-- A step under both views of the table: the family relations, and the pids while they
have not wrapped around. -/
structure Keeps (s : Table) (s' : Table) (e : List Event) : Prop where
  family : Family s'
  pids : ∀ t, Pids s t → allocs (t ++ e) < 2 ^ 31 - 1 → Pids s' (t ++ e)

theorem Shuffled.keeps {s s' : Table} (h : Shuffled s s') (hf : Family s') : Keeps s s' [] :=
  ⟨hf, fun _ hp _ => h.pids hp⟩

theorem Family.embryo {s : Table} {p np : Fin NPROC} (hf : Family s)
    (hc : s.pc p = .embryo np ∨ s.pc p = .stacked np ∨ s.pc p = .copied np) :
    (s.slots np).state = .embryo := by
  have h := hf.pcs p
  unfold PcOk at h
  rcases hc with hc | hc | hc <;> rw [hc] at h
  · exact h.2
  · exact h.2
  · exact h.2.1

theorem not_forking_of {s : Table} {p : Fin NPROC} (h : s.pc p = .other ∨ s.pc p = .exiting ∨ s.pc p = .waiting)
    (np : Fin NPROC) : s.pc p ≠ .embryo np ∧ s.pc p ≠ .stacked np ∧ s.pc p ≠ .copied np := by
  rcases h with h | h | h <;> simp [h]

theorem keeps_sleep {s : Table} {p : Fin NPROC} (hf : Family s) (hp : s.proc = some p)
    (hc : s.pc p = .other ∨ s.pc p = .exiting ∨ s.pc p = .waiting) (ch : Chan) : Keeps s (sleep s p ch) [] := by
  have hs := shuffled_sleep hf hp ch
  refine Shuffled.keeps ?_ (family_release hf hp (not_forking_of hc) (by simp) hs)
  exact hs.of_slots rfl rfl rfl

theorem keeps_setPc {s s' : Table} {e : List Event} {p : Fin NPROC} {c : Pc} (h : Keeps s s' e)
    (hc : PcOk (setPc s' p c) p) : Keeps s (setPc s' p c) e :=
  ⟨family_setPc h.family hc, fun t hp hb =>
    have := h.pids t hp hb
    ⟨this.next, this.lt, this.nonneg, this.pos, this.inj, this.zombie, this.once, this.gone⟩⟩

theorem keeps_refl {s : Table} (hf : Family s) : Keeps s s [] := (Shuffled.refl s).keeps hf

theorem keeps_fail {s : Table} {p np : Fin NPROC} (hf : Family s) (hp : s.proc = some p)
    (he : (s.slots np).state = .embryo) : Keeps s (fork.fail s p np) [] := by
  refine ⟨family_fail hf hp he, fun t h _ => h.keep rfl (fun q => ?_) (fun q hq => ?_) (fun q hq => ?_) rfl fun _ =>
    rfl⟩
  · by_cases e : q = np <;> simp [fork.fail, e]
  · by_cases e : q = np
    · rw [e, he]; simp
    · simpa [fork.fail, e] using hq
  · by_cases e : q = np
    · simp [fork.fail, e] at hq
    · exact .inl (by simpa [fork.fail, e] using hq)

theorem keeps_copy {s : Table} {p np : Fin NPROC} (hf : Family s) (hp : s.proc = some p)
    (he : (s.slots np).state = .embryo) : Keeps s (fork.copy s p np) [] := by
  refine ⟨family_copy hf hp he, fun t h _ => h.keep rfl (fun q => ?_) (fun q hq => ?_) (fun q hq => ?_) rfl fun _ =>
    rfl⟩
  · by_cases e : q = np <;> simp [fork.copy, e]
  · by_cases e : q = np
    · rw [e, he]; simp
    · simpa [fork.copy, e] using hq
  · by_cases e : q = np
    · rw [e] at hq
      simp [fork.copy, he] at hq
    · exact .inl (by simpa [fork.copy, e] using hq)

theorem keeps_ready {s : Table} {p np : Fin NPROC} (hf : Family s) (hc : s.pc p = .copied np) :
    Keeps s (fork.ready s p np) [.fork p np (s.slots np).pid] := by
  have h := hf.pcs p
  unfold PcOk at h
  rw [hc] at h
  obtain ⟨hp, he, hpar⟩ := h
  refine ⟨family_ready hf hp he hpar, fun t h _ =>
    h.keep rfl (fun q => ?_) (fun q hq => ?_) (fun q hq => ?_) rfl fun _ => rfl⟩
  · by_cases e : q = np <;> simp [fork.ready, e]
  · by_cases e : q = np
    · rw [e, he]; simp
    · simpa [fork.ready, e] using hq
  · by_cases e : q = np
    · simp [fork.ready, e] at hq
    · exact .inl (by simpa [fork.ready, e] using hq)

theorem keeps_finish {s : Table} {p : Fin NPROC} (hf : Family s) (hp : s.proc = some p)
    (hc : s.pc p = .exiting) : Keeps s (exit.finish s p) [.exit p (s.slots p).pid] := by
  refine ⟨family_finish hf hp hc, fun t h _ => ?_⟩
  obtain ⟨u, hu, -, -, -, -, hn, -, hpid, hst⟩ := before_zombie hf hp hc
  rw [hu]
  refine h.keep hn (fun q => ?_) (fun q hq => ?_) (fun q hq => ?_) rfl fun _ => rfl
  · change ((setSlot u p _).slots q).pid = _
    rw [← hpid q, slots_setSlot]
    split
    case isTrue e => rw [e]
    case isFalse => rfl
  · by_cases e : q = p
    · rw [e, (hf.running p).mpr hp]; simp
    · have hq' : (u.slots q).state ≠ .unused := by simpa [e] using hq
      exact fun h => hq' ((hst q .unused (by simp [Active])).mpr h)
  · by_cases e : q = p
    · rw [e]; exact .inr (by simp)
    · exact .inl ((hst q .zombie (by simp [Active])).mp (by simpa [e] using hq))

theorem keeps_wait {s : Table} {p : Fin NPROC} (hf : Family s) (hp : s.proc = some p)
    (hc : s.pc p = .other ∨ s.pc p = .waiting) : Keeps s (wait s p).1 (wait s p).2 := by
  unfold wait
  split
  case h_1 q hq =>
      have hz : (s.slots q).state = .zombie := by
        have := List.find?_some hq
        simp only [decide_eq_true_eq] at this
        exact this.2
      exact ⟨family_reap hf hp hz, fun t h _ => pids_reap h hz⟩
  case h_2 =>
      split
      case isTrue => exact keeps_setPc (keeps_refl hf) (pcOk_other (by simp))
      case isFalse =>
          refine keeps_setPc (keeps_sleep hf hp ?_ _) (by simp [PcOk])
          exact hc.imp_right .inr

theorem keeps_act {s s' : Table} {p : Fin NPROC} {a : Action} {e : List Event} (hf : Family s)
    (hp : s.proc = some p) (h : act s p a = some (s', e)) : Keeps s s' e := by
  cases a with
  | scheduler _ | wakeup _ => cases h
  | yield =>
      simp only [act, Option.ite_none_right_eq_some, Option.some.injEq, Prod.mk.injEq] at h
      obtain ⟨hc, rfl, rfl⟩ := h
      have hs := shuffled_yield hf hp
      refine Shuffled.keeps ?_ (family_release hf hp (not_forking_of (.inl hc)) (by simp) hs)
      exact hs.of_slots rfl rfl rfl
  | sleep ch =>
      simp only [act, Option.ite_none_right_eq_some, Option.some.injEq, Prod.mk.injEq] at h
      obtain ⟨hc, rfl, rfl⟩ := h
      exact keeps_sleep hf hp (hc.imp_right .inl) _
  | kill pid =>
      simp only [act, Option.ite_none_right_eq_some, Option.some.injEq, Prod.mk.injEq] at h
      obtain ⟨hc, rfl, rfl⟩ := h
      exact (shuffled_kill s pid).keeps (family_kill hf pid)
  | fork =>
      simp only [act, Option.ite_none_right_eq_some] at h
      obtain ⟨hc, h⟩ := h
      cases ha : allocproc s with
      | none =>
          rw [ha] at h
          cases h
          exact keeps_refl hf
      | some r =>
          rw [ha] at h
          cases h
          exact ⟨family_allocproc hf hp ha, fun t ht hb => pids_allocproc ht ha hb⟩
  | kalloc ok =>
      simp only [act] at h
      split at h
      case h_1 np hc =>
          simp only [Option.some.injEq, Prod.mk.injEq] at h
          obtain ⟨rfl, rfl⟩ := h
          have he := hf.embryo (.inl hc)
          split
          case isTrue =>
              refine keeps_setPc (keeps_refl hf) ?_
              unfold PcOk
              simpa using ⟨hp, he⟩
          case isFalse => exact keeps_fail hf hp he
      case h_2 => cases h
  | copyuvm ok =>
      simp only [act] at h
      split at h
      case h_1 np hc =>
          simp only [Option.some.injEq, Prod.mk.injEq] at h
          obtain ⟨rfl, rfl⟩ := h
          have he := hf.embryo (.inr (.inl hc))
          split
          case isTrue => exact keeps_copy hf hp he
          case isFalse => exact keeps_fail hf hp he
      case h_2 => cases h
  | ready =>
      simp only [act] at h
      split at h
      case h_1 np hc =>
          simp only [Option.some.injEq, Prod.mk.injEq] at h
          obtain ⟨rfl, rfl⟩ := h
          exact keeps_ready hf hc
      case h_2 => cases h
  | exit =>
      simp only [act, Option.ite_none_right_eq_some, Option.some.injEq, Prod.mk.injEq] at h
      obtain ⟨⟨hc, hi⟩, rfl, rfl⟩ := h
      exact keeps_setPc (keeps_refl hf) (by simpa [PcOk] using hi)
  | finish =>
      simp only [act, Option.ite_none_right_eq_some, Option.some.injEq, Prod.mk.injEq] at h
      obtain ⟨hc, rfl, rfl⟩ := h
      exact keeps_finish hf hp hc
  | wait =>
      simp only [act, Option.ite_none_right_eq_some, Option.some.injEq] at h
      obtain ⟨hc, h⟩ := h
      have := keeps_wait hf hp hc
      rw [h] at this
      exact this

theorem step_cases {s s' : Table} {a : Action} {e : List Event} (h : step s a = some (s', e)) :
    (∃ p, a = .scheduler p ∧ scheduler s p = some s' ∧ e = []) ∨
      (∃ ch, a = .wakeup ch ∧ s' = wakeup1 s ch ∧ e = []) ∨ ∃ p, s.proc = some p ∧ act s p a = some (s', e) := by
  unfold step at h
  split at h
  case h_1 p =>
      simp only [Option.map_eq_some_iff, Prod.mk.injEq] at h
      obtain ⟨_, h, rfl, rfl⟩ := h
      exact .inl ⟨p, rfl, h, rfl⟩
  case h_2 ch =>
      simp only [Option.some.injEq, Prod.mk.injEq] at h
      obtain ⟨rfl, rfl⟩ := h
      exact .inr (.inl ⟨ch, rfl, rfl, rfl⟩)
  case h_3 =>
      split at h
      case h_1 p hp => exact .inr (.inr ⟨p, hp, h⟩)
      case h_2 => cases h

theorem keeps_step {s s' : Table} {a : Action} {e : List Event} (hf : Family s)
    (h : step s a = some (s', e)) : Keeps s s' e := by
  obtain ⟨p, rfl, hs, rfl⟩ | ⟨ch, rfl, rfl, rfl⟩ | ⟨p, hp, hs⟩ := step_cases h
  · exact (shuffled_scheduler hs).keeps (family_scheduler hf hs)
  · exact (shuffled_wakeup1 s ch).keeps (family_wakeup1 hf ch)
  · exact keeps_act hf hp hs

theorem family_userinit : Family userinit := by
  refine ⟨by decide, fun p => ?_, by decide, by decide, by decide⟩
  exact pcOk_other rfl

theorem pids_userinit : Pids userinit [.alloc 1] where
  next := by decide
  lt := by decide
  nonneg := by decide
  pos := by decide
  inj := by decide
  zombie := by decide
  once pid := by simp [waits]
  gone pid h := absurd rfl h

variable {ok : Table → Action → Prop} {s : Table} {t : List Event}

theorem Reaches.family (h : Reaches ok s t) : Family s := by
  induction h with
  | start => exact family_userinit
  | step _ _ hs ih => exact (keeps_step ih hs).family

theorem Reaches.pids (h : Reaches ok s t) (hb : allocs t < 2 ^ 31 - 1) : Pids s t := by
  induction h with
  | start => exact pids_userinit
  | step h _ hs ih =>
      refine (keeps_step (Reaches.family h) hs).pids _ (ih ?_) hb
      rw [allocs_append] at hb
      omega

/-- The one step in which wait returns a pid. -/
theorem wait_event {s s' : Table} {a : Action} {e : List Event} {caller : Fin NPROC} {pid : Int}
    (h : step s a = some (s', e)) (hm : .wait caller pid ∈ e) :
    e = [.wait caller pid] ∧ ∃ q, (s.slots q).pid = pid ∧ (s.slots q).state = .zombie ∧
      (s.slots q).parent = some caller := by
  obtain ⟨p, rfl, hs, rfl⟩ | ⟨ch, rfl, rfl, rfl⟩ | ⟨p, hp, hs⟩ := step_cases h
  · cases hm
  · cases hm
  · cases a with
    | scheduler _ | wakeup _ => cases hs
    | yield | sleep _ | kill _ | exit | finish =>
        simp only [act, Option.ite_none_right_eq_some, Option.some.injEq, Prod.mk.injEq] at hs
        obtain ⟨-, -, rfl⟩ := hs
        simp at hm
    | fork =>
        simp only [act, Option.ite_none_right_eq_some] at hs
        obtain ⟨-, hs⟩ := hs
        split at hs <;> cases hs <;> simp at hm
    | kalloc _ | copyuvm _ | ready =>
        simp only [act] at hs
        split at hs <;> cases hs
        simp at hm
    | wait =>
        simp only [act, Option.ite_none_right_eq_some, Option.some.injEq] at hs
        obtain ⟨-, hs⟩ := hs
        unfold wait at hs
        split at hs
        case h_1 q hq =>
            cases hs
            have hf := List.find?_some hq
            simp only [decide_eq_true_eq] at hf
            simp only [List.mem_singleton, Event.wait.injEq] at hm
            obtain ⟨rfl, rfl⟩ := hm
            exact ⟨rfl, q, rfl, hf.2, hf.1⟩
        case h_2 => split at hs <;> cases hs <;> cases hm

theorem Reaches.waited (h : Reaches ok s t) {t₁ t₂ : List Event} {caller : Fin NPROC} {pid : Int}
    (ht : t = t₁ ++ .wait caller pid :: t₂) : ∃ s₁, Reaches ok s₁ t₁ ∧
      ∃ q, (s₁.slots q).pid = pid ∧ (s₁.slots q).state = .zombie ∧ (s₁.slots q).parent = some caller := by
  induction h generalizing t₂ with
  | start =>
      have hm : Event.wait caller pid ∈ [Event.alloc 1] := by rw [ht]; simp
      simp at hm
  | @step s s' t e a h ha hs ih =>
      -- the wait is the last event, or it lies in the run so far
      have last : ∀ l, e = l ++ .wait caller pid :: t₂ → t₁ = t ++ l → ∃ s₁, Reaches ok s₁ t₁ ∧
          ∃ q, (s₁.slots q).pid = pid ∧ (s₁.slots q).state = .zombie ∧ (s₁.slots q).parent = some caller := by
        intro l he hl
        have hm : .wait caller pid ∈ e := by rw [he]; simp
        obtain ⟨he', q, hq⟩ := wait_event hs hm
        rw [he'] at he
        have hnil : l = [] := by
          have := congrArg List.length he
          simp at this
          exact List.length_eq_zero_iff.mp (by omega)
        rw [hnil, List.append_nil] at hl
        exact ⟨s, hl ▸ h, q, hq⟩
      rcases List.append_eq_append_iff.mp ht with ⟨l, hl, he⟩ | ⟨l, hl, he⟩
      · exact last l he hl
      · cases l with
        | nil => exact last [] (by simpa using he.symm) (by simpa using hl.symm)
        | cons x l =>
            rw [List.cons_append] at he
            cases he
            exact ih hl

/-- In every run with fewer than 2^31 - 1 allocations: at most one process runs and proc
points to it, the pids in use are positive and distinct, parents are alive, and the pid of
a child is returned by at most one wait, to the parent of the process that exited with it. -/
theorem process_table_invariant (s : Table) (t : List Event) (h : Reaches (fun _ _ => True) s t)
    (hb : allocs t < 2 ^ 31 - 1) :
    (∀ p q, (s.slots p).state = .running → (s.slots q).state = .running → p = q) ∧
      (∀ p, (s.slots p).state = .running → s.proc = some p) ∧
      (∀ p, (s.slots p).state ≠ .unused → 0 < (s.slots p).pid) ∧
      (∀ p q, (s.slots p).state ≠ .unused → (s.slots q).state ≠ .unused →
        (s.slots p).pid = (s.slots q).pid → p = q) ∧
      (∀ p, (s.slots p).state ≠ .unused → (s.slots p).state ≠ .embryo → p ≠ s.initproc →
        ∃ q, (s.slots p).parent = some q ∧ (s.slots q).state ≠ .unused ∧ (s.slots q).state ≠ .embryo ∧
          (s.slots q).state ≠ .zombie) ∧
      ∀ parent child pid, .fork parent child pid ∈ t →
        waits pid t ≤ 1 ∧
          ∀ t₁ t₂ caller, t = t₁ ++ .wait caller pid :: t₂ →
            ∃ s₁ q, Reaches (fun _ _ => True) s₁ t₁ ∧ (s₁.slots q).pid = pid ∧
              (s₁.slots q).parent = some caller ∧ .exit q pid ∈ t₁ := by
  have hf := Reaches.family h
  have hp := Reaches.pids h hb
  refine ⟨fun p q hp hq => ?_, fun p => (hf.running p).mp, hp.pos, fun p q hu _ e => ?_, fun p hu he hi => ?_,
    fun _ _ pid _ => ⟨hp.once pid, fun t₁ t₂ caller ht => ?_⟩⟩
  · have := (hf.running p).mp hp
    rw [(hf.running q).mp hq] at this
    exact (Option.some.inj this).symm
  · exact hp.inj p q e (ne_of_gt (hp.pos p hu))
  · obtain ⟨q, hq, -, ha⟩ := hf.parents p hi hu he
    refine ⟨q, hq, ?_, ?_, ?_⟩ <;>
    · intro e
      rw [e] at ha
      exact ha
  · obtain ⟨s₁, h₁, q, hq, hz, hc⟩ := Reaches.waited h ht
    have hb₁ : allocs t₁ < 2 ^ 31 - 1 := by
      rw [ht, allocs_append] at hb
      omega
    have he := (Reaches.pids h₁ hb₁).zombie q hz
    rw [hq] at he
    exact ⟨s₁, q, h₁, hq, hc, he⟩

/-- init forks a child, sleeps in wait, and reaps the child when it has exited. -/
def reapChild : List Action :=
  [.scheduler 0, .fork, .kalloc true, .copyuvm true, .ready, .wait, .scheduler 1, .exit, .finish, .scheduler 0, .wait]

theorem process_table_invariant_reaped : ∃ s,
    Reaches (fun _ _ => True) s [.alloc 1, .alloc 2, .fork 0 1 2, .exit 1 2, .wait 0 2] ∧
      waits 2 [.alloc 1, .alloc 2, .fork 0 1 2, .exit 1 2, .wait 0 2] ≤ 1 ∧
      ∃ s₁ q, Reaches (fun _ _ => True) s₁ [.alloc 1, .alloc 2, .fork 0 1 2, .exit 1 2] ∧ (s₁.slots q).pid = 2 ∧
        (s₁.slots q).parent = some 0 ∧ Event.exit q 2 ∈ [Event.alloc 1, .alloc 2, .fork 0 1 2, .exit 1 2] := by
  have hr : (run userinit reapChild).map (·.2) = some [.alloc 2, .fork 0 1 2, .exit 1 2, .wait 0 2] := by
    decide +kernel
  obtain ⟨⟨s, e⟩, hr, rfl⟩ := Option.map_eq_some_iff.mp hr
  have h := Reaches.start.run hr
  have := (process_table_invariant s _ h (by decide)).2.2.2.2.2 0 1 2 (by simp)
  exact ⟨s, h, this.1, this.2 [.alloc 1, .alloc 2, .fork 0 1 2, .exit 1 2] [] 0 rfl⟩

end ArmXv6.ProcInvariant
