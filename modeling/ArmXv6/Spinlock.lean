import Mathlib.Data.Set.Card

namespace ArmXv6.Spinlock

/-- The processor and the spinlocks: the interrupt bit of the status register, the fields of
cpu, the locked field of each lock, the running thread, and for a thread that waits in sched
its variable intena. -/
structure State where
  int : Bool
  ncli : Int
  intena : Bool
  locked : Nat → Bool
  cur : Nat
  saved : Nat → Option Bool

def ptableLock : Nat := 0

def schedulerThread : Nat := 0

def cli (s : State) : State := { s with int := false }

def sti (s : State) : State := { s with int := true }

/-- pushcli disables interrupts before it looks whether they are enabled. -/
def pushcli (s : State) : State :=
  let s := cli s
  let s := if s.ncli = 0 then { s with intena := s.int } else s
  { s with ncli := s.ncli + 1 }

/-- Here and below there is no result after a panic. -/
def popcli (s : State) : Option State :=
  if s.int then none
  else
    let s := { s with ncli := s.ncli - 1 }
    if s.ncli < 0 then none
    else some (if s.ncli = 0 ∧ s.intena then sti s else s)

/-- Without MULTICORE it does not matter who holds the lock. -/
def holding (lk : Nat) (s : State) : Option (Bool × State) := do
  let s := pushcli s
  let r := s.locked lk
  let s ← popcli s
  pure (r, s)

/-- The loop around xchg ends at once, since a lock that is taken is a panic before it. -/
def acquire (lk : Nat) (s : State) : Option State := do
  let s := pushcli s
  let (r, s) ← holding lk s
  if r then none
  else pure { s with locked := Function.update s.locked lk true }

def release (lk : Nat) (s : State) : Option State := do
  let (r, s) ← holding lk s
  if r then popcli { s with locked := Function.update s.locked lk false }
  else none

def sched (s : State) : Option State := do
  let (r, s) ← holding ptableLock s
  if ¬r ∨ s.ncli ≠ 1 ∨ s.int then none
  else pure { s with saved := Function.update s.saved s.cur (some s.intena), cur := schedulerThread }

/-- The scheduler, which holds the lock of the process table, switches to thread p, which goes
on in sched or starts in forkret. -/
def swtch (p : Nat) (s : State) : Option State :=
  if s.cur ≠ schedulerThread ∨ ¬s.locked ptableLock then none
  else match s.saved p with
    | none => some { s with cur := p }
    | some b => some { s with cur := p, intena := b, saved := Function.update s.saved p none }

def Free (s : State) : Prop := ∀ lk, s.locked lk = false

/-- What a thread does next. Outside of all locks the interrupt bit changes on the way to user
mode and back, and in the loop of scheduler. -/
inductive Step : State → State → Prop
  | acquire {s s' : State} (lk : Nat) (h : acquire lk s = some s') : Step s s'
  | release {s s' : State} (lk : Nat) (h : release lk s = some s') : Step s s'
  | sched {s s' : State} (h : sched s = some s') : Step s s'
  | swtch {s s' : State} (p : Nat) (h : swtch p s = some s') : Step s s'
  | cli {s : State} (h : Free s) : Step s (cli s)
  | sti {s : State} (h : Free s) : Step s (sti s)

/-- main has started the kernel and calls scheduler. -/
def boot : State := ⟨false, 0, false, fun _ => false, schedulerThread, fun _ => none⟩

inductive Reaches : State → Prop
  | boot : Reaches boot
  | step {s s' : State} (h : Reaches s) (hs : Step s s') : Reaches s'

/-- Thread p took its outermost lock in state s₀, and since then it has not run without a lock. -/
inductive Inside (p : Nat) (s₀ : State) : State → Prop
  | enter {s : State} (lk : Nat) (hp : s₀.cur = p) (hf : Free s₀) (h : acquire lk s₀ = some s) : Inside p s₀ s
  | step {s s' : State} (h : Inside p s₀ s) (hp : ¬(s.cur = p ∧ Free s)) (hs : Step s s') : Inside p s₀ s'

/-- What the lock count promises in a state. -/
structure Counted (s : State) : Prop where
  off : 0 < s.ncli → s.int = false
  finite : { lk | s.locked lk = true }.Finite
  count : s.ncli = { lk | s.locked lk = true }.ncard

/-- What a section of thread p that starts in s₀ promises: the lock count is right throughout, and
at the end the interrupt bit is what it was. -/
def Restored (p : Nat) (s₀ : State) : Prop :=
  ∀ s, Inside p s₀ s → (0 < s.ncli → s.int = false) ∧ s.ncli = { lk | s.locked lk = true }.ncard ∧
    (s.cur = p → Free s → s.int = s₀.int)

structure Cleared (s : State) : Prop where
  intena : s.intena = false
  saved : ∀ p, s.saved p ≠ some true

variable {s s' s₀ : State} {lk p : Nat}

theorem pushcli_eq (h : s.intena = false) : pushcli s = { s with int := false, ncli := s.ncli + 1 } := by
  by_cases hn : s.ncli = 0 <;> simp [pushcli, cli, hn, h]

theorem popcli_eq (hi : s.int = false) (h : s.intena = false) (hn : 0 < s.ncli) :
    popcli s = some { s with ncli := s.ncli - 1 } := by
  have hlt : ¬s.ncli - 1 < 0 := by omega
  simp [popcli, hi, h, hlt]

theorem holding_eq (h : s.intena = false) (hn : 0 ≤ s.ncli) : holding lk s = some (s.locked lk, cli s) := by
  have hpop := popcli_eq (s := { s with int := false, ncli := s.ncli + 1 }) rfl h (Int.lt_add_one_of_le hn)
  rw [Int.add_sub_cancel] at hpop
  simp [holding, pushcli_eq h, hpop, cli]

theorem acquire_eq (h : s.intena = false) (hn : 0 ≤ s.ncli) : acquire lk s =
    if s.locked lk then none
    else some { s with int := false, ncli := s.ncli + 1, locked := Function.update s.locked lk true } := by
  have hhold :
      holding lk { s with int := false, ncli := s.ncli + 1 } =
      some (s.locked lk, { s with int := false, ncli := s.ncli + 1 }) :=
    holding_eq h (Int.le_of_lt (Int.lt_add_one_of_le hn))
  simp [acquire, pushcli_eq h, hhold]

theorem release_eq (h : s.intena = false) (hn : 0 < s.ncli) : release lk s =
    if s.locked lk then some { s with int := false, ncli := s.ncli - 1, locked := Function.update s.locked lk false }
    else none := by
  have hpop : popcli { s with int := false, locked := Function.update s.locked lk false } =
      some { s with int := false, ncli := s.ncli - 1, locked := Function.update s.locked lk false } :=
    popcli_eq rfl h hn
  simp only [release, holding_eq h hn.le, Option.bind_eq_bind, Option.bind_some]
  exact if_congr Iff.rfl hpop rfl

theorem sched_eq (h : s.intena = false) (hn : 0 ≤ s.ncli) (hs : sched s = some s') : s.locked ptableLock = true ∧
    s.ncli = 1 ∧
    s' = { s with int := false, saved := Function.update s.saved s.cur (some false), cur := schedulerThread } := by
  simp only [sched, holding_eq h hn, Option.bind_eq_bind, Option.bind_some] at hs
  split at hs
  · cases hs
  · rename_i hc
    simp only [not_or, not_not] at hc
    cases hs
    exact ⟨by simpa using hc.1, hc.2.1, by simp [cli, h]⟩

theorem Counted.nonneg (h : Counted s) : 0 ≤ s.ncli := by
  rw [h.count]
  exact Int.natCast_nonneg _

theorem Counted.free_iff (h : Counted s) : Free s ↔ s.ncli = 0 := by
  rw [h.count, Int.natCast_eq_zero, Set.ncard_eq_zero h.finite, Set.eq_empty_iff_forall_notMem]
  exact forall_congr' fun lk => by simp

theorem Counted.pos (h : Counted s) (hl : s.locked lk = true) : 0 < s.ncli := by
  have hne : s.ncli ≠ 0 := fun he => by simp [h.free_iff.2 he lk] at hl
  have := h.nonneg
  omega

theorem locked_acquired (f : Nat → Bool) :
    { l | Function.update f lk true l = true } = insert lk { l | f l = true } := by
  ext l
  by_cases hl : l = lk
  · simp [hl]
  · simp [hl]

theorem locked_released (f : Nat → Bool) : { l | Function.update f lk false l = true } = { l | f l = true } \ {lk} := by
  ext l
  by_cases hl : l = lk
  · simp [hl]
  · simp [hl]

theorem counted_acquired (h : Counted s) (hl : s.locked lk = false) :
    Counted { s with int := false, ncli := s.ncli + 1, locked := Function.update s.locked lk true } := by
  refine ⟨fun _ => rfl, ?_, ?_⟩
  · rw [locked_acquired]
    exact h.finite.insert lk
  · rw [locked_acquired, Set.ncard_insert_of_notMem (by simp [hl]) h.finite, Nat.cast_succ, ← h.count]

theorem counted_released (h : Counted s) (hl : s.locked lk = true) :
    Counted { s with int := false, ncli := s.ncli - 1, locked := Function.update s.locked lk false } := by
  have hmem : lk ∈ { l | s.locked l = true } := hl
  have hcard := Set.ncard_sdiff_singleton_add_one hmem h.finite
  refine ⟨fun _ => rfl, ?_, ?_⟩
  · rw [locked_released]
    exact h.finite.sdiff
  · rw [locked_released]
    have := h.count
    simp only
    omega

theorem step_keeps (hc : Counted s) (hz : Cleared s) (hs : Step s s') : Counted s' ∧ Cleared s' := by
  have hn := hc.nonneg
  cases hs with
  | acquire lk h =>
      rw [acquire_eq hz.intena hn] at h
      split at h
      · cases h
      · rename_i hl
        cases h
        exact ⟨counted_acquired hc (by simpa using hl), hz.intena, hz.saved⟩
  | release lk h =>
      by_cases hl : s.locked lk = true
      · rw [release_eq hz.intena (hc.pos hl), if_pos hl] at h
        cases h
        exact ⟨counted_released hc hl, hz.intena, hz.saved⟩
      · simp [release, holding_eq hz.intena hn, hl] at h
  | sched h =>
      obtain ⟨-, -, rfl⟩ := sched_eq hz.intena hn h
      refine ⟨⟨fun _ => rfl, hc.finite, hc.count⟩, hz.intena, fun q => ?_⟩
      by_cases hq : q = s.cur
      · simp [hq]
      · simpa [Function.update_of_ne hq] using hz.saved q
  | swtch q h =>
      unfold swtch at h
      split at h
      · cases h
      · cases hq : s.saved q with
        | none =>
            rw [hq] at h
            cases h
            exact ⟨⟨hc.off, hc.finite, hc.count⟩, hz.intena, hz.saved⟩
        | some b =>
            rw [hq] at h
            cases h
            refine ⟨⟨hc.off, hc.finite, hc.count⟩, ?_, fun r => ?_⟩
            · cases b with
              | false => rfl
              | true => exact absurd hq (hz.saved q)
            · by_cases hr : r = q
              · simp [hr]
              · simpa [Function.update_of_ne hr] using hz.saved r
  | cli hf => exact ⟨⟨fun _ => rfl, hc.finite, hc.count⟩, hz.intena, hz.saved⟩
  | sti hf =>
      refine ⟨⟨fun hpos => ?_, hc.finite, hc.count⟩, hz.intena, hz.saved⟩
      have : s.ncli = 0 := hc.free_iff.1 hf
      exact absurd hpos (by simp [sti, this])

theorem Reaches.keeps (h : Reaches s) : Counted s ∧ Cleared s := by
  induction h with
  | boot => exact ⟨⟨fun _ => rfl, by simp [Spinlock.boot], by simp [Spinlock.boot]⟩, rfl, by simp [Spinlock.boot]⟩
  | step _ hs ih => exact step_keeps ih.1 ih.2 hs

theorem Inside.keeps (h₀ : Reaches s₀) (h : Inside p s₀ s) : Counted s ∧ Cleared s := by
  induction h with
  | enter lk _ _ h => exact step_keeps h₀.keeps.1 h₀.keeps.2 (.acquire lk h)
  | step _ _ hs ih => exact step_keeps ih.1 ih.2 hs

/-- Nothing enables interrupts from the outermost acquire on until the thread is out of all locks. -/
theorem Inside.off (h₀ : Reaches s₀) (h : Inside p s₀ s) : s.cur = p → s.int = false := by
  induction h with
  | enter lk _ _ h =>
      intro _
      rw [acquire_eq h₀.keeps.2.intena h₀.keeps.1.nonneg] at h
      split at h
      · cases h
      · cases h
        rfl
  | @step s s' hin hp hs ih =>
      intro hcur
      obtain ⟨hc, hz⟩ := hin.keeps h₀
      cases hs with
      | acquire lk h =>
          rw [acquire_eq hz.intena hc.nonneg] at h
          split at h
          · cases h
          · cases h
            rfl
      | release lk h =>
          by_cases hl : s.locked lk = true
          · rw [release_eq hz.intena (hc.pos hl), if_pos hl] at h
            cases h
            rfl
          · simp [release, holding_eq hz.intena hc.nonneg, hl] at h
      | sched h =>
          obtain ⟨-, -, rfl⟩ := sched_eq hz.intena hc.nonneg h
          rfl
      | swtch q h =>
          unfold swtch at h
          split at h
          · cases h
          · rename_i hcond
            have hl : s.locked ptableLock = true := by
              by_contra hl
              exact hcond (.inr hl)
            have hoff := hc.off (hc.pos hl)
            cases hq : s.saved q <;> rw [hq] at h <;> cases h <;> exact hoff
      | cli hf => rfl
      | sti hf => exact absurd ⟨hcur, hf⟩ hp

theorem restored_of_disabled (h₀ : Reaches s₀) (hi : s₀.int = false) : Restored p s₀ := by
  intro s h
  have hc := (h.keeps h₀).1
  exact ⟨hc.off, hc.count, fun hp _ => (h.off h₀ hp).trans hi.symm⟩

/-- A thread that takes a lock and gives it back at once ends with interrupts disabled. -/
theorem section_disables (h₀ : Reaches s₀) (hp : s₀.cur = p) (hf : Free s₀) :
    ∃ s, Inside p s₀ s ∧ s.cur = p ∧ Free s ∧ s.int = false := by
  obtain ⟨hc, hz⟩ := h₀.keeps
  have hn : s₀.ncli = 0 := hc.free_iff.1 hf
  have ha : acquire ptableLock s₀ =
      some { s₀ with int := false, ncli := s₀.ncli + 1, locked := Function.update s₀.locked ptableLock true } := by
    rw [acquire_eq hz.intena hc.nonneg, if_neg (by simp [hf ptableLock])]
  have hin : Inside p s₀ _ := .enter ptableLock hp hf ha
  have hr :
      release ptableLock
      { s₀ with int := false, ncli := s₀.ncli + 1, locked := Function.update s₀.locked ptableLock true } = _ :=
    release_eq hz.intena (by simp [hn])
  rw [if_pos (by simp)] at hr
  refine ⟨_, hin.step (fun hfree => ?_) (.release ptableLock hr), hp, fun lk => ?_, rfl⟩
  · have := hfree.2 ptableLock
    simp at this
  · by_cases hl : lk = ptableLock
    · simp [hl]
    · simpa [Function.update_of_ne hl] using hf lk

/-- The interrupt bit is restored exactly where it was clear in the first place. -/
theorem interrupts_restored_iff (h₀ : Reaches s₀) (hp : s₀.cur = p) (hf : Free s₀) :
    Restored p s₀ ↔ s₀.int = false := by
  constructor
  · intro h
    obtain ⟨s, hin, hcur, hfree, hoff⟩ := section_disables h₀ hp hf
    exact ((h s hin).2.2 hcur hfree).symm.trans hoff
  · intro hi
    exact restored_of_disabled h₀ hi

theorem interrupts_restored_boot : Restored schedulerThread boot :=
  (interrupts_restored_iff .boot rfl fun _ => rfl).2 rfl

/-- The scheduler enables interrupts, and its acquire and release leave them disabled. -/
theorem scheduler_loses_interrupts : Reaches (sti boot) ∧ (sti boot).cur = schedulerThread ∧ Free (sti boot) ∧
    ¬Restored schedulerThread (sti boot) := by
  have h₀ : Reaches (sti boot) := .step .boot (.sti fun _ => rfl)
  refine ⟨h₀, rfl, fun _ => rfl, fun h => ?_⟩
  obtain ⟨s, hin, hcur, hfree, hoff⟩ := section_disables h₀ rfl fun _ => rfl
  have := (h s hin).2.2 hcur hfree
  rw [hoff] at this
  cases this

end ArmXv6.Spinlock
