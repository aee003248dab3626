import Mathlib.Logic.Function.Basic
import Mathlib.Tactic.Common

namespace ArmXv6.Lib.SleepLock

/-- Long-term locks with one flag each. A process that finds the flag set sleeps on it; owns
records who set a flag. -/
structure Table (κ : Type) where
  busy : κ → Bool
  owns : Nat → κ → Bool
  asleep : Nat → Option κ

variable {κ : Type} [DecidableEq κ]

def wakeup (c : κ) (s : Table κ) : Table κ :=
  { s with asleep := fun p => if s.asleep p = some c then none else s.asleep p }

def setOwns (p : Nat) (c : κ) (b : Bool) (s : Table κ) : Table κ :=
  { s with owns := Function.update s.owns p (Function.update (s.owns p) c b) }

def take (p : Nat) (c : κ) (s : Table κ) : Table κ :=
  setOwns p c true { s with busy := Function.update s.busy c true }

/-- The owner p clears the flag and wakes who waits for it. -/
def drop (p : Nat) (c : κ) (s : Table κ) : Table κ :=
  wakeup c (setOwns p c false { s with busy := Function.update s.busy c false })

def block (p : Nat) (c : κ) (s : Table κ) : Table κ := { s with asleep := Function.update s.asleep p (some c) }

/-- A wakeup for another reason. -/
def rouse (p : Nat) (s : Table κ) : Table κ := { s with asleep := Function.update s.asleep p none }

/-- The flag of an object that is set up anew. -/
def reset (c : κ) (s : Table κ) : Table κ := { s with busy := Function.update s.busy c false }

/-- Owners have set their flag, nobody else owns it, and nobody sleeps on a clear flag. -/
structure Safe (s : Table κ) : Prop where
  owned : ∀ p c, s.owns p c = true → s.busy c = true
  unique : ∀ p q c, s.owns p c = true → s.owns q c = true → p = q
  waits : ∀ p c, s.asleep p = some c → s.busy c = true

variable {s : Table κ} {p q : Nat} {c d : κ} {b : Bool}

theorem owns_setOwns : (setOwns p c b s).owns q d = if q = p ∧ d = c then b else s.owns q d := by
  unfold setOwns
  by_cases hq : q = p
  · subst hq
    by_cases hd : d = c <;> simp [hd]
  · simp [hq]

@[simp] theorem owns_take : (take p c s).owns q d = if q = p ∧ d = c then true else s.owns q d := owns_setOwns

@[simp] theorem busy_take : (take p c s).busy d = if d = c then true else s.busy d := Function.update_apply ..

@[simp] theorem owns_drop : (drop p c s).owns q d = if q = p ∧ d = c then false else s.owns q d := owns_setOwns

@[simp] theorem busy_drop : (drop p c s).busy d = if d = c then false else s.busy d := Function.update_apply ..

@[simp] theorem asleep_drop : (drop p c s).asleep q = if s.asleep q = some c then none else s.asleep q := rfl

omit [DecidableEq κ] in
@[simp] theorem asleep_block : (block p c s).asleep q = if q = p then some c else s.asleep q := Function.update_apply ..

omit [DecidableEq κ] in
@[simp] theorem asleep_rouse : (rouse p s).asleep q = if q = p then none else s.asleep q := Function.update_apply ..

theorem Safe.take (h : Safe s) (hb : s.busy c = false) : Safe (take p c s) := by
  have hfree : ∀ q, s.owns q c ≠ true := by
    intro q ho
    have := h.owned q c ho
    rw [hb] at this
    cases this
  refine ⟨fun q d ho => ?_, fun q r d ho hr => ?_, fun q d hq => ?_⟩
  · rw [busy_take]
    by_cases hd : d = c
    · rw [if_pos hd]
    · rw [owns_take, if_neg fun hc => hd hc.2] at ho
      rw [if_neg hd]
      exact h.owned q d ho
  · rw [owns_take] at ho hr
    by_cases hd : d = c
    · subst hd
      have hone : ∀ q, (if q = p ∧ d = d then true else s.owns q d) = true → q = p := by
        intro q hq
        by_contra hne
        rw [if_neg fun hc => hne hc.1] at hq
        exact hfree q hq
      rw [hone q ho, hone r hr]
    · rw [if_neg fun hc => hd hc.2] at ho hr
      exact h.unique q r d ho hr
  · rw [busy_take]
    by_cases hd : d = c
    · rw [if_pos hd]
    · rw [if_neg hd]
      exact h.waits q d hq

theorem Safe.drop (h : Safe s) (ho : s.owns p c = true) : Safe (drop p c s) := by
  refine ⟨fun q d hq => ?_, fun q r d hq hr => ?_, fun q d hq => ?_⟩
  · rw [owns_drop] at hq
    rw [busy_drop]
    by_cases hd : d = c
    · subst hd
      by_cases hqp : q = p
      · rw [if_pos ⟨hqp, rfl⟩] at hq
        cases hq
      · rw [if_neg fun hc => hqp hc.1] at hq
        exact absurd (h.unique q p d hq ho) hqp
    · rw [if_neg fun hc => hd hc.2] at hq
      rw [if_neg hd]
      exact h.owned q d hq
  · rw [owns_drop] at hq hr
    have hq' : s.owns q d = true := by
      split at hq
      · cases hq
      · exact hq
    have hr' : s.owns r d = true := by
      split at hr
      · cases hr
      · exact hr
    exact h.unique q r d hq' hr'
  · rw [asleep_drop] at hq
    split at hq
    · cases hq
    · rename_i hne
      have hd : d ≠ c := fun hd => hne (hd ▸ hq)
      rw [busy_drop, if_neg hd]
      exact h.waits q d hq

omit [DecidableEq κ] in
theorem Safe.block (h : Safe s) (hb : s.busy c = true) : Safe (block p c s) := by
  refine ⟨h.owned, h.unique, fun q d hq => ?_⟩
  rw [asleep_block] at hq
  split at hq
  · cases hq
    exact hb
  · exact h.waits q d hq

omit [DecidableEq κ] in
theorem Safe.rouse (h : Safe s) : Safe (rouse p s) := by
  refine ⟨h.owned, h.unique, fun q d hq => ?_⟩
  rw [asleep_rouse] at hq
  split at hq
  · cases hq
  · exact h.waits q d hq

theorem Safe.reset (h : Safe s) (ho : ∀ q, s.owns q c = false) (hw : ∀ q, s.asleep q ≠ some c) : Safe (reset c s) := by
  refine ⟨fun q d hq => ?_, h.unique, fun q d hq => ?_⟩
  · have hd : d ≠ c := by
      rintro rfl
      have hq' : s.owns q d = true := hq
      rw [ho q] at hq'
      cases hq'
    exact (Function.update_of_ne hd _ _).trans (h.owned q d hq)
  · have hd : d ≠ c := by
      rintro rfl
      exact hw q hq
    exact (Function.update_of_ne hd _ _).trans (h.waits q d hq)

end ArmXv6.Lib.SleepLock
