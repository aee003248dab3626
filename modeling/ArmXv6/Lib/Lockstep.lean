import ArmXv6.Lib.Exec

namespace ArmXv6.Lib.Lockstep

open Lib.Exec

variable {ε ε' σ τ α β γ δ : Type} {R R' : α → β → σ → τ → Prop} {Q : γ → δ → σ → τ → Prop}

/-- Two executions end alike: with related results and states, or both for the same reason. -/
def InStep (R : α → β → σ → τ → Prop) : Run ε σ α → Run ε' τ β → Prop
  | .ok a s _, .ok b t _ => R a b s t
  | .stop w _ _, .stop w' _ _ => w = w'
  | _, _ => False

variable {r : Run ε σ α} {r' : Run ε' τ β} {s : σ} {t : τ}

theorem inStep_after_left (u : List ε) : InStep R (r.after u) r' ↔ InStep R r r' := by
  cases r <;> cases r' <;> rfl

theorem inStep_after_right (u : List ε') : InStep R r (r'.after u) ↔ InStep R r r' := by
  cases r <;> cases r' <;> rfl

theorem InStep.mono (h : InStep R r r') (hR : ∀ a b s t, R a b s t → R' a b s t) : InStep R' r r' := by
  cases r with
  | ok a s u =>
      cases r' with
      | ok b t u' => exact hR a b s t h
      | stop => exact h
  | stop w s u =>
      cases r' with
      | ok => exact h
      | stop => exact h

theorem InStep.from_run {m : Prog ε σ α} (h : InStep R (m s) r') :
    InStep (fun a b s' t' => (∃ u, m s = .ok a s' u) ∧ R a b s' t') (m s) r' := by
  cases hm : m s with
  | ok a s' u =>
      rw [hm] at h
      cases r' with
      | ok b t' u' => exact ⟨⟨u, rfl⟩, h⟩
      | stop => exact h
  | stop w s' u =>
      rw [hm] at h
      cases r' with
      | ok => exact h
      | stop => exact h

/-- The sequencing rule: the rests of the two programs go on from related results. -/
theorem InStep.bind {m : Prog ε σ α} {m' : Prog ε' τ β} {f : α → Prog ε σ γ} {f' : β → Prog ε' τ δ}
    (h : InStep R (m s) (m' t))
    (hf : ∀ a b s' t', R a b s' t' → InStep Q (f a s') (f' b t')) : InStep Q ((m >>= f) s) ((m' >>= f') t) := by
  rw [bind_apply, bind_apply]
  cases hm : m s with
  | ok a s' u =>
      cases hm' : m' t with
      | ok b t' u' =>
          rw [hm, hm'] at h
          exact (inStep_after_left u).mpr ((inStep_after_right u').mpr (hf a b s' t' h))
      | stop =>
          rw [hm, hm'] at h
          exact h.elim
  | stop w s' u =>
      cases hm' : m' t with
      | ok =>
          rw [hm, hm'] at h
          exact h.elim
      | stop =>
          rw [hm, hm'] at h
          exact h

/-- Only the second program takes a step. -/
theorem InStep.right {m : Prog ε' τ β} {f : β → Prog ε' τ δ} {r : Run ε σ γ} {b : β} {t' : τ} {u : List ε'}
    (hm : m t = .ok b t' u)
    (h : InStep Q r (f b t')) : InStep Q r ((m >>= f) t) := by
  rw [bind_apply, hm]
  exact (inStep_after_right u).mpr h

/-- Only the first program takes a step. -/
theorem InStep.left {m : Prog ε σ α} {f : α → Prog ε σ γ} {r : Run ε' τ δ} {a : α} {s' : σ} {u : List ε}
    (hm : m s = .ok a s' u)
    (h : InStep Q (f a s') r) : InStep Q ((m >>= f) s) r := by
  rw [bind_apply, hm]
  exact (inStep_after_left u).mpr h

theorem InStep.ok {a : α} {b : β} {u : List ε} {u' : List ε'} (h : R a b s t) : InStep R (.ok a s u) (.ok b t u') := h

theorem InStep.stop {w : Stop} {u : List ε} {u' : List ε'} : InStep R (.stop w s u) (.stop w t u') := rfl

end ArmXv6.Lib.Lockstep
