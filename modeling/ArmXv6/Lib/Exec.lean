import Mathlib.Data.List.Basic
import Mathlib.Tactic.Common

namespace ArmXv6.Lib.Exec

/-- Why a computation stopped without a result: an explicit panic, or a sleep
from which nothing in a sequential run can wake it. -/
inductive Stop
  | panic (msg : String)
  | sleep
  deriving DecidableEq

/-- The end of one execution: its result or the reason for stopping, the state
at that moment, and the ghost events recorded on the way. -/
inductive Run (ε σ α : Type)
  | ok (a : α) (s : σ) (t : List ε)
  | stop (why : Stop) (s : σ) (t : List ε)

variable {ε σ τ α β : Type}

def Run.state : Run ε σ α → σ
  | .ok _ s _ => s
  | .stop _ s _ => s

def Run.trace : Run ε σ α → List ε
  | .ok _ _ t => t
  | .stop _ _ t => t

def Run.returns : Run ε σ α → Bool
  | .ok _ _ _ => true
  | .stop _ _ _ => false

theorem Run.eq_ok {r : Run ε σ α} (h : r.returns = true) : ∃ a, r = .ok a r.state r.trace := by
  cases r with
  | ok a s t => exact ⟨a, rfl⟩
  | stop => cases h

def Run.after (t : List ε) : Run ε σ α → Run ε σ α
  | .ok a s u => .ok a s (t ++ u)
  | .stop w s u => .stop w s (t ++ u)

/-- Sequential code over a state σ that may stop and records events ε. -/
def Prog (ε σ α : Type) : Type := σ → Run ε σ α

instance : Monad (Prog ε σ) where
  pure a := fun s => .ok a s []
  bind m f := fun s =>
    match m s with
    | .ok a s' t => (f a s').after t
    | .stop w s' t => .stop w s' t

protected def Prog.panic (msg : String) : Prog ε σ α := fun s => .stop (.panic msg) s []

protected def Prog.sleep : Prog ε σ α := fun s => .stop .sleep s []

def fetch : Prog ε σ σ := fun s => .ok s s []

def update (f : σ → σ) : Prog ε σ Unit := fun s => .ok () (f s) []

def emit (e : ε) : Prog ε σ Unit := fun s => .ok () s [e]

/-- Run code of a component inside the state that holds the component. -/
def zoom (view : τ → σ) (put : τ → σ → τ) (m : Prog ε σ α) : Prog ε τ α := fun s =>
  match m (view s) with
  | .ok a x t => .ok a (put s x) t
  | .stop w x t => .stop w (put s x) t

/-- If all recorded events satisfy G, a result satisfies Q and a stop satisfies E. -/
def Run.Holds (G : ε → Prop) (Q : α → σ → Prop) (E : Stop → σ → Prop) : Run ε σ α → Prop
  | .ok a s t => (∀ e ∈ t, G e) → Q a s
  | .stop w s t => (∀ e ∈ t, G e) → E w s

variable {G : ε → Prop} {Q Q' : α → σ → Prop} {R : β → σ → Prop} {E E' : Stop → σ → Prop}

theorem bind_apply (m : Prog ε σ α) (f : α → Prog ε σ β) (s : σ) :
    (m >>= f) s = match m s with
      | .ok a s' t => (f a s').after t
      | .stop w s' t => .stop w s' t := rfl

theorem pure_apply (a : α) (s : σ) : (pure a : Prog ε σ α) s = .ok a s [] := rfl

theorem fetch_apply (s : σ) : (fetch : Prog ε σ σ) s = .ok s s [] := rfl

theorem update_apply (f : σ → σ) (s : σ) : (update f : Prog ε σ Unit) s = .ok () (f s) [] := rfl

theorem emit_apply (e : ε) (s : σ) : (emit e : Prog ε σ Unit) s = .ok () s [e] := rfl

theorem after_ok (t u : List ε) (a : α) (s : σ) : (Run.ok a s u).after t = .ok a s (t ++ u) := rfl

theorem bind_ok {m : Prog ε σ α} {f : α → Prog ε σ β} {s s' s'' : σ} {a : α} {b : β}
    {t u : List ε} (hm : m s = .ok a s' t) (hf : f a s' = .ok b s'' u) :
    (m >>= f) s = .ok b s'' (t ++ u) := by
  rw [bind_apply, hm]
  change (f a s').after t = _
  rw [hf]
  rfl

theorem bind_ok_of_eq {m : Prog ε σ α} {f : α → Prog ε σ β} {s s' s'' : σ} {a : α} {b : β}
    {t u v : List ε} (hm : m s = .ok a s' t) (hf : f a s' = .ok b s'' u) (hv : t ++ u = v) :
    (m >>= f) s = .ok b s'' v := hv ▸ bind_ok hm hf

theorem holds_after (t : List ε) (r : Run ε σ α) :
    (r.after t).Holds G Q E ↔ ((∀ e ∈ t, G e) → r.Holds G Q E) := by
  cases r <;> simp only [Run.after, Run.Holds, List.mem_append] <;>
    exact ⟨fun h ht hu => h fun e he => he.elim (ht e) (hu e),
      fun h he => h (fun e ht => he e (.inl ht)) fun e hu => he e (.inr hu)⟩

/-- The sequencing rule: what the rest of the program needs is the postcondition
of its first command. -/
@[simp] theorem holds_bind (m : Prog ε σ β) (f : β → Prog ε σ α) (s : σ) :
    ((m >>= f) s).Holds G Q E ↔ (m s).Holds G (fun b s' => (f b s').Holds G Q E) E := by
  rw [bind_apply]
  cases m s with
  | ok b s' t => exact holds_after t (f b s')
  | stop w s' t => rfl

@[simp] theorem holds_pure (a : α) (s : σ) :
    ((pure a : Prog ε σ α) s).Holds G Q E ↔ Q a s := by
  change ((∀ e ∈ [], G e) → Q a s) ↔ Q a s
  simp

@[simp] theorem holds_panic (msg : String) (s : σ) :
    ((Prog.panic msg : Prog ε σ α) s).Holds G Q E ↔ E (.panic msg) s := by
  simp [Prog.panic, Run.Holds]

@[simp] theorem holds_sleep (s : σ) :
    ((Prog.sleep : Prog ε σ α) s).Holds G Q E ↔ E .sleep s := by
  simp [Prog.sleep, Run.Holds]

@[simp] theorem holds_fetch {Q : σ → σ → Prop} (s : σ) :
    ((fetch : Prog ε σ σ) s).Holds G Q E ↔ Q s s := by
  simp [fetch, Run.Holds]

@[simp] theorem holds_update {Q : Unit → σ → Prop} (f : σ → σ) (s : σ) :
    ((update f : Prog ε σ Unit) s).Holds G Q E ↔ Q () (f s) := by
  simp [update, Run.Holds]

@[simp] theorem holds_emit {Q : Unit → σ → Prop} (e : ε) (s : σ) :
    ((emit e : Prog ε σ Unit) s).Holds G Q E ↔ (G e → Q () s) := by
  simp [emit, Run.Holds]

@[simp] theorem holds_ite (c : Prop) [Decidable c] (m n : Prog ε σ α) (s : σ) :
    ((if c then m else n) s).Holds G Q E ↔
      (c → (m s).Holds G Q E) ∧ (¬c → (n s).Holds G Q E) := by
  split <;> simp_all

theorem Run.Holds.mono {r : Run ε σ α} (h : r.Holds G Q E)
    (hQ : ∀ a s, Q a s → Q' a s) (hE : ∀ w s, E w s → E' w s) : r.Holds G Q' E' := by
  cases r with
  | ok a s t => exact fun ht => hQ a s (h ht)
  | stop w s t => exact fun ht => hE w s (h ht)

theorem Run.Holds.and {r : Run ε σ α} (h : r.Holds G Q E) (h' : r.Holds G Q' E') :
    r.Holds G (fun a s => Q a s ∧ Q' a s) (fun w s => E w s ∧ E' w s) := by
  cases r with
  | ok a s t => exact fun ht => ⟨h ht, h' ht⟩
  | stop w s t => exact fun ht => ⟨h ht, h' ht⟩

theorem holds_zoom {view : τ → σ} {put : τ → σ → τ} {m : Prog ε σ α} {t : τ}
    {Q : α → τ → Prop} {E : Stop → τ → Prop} :
    (zoom view put m t).Holds G Q E ↔
      (m (view t)).Holds G (fun a x => Q a (put t x)) (fun w x => E w (put t x)) := by
  unfold zoom
  cases m (view t) <;> rfl

/-- The code leaves what f shows of the state alone and stops only for a reason in ok. -/
def Stable (ok : Stop → Prop) (f : σ → τ) (m : Prog ε σ α) : Prop :=
  ∀ s, (m s).Holds (fun _ => True) (fun _ s' => f s' = f s) fun w _ => ok w

section Stable

variable {ok : Stop → Prop} {f : σ → τ}

theorem Stable.pure (a : α) : Stable ok f (Pure.pure a : Prog ε σ α) := fun s => by simp

theorem Stable.fetch : Stable ok f (fetch : Prog ε σ σ) := fun s => by simp

theorem Stable.emit (e : ε) : Stable ok f (emit e : Prog ε σ Unit) := fun s => by simp

theorem Stable.update {g : σ → σ} (h : ∀ s, f (g s) = f s) : Stable ok f (update g : Prog ε σ Unit) := fun s => by
  rw [holds_update]
  exact h s

theorem Stable.panic {msg : String} (h : ok (.panic msg)) : Stable ok f (Prog.panic msg : Prog ε σ α) := fun s => by
  rw [holds_panic]
  exact h

theorem Stable.sleep (h : ok .sleep) : Stable ok f (Prog.sleep : Prog ε σ α) := fun s => by
  rw [holds_sleep]
  exact h

theorem Stable.bind {m : Prog ε σ β} {k : β → Prog ε σ α} (hm : Stable ok f m) (hk : ∀ b, Stable ok f (k b)) :
    Stable ok f (m >>= k) := fun s => by
  rw [holds_bind]
  exact (hm s).mono (fun b s' h => (hk b s').mono (fun _ _ h' => h'.trans h) fun _ _ => id) fun _ _ => id

theorem Stable.ite {c : Prop} [Decidable c] {m n : Prog ε σ α} (hm : Stable ok f m) (hn : Stable ok f n) :
    Stable ok f (if c then m else n) := by
  split
  case isTrue => exact hm
  case isFalse => exact hn

/-- Code that leaves f alone keeps whatever can be said in terms of f. -/
theorem Stable.holds {m : Prog ε σ α} (h : Stable ok f m) (s : σ) {P : σ → Prop}
    (hP : ∀ s', f s' = f s → P s') : (m s).Holds (fun _ => True) (fun _ s' => P s') fun w _ => ok w :=
  (h s).mono (fun _ s' e => hP s' e) fun _ _ => id

end Stable

/-- The code keeps an invariant of the state whenever it returns. -/
def Preserves (I : σ → Prop) (m : Prog ε σ α) : Prop :=
  ∀ s, I s → (m s).Holds (fun _ => True) (fun _ s' => I s') fun _ _ => True

section Preserves

variable {I : σ → Prop}

theorem Preserves.pure (a : α) : Preserves I (Pure.pure a : Prog ε σ α) := fun s h => by simpa using h

theorem Preserves.fetch : Preserves I (fetch : Prog ε σ σ) := fun s h => by simpa using h

theorem Preserves.update {g : σ → σ} (h : ∀ s, I s → I (g s)) : Preserves I (update g : Prog ε σ Unit) := fun s hs => by
  rw [holds_update]
  exact h s hs

theorem Preserves.panic (msg : String) : Preserves I (Prog.panic msg : Prog ε σ α) := fun s _ => by simp

theorem Preserves.sleep : Preserves I (Prog.sleep : Prog ε σ α) := fun s _ => by simp

theorem Preserves.bind {m : Prog ε σ β} {k : β → Prog ε σ α} (hm : Preserves I m) (hk : ∀ b, Preserves I (k b)) :
    Preserves I (m >>= k) := fun s hs => by
  rw [holds_bind]
  exact (hm s hs).mono (fun b s' h => hk b s' h) fun _ _ => id

theorem Preserves.ite {c : Prop} [Decidable c] {m n : Prog ε σ α} (hm : Preserves I m) (hn : Preserves I n) :
    Preserves I (if c then m else n) := by
  split
  case isTrue => exact hm
  case isFalse => exact hn

theorem Preserves.ok {m : Prog ε σ α} {s s' : σ} {a : α} {t : List ε} (hm : Preserves I m) (hs : I s)
    (h : m s = .ok a s' t) : I s' := by
  have := hm s hs
  rw [h] at this
  exact this fun _ _ => trivial

end Preserves

theorem Run.Holds.ok {r : Run ε σ α} {a : α} {s : σ} {t : List ε} (h : r.Holds (fun _ => True) Q E)
    (hr : r = .ok a s t) : Q a s := by
  rw [hr] at h
  exact h fun _ _ => trivial

theorem Run.Holds.stop {r : Run ε σ α} (h : r.Holds (fun _ => True) Q E) (hr : r.returns = false) :
    ∃ w s t, r = .stop w s t ∧ E w s := by
  cases r with
  | ok => cases hr
  | stop w s t => exact ⟨w, s, t, rfl, h fun _ _ => trivial⟩

section

variable {ε σ α β : Type} {E E' : Prop} {Q Q' : α → σ → List ε → Prop}

/-- A result satisfies Q, with the events on the way to it, and only under E does the execution stop. -/
def Run.Ends (E : Prop) (Q : α → σ → List ε → Prop) : Run ε σ α → Prop
  | .ok a s t => Q a s t
  | .stop _ _ _ => E

theorem ends_after (t : List ε) (r : Run ε σ α) : (r.after t).Ends E Q ↔ r.Ends E fun a s u => Q a s (t ++ u) := by
  cases r <;> rfl

@[simp] theorem ends_bind (m : Prog ε σ β) (f : β → Prog ε σ α) (s : σ) :
    ((m >>= f) s).Ends E Q ↔ (m s).Ends E fun b s' t => (f b s').Ends E fun a s'' u => Q a s'' (t ++ u) := by
  rw [bind_apply]
  cases m s with
  | ok b s' t => exact ends_after t (f b s')
  | stop w s' t => rfl

@[simp] theorem ends_pure (a : α) (s : σ) : ((pure a : Prog ε σ α) s).Ends E Q ↔ Q a s [] := Iff.rfl

@[simp] theorem ends_panic (msg : String) (s : σ) : ((Prog.panic msg : Prog ε σ α) s).Ends E Q ↔ E := Iff.rfl

@[simp] theorem ends_fetch {Q : σ → σ → List ε → Prop} (s : σ) : ((fetch : Prog ε σ σ) s).Ends E Q ↔ Q s s [] := Iff.rfl

@[simp] theorem ends_update {Q : Unit → σ → List ε → Prop} (f : σ → σ) (s : σ) :
    ((update f : Prog ε σ Unit) s).Ends E Q ↔ Q () (f s) [] := Iff.rfl

@[simp] theorem ends_emit {Q : Unit → σ → List ε → Prop} (e : ε) (s : σ) : ((emit e : Prog ε σ Unit) s).Ends E Q ↔
    Q () s [e] := Iff.rfl

@[simp] theorem ends_ite (c : Prop) [Decidable c] (m n : Prog ε σ α) (s : σ) :
    ((if c then m else n) s).Ends E Q ↔ (c → (m s).Ends E Q) ∧ (¬c → (n s).Ends E Q) := by
  split <;> simp_all

theorem Run.Ends.mono {r : Run ε σ α} (h : r.Ends E Q) (hQ : ∀ a s t, Q a s t → Q' a s t) (hE : E → E') :
    r.Ends E' Q' := by
  cases r with
  | ok a s t => exact hQ a s t h
  | stop w s t => exact hE h

theorem Run.Ends.and {r : Run ε σ α} (h : r.Ends E Q) (h' : r.Ends E' Q') : r.Ends E fun a s t => Q a s t ∧
    Q' a s t := by
  cases r with
  | ok a s t => exact ⟨h, h'⟩
  | stop w s t => exact h

theorem Run.Ends.ok {r : Run ε σ α} {a : α} {s : σ} {t : List ε} (h : r.Ends E Q) (hr : r = .ok a s t) : Q a s t := by
  rw [hr] at h
  exact h

theorem Run.Ends.total {r : Run ε σ α} (h : r.Ends E Q) (hE : ¬E) : ∃ a s t, r = .ok a s t ∧ Q a s t := by
  cases r with
  | ok a s t => exact ⟨a, s, t, rfl, h⟩
  | stop w s t => exact absurd h hE

end

end ArmXv6.Lib.Exec
