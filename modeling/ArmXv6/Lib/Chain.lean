import Mathlib.Data.List.Basic
import Mathlib.Tactic.Common

namespace ArmXv6.Lib.Chain

variable {α : Type} {next next' : α → α} {p e x y : α} {l l' : List α}

/-- Following next from p visits the nodes of l in turn and ends at e. -/
def Leads (next : α → α) : α → List α → α → Prop
  | p, [], e => p = e
  | p, a :: l, e => p = a ∧ Leads next (next a) l e

theorem leads_append : Leads next p (l ++ l') e ↔ ∃ q, Leads next p l q ∧ Leads next q l' e := by
  induction l generalizing p with
  | nil => simp [Leads]
  | cons a l ih =>
      simp only [List.cons_append, Leads, ih]
      constructor
      · rintro ⟨h, q, h₁, h₂⟩
        exact ⟨q, ⟨h, h₁⟩, h₂⟩
      · rintro ⟨q, ⟨h, h₁⟩, h₂⟩
        exact ⟨h, q, h₁, h₂⟩

theorem Leads.congr (h : Leads next p l e) (hn : ∀ a ∈ l, next' a = next a) : Leads next' p l e := by
  induction l generalizing p with
  | nil => exact h
  | cons a l ih =>
      refine ⟨h.1, ?_⟩
      rw [hn a List.mem_cons_self]
      exact ih h.2 fun b hb => hn b (List.mem_cons_of_mem a hb)

theorem Leads.split (h : Leads next p (l ++ x :: l') e) : Leads next p l x ∧ Leads next (next x) l' e := by
  obtain ⟨q, h₁, rfl, h₂⟩ := leads_append.1 h
  exact ⟨h₁, h₂⟩

theorem Leads.next_nil (h : Leads next p (l ++ [x]) e) : next x = e := h.split.2

theorem Leads.next_cons (h : Leads next p (l ++ x :: y :: l') e) : next x = y := h.split.2.1

theorem Leads.rotate (h : Leads next p (l ++ x :: l') p) : Leads next x (x :: l' ++ l) x := by
  obtain ⟨h₁, h₂⟩ := h.split
  exact leads_append.2 ⟨p, ⟨rfl, h₂⟩, h₁⟩

end ArmXv6.Lib.Chain
