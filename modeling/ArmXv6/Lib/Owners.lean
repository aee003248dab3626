import ArmXv6.Lib.Frames

namespace ArmXv6.Lib.Owners

open Lib.Frames

variable {ω ω' : Type} {holds holds₁ : ω → Nat → Prop} {holds' : ω' → Nat → Prop} {o o' : ω} {f : Nat}

/-- Frame f gets owner o', and all other frames stay where they are. -/
def Handover (holds holds₁ : ω → Nat → Prop) (f : Nat) (o' : ω) : Prop :=
  ∀ x a, holds₁ x a ↔ holds x a ∧ a ≠ f ∨ x = o' ∧ a = f

theorem Handover.apart (hh : Handover holds holds₁ f o') (h : Apart holds) : Apart holds₁ := by
  intro x y a hx hy
  rcases (hh x a).mp hx with ⟨hx, hne⟩ | ⟨rfl, rfl⟩ <;> rcases (hh y a).mp hy with ⟨hy, hne'⟩ | ⟨rfl, he⟩
  · exact h x y a hx hy
  · exact absurd he hne
  · exact absurd rfl hne'
  · rfl

theorem Handover.of (h : Apart holds) (hf : holds o f) (hne : o ≠ o') (hrest : ∀ y, y ≠ o → y ≠ o' → ∀ a,
    holds₁ y a ↔ holds y a)
    (hfrom : ∀ a, holds₁ o a ↔ holds o a ∧ a ≠ f) (hto : ∀ a, holds₁ o' a ↔ holds o' a ∨ a = f) :
      Handover holds holds₁ f o' := by
  intro y a
  have hmine : ∀ {z}, z ≠ o → holds z a → a ≠ f := by
    rintro z hz ha rfl
    exact hz (h z o a ha hf)
  by_cases hy : y = o
  · subst hy
    rw [hfrom a]
    exact ⟨.inl, fun hc => hc.elim id fun hc => absurd hc.1 hne⟩
  · by_cases hy' : y = o'
    · subst hy'
      rw [hto a]
      exact ⟨fun hc => hc.elim (fun ha => .inl ⟨ha, hmine hy ha⟩) fun he => .inr ⟨rfl, he⟩,
        fun hc => hc.elim (fun ha => .inl ha.1) fun he => .inr he.2⟩
    · rw [hrest y hy hy' a]
      exact ⟨fun ha => .inl ⟨ha, hmine hy ha⟩, fun hc => hc.elim And.left fun he => absurd he.1 hy'⟩

theorem Handover.owned (hh : Handover holds holds₁ f o') (hf : holds o f) (a : Nat) : (∃ x, holds₁ x a) ↔ ∃ x,
    holds x a := by
  constructor
  · rintro ⟨x, hx⟩
    rcases (hh x a).mp hx with ⟨hx, -⟩ | ⟨-, rfl⟩
    · exact ⟨x, hx⟩
    · exact ⟨o, hf⟩
  · rintro ⟨x, hx⟩
    by_cases he : a = f
    · exact ⟨o', (hh o' a).mpr (.inr ⟨rfl, he⟩)⟩
    · exact ⟨x, (hh x a).mpr (.inl ⟨hx, he⟩)⟩

theorem apart_rest {P : ω → Prop} (h : Apart holds) (h₁ : Apart holds₁) (hall : ∀ a, (∃ x, holds₁ x a) ↔ ∃ x, holds x a)
    (hrest : ∀ x, x ≠ o → ∀ a, holds₁ x a ↔ holds x a ∧ ¬P x) : holds₁ o f ↔ holds o f ∨ ∃ x, P x ∧ holds x f := by
  constructor
  · intro hf
    obtain ⟨x, hx⟩ := (hall f).mp ⟨o, hf⟩
    by_cases hxo : x = o
    · exact .inl (hxo ▸ hx)
    · by_cases hP : P x
      · exact .inr ⟨x, hP, hx⟩
      · exact absurd (h₁ x o f ((hrest x hxo f).mpr ⟨hx, hP⟩) hf) hxo
  · intro hf
    obtain ⟨x, hx, hxP⟩ : ∃ x, holds x f ∧ (x = o ∨ P x) := by
      rcases hf with hf | ⟨x, hP, hx⟩
      · exact ⟨o, hf, .inl rfl⟩
      · exact ⟨x, hx, .inr hP⟩
    obtain ⟨y, hy⟩ := (hall f).mpr ⟨x, hx⟩
    by_cases hyo : y = o
    · exact hyo ▸ hy
    · obtain ⟨hy, hP⟩ := (hrest y hyo f).mp hy
      obtain rfl := h x y f hx hy
      exact absurd hxP (not_or.mpr ⟨hyo, hP⟩)

/-- The owners get new names, and several of them can become one. -/
def Renamed (holds : ω → Nat → Prop) (holds' : ω' → Nat → Prop) (name : ω → ω') : Prop :=
  ∀ y a, holds' y a ↔ ∃ x, holds x a ∧ name x = y

theorem Renamed.apart {name : ω → ω'} (hr : Renamed holds holds' name) (h : Apart holds) : Apart holds' := by
  intro y z a hy hz
  obtain ⟨x, hx, rfl⟩ := (hr y a).mp hy
  obtain ⟨x', hx', rfl⟩ := (hr z a).mp hz
  rw [h x x' a hx hx']

theorem Renamed.owned {name : ω → ω'} (hr : Renamed holds holds' name) (a : Nat) : (∃ y, holds' y a) ↔ ∃ x,
    holds x a := by
  constructor
  · rintro ⟨y, hy⟩
    obtain ⟨x, hx, -⟩ := (hr y a).mp hy
    exact ⟨x, hx⟩
  · rintro ⟨x, hx⟩
    exact ⟨name x, (hr (name x) a).mpr ⟨x, hx, rfl⟩⟩

end ArmXv6.Lib.Owners
