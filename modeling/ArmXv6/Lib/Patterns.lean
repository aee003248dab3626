import Mathlib.Data.List.Basic

namespace ArmXv6.Lib.Patterns

variable {α : Type}

/-- One unit of a pattern: any number of letters of a kind, one letter of a kind, or the end of the text. -/
inductive Piece (α : Type)
  | many (p : α → Prop)
  | one (p : α → Prop)
  | atEnd

/-- The pieces match the factor w of a text that goes on with rest after it. -/
inductive Matches : List (Piece α) → List α → List α → Prop
  | nil (rest : List α) : Matches [] [] rest
  | many {p : α → Prop} {ps : List (Piece α)} {u w rest : List α} (hu : ∀ x ∈ u, p x) (h : Matches ps w rest) :
      Matches (.many p :: ps) (u ++ w) rest
  | one {p : α → Prop} {ps : List (Piece α)} {x : α} {w rest : List α} (hx : p x) (h : Matches ps w rest) :
      Matches (.one p :: ps) (x :: w) rest
  | atEnd {ps : List (Piece α)} (h : Matches ps [] []) : Matches (.atEnd :: ps) [] []

/-- A factor that starts the text is matched. -/
def Starts (ps : List (Piece α)) (text : List α) : Prop := ∃ w rest, text = w ++ rest ∧ Matches ps w rest

/-- A factor of the text is matched. -/
def Occurs (ps : List (Piece α)) (text : List α) : Prop := ∃ pre w rest, text = pre ++ w ++ rest ∧ Matches ps w rest

variable {p : α → Prop} {ps : List (Piece α)} {text : List α}

theorem starts_nil : Starts [] text := ⟨[], text, rfl, .nil text⟩

theorem starts_many : Starts (.many p :: ps) text ↔ ∃ u v, text = u ++ v ∧ (∀ x ∈ u, p x) ∧ Starts ps v := by
  constructor
  · rintro ⟨w, rest, rfl, hm⟩
    cases hm with
    | @many _ _ u w _ hu hm => exact ⟨u, w ++ rest, List.append_assoc u w rest, hu, w, rest, rfl, hm⟩
  · rintro ⟨u, v, rfl, hu, w, rest, rfl, hm⟩
    exact ⟨u ++ w, rest, (List.append_assoc u w rest).symm, .many hu hm⟩

theorem starts_one : Starts (.one p :: ps) text ↔ ∃ x v, text = x :: v ∧ p x ∧ Starts ps v := by
  constructor
  · rintro ⟨w, rest, rfl, hm⟩
    cases hm with
    | @one _ _ x w _ hx hm => exact ⟨x, w ++ rest, rfl, hx, w, rest, rfl, hm⟩
  · rintro ⟨x, v, rfl, hx, w, rest, rfl, hm⟩
    exact ⟨x :: w, rest, rfl, .one hx hm⟩

theorem starts_atEnd : Starts [.atEnd] text ↔ text = [] := by
  constructor
  · rintro ⟨w, rest, rfl, hm⟩
    cases hm
    rfl
  · rintro rfl
    exact ⟨[], [], rfl, .atEnd (.nil [])⟩

theorem occurs_cons (x : α) : Occurs ps (x :: text) ↔ Starts ps (x :: text) ∨ Occurs ps text := by
  constructor
  · rintro ⟨pre, w, rest, he, hm⟩
    cases pre with
    | nil => exact .inl ⟨w, rest, he, hm⟩
    | cons y pre =>
        obtain ⟨rfl, rfl⟩ := List.cons.inj he
        exact .inr ⟨pre, w, rest, rfl, hm⟩
  · rintro (⟨w, rest, he, hm⟩ | ⟨pre, w, rest, rfl, hm⟩)
    · exact ⟨[], w, rest, he, hm⟩
    · exact ⟨x :: pre, w, rest, rfl, hm⟩

theorem occurs_nil : Occurs ps [] ↔ Starts ps [] := by
  constructor
  · rintro ⟨pre, w, rest, he, hm⟩
    have hpre : pre = [] := by
      cases pre with
      | nil => rfl
      | cons y pre => cases he
    subst hpre
    exact ⟨w, rest, he, hm⟩
  · rintro ⟨w, rest, he, hm⟩
    exact ⟨[], w, rest, he, hm⟩

end ArmXv6.Lib.Patterns
