import ArmXv6.Lib.Moves
import ArmXv6.Lib.Patterns

namespace ArmXv6.Grep

open Lib.Bytes Lib.Moves Lib.Patterns

-- The characters that mean something in a pattern.
def caret : UInt8 := 94
def dot : UInt8 := 46
def star : UInt8 := 42
def dollar : UInt8 := 36
def newline : UInt8 := 10

/-- A string is the list of its bytes before the NUL; here re is the pattern after the star, as matchhere
looks for it. -/
def matchstar (c : UInt8) (re : List UInt8 → Bool) : List UInt8 → Bool
  | [] => re []
  | t :: text => re (t :: text) || ((t == c || c == dot) && matchstar c re text)

def matchhere : List UInt8 → List UInt8 → Bool
  | [], _ => true
  | [c], text =>
      if c = dollar then text.isEmpty
      else match text with
        | [] => false
        | t :: _ => (c == dot || c == t)
  | c :: d :: re, text =>
      if d = star then matchstar c (matchhere re) text
      else match text with
        | [] => false
        | t :: text => (c == dot || c == t) && matchhere (d :: re) text

/-- The loop of match over the positions of the text, the empty string at its end included. -/
def anywhere (re : List UInt8) : List UInt8 → Bool
  | [] => matchhere re []
  | t :: text => matchhere re (t :: text) || anywhere re text

def «match» (re text : List UInt8) : Bool :=
  if re.head? = some caret then matchhere re.tail text else anywhere re text

/-- The letters that an unstarred or starred character stands for. -/
def Stands (c x : UInt8) : Prop := c = dot ∨ x = c

def units : List UInt8 → List (Piece UInt8)
  | [] => []
  | [c] => if c = dollar then [.atEnd] else [.one (Stands c)]
  | c :: d :: re => if d = star then .many (Stands c) :: units re else .one (Stands c) :: units (d :: re)

theorem matchstar_iff {re : List UInt8 → Bool} {c : UInt8} {text : List UInt8} :
    matchstar c re text = true ↔ ∃ u v, text = u ++ v ∧ (∀ x ∈ u, Stands c x) ∧ re v = true := by
  induction text with
  | nil =>
      constructor
      · intro h
        exact ⟨[], [], rfl, fun _ hx => absurd hx List.not_mem_nil, h⟩
      · rintro ⟨u, v, he, -, hv⟩
        obtain ⟨rfl, rfl⟩ := List.append_eq_nil_iff.mp he.symm
        exact hv
  | cons t text ih =>
      simp only [matchstar, Bool.or_eq_true, Bool.and_eq_true, beq_iff_eq, ih]
      constructor
      · rintro (h | ⟨ht, u, v, rfl, hu, hv⟩)
        · exact ⟨[], t :: text, rfl, fun _ hx => absurd hx List.not_mem_nil, h⟩
        · refine ⟨t :: u, v, rfl, fun x hx => ?_, hv⟩
          rcases List.mem_cons.mp hx with rfl | hx
          · exact ht.symm
          · exact hu x hx
      · rintro ⟨u, v, he, hu, hv⟩
        cases u with
        | nil =>
            rw [List.nil_append] at he
            exact .inl (he ▸ hv)
        | cons y u =>
            obtain ⟨rfl, rfl⟩ := List.cons.inj he
            exact .inr ⟨(hu _ List.mem_cons_self).symm, u, v, rfl, fun x hx => hu x (List.mem_cons_of_mem _ hx), hv⟩

theorem one_iff {c : UInt8} {ps : List (Piece UInt8)} {t : UInt8} {text : List UInt8} :
    Starts (.one (Stands c) :: ps) (t :: text) ↔ Stands c t ∧ Starts ps text := by
  rw [starts_one]
  constructor
  · rintro ⟨x, v, he, hx, hv⟩
    obtain ⟨rfl, rfl⟩ := List.cons.inj he
    exact ⟨hx, hv⟩
  · rintro ⟨hx, hv⟩
    exact ⟨t, text, rfl, hx, hv⟩

theorem not_one_nil {c : UInt8} {ps : List (Piece UInt8)} : ¬Starts (.one (Stands c) :: ps) [] := by
  rw [starts_one]
  rintro ⟨x, v, he, -⟩
  cases he

theorem stands_iff {c t : UInt8} : (c == dot || c == t) = true ↔ Stands c t := by
  rw [Bool.or_eq_true, beq_iff_eq, beq_iff_eq, Stands, @eq_comm _ c t]

theorem matchstar_iff_starts {re : List UInt8} {ps : List (Piece UInt8)} {c : UInt8} {text : List UInt8}
    (h : ∀ v, matchhere re v = true ↔ Starts ps v) :
    matchstar c (matchhere re) text = true ↔ ∃ u v, text = u ++ v ∧ (∀ x ∈ u, Stands c x) ∧ Starts ps v := by
  simp only [matchstar_iff, h]

theorem matchhere_iff (re text : List UInt8) : matchhere re text = true ↔ Starts (units re) text := by
  fun_induction units re generalizing text with
  | case1 => exact iff_of_true rfl starts_nil
  | case2 => cases text <;> simp [matchhere, starts_atEnd]
  | case3 c hc =>
      cases text with
      | nil => simp [matchhere, hc, not_one_nil]
      | cons t text =>
          rw [one_iff, ← stands_iff, and_iff_left starts_nil]
          simp [matchhere, hc]
  | case4 c re ih =>
      rw [starts_many, ← matchstar_iff_starts ih]
      cases text <;> simp [matchhere]
  | case5 c d re hd ih =>
      cases text with
      | nil => simp [matchhere, hd, not_one_nil]
      | cons t text =>
          rw [one_iff, ← stands_iff, ← ih]
          simp [matchhere, hd]

theorem anywhere_iff (re text : List UInt8) : anywhere re text = true ↔ Occurs (units re) text := by
  induction text with
  | nil => rw [anywhere, matchhere_iff, occurs_nil]
  | cons t text ih => rw [anywhere, Bool.or_eq_true, matchhere_iff, ih, occurs_cons]

/-- match finds a pattern exactly where its units, read from left to right, match a factor of the text:
from the first position on if the pattern begins with a caret, and from any position otherwise. -/
theorem match_iff (re text : List UInt8) :
    «match» re text = true ↔
      if re.head? = some caret then Starts (units re.tail) text else Occurs (units re) text := by
  unfold «match»
  split
  · exact matchhere_iff re.tail text
  · exact anywhere_iff re text

end ArmXv6.Grep
