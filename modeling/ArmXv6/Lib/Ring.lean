import Mathlib.Data.List.Basic
import Mathlib.Data.List.Induction
import Mathlib.Data.List.Nodup
import Mathlib.Logic.Function.Basic
import Mathlib.Tactic.Common

namespace ArmXv6.Lib.Ring

variable {α : Type} [DecidableEq α]

/-- Successor and predecessor links of a doubly linked structure. -/
structure Links (α : Type) where
  next : α → α
  prev : α → α

/-- The links lead from x through the nodes of l, in order, to y. -/
def Linked (k : Links α) (x : α) : List α → α → Prop
  | [], y => k.next x = y ∧ k.prev y = x
  | a :: l, y => (k.next x = a ∧ k.prev a = x) ∧ Linked k a l y

/-- Take a node out of the structure. Its own links are left as they were. -/
def unlink (k : Links α) (b : α) : Links α where
  prev := Function.update k.prev (k.next b) (k.prev b)
  next := Function.update k.next (k.prev b) (k.next b)

/-- Put a node right after another one. -/
def insertAfter (k : Links α) (h b : α) : Links α where
  next := Function.update (Function.update k.next b (k.next h)) h b
  prev := Function.update (Function.update k.prev b h) (k.next h) b

/-- The first node satisfying p on the way from x to the node stop. -/
def scan (step : α → α) (stop : α) (p : α → Bool) : Nat → α → Option α
  | 0, _ => none
  | fuel + 1, x => if x = stop then none else if p x then some x else scan step stop p fuel (step x)

omit [DecidableEq α] in
theorem linked_append (k : Links α) (x a y : α) (l m : List α) :
    Linked k x (l ++ a :: m) y ↔ Linked k x l a ∧ Linked k a m y := by
  induction l generalizing x with
  | nil => rfl
  | cons b l ih => simp only [List.cons_append, Linked, ih, and_assoc]

omit [DecidableEq α] in
theorem Linked.congr {k k' : Links α} {x y : α} {l : List α} (h : Linked k x l y)
    (hn : ∀ z ∈ x :: l, k'.next z = k.next z) (hp : ∀ z ∈ l ++ [y], k'.prev z = k.prev z) :
    Linked k' x l y := by
  induction l generalizing x with
  | nil =>
      obtain ⟨h1, h2⟩ := h
      exact ⟨(hn x (by simp)).trans h1, (hp y (by simp)).trans h2⟩
  | cons a l ih =>
      obtain ⟨⟨h1, h2⟩, h⟩ := h
      refine ⟨⟨(hn x (by simp)).trans h1, (hp a (by simp)).trans h2⟩, ih h ?_ ?_⟩
      · exact fun z hz => hn z (List.mem_cons_of_mem x hz)
      · exact fun z hz => hp z (List.mem_cons_of_mem a hz)

omit [DecidableEq α] in
theorem Linked.next_eq {k : Links α} {x y : α} {l : List α} (h : Linked k x l y) :
    k.next x = (l ++ [y]).head (by simp) := by
  cases l with
  | nil => exact h.1
  | cons a l => exact h.1.1

omit [DecidableEq α] in
theorem Linked.prev_eq {k : Links α} {x y : α} {l : List α} (h : Linked k x l y) :
    k.prev y = (x :: l).getLast (by simp) := by
  induction l generalizing x with
  | nil => exact h.2
  | cons a l ih => simpa using ih h.2

theorem Linked.scan_next {k : Links α} {x y : α} {l : List α} (h : Linked k x l y) (hy : y ∉ l)
    (p : α → Bool) (fuel : Nat) (hf : l.length < fuel) :
    scan k.next y p fuel (k.next x) = l.find? p := by
  induction l generalizing x fuel with
  | nil =>
      cases fuel with
      | zero => simp at hf
      | succ fuel => simp [scan, h.1]
  | cons a l ih =>
      cases fuel with
      | zero => simp at hf
      | succ fuel =>
          simp only [List.mem_cons, not_or] at hy
          have ha : a ≠ y := fun he => hy.1 he.symm
          have hs := ih h.2 hy.2 fuel (by simpa using hf)
          cases hp : p a <;> simp [scan, h.1.1, ha, hp, hs]

theorem Linked.scan_prev {k : Links α} {x y : α} {l : List α} (h : Linked k x l y) (hx : x ∉ l)
    (p : α → Bool) (fuel : Nat) (hf : l.length < fuel) :
    scan k.prev x p fuel (k.prev y) = l.reverse.find? p := by
  induction l using List.reverseRecOn generalizing y fuel with
  | nil =>
      cases fuel with
      | zero => simp at hf
      | succ fuel => simp [scan, h.2]
  | append_singleton l a ih =>
      cases fuel with
      | zero => simp at hf
      | succ fuel =>
          obtain ⟨h1, h2⟩ := (linked_append k x a y l []).mp h
          simp only [List.mem_append, List.mem_singleton, not_or] at hx
          have ha : a ≠ x := fun he => hx.2 he.symm
          have hs := ih h1 hx.1 fuel (by simpa using hf)
          cases hp : p a <;> simp [scan, h2.2, ha, hp, hs]

theorem linked_unlink {k : Links α} {x b y : α} {l m : List α} (h : Linked k x (l ++ b :: m) y)
    (hnx : (x :: l ++ b :: m).Nodup) (hny : (l ++ b :: m ++ [y]).Nodup) :
    Linked (unlink k b) x (l ++ m) y := by
  obtain ⟨h1, h2⟩ := (linked_append k x b y l m).mp h
  have hnb := h2.next_eq
  have hpb := h1.prev_eq
  induction l generalizing x with
  | nil =>
      cases m with
      | nil => exact ⟨by simp_all [unlink, Linked], by simp_all [unlink, Linked]⟩
      | cons c m =>
          obtain ⟨⟨h3, h4⟩, h5⟩ := h2
          refine ⟨⟨?_, ?_⟩, h5.congr ?_ ?_⟩
          · simp_all [unlink]
          · simp_all [unlink]
          · intro z hz
            have : z ≠ x := by rintro rfl; simp_all
            simp_all [unlink]
          · intro z hz
            have : z ≠ c := by rintro rfl; simp_all
            simp_all [unlink]
  | cons a l ih =>
      obtain ⟨⟨h3, h4⟩, h5⟩ := h1
      have hlast : k.prev b = (a :: l).getLast (by simp) := by simpa using hpb
      have hxne : x ≠ k.prev b := by
        rw [hlast]
        intro he
        have hmem : x ∈ a :: l := he ▸ List.getLast_mem (show a :: l ≠ [] by simp)
        have hnot := (List.nodup_cons.mp hnx).1
        exact hnot (List.mem_append_left _ hmem)
      have hane : a ≠ k.next b := by
        rw [hnb]
        intro he
        have hmem := List.head_mem (show m ++ [y] ≠ [] by simp)
        rw [← he] at hmem
        simp_all
      refine ⟨⟨?_, ?_⟩, ?_⟩
      · simpa [unlink, hxne] using h3
      · simpa [unlink, hane] using h4
      · refine ih h.2 ?_ ?_ h5 hlast
        · exact (List.nodup_cons.mp hnx).2
        · exact (List.nodup_cons.mp hny).2

theorem linked_insertAfter {k : Links α} {x b y : α} {l : List α} (h : Linked k x l y)
    (hbx : b ≠ x) (hby : b ≠ y) (hbl : b ∉ l) (hnx : (x :: l).Nodup) (hny : (l ++ [y]).Nodup) :
    Linked (insertAfter k x b) x (b :: l) y := by
  have hxn : k.next x ≠ b := by
    rw [h.next_eq]
    intro he
    have hmem := List.head_mem (show l ++ [y] ≠ [] by simp)
    rw [he] at hmem
    simp_all
  refine ⟨⟨by simp [insertAfter], by simp [insertAfter, hxn.symm]⟩, ?_⟩
  cases l with
  | nil => exact ⟨by simp [insertAfter, hbx, h.1], by simp [insertAfter, h.1]⟩
  | cons a l =>
      obtain ⟨⟨h1, h2⟩, h3⟩ := h
      refine ⟨⟨by simp [insertAfter, hbx, h1], by simp [insertAfter, h1]⟩, h3.congr ?_ ?_⟩
      · intro z hz
        have hzx : z ≠ x := by rintro rfl; simp_all
        have hzb : z ≠ b := by rintro rfl; simp_all
        simp [insertAfter, hzx, hzb]
      · intro z hz
        have hza : z ≠ a := by rintro rfl; simp_all
        have hzb : z ≠ b := by
          rintro rfl
          simp only [List.mem_append, List.mem_cons] at hz hbl
          tauto
        simp [insertAfter, h1, hza, hzb]

end ArmXv6.Lib.Ring
