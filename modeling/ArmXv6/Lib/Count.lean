import Mathlib.Data.List.Basic
import Mathlib.Algebra.BigOperators.Group.List.Basic
import Mathlib.Algebra.Ring.Nat
import Mathlib.Logic.Function.Basic
import Mathlib.Tactic.Common

namespace ArmXv6.Lib.Count

variable {α : Type}

theorem range_perm {N p : Nat} (hp : p < N) : (List.range N).Perm (p :: (List.range N).erase p) :=
  List.perm_cons_erase (List.mem_range.mpr hp)

theorem ne_of_mem_erase {N p q : Nat} (hq : q ∈ (List.range N).erase p) : q ≠ p :=
  ((List.nodup_range).mem_erase_iff.mp hq).1

theorem sum_range_update {N p : Nat} (hp : p < N) (g : Nat → α) (x : α) (w : α → Nat) :
    ((List.range N).map fun q => w (Function.update g p x q)).sum + w (g p) =
      ((List.range N).map fun q => w (g q)).sum + w x := by
  have hrest : ((List.range N).erase p).map (fun q => w (Function.update g p x q)) =
      ((List.range N).erase p).map fun q => w (g q) :=
    List.map_congr_left fun q hq => by rw [Function.update_of_ne (ne_of_mem_erase hq)]
  rw [((range_perm hp).map _).sum_eq, ((range_perm hp).map fun q => w (g q)).sum_eq, List.map_cons, List.map_cons,
    List.sum_cons, List.sum_cons, hrest, Function.update_self]
  omega

theorem le_sum_range {N p : Nat} (hp : p < N) (w : Nat → Nat) : w p ≤ ((List.range N).map w).sum := by
  rw [((range_perm hp).map w).sum_eq, List.map_cons, List.sum_cons]
  exact Nat.le_add_right _ _

theorem countP_eq_sum (l : List Nat) (P : Nat → Bool) : l.countP P = (l.map fun q => if P q then 1 else 0).sum := by
  induction l with
  | nil => rfl
  | cons a l ih =>
      rw [List.countP_cons, List.map_cons, List.sum_cons, ih, Nat.add_comm]

theorem countP_range_update {N p : Nat} (hp : p < N) (g : Nat → α) (x : α) (P : α → Bool) :
    (List.range N).countP (fun q => P (Function.update g p x q)) + (if P (g p) then 1 else 0) =
      (List.range N).countP (fun q => P (g q)) + if P x then 1 else 0 := by
  rw [countP_eq_sum, countP_eq_sum]
  exact sum_range_update hp g x fun y => if P y then 1 else 0

theorem countP_range_congr {N p : Nat} (hp : p < N) {P Q : Nat → Bool} (h : ∀ q, q ≠ p → P q = Q q) :
    (List.range N).countP P + (if Q p then 1 else 0) = (List.range N).countP Q + if P p then 1 else 0 := by
  have hrest : ((List.range N).erase p).countP P = ((List.range N).erase p).countP Q := by
    refine List.countP_congr fun q hq => ?_
    rw [h q (ne_of_mem_erase hq)]
  rw [(range_perm hp).countP_eq, (range_perm hp).countP_eq, List.countP_cons, List.countP_cons, hrest]
  omega

theorem countP_range_pos {N p : Nat} (hp : p < N) {P : Nat → Bool} (h : P p = true) :
    0 < (List.range N).countP P := List.countP_pos_iff.mpr ⟨p, List.mem_range.mpr hp, h⟩

end ArmXv6.Lib.Count
