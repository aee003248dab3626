import Mathlib.Data.List.Basic
import Mathlib.Data.Nat.ModEq
import Mathlib.Logic.Function.Basic
import Mathlib.Tactic.Common

namespace ArmXv6.Lib.Fifo

variable {α : Type} {N M : Nat}

/-- How many elements lie between two counters that wrap around at M. -/
def count (M r w : Nat) : Nat := (w + M - r) % M

/-- The elements of a ring of N cells, oldest first. -/
def contents (N M : Nat) (data : Nat → α) (r w : Nat) : List α :=
  (List.range (count M r w)).map fun i => data ((r + i) % N)

theorem count_cases {r w : Nat} (hr : r < M) (hw : w < M) :
    r ≤ w ∧ count M r w = w - r ∨ w < r ∧ count M r w = w + M - r := by
  unfold count
  rcases Nat.lt_or_ge w r with h | h
  · exact .inr ⟨h, Nat.mod_eq_of_lt (by omega)⟩
  · refine .inl ⟨h, ?_⟩
    rw [show w + M - r = (w - r) + M by omega, Nat.add_mod_right]
    exact Nat.mod_eq_of_lt (by omega)

theorem succ_cases {w : Nat} (hw : w < M) : (w + 1) % M = w + 1 ∧ w + 1 < M ∨ (w + 1) % M = 0 ∧ w + 1 = M := by
  rcases Nat.lt_or_ge (w + 1) M with h | h
  · exact .inl ⟨Nat.mod_eq_of_lt h, h⟩
  · have e : w + 1 = M := by omega
    exact .inr ⟨by rw [e]; exact Nat.mod_self M, e⟩

theorem count_eq_zero {r w : Nat} (hr : r < M) (hw : w < M) : count M r w = 0 ↔ r = w := by
  rcases count_cases hr hw with ⟨_, h⟩ | ⟨_, h⟩ <;> omega

theorem count_self {r : Nat} (hr : r < M) : count M r r = 0 := (count_eq_zero hr hr).mpr rfl

theorem count_push {r w : Nat} (hr : r < M) (hw : w < M) (h : count M r w + 1 < M) :
    count M r ((w + 1) % M) = count M r w + 1 := by
  have hw' : (w + 1) % M < M := Nat.mod_lt _ (by omega)
  rcases count_cases hr hw with ⟨_, e⟩ | ⟨_, e⟩ <;> rcases count_cases hr hw' with ⟨_, e'⟩ | ⟨_, e'⟩ <;>
    rcases succ_cases hw with ⟨s, _⟩ | ⟨s, _⟩ <;> omega

theorem count_pop {r w : Nat} (hr : r < M) (hw : w < M) (h : r ≠ w) :
    count M r w = count M ((r + 1) % M) w + 1 := by
  have hr' : (r + 1) % M < M := Nat.mod_lt _ (by omega)
  rcases count_cases hr hw with ⟨_, e⟩ | ⟨_, e⟩ <;> rcases count_cases hr' hw with ⟨_, e'⟩ | ⟨_, e'⟩ <;>
    rcases succ_cases hr with ⟨s, _⟩ | ⟨s, _⟩ <;> omega

theorem full_iff {r w : Nat} (hr : r < M) (hw : w < M) (hN : N < M) : w = (r + N) % M ↔ count M r w = N := by
  have hm : (r + N) % M = r + N ∧ r + N < M ∨ (r + N) % M = r + N - M ∧ M ≤ r + N := by
    rcases Nat.lt_or_ge (r + N) M with h | h
    · exact .inl ⟨Nat.mod_eq_of_lt h, h⟩
    · refine .inr ⟨?_, h⟩
      rw [Nat.mod_eq_sub_mod h]
      exact Nat.mod_eq_of_lt (by omega)
  rcases count_cases hr hw with ⟨_, e⟩ | ⟨_, e⟩ <;> rcases hm with ⟨m, _⟩ | ⟨m, _⟩ <;> omega

theorem mod_mod_add {r : Nat} (hd : N ∣ M) (i : Nat) : ((r % M) + i) % N = (r + i) % N := by
  rw [Nat.add_mod, Nat.mod_mod_of_dvd r hd, ← Nat.add_mod]

theorem index_count {r w : Nat} (hd : N ∣ M) (hr : r < M) (hw : w < M) : (r + count M r w) % N = w % N := by
  rcases count_cases hr hw with ⟨_, e⟩ | ⟨_, e⟩ <;> rw [e]
  · congr 1
    omega
  · rw [show r + (w + M - r) = w + M by omega, ← Nat.mod_mod_of_dvd (w + M) hd, Nat.add_mod_right,
      Nat.mod_mod_of_dvd w hd]

theorem contents_push (data : Nat → α) (b : α) {r w : Nat} (hd : N ∣ M) (hr : r < M) (hw : w < M)
    (hN : N < M) (h : count M r w < N) :
    contents N M (Function.update data (w % N) b) r ((w + 1) % M) = contents N M data r w ++ [b] := by
  unfold contents
  rw [count_push hr hw (by omega), List.range_succ, List.map_append, List.map_singleton, index_count hd hr hw,
    Function.update_self]
  congr 1
  refine List.map_congr_left fun i hi => ?_
  rw [List.mem_range] at hi
  -- two of the first N cells behind r are different
  refine Function.update_of_ne ?_ _ _
  rw [← index_count hd hr hw]
  intro e
  have e' : r + i ≡ r + count M r w [MOD N] := e
  have := Nat.ModEq.add_left_cancel' r e'
  unfold Nat.ModEq at this
  rw [Nat.mod_eq_of_lt (by omega), Nat.mod_eq_of_lt h] at this
  omega

theorem contents_pop (data : Nat → α) {r w : Nat} (hd : N ∣ M) (hr : r < M) (hw : w < M) (h : r ≠ w) :
    contents N M data r w = data (r % N) :: contents N M data ((r + 1) % M) w := by
  unfold contents
  rw [count_pop hr hw h, List.range_succ_eq_map, List.map_cons, Nat.add_zero, List.map_map]
  congr 1
  refine List.map_congr_left fun i _ => ?_
  rw [mod_mod_add hd]
  change data ((r + (i + 1)) % N) = _
  rw [Nat.add_right_comm, Nat.add_assoc]

theorem contents_self (data : Nat → α) {r : Nat} (hr : r < M) : contents N M data r r = [] := by
  unfold contents
  rw [count_self hr]
  rfl

theorem length_contents (data : Nat → α) (r w : Nat) : (contents N M data r w).length = count M r w := by
  unfold contents
  rw [List.length_map, List.length_range]

theorem contents_append (data : Nat → α) {r w e : Nat} (hd : N ∣ M) (hr : r < M) (hw : w < M)
    (h : count M r w + count M w e = count M r e) :
    contents N M data r e = contents N M data r w ++ contents N M data w e := by
  unfold contents
  rw [← h, List.range_add, List.map_append, List.map_map]
  congr 1
  refine List.map_congr_left fun i _ => ?_
  change data ((r + (count M r w + i)) % N) = _
  rw [← Nat.add_assoc, Nat.add_mod, index_count hd hr hw, ← Nat.add_mod]

/-- The counter before e. -/
def pred (M e : Nat) : Nat := (e + M - 1) % M

theorem pred_cases {e : Nat} (he : e < M) : e = 0 ∧ pred M e = M - 1 ∨ 0 < e ∧ pred M e = e - 1 := by
  unfold pred
  rcases Nat.eq_zero_or_pos e with h0 | h0
  · refine .inl ⟨h0, ?_⟩
    rw [h0, Nat.zero_add]
    exact Nat.mod_eq_of_lt (by omega)
  · refine .inr ⟨h0, ?_⟩
    rw [show e + M - 1 = (e - 1) + M by omega, Nat.add_mod_right]
    exact Nat.mod_eq_of_lt (by omega)

theorem succ_pred {e : Nat} (he : e < M) : (pred M e + 1) % M = e := by
  rcases pred_cases he with ⟨h0, h⟩ | ⟨h0, h⟩ <;> rw [h]
  · rw [Nat.sub_add_cancel (by omega), Nat.mod_self, h0]
  · rw [Nat.sub_add_cancel h0, Nat.mod_eq_of_lt he]

theorem pred_succ {r : Nat} (hr : r < M) : pred M ((r + 1) % M) = r := by
  have hs : (r + 1) % M < M := Nat.mod_lt _ (by omega)
  rcases succ_cases hr with ⟨h, _⟩ | ⟨h, _⟩ <;> rcases pred_cases hs with ⟨h0, h'⟩ | ⟨h0, h'⟩ <;> omega

theorem count_pred {w e : Nat} (hw : w < M) (he : e < M) (h : w ≠ e) : count M w e = count M w (pred M e) + 1 := by
  have hp : pred M e < M := Nat.mod_lt _ (by omega)
  rcases count_cases hw he with ⟨_, c⟩ | ⟨_, c⟩ <;> rcases count_cases hw hp with ⟨_, c'⟩ | ⟨_, c'⟩ <;>
    rcases pred_cases he with ⟨_, e'⟩ | ⟨_, e'⟩ <;> omega

theorem contents_pred (data : Nat → α) {w e : Nat} (hd : N ∣ M) (hw : w < M) (he : e < M) (hN : N < M) (h : w ≠ e)
    (hle : count M w e ≤ N) : contents N M data w e = contents N M data w (pred M e) ++ [data (pred M e % N)] := by
  have hp : pred M e < M := Nat.mod_lt _ (by omega)
  have hc := count_pred hw he h
  have := contents_push data (data (pred M e % N)) hd hw hp hN (by omega)
  rwa [Function.update_eq_self, succ_pred he] at this

end ArmXv6.Lib.Fifo
