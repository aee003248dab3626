import Mathlib.Data.Nat.Digits.Lemmas

namespace ArmXv6.Lib.Numerals

variable {b n d : Nat} {ds ds' : List Nat}

/-- The value of the digits ds, the highest first, behind digits of the value n. -/
def valueFrom (b n : Nat) (ds : List Nat) : Nat := ds.foldl (fun n d => n * b + d) n

/-- A positional numeral of n, the highest digit first, of which none is shorter. -/
structure Shortest (b n : Nat) (ds : List Nat) : Prop where
  nonempty : ds ≠ []
  digits : ∀ d ∈ ds, d < b
  value : valueFrom b 0 ds = n
  least : ∀ ds', ds' ≠ [] → (∀ d ∈ ds', d < b) → valueFrom b 0 ds' = n → ds.length ≤ ds'.length

/-- The digits of n, and one for 0. -/
def numeral (b n : Nat) : List Nat := if n = 0 then [0] else (Nat.digits b n).reverse

theorem value_eq_ofDigits (b : Nat) (ds : List Nat) : valueFrom b 0 ds = Nat.ofDigits b ds.reverse := by
  rw [valueFrom, Nat.ofDigits_eq_foldr, List.foldr_reverse]
  congr 1
  funext n d
  rw [Nat.cast_id, Nat.mul_comm, Nat.add_comm]

theorem value_lt (hb : 1 < b) (hd : ∀ d ∈ ds, d < b) : valueFrom b 0 ds < b ^ ds.length := by
  have hlt := Nat.ofDigits_lt_base_pow_length hb (l := ds.reverse) fun d h => hd d (List.mem_reverse.mp h)
  rw [List.length_reverse] at hlt
  exact value_eq_ofDigits b ds ▸ hlt

theorem numeral_eq (hb : 1 < b) (n : Nat) : numeral b n = (if n / b = 0 then [] else numeral b (n / b)) ++ [n % b] := by
  by_cases hn : n = 0
  · subst hn
    simp [numeral]
  · rw [numeral, if_neg hn, Nat.digits_def' hb (Nat.pos_of_ne_zero hn), List.reverse_cons]
    by_cases hq : n / b = 0
    · rw [hq, if_pos rfl, Nat.digits_zero, List.reverse_nil]
    · rw [if_neg hq, numeral, if_neg hq]

theorem length_numeral_le {k : Nat} (hb : 1 < b) (hk : 0 < k) (hn : n < b ^ k) : (numeral b n).length ≤ k := by
  unfold numeral
  split
  · exact hk
  · rw [List.length_reverse]
    exact (Nat.digits_length_le_iff hb n).mpr hn

theorem shortest_numeral (hb : 1 < b) (n : Nat) : Shortest b n (numeral b n) where
  nonempty := by
    rw [numeral_eq hb n]
    exact List.append_ne_nil_of_right_ne_nil _ (List.cons_ne_nil _ _)
  digits d hd := by
    unfold numeral at hd
    split at hd
    · rw [List.mem_singleton.mp hd]
      omega
    · exact Nat.digits_lt_base hb (List.mem_reverse.mp hd)
  value := by
    rw [value_eq_ofDigits]
    unfold numeral
    split
    · rename_i hn
      rw [hn]
      rfl
    · rw [List.reverse_reverse, Nat.ofDigits_digits]
  least ds' hne hd hv := by
    have hlt : n < b ^ ds'.length := hv ▸ value_lt hb hd
    exact length_numeral_le hb (List.length_pos_of_ne_nil hne) hlt

theorem Shortest.unique (hb : 1 < b) (h : Shortest b n ds) (h' : Shortest b n ds') : ds = ds' := by
  have hlen : ds.length = ds'.length :=
    Nat.le_antisymm (h.least ds' h'.nonempty h'.digits h'.value) (h'.least ds h.nonempty h.digits h.value)
  have hval : Nat.ofDigits b ds.reverse = Nat.ofDigits b ds'.reverse := by
    rw [← value_eq_ofDigits, ← value_eq_ofDigits, h.value, h'.value]
  refine List.reverse_injective (Nat.ofDigits_inj_of_len_eq hb ?_ (fun d hd => h.digits d (List.mem_reverse.mp hd))
    (fun d hd => h'.digits d (List.mem_reverse.mp hd)) hval)
  rw [List.length_reverse, List.length_reverse, hlen]

theorem shortest_iff (hb : 1 < b) : Shortest b n ds ↔ ds = numeral b n :=
  ⟨fun h => h.unique hb (shortest_numeral hb n), fun h => h ▸ shortest_numeral hb n⟩

end ArmXv6.Lib.Numerals
