import ArmXv6.Lib.Bytes

namespace ArmXv6.Lib.Frames

open Lib.Bytes

/-- Every frame has at most one owner. -/
def Apart {ω : Type} (holds : ω → Nat → Prop) : Prop := ∀ o o' f, holds o f → holds o' f → o = o'

def Loose {ω : Type} (holds : ω → Nat → Prop) (f : Nat) : Prop := ∀ o, ¬holds o f

variable {ω : Type} {holds holds' : ω → Nat → Prop} {f : Nat}

theorem Apart.mono (h : Apart holds) (hs : ∀ o f, holds' o f → holds o f) : Apart holds' := by
  intro o o' f ho ho'
  exact h o o' f (hs o f ho) (hs o' f ho')

theorem Apart.give (h : Apart holds) (hf : Loose holds f) (o₀ : ω) (hs : ∀ o g, holds' o g → holds o g ∨
    o = o₀ ∧ g = f) :
    Apart holds' := by
  intro o o' g ho ho'
  rcases hs o g ho with h₁ | ⟨rfl, rfl⟩ <;> rcases hs o' g ho' with h₂ | ⟨rfl, hg⟩
  · exact h o o' g h₁ h₂
  · exact absurd h₁ (hg ▸ hf o)
  · exact absurd h₂ (hf o')
  · rfl

/-- Two memories agree on the aligned frame of size F around an address. -/
def SameIn {n : Nat} (F : Nat) (r r' : Mem n) (a : Nat) : Prop := ∀ i, i / F = a / F → r'.get i = r.get i

section

variable {n F : Nat} {r r' r'' : Mem n} {a off : Nat}

theorem SameIn.refl (r : Mem n) (a : Nat) : SameIn F r r a := fun _ _ => rfl

theorem SameIn.trans (h : SameIn F r r' a) (h' : SameIn F r' r'' a) : SameIn F r r'' a := fun i hi =>
  (h' i hi).trans (h i hi)

theorem sameIn_setSlice (hF : 0 < F) (l : List UInt8) (hl : off % F + l.length ≤ F) (ha : off / F ≠ a / F) :
    SameIn F r (r.setSlice off l) a := by
  intro i hi
  rw [Mem.get_setSlice, if_neg]
  rintro ⟨-, h₁, h₂⟩
  refine ha ?_
  rw [← hi]
  have hoff := Nat.div_add_mod off F
  have hlt : i < F * (off / F + 1) := by
    rw [Nat.mul_add, Nat.mul_one]
    omega
  exact Nat.le_antisymm (Nat.div_le_div_right h₁)
    (Nat.lt_succ_iff.1 ((Nat.div_lt_iff_lt_mul hF).2 (by rwa [Nat.mul_comm])))

theorem fill_eq_setSlice (r : Mem n) (off len : Nat) (c : UInt8) :
    r.fill off len c = r.setSlice off (List.replicate len c) := by
  funext i
  unfold Mem.fill Mem.setSlice
  rw [List.length_replicate]
  by_cases h : off ≤ i.val ∧ i.val < off + len
  · have hk : i.val - off < len := by omega
    rw [if_pos h, if_pos h, List.getD_eq_getElem?_getD, List.getElem?_replicate, if_pos hk, Option.getD_some]
  · rw [if_neg h, if_neg h]

theorem sameIn_fill (hF : 0 < F) {len : Nat} (c : UInt8) (hl : off % F + len ≤ F) (ha : off / F ≠ a / F) :
    SameIn F r (r.fill off len c) a := by
  rw [fill_eq_setSlice]
  exact sameIn_setSlice hF _ (by rwa [List.length_replicate]) ha

theorem sameIn_setWord (hF : 0 < F) (v : Nat) (hl : off % F + 4 ≤ F) (ha : off / F ≠ a / F) :
    SameIn F r (r.setWord off v) a :=
  sameIn_setSlice hF _ (by rwa [length_leBytes]) ha

theorem SameIn.slice (h : SameIn F r r' off) {len : Nat} (hF : 0 < F) (hl : off % F + len ≤ F) :
    r'.slice off len = r.slice off len := by
  apply List.ext_getElem
  · simp
  · intro k hk hk'
    have hlen : k < len := by simpa using hk
    rw [Mem.getElem_slice, Mem.getElem_slice]
    refine h _ ?_
    have hoff := Nat.div_add_mod off F
    have hin : off + k = F * (off / F) + (off % F + k) := by omega
    rw [hin, Nat.mul_add_div hF, Nat.div_eq_of_lt (by omega : off % F + k < F), Nat.add_zero]

theorem SameIn.word (h : SameIn F r r' off) (hF : 0 < F) (hl : off % F + 4 ≤ F) : r'.word off = r.word off := by
  unfold Mem.word
  rw [h.slice hF hl]

theorem slice_fill_self (r : Mem n) {len : Nat} (c : UInt8) (h : off + len ≤ n) :
    (r.fill off len c).slice off len = List.replicate len c := by
  have hs := Mem.slice_setSlice_self r off (List.replicate len c) (by rwa [List.length_replicate])
  rwa [List.length_replicate, ← fill_eq_setSlice] at hs

theorem setSlice_comm (r : Mem n) {b : Nat} (l k : List UInt8) (h : a + l.length ≤ b ∨ b + k.length ≤ a) :
    (r.setSlice a l).setSlice b k = (r.setSlice b k).setSlice a l := by
  apply Mem.ext
  intro i _
  rw [Mem.get_setSlice, Mem.get_setSlice, Mem.get_setSlice, Mem.get_setSlice]
  by_cases ha : i < n ∧ a ≤ i ∧ i < a + l.length
  · have hb : ¬(i < n ∧ b ≤ i ∧ i < b + k.length) := by omega
    rw [if_neg hb, if_pos ha, if_pos ha]
  · rw [if_neg ha, if_neg ha]

theorem word_fill_within (r : Mem n) {len : Nat} (h : a ≤ off) (h' : off + 4 ≤ a + len) (hn : a + len ≤ n) :
    (r.fill a len 0).word off = 0 := by
  unfold Mem.word
  rw [fill_eq_setSlice, Mem.slice_setSlice_within _ _ _ _ _ h (by rwa [List.length_replicate])
    (by rwa [List.length_replicate]),
    List.drop_replicate, List.take_replicate, Nat.min_eq_left (by omega)]
  rfl

end

end ArmXv6.Lib.Frames
