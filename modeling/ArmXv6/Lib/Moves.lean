import ArmXv6.Lib.Bytes

namespace ArmXv6.Lib.Moves

open Lib.Bytes

variable {N : Nat} {m : Mem N} {d s n : Nat}

def put (m : Mem N) (a : Nat) (c : UInt8) : Mem N := m.setSlice a [c]

/-- Copy n bytes from s to d, one at a time, the lowest first. -/
def forward : Nat → Nat → Nat → Mem N → Mem N
  | 0, _, _, m => m
  | n + 1, d, s, m => forward n (d + 1) (s + 1) (put m d (m.get s))

/-- Copy n bytes from s to d, one at a time, the highest first. -/
def backward (d s : Nat) : Nat → Mem N → Mem N
  | 0, m => m
  | n + 1, m => backward d s n (put m (d + n) (m.get (s + n)))

theorem get_put (m : Mem N) (a i : Nat) (c : UInt8) : (put m a c).get i = if i < N ∧ i = a then c else m.get i := by
  rw [put, Mem.get_setSlice]
  by_cases h : i = a
  · subst h
    by_cases hi : i < N <;> simp [hi]
  · have hne : ¬(i < N ∧ a ≤ i ∧ i < a + [c].length) := by
      simp only [List.length_cons, List.length_nil]
      omega
    rw [if_neg hne, if_neg fun hc => h hc.2]

theorem get_copy (m : Mem N) (d s n i : Nat) :
    (m.copy d s n).get i = if i < N ∧ d ≤ i ∧ i < d + n then m.get (s + (i - d)) else m.get i := by
  by_cases hi : i < N <;> simp [Mem.get, Mem.copy, hi]

theorem get_fill (m : Mem N) (a n i : Nat) (c : UInt8) :
    (m.fill a n c).get i = if i < N ∧ a ≤ i ∧ i < a + n then c else m.get i := by
  by_cases hi : i < N <;> simp [Mem.get, Mem.fill, hi]

theorem fill_fill (m : Mem N) (a k j : Nat) (c : UInt8) : (m.fill a k c).fill (a + k) j c = m.fill a (k + j) c := by
  apply Mem.ext
  intro i hi
  rw [get_fill, get_fill, get_fill]
  by_cases hlow : a ≤ i ∧ i < a + k
  · rw [if_neg (by omega), if_pos ⟨hi, hlow⟩, if_pos (by omega)]
  · by_cases hhigh : a + k ≤ i ∧ i < a + k + j
    · rw [if_pos ⟨hi, hhigh⟩, if_pos (by omega)]
    · rw [if_neg (by omega), if_neg (by omega), if_neg (by omega)]

@[simp] theorem fill_zero (m : Mem N) (a : Nat) (c : UInt8) : m.fill a 0 c = m := by
  apply Mem.ext
  intro i _
  rw [get_fill, if_neg (by omega)]

theorem fill_next (m : Mem N) {a k j p : Nat} (c : UInt8) (hp : j = 0 ∨ p = a + k) :
    (m.fill a k c).fill p j c = m.fill a (k + j) c := by
  rcases hp with rfl | rfl
  · rw [fill_zero, Nat.add_zero]
  · exact fill_fill m a k j c

theorem put_eq_fill (m : Mem N) (a : Nat) (c : UInt8) : put m a c = m.fill a 1 c := by
  apply Mem.ext
  intro i hi
  rw [get_put, get_fill]
  by_cases h : i = a
  · rw [if_pos ⟨hi, h⟩, if_pos (by omega)]
  · rw [if_neg (by omega), if_neg (by omega)]

theorem setSlice_replicate (m : Mem N) (a n : Nat) (c : UInt8) : m.setSlice a (List.replicate n c) = m.fill a n c := by
  apply Mem.ext
  intro i hi
  rw [Mem.get_setSlice, get_fill, List.length_replicate]
  by_cases h : a ≤ i ∧ i < a + n
  · rw [if_pos ⟨hi, h⟩, if_pos ⟨hi, h⟩]
    have hlt : i - a < n := by omega
    simp [hlt]
  · rw [if_neg (by omega), if_neg (by omega)]

theorem get_forward_of_outside (n d s : Nat) (m : Mem N) {i : Nat} (hi : i < d ∨ d + n ≤ i) :
    (forward n d s m).get i = m.get i := by
  induction n generalizing d s m with
  | zero => rfl
  | succ n ih =>
      rw [forward, ih (d + 1) (s + 1) (put m d (m.get s)) (by omega), get_put, if_neg (by omega)]

/-- Downwards, or between ranges that do not meet, a forward copy finds every source byte as it was. -/
theorem forward_eq_copy (hle : d ≤ s ∨ s + n ≤ d) (hs : s + n ≤ N) : forward n d s m = m.copy d s n := by
  induction n generalizing d s m with
  | zero =>
      apply Mem.ext
      intro i _
      rw [forward, get_copy, if_neg (by omega)]
  | succ n ih =>
      rw [forward, ih (by omega) (by omega)]
      apply Mem.ext
      intro i hi
      rw [get_copy, get_copy]
      by_cases hd : i = d
      · subst hd
        rw [if_neg (by omega), if_pos (by omega), get_put, if_pos ⟨hi, rfl⟩, Nat.sub_self, Nat.add_zero]
      · by_cases hin : d + 1 ≤ i ∧ i < d + 1 + n
        · have hsrc : s + 1 + (i - (d + 1)) = s + (i - d) := by omega
          rw [if_pos ⟨hi, hin⟩, if_pos (by omega), get_put, if_neg (by omega), hsrc]
        · rw [if_neg (by omega), if_neg (by omega), get_put, if_neg (by omega)]

theorem backward_eq_copy (hle : s ≤ d) : backward d s n m = m.copy d s n := by
  induction n generalizing m with
  | zero =>
      apply Mem.ext
      intro i _
      rw [backward, get_copy, if_neg (by omega)]
  | succ n ih =>
      rw [backward, ih]
      apply Mem.ext
      intro i hi
      rw [get_copy, get_copy]
      by_cases hd : i = d + n
      · subst hd
        have hsrc : s + (d + n - d) = s + n := by omega
        rw [if_neg (by omega), if_pos (by omega), get_put, if_pos ⟨hi, rfl⟩, hsrc]
      · by_cases hin : d ≤ i ∧ i < d + n
        · rw [if_pos ⟨hi, hin⟩, if_pos (by omega), get_put, if_neg (by omega)]
        · rw [if_neg (by omega), if_neg (by omega), get_put, if_neg (by omega)]

/-- Upwards a forward copy reads what it has written itself: its result repeats with the distance of
the ranges as period. -/
theorem get_forward_add (hlt : s < d) (hd : d + n ≤ N) {i : Nat} (hi : i < n) :
    (forward n d s m).get (d + i) = (forward n d s m).get (s + i) := by
  induction n generalizing d s m i with
  | zero => omega
  | succ n ih =>
      rw [forward]
      cases i with
      | zero =>
          rw [get_forward_of_outside _ _ _ _ (by omega), get_forward_of_outside _ _ _ _ (by omega),
            get_put, get_put, if_pos (by omega), if_neg (by omega), Nat.add_zero]
      | succ i =>
          have h := @ih (put m d (m.get s)) (d + 1) (s + 1) (by omega) (by omega) i (by omega)
          have e₁ : d + 1 + i = d + (i + 1) := by omega
          have e₂ : s + 1 + i = s + (i + 1) := by omega
          rwa [e₁, e₂] at h

/-- The source repeats with the distance of the ranges as period wherever they overlap. -/
def Periodic (m : Mem N) (d s n : Nat) : Prop := ∀ i, i + (d - s) < n → m.get (s + (i + (d - s))) = m.get (s + i)

theorem get_copy_add (m : Mem N) (s : Nat) (hd : d + n ≤ N) {i : Nat} (hi : i < n) :
    (m.copy d s n).get (d + i) = m.get (s + i) := by
  rw [get_copy, if_pos (by omega), Nat.add_sub_cancel_left]

theorem periodic_of_forward (hlt : s < d) (hd : d + n ≤ N) (he : forward n d s m = m.copy d s n) :
    Periodic m d s n := by
  intro i hi
  have hstep := get_forward_add (m := m) hlt hd hi
  rw [he] at hstep
  have hsrc : s + (i + (d - s)) = d + i := by omega
  rw [← get_copy_add m s hd hi, hstep, hsrc, get_copy_add m s hd (by omega)]

theorem forward_of_periodic (hlt : s < d) (hd : d + n ≤ N) (hp : Periodic m d s n) :
    forward n d s m = m.copy d s n := by
  have hin : ∀ i, i < n → (forward n d s m).get (d + i) = m.get (s + i) := by
    intro i
    induction i using Nat.strongRecOn with
    | ind i ih =>
        intro hi
        rw [get_forward_add hlt hd hi]
        by_cases hlow : s + i < d
        · exact get_forward_of_outside n d s m (.inl hlow)
        · have hprev : s + i = d + (i - (d - s)) := by omega
          have hback := hp (i - (d - s)) (by omega)
          rw [hprev, ih (i - (d - s)) (by omega) (by omega), ← hback]
          congr 1
          omega
  apply Mem.ext
  intro i hi
  by_cases hr : d ≤ i ∧ i < d + n
  · have hsplit : i = d + (i - d) := by omega
    rw [hsplit, hin (i - d) (by omega), get_copy_add m s hd (by omega)]
  · rw [get_forward_of_outside n d s m (by omega), get_copy, if_neg (by omega)]

/-- A forward copy is a copy exactly when the target does not start inside the source, or the source is
periodic there. -/
theorem forward_eq_copy_iff (hs : s + n ≤ N) (hd : d + n ≤ N) :
    forward n d s m = m.copy d s n ↔ d ≤ s ∨ s + n ≤ d ∨ Periodic m d s n := by
  refine ⟨fun he => ?_, ?_⟩
  · by_cases hlt : s < d
    · exact .inr (.inr (periodic_of_forward hlt hd he))
    · exact .inl (by omega)
  · rintro (hle | hfar | hp)
    · exact forward_eq_copy (.inl hle) hs
    · exact forward_eq_copy (.inr hfar) hs
    · by_cases hlt : s < d
      · exact forward_of_periodic hlt hd hp
      · exact forward_eq_copy (.inl (by omega)) hs

end ArmXv6.Lib.Moves
