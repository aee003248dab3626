import Mathlib.Data.List.Basic
import Mathlib.Data.List.TakeDrop
import Mathlib.Logic.Function.Basic
import Mathlib.Tactic.Common

namespace ArmXv6.Lib.Redo

variable {S B : Type} [DecidableEq S]

/-- The disk after a sequence of atomic sector writes. -/
def apply (d : S → B) (ws : List (S × B)) : S → B :=
  ws.foldl (fun d w => Function.update d w.1 w.2) d

/-- A redo log: where its header and its slots are, and how a header names the
home sectors of the slots in use. -/
structure Layout (S B : Type) where
  region : S → Prop
  head : S
  slot : Nat → S
  decode : B → List S
  erase : B → B

structure Layout.Lawful (L : Layout S B) (cap : Nat) : Prop where
  head_mem : L.region L.head
  slot_mem : ∀ i, i < cap → L.region (L.slot i)
  slot_ne_head : ∀ i, i < cap → L.slot i ≠ L.head
  decode_erase : ∀ b, L.decode (L.erase b) = []

def installs (L : Layout S B) (d : S → B) : Nat → List S → List (S × B)
  | _, [] => []
  | i, s :: l => (s, d (L.slot i)) :: installs L d (i + 1) l

/-- The writes a complete recovery makes: replay every slot, then erase the header. -/
def recovery (L : Layout S B) (d : S → B) : List (S × B) :=
  installs L d 0 (L.decode (d L.head)) ++ [(L.head, L.erase (d L.head))]

/-- The disk determines the contents x: the header names the sectors of l, their
slots hold x, and every other sector outside the log already holds x. With l
empty this is a disk at rest. -/
structure Determines (L : Layout S B) (cap : Nat) (d x : S → B) (l : List S) : Prop where
  header : L.decode (d L.head) = l
  fits : l.length ≤ cap
  home : ∀ s ∈ l, ¬L.region s
  slots : ∀ i (h : i < l.length), d (L.slot i) = x l[i]
  rest : ∀ s, ¬L.region s → s ∉ l → d s = x s

variable {L : Layout S B} {cap : Nat} {d x : S → B} {l : List S}

theorem apply_append (d : S → B) (ws vs : List (S × B)) :
    apply d (ws ++ vs) = apply (apply d ws) vs := by
  simp [apply, List.foldl_append]

theorem apply_cons (d : S → B) (w : S × B) (ws : List (S × B)) :
    apply d (w :: ws) = apply (Function.update d w.1 w.2) ws := rfl

theorem apply_of_not_mem (d : S → B) (ws : List (S × B)) (s : S) (h : ∀ w ∈ ws, w.1 ≠ s) :
    apply d ws s = d s := by
  induction ws generalizing d with
  | nil => rfl
  | cons w ws ih =>
      rw [apply_cons, ih _ fun v hv => h v (List.mem_cons_of_mem w hv)]
      exact Function.update_of_ne (h w List.mem_cons_self).symm _ _

theorem apply_of_forall (d : S → B) (ws : List (S × B)) (s : S) (b : B)
    (hval : ∀ w ∈ ws, w.1 = s → w.2 = b) (hmem : ∃ w ∈ ws, w.1 = s) : apply d ws s = b := by
  induction ws generalizing d with
  | nil => simp at hmem
  | cons w ws ih =>
      rw [apply_cons]
      by_cases ht : ∃ v ∈ ws, v.1 = s
      · exact ih _ (fun v hv => hval v (List.mem_cons_of_mem w hv)) ht
      · push Not at ht
        rw [apply_of_not_mem _ _ _ ht]
        obtain ⟨v, hv, hs⟩ := hmem
        rcases List.mem_cons.mp hv with rfl | hv
        · rw [← hs, Function.update_self]
          exact hval v List.mem_cons_self hs
        · exact absurd hs (ht v hv)

omit [DecidableEq S] in
theorem mem_installs (L : Layout S B) (d : S → B) (i : Nat) (l : List S) (w : S × B) :
    w ∈ installs L d i l ↔ ∃ j, ∃ h : j < l.length, w = (l[j], d (L.slot (i + j))) := by
  induction l generalizing i with
  | nil => simp [installs]
  | cons s l ih =>
      simp only [installs, List.mem_cons, ih]
      constructor
      · rintro (rfl | ⟨j, hj, rfl⟩)
        · exact ⟨0, by simp, by simp⟩
        · exact ⟨j + 1, by simpa using hj, by simp [Nat.add_assoc, Nat.add_comm 1 j]⟩
      · rintro ⟨j, hj, rfl⟩
        cases j with
        | zero => exact .inl (by simp)
        | succ j => exact .inr ⟨j, by simpa using hj, by simp [Nat.add_assoc, Nat.add_comm 1 j]⟩

omit [DecidableEq S] in
theorem length_installs (L : Layout S B) (d : S → B) (i : Nat) (l : List S) :
    (installs L d i l).length = l.length := by
  induction l generalizing i with
  | nil => rfl
  | cons s l ih => simp [installs, ih]

omit [DecidableEq S] in
theorem installs_congr (L : Layout S B) (d e : S → B) (i : Nat) (l : List S)
    (h : ∀ j, j < l.length → d (L.slot (i + j)) = e (L.slot (i + j))) :
    installs L d i l = installs L e i l := by
  induction l generalizing i with
  | nil => rfl
  | cons s l ih =>
      have h0 := h 0 (by simp)
      have hs := ih (i + 1) fun j hj => by
        simpa [Nat.add_assoc, Nat.add_comm 1 j] using h (j + 1) (by simpa using hj)
      simp only [Nat.add_zero] at h0
      rw [installs, installs, h0, hs]

omit [DecidableEq S] in
theorem Determines.not_region_of_mem_installs (h : Determines L cap d x l) {w : S × B}
    (hw : w ∈ installs L d 0 l) : ¬L.region w.1 := by
  obtain ⟨j, hj, rfl⟩ := (mem_installs L d 0 l w).mp hw
  exact h.home _ (List.getElem_mem hj)

omit [DecidableEq S] in
theorem Determines.value_of_mem_installs (h : Determines L cap d x l) {w : S × B}
    (hw : w ∈ installs L d 0 l) : w.1 ∈ l ∧ w.2 = x w.1 := by
  obtain ⟨j, hj, rfl⟩ := (mem_installs L d 0 l w).mp hw
  exact ⟨List.getElem_mem hj, by simpa using h.slots j hj⟩

theorem Determines.installs_subset (hL : L.Lawful cap) (h : Determines L cap d x l)
    (ws : List (S × B)) (hws : ∀ w ∈ ws, w ∈ installs L d 0 l) :
    Determines L cap (apply d ws) x l := by
  have hregion (s : S) (hs : L.region s) : apply d ws s = d s :=
    apply_of_not_mem d ws s fun w hw he => h.not_region_of_mem_installs (hws w hw) (he ▸ hs)
  refine ⟨?_, h.fits, h.home, ?_, ?_⟩
  · rw [hregion _ hL.head_mem, h.header]
  · intro i hi
    rw [hregion _ (hL.slot_mem i (Nat.lt_of_lt_of_le hi h.fits)), h.slots i hi]
  · intro s hs hl
    have hne : ∀ w ∈ ws, w.1 ≠ s := by
      intro w hw he
      exact hl (he ▸ (h.value_of_mem_installs (hws w hw)).1)
    rw [apply_of_not_mem d ws s hne, h.rest s hs hl]

/-- A complete recovery brings every sector outside the log to the determined
contents and leaves the log empty. -/
theorem Determines.recovery (hL : L.Lawful cap) (h : Determines L cap d x l) :
    Determines L cap (apply d (recovery L d)) x [] := by
  rw [Redo.recovery, apply_append, h.header]
  have hd := h.installs_subset hL (installs L d 0 l) fun w hw => hw
  refine ⟨?_, Nat.zero_le _, by simp, by simp, ?_⟩
  · simp [apply, hL.decode_erase]
  · intro s hs _
    have hne : s ≠ L.head := fun he => hs (he ▸ hL.head_mem)
    have hlast (e : S → B) : apply e [(L.head, L.erase (d L.head))] s = e s :=
      Function.update_of_ne hne _ _
    rw [hlast]
    by_cases hl : s ∈ l
    · obtain ⟨j, hj, rfl⟩ := List.getElem_of_mem hl
      refine apply_of_forall d _ _ _ ?_ ⟨(l[j], d (L.slot (0 + j))), ?_, rfl⟩
      · intro w hw he
        rw [← he]
        exact (h.value_of_mem_installs hw).2
      · exact (mem_installs L d 0 l _).mpr ⟨j, hj, rfl⟩
    · exact hd.rest s hs hl

/-- A recovery that stops after any number of its writes keeps the determined contents. -/
theorem Determines.recovery_take (hL : L.Lawful cap) (h : Determines L cap d x l) (k : Nat) :
    ∃ l', (l' = l ∨ l' = []) ∧ Determines L cap (apply d ((Redo.recovery L d).take k)) x l' := by
  by_cases hk : k ≤ l.length
  · refine ⟨l, .inl rfl, ?_⟩
    have hlen := length_installs L d 0 l
    rw [Redo.recovery, h.header, List.take_append_of_le_length (by omega)]
    exact h.installs_subset hL _ fun w hw => List.mem_of_mem_take hw
  · refine ⟨[], .inr rfl, ?_⟩
    have hlen : (Redo.recovery L d).length ≤ k := by
      simp only [Redo.recovery, h.header, List.length_append, length_installs, List.length_cons,
        List.length_nil]
      omega
    rw [List.take_of_length_le hlen]
    exact h.recovery hL

theorem Determines.slotWrites (h : Determines L cap d x [])
    (ws : List (S × B)) (hws : ∀ w ∈ ws, L.region w.1 ∧ w.1 ≠ L.head) :
    Determines L cap (apply d ws) x [] := by
  refine ⟨?_, Nat.zero_le _, by simp, by simp, ?_⟩
  · rw [apply_of_not_mem d ws _ fun w hw => (hws w hw).2, h.header]
  · intro s hs _
    rw [apply_of_not_mem d ws s fun w hw he => hs (he ▸ (hws w hw).1)]
    exact h.rest s hs (by simp)

end ArmXv6.Lib.Redo
