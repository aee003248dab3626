import ArmXv6.Lib.Moves
import ArmXv6.Param

namespace ArmXv6.Strings

open Lib.Bytes Lib.Moves Param

/-- The bytes of a 32-bit address space. -/
abbrev Ram : Type := Mem (2 ^ 32)

/-- while (n-- > 0) *d++ = *s++; -/
def memmove.up : Nat → Nat → Nat → Ram → Ram
  | 0, _, _, m => m
  | n + 1, d, s, m => memmove.up n (uint (d + 1)) (uint (s + 1)) (put m d (m.get s))

/-- The address before, around the end of the address space. -/
def pred (p : Nat) : Nat := if p = 0 then 2 ^ 32 - 1 else p - 1

/-- while (n-- > 0) *--d = *--s; -/
def memmove.down : Nat → Nat → Nat → Ram → Ram
  | 0, _, _, m => m
  | n + 1, d, s, m => memmove.down n (pred d) (pred s) (put m (pred d) (m.get (pred s)))

/-- The one of the kernel. -/
def memmove (dst src n : Nat) (m : Ram) : Ram :=
  if src < dst ∧ dst < uint (src + n) then memmove.down n (uint (dst + n)) (uint (src + n)) m
  else memmove.up n dst src m

/-- The one of ulib, whose count is signed. -/
def ulibMemmove (vdst vsrc : Nat) (n : Int) (m : Ram) : Ram := memmove.up n.toNat vdst vsrc m

/-- A store of a whole word; none when the address is not aligned. -/
def storeWord (p4 val : Nat) (m : Ram) : Option Ram := if p4 % 4 = 0 then some (m.setWord p4 val) else none

/-- The bytes before the first whole word: the count, the address and the memory after them. -/
def memset.head (c : UInt8) : Nat → Nat → Ram → Nat × Nat × Ram
  | 0, p, m => (0, p, m)
  | n + 1, p, m => if p % 4 ≠ 0 then memset.head c n (uint (p + 1)) (put m p c) else (n + 1, p, m)

def memset.words (val : Nat) : Nat → Nat → Ram → Option (Nat × Nat × Ram)
  | n + 4, p4, m => (storeWord p4 val m).bind (memset.words val n (uint (p4 + 4)))
  | n, p4, m => some (n, p4, m)

def memset.tail (c : UInt8) : Nat → Nat → Ram → Ram
  | 0, _, m => m
  | n + 1, p, m => memset.tail c n (uint (p + 1)) (put m p c)

/-- The three loops; none if a word store is not aligned. -/
def memset (dst : Nat) (v : Int) (n : Nat) (m : Ram) : Option Ram := do
  let c := bits v &&& 0xff
  let val := uint (c <<< 24 ||| c <<< 16 ||| c <<< 8 ||| c)
  let (n, p, m) := memset.head (UInt8.ofNat c) n dst m
  let (n, p, m) ← memset.words val n p m
  some (memset.tail (UInt8.ofNat c) n p m)

/-- ulib has the same text. -/
def ulibMemset (dst : Nat) (v : Int) (n : Nat) (m : Ram) : Option Ram := memset dst v n m

variable {d s n : Nat} {m : Ram} {c : UInt8}

theorem uint_of_lt {x : Nat} (h : x < 2 ^ 32) : uint x = x := Nat.mod_eq_of_lt h

theorem up_eq (hd : d + n ≤ 2 ^ 32) (hs : s + n ≤ 2 ^ 32) : memmove.up n d s m = forward n d s m := by
  induction n generalizing d s m with
  | zero => rfl
  | succ n ih =>
      rw [memmove.up, forward]
      cases n with
      | zero => rfl
      | succ n => rw [uint_of_lt (by omega), uint_of_lt (by omega), ih (by omega) (by omega)]

theorem pred_uint {x : Nat} (h : x < 2 ^ 32) : pred (uint (x + 1)) = x := by
  unfold pred uint
  split <;> omega

theorem down_eq (hd : d + n ≤ 2 ^ 32) (hs : s + n ≤ 2 ^ 32) :
    memmove.down n (uint (d + n)) (uint (s + n)) m = backward d s n m := by
  induction n generalizing m with
  | zero => rfl
  | succ n ih =>
      have ld : d + n < 2 ^ 32 := by omega
      have ls : s + n < 2 ^ 32 := by omega
      have ed : pred (uint (d + (n + 1))) = d + n := pred_uint ld
      have es : pred (uint (s + (n + 1))) = s + n := pred_uint ls
      have h := @ih (put m (d + n) (m.get (s + n))) (by omega) (by omega)
      rw [uint_of_lt ld, uint_of_lt ls] at h
      rw [memmove.down, backward, ed, es, h]

/-- With both ranges in the address space the kernel's memmove reads every source byte before it is
overwritten, whichever way they overlap. -/
theorem memmove_eq_copy (hd : d + n ≤ 2 ^ 32) (hs : s + n ≤ 2 ^ 32) : memmove d s n m = m.copy d s n := by
  by_cases hover : s < d ∧ d < uint (s + n)
  · rw [memmove, if_pos hover, down_eq hd hs]
    exact backward_eq_copy (by omega)
  · rw [memmove, if_neg hover, up_eq hd hs]
    refine forward_eq_copy ?_ hs
    by_cases hlt : s < d
    · -- The end of the source does not wrap, since the target ends above it.
      by_cases hn : n = 0
      · exact .inr (by omega)
      · have hend : uint (s + n) = s + n := uint_of_lt (by omega)
        rw [hend] at hover
        exact .inr (by omega)
    · exact .inl (by omega)

/-- ulib's memmove agrees with the kernel's and leaves the memory with the old source at the target exactly
when the target does not begin inside the source, or the overlap is periodic. -/
theorem memmoves_agree_iff (m : Ram) (dst src n : Nat) (hd : dst + n ≤ 2 ^ 32) (hs : src + n ≤ 2 ^ 32) :
    (memmove dst src n m = m.copy dst src n ∧ ulibMemmove dst src n m = m.copy dst src n) ↔
      dst ≤ src ∨ src + n ≤ dst ∨ Periodic m dst src n := by
  rw [ulibMemmove, Int.toNat_natCast, up_eq hd hs, ← forward_eq_copy_iff hs hd]
  exact and_iff_right (memmove_eq_copy hd hs)

theorem memmoves_agree_iff_apart :
    (memmove 0 1 2 Mem.zero = Mem.zero.copy 0 1 2 ∧ ulibMemmove 0 1 2 Mem.zero = Mem.zero.copy 0 1 2) ↔
    0 ≤ 1 ∨ 1 + 2 ≤ 0 ∨ Periodic (Mem.zero : Ram) 0 1 2 :=
  memmoves_agree_iff Mem.zero 0 1 2 (by decide) (by decide)

/-- Two bytes moved up by one: ulib writes the first one twice. -/
theorem memmoves_differ : (1 + 2 ≤ 2 ^ 32 ∧ 0 + 2 ≤ 2 ^ 32) ∧
    ¬(memmove 1 0 2 (put Mem.zero 0 7) = ulibMemmove 1 0 2 (put Mem.zero 0 7) ∧
      ulibMemmove 1 0 2 (put Mem.zero 0 7) = (put Mem.zero 0 7 : Ram).copy 1 0 2) := by
  refine ⟨by decide, fun h => ?_⟩
  have hbyte := congrArg (fun r => Mem.get r 2) h.2
  revert hbyte
  decide

theorem head_spec (hd : d + n ≤ 2 ^ 32) : ∃ k j p, k + j = n ∧ (j = 0 ∨ p = d + k ∧ p % 4 = 0) ∧
    memset.head c n d m = (j, p, m.fill d k c) := by
  induction n generalizing d m with
  | zero => exact ⟨0, 0, d, rfl, .inl rfl, by rw [memset.head, fill_zero]⟩
  | succ n ih =>
      by_cases hw : d % 4 = 0
      · exact ⟨0, n + 1, d, by omega, .inr ⟨rfl, hw⟩, by rw [memset.head, if_neg (not_not_intro hw), fill_zero]⟩
      · rw [memset.head, if_pos hw]
        cases n with
        | zero => exact ⟨1, 0, uint (d + 1), rfl, .inl rfl, by rw [memset.head, put_eq_fill]⟩
        | succ n =>
            obtain ⟨k, j, p, hk, hp, he⟩ := @ih (d + 1) (put m d c) (by omega)
            refine ⟨k + 1, j, p, by omega, by omega, ?_⟩
            rw [uint_of_lt (by omega), he, put_eq_fill, fill_fill, Nat.add_comm 1 k]

theorem setWord_eq_fill {val : Nat} (hv : leBytes 4 val = List.replicate 4 c) (m : Ram) (p : Nat) :
    m.setWord p val = m.fill p 4 c := by
  rw [Mem.setWord, hv, setSlice_replicate]

theorem words_spec {val : Nat} (hv : leBytes 4 val = List.replicate 4 c) (hd : n = 0 ∨ d % 4 = 0 ∧ d + n ≤ 2 ^ 32) :
    ∃ k j p, k + j = n ∧ (j = 0 ∨ p = d + k) ∧ memset.words val n d m = some (j, p, m.fill d k c) := by
  induction n using Nat.strongRecOn generalizing d m with
  | ind n ih =>
      match n, ih, hd with
      | 0, _, _ => exact ⟨0, 0, d, rfl, .inl rfl, by simp [memset.words]⟩
      | 1, _, _ => exact ⟨0, 1, d, rfl, .inr rfl, by simp [memset.words]⟩
      | 2, _, _ => exact ⟨0, 2, d, rfl, .inr rfl, by simp [memset.words]⟩
      | 3, _, _ => exact ⟨0, 3, d, rfl, .inr rfl, by simp [memset.words]⟩
      | n + 4, ih, hd =>
          have hal : d % 4 = 0 := by omega
          rw [memset.words, storeWord, if_pos hal, Option.bind_some, setWord_eq_fill hv]
          by_cases hn : n = 0
          · subst hn
            exact ⟨4, 0, uint (d + 4), rfl, .inl rfl, by simp [memset.words]⟩
          · obtain ⟨k, j, p, hk, hp, he⟩ := @ih n (by omega) (d + 4) (m.fill d 4 c) (by omega)
            refine ⟨4 + k, j, p, by omega, by omega, ?_⟩
            rw [uint_of_lt (by omega), he, fill_fill]

theorem tail_spec (hd : n = 0 ∨ d + n ≤ 2 ^ 32) : memset.tail c n d m = m.fill d n c := by
  induction n generalizing d m with
  | zero => rw [memset.tail, fill_zero]
  | succ n ih =>
      rw [memset.tail, put_eq_fill]
      cases n with
      | zero => rfl
      | succ n => rw [uint_of_lt (by omega), ih (by omega), fill_fill, Nat.add_comm 1]

theorem packed (hc : k < 256) :
    leBytes 4 (uint (k <<< 24 ||| k <<< 16 ||| k <<< 8 ||| k)) = List.replicate 4 (UInt8.ofNat k) := by
  revert k
  decide +kernel

/-- Every version of memset sets the n bytes from dst to the low byte of v and nothing else, and every
word store it makes is aligned. -/
theorem memsets_fill (m : Ram) (dst : Nat) (v : Int) (n : Nat) (hd : dst + n ≤ 2 ^ 32) :
    memset dst v n m = some (m.fill dst n (UInt8.ofNat (bits v &&& 0xff))) ∧
      ulibMemset dst v n m = some (m.fill dst n (UInt8.ofNat (bits v &&& 0xff))) := by
  have hrun : memset dst v n m = some (m.fill dst n (UInt8.ofNat (bits v &&& 0xff))) := by
    have hc : bits v &&& 0xff < 256 := Nat.lt_succ_of_le Nat.and_le_right
    obtain ⟨k, j, p, hk, hp, hhead⟩ := head_spec (c := UInt8.ofNat (bits v &&& 0xff)) (m := m) hd
    obtain ⟨k', j', p', hk', hp', hwords⟩ := words_spec (packed hc) (d := p) (n := j)
      (m := m.fill dst k (UInt8.ofNat (bits v &&& 0xff))) (by omega)
    simp only [memset, hhead, hwords, Option.bind_eq_bind, Option.bind_some]
    rw [tail_spec (by omega), fill_next m _ (by omega), fill_next m _ (by omega)]
    congr 2
    omega
  exact ⟨hrun, hrun⟩

theorem memsets_fill_unaligned :
    memset 3 (-1) 7 Mem.zero = some (Mem.zero.fill 3 7 (UInt8.ofNat (bits (-1) &&& 0xff))) ∧
      ulibMemset 3 (-1) 7 Mem.zero = some (Mem.zero.fill 3 7 (UInt8.ofNat (bits (-1) &&& 0xff))) :=
  memsets_fill Mem.zero 3 (-1) 7 (by decide)

end ArmXv6.Strings
