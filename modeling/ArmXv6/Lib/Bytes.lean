import Mathlib.Data.List.Basic
import Mathlib.Tactic.Common
import Mathlib.Tactic.Ring

namespace ArmXv6.Lib.Bytes

/-- The little-endian encoding of a number in a fixed number of bytes. -/
def leBytes : Nat → Nat → List UInt8
  | 0, _ => []
  | w + 1, v => UInt8.ofNat v :: leBytes w (v / 256)

def leNat : List UInt8 → Nat
  | [] => 0
  | b :: bs => b.toNat + 256 * leNat bs

@[simp] theorem length_leBytes (w v : Nat) : (leBytes w v).length = w := by
  induction w generalizing v with
  | zero => rfl
  | succ w ih => simp [leBytes, ih]

theorem leNat_leBytes (w v : Nat) : leNat (leBytes w v) = v % 256 ^ w := by
  induction w generalizing v with
  | zero => simp [leBytes, leNat, Nat.mod_one]
  | succ w ih =>
      have hm : v % 256 ^ (w + 1) = v % 256 + 256 * (v / 256 % 256 ^ w) := by
        rw [Nat.pow_succ', Nat.mod_mul]
      rw [leBytes, leNat, ih, UInt8.toNat_ofNat', hm]

theorem leNat_lt (bs : List UInt8) : leNat bs < 256 ^ bs.length := by
  induction bs with
  | nil => simp [leNat]
  | cons b bs ih =>
      have hb : b.toNat < 256 := b.toNat_lt
      simp only [leNat, List.length_cons, Nat.pow_succ']
      omega

theorem leBytes_leNat (bs : List UInt8) : leBytes bs.length (leNat bs) = bs := by
  induction bs with
  | nil => rfl
  | cons b bs ih =>
      have hb : b.toNat < 256 := b.toNat_lt
      have hd : (b.toNat + 256 * leNat bs) / 256 = leNat bs := by omega
      simp only [leNat, List.length_cons, leBytes, hd, ih]
      congr 1
      apply UInt8.toNat_inj.mp
      simp only [UInt8.toNat_ofNat']
      omega

theorem length_flatMap_const {α β : Type} (f : α → List β) (w : Nat) (hf : ∀ x, (f x).length = w)
    (l : List α) : (l.flatMap f).length = w * l.length := by
  induction l with
  | nil => simp
  | cons x xs ih => rw [List.flatMap_cons, List.length_append, ih, hf, List.length_cons]; ring

/-- A memory of n bytes. Reads outside it give 0 and writes outside it are lost. -/
def Mem (n : Nat) : Type := Fin n → UInt8

namespace Mem

variable {n : Nat}

def get (b : Mem n) (i : Nat) : UInt8 := if h : i < n then b ⟨i, h⟩ else 0

def zero : Mem n := fun _ => 0

def slice (b : Mem n) (off len : Nat) : List UInt8 :=
  (List.range len).map fun k => b.get (off + k)

def setSlice (b : Mem n) (off : Nat) (l : List UInt8) : Mem n := fun i =>
  if off ≤ i.val ∧ i.val < off + l.length then l.getD (i.val - off) 0 else b i

/-- Store the same byte at len consecutive places. -/
def fill (b : Mem n) (off len : Nat) (c : UInt8) : Mem n := fun i =>
  if off ≤ i.val ∧ i.val < off + len then c else b i

/-- Copy len bytes from src to dst; the source is read before anything is stored. -/
def copy (b : Mem n) (dst src len : Nat) : Mem n := fun i =>
  if dst ≤ i.val ∧ i.val < dst + len then b.get (src + (i.val - dst)) else b i

theorem ext {b c : Mem n} (h : ∀ i, i < n → b.get i = c.get i) : b = c := by
  funext i
  have hi := h i.val i.isLt
  simpa [get, i.isLt] using hi

@[simp] theorem get_zero (i : Nat) : (zero : Mem n).get i = 0 := by
  simp [get, zero]

theorem get_setSlice (b : Mem n) (off : Nat) (l : List UInt8) (i : Nat) :
    (b.setSlice off l).get i =
      if i < n ∧ off ≤ i ∧ i < off + l.length then l.getD (i - off) 0 else b.get i := by
  by_cases hi : i < n <;> simp [get, setSlice, hi]

@[simp] theorem length_slice (b : Mem n) (off len : Nat) : (b.slice off len).length = len := by
  simp [slice]

@[simp] theorem getElem_slice (b : Mem n) (off len k : Nat) (hk : k < (b.slice off len).length) :
    (b.slice off len)[k] = b.get (off + k) := by
  simp [slice]

theorem slice_setSlice_self (b : Mem n) (off : Nat) (l : List UInt8) (h : off + l.length ≤ n) :
    (b.setSlice off l).slice off l.length = l := by
  apply List.ext_getElem
  · simp
  · intro k hk hk'
    have hin : off + k < n ∧ off ≤ off + k ∧ off + k < off + l.length := by omega
    rw [getElem_slice, get_setSlice, if_pos hin, Nat.add_sub_cancel_left]
    simp [hk']

theorem slice_setSlice_of_disjoint (b : Mem n) (off : Nat) (l : List UInt8) (off' len : Nat)
    (h : off' + len ≤ off ∨ off + l.length ≤ off') :
    (b.setSlice off l).slice off' len = b.slice off' len := by
  apply List.ext_getElem
  · simp
  · intro k hk hk'
    have hlen : k < len := by simpa using hk'
    rw [getElem_slice, getElem_slice, get_setSlice, if_neg]
    omega

theorem slice_setSlice_within (b : Mem n) (off : Nat) (l : List UInt8) (off' len : Nat)
    (h : off ≤ off') (h' : off' + len ≤ off + l.length) (hn : off + l.length ≤ n) :
    (b.setSlice off l).slice off' len = (l.drop (off' - off)).take len := by
  apply List.ext_getElem
  · simp only [length_slice, List.length_take, List.length_drop]
    omega
  · intro k hk hk'
    have hlen : k < len := by simpa using hk
    have hin : off' + k < n ∧ off ≤ off' + k ∧ off' + k < off + l.length := by omega
    have hidx : off' + k - off < l.length := by omega
    rw [getElem_slice, get_setSlice, if_pos hin, List.getElem_take, List.getElem_drop,
      List.getD_eq_getElem?_getD, List.getElem?_eq_getElem hidx]
    simp only [Option.getD_some]
    congr 1
    omega

theorem slice_zero (off len : Nat) : (zero : Mem n).slice off len = List.replicate len 0 := by
  apply List.ext_getElem <;> simp [slice]

def word (b : Mem n) (off : Nat) : Nat := leNat (b.slice off 4)

def setWord (b : Mem n) (off v : Nat) : Mem n := b.setSlice off (leBytes 4 v)

theorem word_lt (b : Mem n) (off : Nat) : b.word off < 2 ^ 32 := by
  have h := leNat_lt (b.slice off 4)
  simpa [word] using h

theorem word_setWord_self (b : Mem n) (off v : Nat) (h : off + 4 ≤ n) (hv : v < 2 ^ 32) :
    (b.setWord off v).word off = v := by
  have hs := slice_setSlice_self b off (leBytes 4 v) (by simpa using h)
  rw [length_leBytes] at hs
  rw [word, setWord, hs, leNat_leBytes]
  exact Nat.mod_eq_of_lt hv

theorem word_setWord_of_disjoint (b : Mem n) (off v off' : Nat)
    (h : off' + 4 ≤ off ∨ off + 4 ≤ off') : (b.setWord off v).word off' = b.word off' := by
  rw [word, setWord, slice_setSlice_of_disjoint _ _ _ _ _ (by simpa using h), word]

@[simp] theorem word_zero (off : Nat) : (zero : Mem n).word off = 0 := by
  rw [word, slice_zero]
  rfl

/-- Bit i, counted from the low bit of the first byte. -/
def bit (b : Mem n) (i : Nat) : Bool := (b.get (i / 8)).toNat.testBit (i % 8)

def setBit (b : Mem n) (i : Nat) : Mem n :=
  b.setSlice (i / 8) [UInt8.ofNat ((b.get (i / 8)).toNat ||| 1 <<< (i % 8))]

def clearBit (b : Mem n) (i : Nat) : Mem n :=
  b.setSlice (i / 8) [UInt8.ofNat ((b.get (i / 8)).toNat &&& (255 ^^^ 1 <<< (i % 8)))]

theorem bit_setSlice_one (b : Mem n) (i j : Nat) (v : UInt8) (hj : j / 8 < n) :
    (b.setSlice (i / 8) [v]).bit j =
      if j / 8 = i / 8 then v.toNat.testBit (j % 8) else b.bit j := by
  by_cases h : j / 8 = i / 8
  · have hi : i / 8 < n := h ▸ hj
    simp [bit, get_setSlice, h, hi]
  · have hne : ¬(j / 8 < n ∧ i / 8 ≤ j / 8 ∧ j / 8 < i / 8 + 1) := by omega
    simp only [bit, get_setSlice, List.length_cons, List.length_nil, Nat.zero_add, if_neg hne, if_neg h]

theorem eq_of_div_mod_eight {i j : Nat} (hd : j / 8 = i / 8) (hm : j % 8 = i % 8) : j = i := by
  omega

theorem bit_setBit (b : Mem n) (i j : Nat) (hj : j / 8 < n) :
    (b.setBit i).bit j = (decide (j = i) || b.bit j) := by
  rw [setBit, bit_setSlice_one _ _ _ _ hj]
  by_cases h : j / 8 = i / 8
  · have hlt : j % 8 < 8 := Nat.mod_lt _ (by decide)
    rw [if_pos h, UInt8.toNat_ofNat', Nat.testBit_mod_two_pow, Nat.testBit_or, bit, h,
      Nat.one_shiftLeft, Nat.testBit_two_pow]
    have he : (i % 8 = j % 8) ↔ j = i := ⟨fun hm => eq_of_div_mod_eight h hm.symm, fun he => he ▸ rfl⟩
    simp [hlt, he, Bool.or_comm]
  · have hne : j ≠ i := fun he => h (he ▸ rfl)
    simp [h, hne]

theorem bit_clearBit (b : Mem n) (i j : Nat) (hj : j / 8 < n) :
    (b.clearBit i).bit j = (!decide (j = i) && b.bit j) := by
  rw [clearBit, bit_setSlice_one _ _ _ _ hj]
  by_cases h : j / 8 = i / 8
  · have hlt : j % 8 < 8 := Nat.mod_lt _ (by decide)
    have h255 : Nat.testBit 255 (j % 8) = true := by
      rw [show (255 : Nat) = 2 ^ 8 - 1 from rfl, Nat.testBit_two_pow_sub_one]
      simpa using hlt
    rw [if_pos h, UInt8.toNat_ofNat', Nat.testBit_mod_two_pow, Nat.testBit_and, bit, h,
      Nat.testBit_xor, h255, Nat.one_shiftLeft, Nat.testBit_two_pow]
    have he : (i % 8 = j % 8) ↔ j = i := ⟨fun hm => eq_of_div_mod_eight h hm.symm, fun he => he ▸ rfl⟩
    simp [hlt, he, Bool.and_comm]
  · have hne : j ≠ i := fun he => h (he ▸ rfl)
    simp [h, hne]

theorem bit_zero (i : Nat) : (zero : Mem n).bit i = false := by
  simp [bit]

end Mem

end ArmXv6.Lib.Bytes
