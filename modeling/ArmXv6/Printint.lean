import ArmXv6.Lib.Moves
import ArmXv6.Lib.Numerals
import Mathlib.Data.BitVec

namespace ArmXv6.Printint

open Lib.Bytes Lib.Moves Lib.Numerals

def char (c : Char) : UInt8 := UInt8.ofNat c.toNat

/-- With the NUL at its end. -/
def digits : List UInt8 := "0123456789ABCDEF".toList.map char ++ [0]

/-- char buf[16]; -/
abbrev Buf : Type := Mem 16

/-- buf[i] = c; none when i is out of range. -/
def store (buf : Buf) (i : Nat) (c : UInt8) : Option Buf := if i < 16 then some (put buf i c) else none

def load (buf : Buf) (i : Nat) : Option UInt8 := if i < 16 then some (buf.get i) else none

/-- do buf[i++] = digits[x % base]; while ((x /= base) != 0); -/
def printint.divide (base : Nat) : Nat → Nat → Nat → Buf → Option (Nat × Buf)
  | 0, _, _, _ => none
  | fuel + 1, x, i, buf => do
      let c ← digits[x % base]?
      let buf ← store buf i c
      if x / base ≠ 0 then printint.divide base fuel (x / base) (i + 1) buf else some (i + 1, buf)

/-- while (--i >= 0) consputc(buf[i]); -/
def printint.emit (buf : Buf) : Nat → Option (List UInt8)
  | 0 => some []
  | i + 1 => do
      let c ← load buf i
      let out ← printint.emit buf i
      some (c :: out)

/-- The characters that the kernel's printint prints, buf being what was on its stack; none when an index is
out of range. An unsigned 32-bit number has at most 32 digits in any base. -/
def printint (buf : Buf) (xx : BitVec 32) (base : Nat) (sign : Int) : Option (List UInt8) := do
  -- The flag is assigned in the condition, which looks at xx only if it is set.
  let sign := if sign ≠ 0 then if xx.toInt < 0 then 1 else 0 else sign
  let x := if sign ≠ 0 then -xx else xx
  let (i, buf) ← printint.divide base 32 x.toNat 0 buf
  let (i, buf) ← if sign ≠ 0 then (store buf i (char '-')).map fun buf => (i + 1, buf) else some (i, buf)
  printint.emit buf i

/-- The one of ulib: the characters that it writes to its file. -/
def ulibPrintint (buf : Buf) (xx : BitVec 32) (base : Nat) (sgn : Int) : Option (List UInt8) := do
  let (neg, x) := if sgn ≠ 0 ∧ xx.toInt < 0 then (true, -xx) else (false, xx)
  let (i, buf) ← printint.divide base 32 x.toNat 0 buf
  let (i, buf) ← if neg then (store buf i (char '-')).map fun buf => (i + 1, buf) else some (i, buf)
  printint.emit buf i

/-- '0' <= *s && *s <= '9' -/
def isDigit (c : UInt8) : Prop := char '0' ≤ c ∧ c ≤ char '9'

instance (c : UInt8) : Decidable (isDigit c) := inferInstanceAs (Decidable (char '0' ≤ c ∧ c ≤ char '9'))

/-- while ('0' <= *s && *s <= '9') n = n*10 + *s++ - '0'; none when the memory ends first. -/
def atoi.loop : List UInt8 → BitVec 32 → Option (BitVec 32)
  | [], _ => none
  | c :: s, n =>
      if isDigit c then atoi.loop s (n * 10 + BitVec.ofNat 32 c.toNat - BitVec.ofNat 32 (char '0').toNat) else some n

def atoi (s : List UInt8) : Option (BitVec 32) := atoi.loop s 0

def digitChar (d : Nat) : UInt8 := digits.getD d 0

variable {b x i d k : Nat} {buf : Buf} {xx : BitVec 32} {ds : List Nat}

theorem digits_get (hd : d < 16) : digits[d]? = some (digitChar d) := by
  have hlen : digits.length = 17 := by decide
  rw [digitChar, List.getD_eq_getElem?_getD, List.getElem?_eq_getElem (by omega), Option.getD_some]

theorem store_eq (hi : i < 16) (c : UInt8) : store buf i c = some (put buf i c) := if_pos hi

theorem emit_eq (hi : i ≤ 16) : printint.emit buf i = some (buf.slice 0 i).reverse := by
  induction i with
  | zero => rfl
  | succ i ih =>
      have hload : load buf i = some (buf.get i) := if_pos hi
      have hslice : buf.slice 0 (i + 1) = buf.slice 0 i ++ [buf.get i] := by
        simp [Mem.slice, List.range_succ]
      rw [printint.emit, hload, ih (by omega), hslice, List.reverse_append]
      rfl

theorem slice_put (buf : Buf) (hi : i < 16) (c : UInt8) : (put buf i c).slice 0 (i + 1) = buf.slice 0 i ++ [c] := by
  have hkeep : (put buf i c).slice 0 i = buf.slice 0 i := Mem.slice_setSlice_of_disjoint _ _ _ _ _ (.inl (by omega))
  have hslice : (put buf i c).slice 0 (i + 1) = (put buf i c).slice 0 i ++ [(put buf i c).get i] := by
    simp [Mem.slice, List.range_succ]
  rw [hslice, hkeep, get_put, if_pos ⟨hi, rfl⟩]

theorem divide_spec (hb : 1 < b) (hb' : b ≤ 16) {fuel : Nat} (hfuel : (numeral b x).length ≤ fuel)
    (hfit : i + (numeral b x).length ≤ 16) :
    ∃ buf', printint.divide b fuel x i buf = some (i + (numeral b x).length, buf') ∧
      buf'.slice 0 (i + (numeral b x).length) = buf.slice 0 i ++ ((numeral b x).map digitChar).reverse := by
  induction fuel generalizing x i buf with
  | zero => exact absurd (List.length_eq_zero_iff.mp (Nat.le_zero.mp hfuel)) (shortest_numeral hb x).nonempty
  | succ fuel ih =>
      have hmod : x % b < 16 := (Nat.mod_lt x (by omega)).trans_le hb'
      have hnum := numeral_eq hb x
      have hlen := congrArg List.length hnum
      rw [List.length_append, List.length_singleton] at hlen
      have hi : i < 16 := by omega
      rw [printint.divide, digits_get hmod]
      simp only [Option.bind_eq_bind, Option.bind_some, store_eq hi]
      by_cases hq : x / b = 0
      · rw [if_pos hq] at hnum hlen
        rw [if_neg (not_not.mpr hq)]
        refine ⟨put buf i (digitChar (x % b)), by rw [hlen]; rfl, ?_⟩
        rw [hlen, hnum]
        exact slice_put buf hi _
      · rw [if_neg hq] at hnum hlen
        rw [if_pos hq]
        obtain ⟨buf', hrun, hslice⟩ := @ih (x / b) (i + 1) (put buf i (digitChar (x % b))) (by omega) (by omega)
        have hsum : i + 1 + (numeral b (x / b)).length = i + (numeral b x).length := by omega
        rw [hsum] at hrun hslice
        refine ⟨buf', hrun, ?_⟩
        rw [hslice, slice_put buf hi, hnum, List.map_append, List.reverse_append, List.append_assoc]
        rfl

theorem print_spec (hb : 1 < b) (hb' : b ≤ 16) (hlen : (numeral b x).length ≤ 15) (neg : Prop) [Decidable neg]
    (buf : Buf) :
    ((printint.divide b 32 x 0 buf).bind fun r =>
      (if neg then (store r.2 r.1 (char '-')).map fun buf => (r.1 + 1, buf) else some r).bind fun r =>
        printint.emit r.2 r.1) =
      some ((if neg then [char '-'] else []) ++ (numeral b x).map digitChar) := by
  obtain ⟨buf', hrun, hslice⟩ : ∃ buf', printint.divide b 32 x 0 buf = some (0 + (numeral b x).length, buf') ∧
      buf'.slice 0 (0 + (numeral b x).length) = buf.slice 0 0 ++ ((numeral b x).map digitChar).reverse :=
    divide_spec hb hb' (by omega) (by omega)
  rw [Nat.zero_add] at hrun hslice
  have hnil : buf.slice 0 0 = [] := rfl
  rw [hnil, List.nil_append] at hslice
  rw [hrun]
  simp only [Option.bind_some]
  by_cases hneg : neg
  · rw [if_pos hneg, if_pos hneg, store_eq (by omega), Option.map_some]
    simp only [Option.bind_some]
    rw [emit_eq (by omega), slice_put _ (by omega), hslice, List.reverse_append, List.reverse_reverse]
    rfl
  · rw [if_neg hneg, if_neg hneg]
    simp only [Option.bind_some]
    rw [emit_eq (by omega), hslice, List.reverse_reverse, List.nil_append]

/-- The minimum int is its own negation, and as an unsigned number its absolute value. -/
theorem toNat_abs (xx : BitVec 32) : (if xx.toInt < 0 then -xx else xx).toNat = xx.toInt.natAbs := by
  have hlt := xx.isLt
  split
  · rename_i hneg
    rw [BitVec.toNat_neg]
    rw [BitVec.toInt_eq_toNat_cond] at hneg ⊢
    split at hneg <;> split <;> omega
  · rename_i hneg
    rw [BitVec.toInt_eq_toNat_cond] at hneg ⊢
    split at hneg <;> split <;> omega

theorem length_le (hb : 10 ≤ b) (x : BitVec 32) : (numeral b x.toNat).length ≤ 15 := by
  refine length_numeral_le (by omega) (by decide) ?_
  calc x.toNat < 2 ^ 32 := x.isLt
    _ ≤ 10 ^ 15 := by decide
    _ ≤ b ^ 15 := Nat.pow_le_pow_left hb 15

theorem printint_signed (buf : Buf) (xx : BitVec 32) :
    printint buf xx 10 1 =
      some ((if xx.toInt < 0 then [char '-'] else []) ++ (numeral 10 xx.toInt.natAbs).map digitChar) := by
  have hprint := print_spec (b := 10) (by decide) (by decide) (length_le le_rfl (if xx.toInt < 0 then -xx else xx))
    (xx.toInt < 0) buf
  rw [toNat_abs] at hprint
  rw [← hprint, ← toNat_abs]
  unfold printint
  by_cases hneg : xx.toInt < 0 <;> simp [hneg]

theorem ulibPrintint_signed (buf : Buf) (xx : BitVec 32) :
    ulibPrintint buf xx 10 1 =
      some ((if xx.toInt < 0 then [char '-'] else []) ++ (numeral 10 xx.toInt.natAbs).map digitChar) := by
  have hprint := print_spec (b := 10) (by decide) (by decide) (length_le le_rfl (if xx.toInt < 0 then -xx else xx))
    (xx.toInt < 0) buf
  rw [toNat_abs] at hprint
  rw [← hprint, ← toNat_abs]
  unfold ulibPrintint
  by_cases hneg : xx.toInt < 0 <;> simp [hneg]

example : ulibPrintint Mem.zero (BitVec.intMin 32) 10 1 = some ("-2147483648".toList.map char) := by decide +kernel

/-- Unsigned in base 16: no sign, whatever the highest bit is. -/
theorem printint_unsigned (buf : Buf) (xx : BitVec 32) :
    printint buf xx 16 0 = some ((numeral 16 xx.toNat).map digitChar) := by
  have hprint := print_spec (b := 16) (by decide) (by decide) (length_le (by decide) xx) False buf
  rw [if_neg not_false, List.nil_append] at hprint
  rw [← hprint]
  unfold printint
  simp

theorem ulibPrintint_unsigned (buf : Buf) (xx : BitVec 32) :
    ulibPrintint buf xx 16 0 = some ((numeral 16 xx.toNat).map digitChar) := by
  have hprint := print_spec (b := 16) (by decide) (by decide) (length_le (by decide) xx) False buf
  rw [if_neg not_false, List.nil_append] at hprint
  rw [← hprint]
  unfold ulibPrintint
  simp

theorem digit_of_lt : ∀ d < 10, isDigit (digitChar d) ∧ (digitChar d).toNat = d + (char '0').toNat := by decide

theorem loop_numeral (hd : ∀ d ∈ ds, d < 10) {c : UInt8} (hc : ¬isDigit c) (rest : List UInt8) (n : Nat) :
    atoi.loop (ds.map digitChar ++ c :: rest) (BitVec.ofNat 32 n) = some (BitVec.ofNat 32 (valueFrom 10 n ds)) := by
  induction ds generalizing n with
  | nil =>
      rw [List.map_nil, List.nil_append, atoi.loop, if_neg hc]
      rfl
  | cons d ds ih =>
      obtain ⟨hdig, hnat⟩ := digit_of_lt d (hd d List.mem_cons_self)
      have hstep : BitVec.ofNat 32 n * 10 + BitVec.ofNat 32 (digitChar d).toNat - BitVec.ofNat 32 (char '0').toNat =
          BitVec.ofNat 32 (n * 10 + d) := by
        rw [hnat, BitVec.ofNat_add, ← BitVec.add_assoc, BitVec.add_sub_cancel, BitVec.ofNat_add, BitVec.ofNat_mul]
        rfl
      rw [List.map_cons, List.cons_append, atoi.loop, if_pos hdig, hstep, ih fun e he =>
        hd e (List.mem_cons_of_mem d he)]
      rfl

/-- printint of the kernel and of ulib print the shortest numeral, in base 10 with a sign exactly
for the negative numbers, and never leave
their buffers; atoi reads a number that is not negative back, whatever follows it. -/
theorem numbers_canonical (xx : BitVec 32) (buf buf' : Buf) :
    (∃ ds, (∀ ds', Shortest 10 xx.toInt.natAbs ds' ↔ ds' = ds) ∧
      printint buf xx 10 1 = some ((if xx.toInt < 0 then [char '-'] else []) ++ ds.map digitChar) ∧
      ulibPrintint buf' xx 10 1 = some ((if xx.toInt < 0 then [char '-'] else []) ++ ds.map digitChar)) ∧
    (∃ ds, (∀ ds', Shortest 16 xx.toNat ds' ↔ ds' = ds) ∧
      printint buf xx 16 0 = some (ds.map digitChar) ∧ ulibPrintint buf' xx 16 0 = some (ds.map digitChar)) ∧
    (0 ≤ xx.toInt → ∀ out, ulibPrintint buf' xx 10 1 = some out → ∀ c rest, ¬isDigit c →
      atoi (out ++ c :: rest) = some xx) := by
  refine ⟨⟨_, fun _ => shortest_iff (by decide), printint_signed buf xx, ulibPrintint_signed buf' xx⟩,
    ⟨_, fun _ => shortest_iff (by decide), printint_unsigned buf xx, ulibPrintint_unsigned buf' xx⟩,
      fun hpos out hout c rest hc => ?_⟩
  have hnum := shortest_numeral (show 1 < 10 by decide) xx.toInt.natAbs
  have habs := toNat_abs xx
  rw [if_neg (not_lt.mpr hpos)] at habs
  rw [ulibPrintint_signed, if_neg (not_lt.mpr hpos), List.nil_append] at hout
  cases hout
  have hread := loop_numeral hnum.digits hc rest 0
  rw [hnum.value, ← habs, BitVec.ofNat_toNat, BitVec.setWidth_eq] at hread
  rw [← habs]
  exact hread

end ArmXv6.Printint
