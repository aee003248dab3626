import ArmXv6.Param
import Mathlib.Logic.Function.Basic

namespace ArmXv6.Umalloc

open Param

/-- The words of a process by address, the start of the search, what sbrk has given so far (an
address and the bytes from there on, newest first) and how often it was asked. -/
structure Heap where
  ram : Nat → Nat
  freep : Nat
  regions : List (Nat × Nat)
  calls : Nat

/-- The two fields of the Header at a. -/
def Heap.ptr (h : Heap) (a : Nat) : Nat := h.ram a

def Heap.size (h : Heap) (a : Nat) : Nat := h.ram (a + 4)

def Heap.setPtr (h : Heap) (a v : Nat) : Heap := { h with ram := Function.update h.ram a v }

def Heap.setSize (h : Heap) (a v : Nat) : Heap := { h with ram := Function.update h.ram (a + 4) v }

/-- The Header n Headers after the one at a. -/
def plus (a n : Nat) : Nat := uint (a + 8 * n)

/-- Where the loop of free stops; none when the fuel runs out first. -/
def free.find (h : Heap) (bp : Nat) : Nat → Nat → Option Nat
  | 0, _ => none
  | fuel + 1, p =>
      if p < bp ∧ bp < h.ptr p then some p
      else if h.ptr p ≤ p ∧ (p < bp ∨ bp < h.ptr p) then some p
      else free.find h bp fuel (h.ptr p)

/-- Both ends of free: the block at v comes after the one at u, which takes it in if they meet. -/
def free.join (u v : Nat) (h : Heap) : Heap :=
  if plus u (h.size u) = v then
    let h := h.setSize u (uint (h.size u + h.size v))
    h.setPtr u (h.ptr v)
  else h.setPtr u v

def free (fuel ap : Nat) (h : Heap) : Option Heap := do
  let bp := uint (ap + (2 ^ 32 - 8))
  let p ← free.find h bp fuel h.freep
  let h := free.join bp (h.ptr p) h
  let h := free.join p bp h
  some { h with freep := p }

section

-- The answer of the kernel to each call of sbrk, which may depend on the number of the call, on what
-- was given before and on the bytes asked for; none stands for -1.
variable (sbrk : Nat → List (Nat × Nat) → Nat → Option Nat)

def morecore (fuel nu : Nat) (h : Heap) : Option (Nat × Heap) :=
  let nu := if nu < 4096 then 4096 else nu
  match sbrk h.calls h.regions (uint (nu * 8)) with
  | none => some (0, { h with calls := h.calls + 1 })
  | some hp => do
      let h := { h with calls := h.calls + 1, regions := (hp, uint (nu * 8)) :: h.regions }
      let h := h.setSize hp nu
      let h ← free fuel (plus hp 1) h
      some (h.freep, h)

def malloc.loop (nunits : Nat) : Nat → Nat → Nat → Heap → Option (Nat × Heap)
  | 0, _, _, _ => none
  | fuel + 1, prevp, p, h =>
      if nunits ≤ h.size p then
        if h.size p = nunits then
          let h := h.setPtr prevp (h.ptr p)
          some (plus p 1, { h with freep := prevp })
        else
          let h := h.setSize p (h.size p - nunits)
          let q := plus p (h.size p)
          let h := h.setSize q nunits
          some (plus q 1, { h with freep := prevp })
      else if p = h.freep then do
        let (q, h) ← morecore sbrk fuel nunits h
        if q = 0 then some (0, h) else malloc.loop nunits fuel q (h.ptr q) h
      else malloc.loop nunits fuel p (h.ptr p) h

/-- base is the address of the Header that the list starts with. -/
def malloc (base fuel nbytes : Nat) (h : Heap) : Option (Nat × Heap) :=
  let nunits := uint (nbytes + 8 - 1) / 8 + 1
  let h :=
    if h.freep = 0 then
      let h := { h.setPtr base base with freep := base }
      h.setSize base 0
    else h
  malloc.loop sbrk nunits fuel h.freep (h.ptr h.freep) h

end

end ArmXv6.Umalloc
