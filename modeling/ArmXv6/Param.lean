import ArmXv6.Lib.Bytes

namespace ArmXv6.Param

open Lib.Bytes

def NPROC : Nat := 64
def NOFILE : Nat := 16
def NFILE : Nat := 100
def NBUF : Nat := 10
def NINODE : Nat := 50
def ROOTDEV : Nat := 1
def MAXARG : Nat := 32
def LOGSIZE : Nat := 10

def ROOTINO : Nat := 1
def BSIZE : Nat := 512

/-- The contents of one disk sector, as bytes. -/
abbrev Block : Type := Mem BSIZE

def uint (x : Nat) : Nat := x % 2 ^ 32

def sint (w : Nat) : Int := if w < 2 ^ 31 then w else (w : Int) - 2 ^ 32

def bits (i : Int) : Nat := (i % 2 ^ 32).toNat

theorem uint_lt (x : Nat) : uint x < 2 ^ 32 := Nat.mod_lt _ (by decide)

theorem bits_lt (i : Int) : bits i < 2 ^ 32 := by
  have h := Int.emod_lt_of_pos i (b := 2 ^ 32) (by decide)
  have h' := Int.emod_nonneg i (b := 2 ^ 32) (by decide)
  unfold bits
  omega

end ArmXv6.Param
