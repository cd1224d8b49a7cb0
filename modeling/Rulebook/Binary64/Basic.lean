import Rulebook.Comparison

/-!
Double-precision numbers as bit patterns. The low 63 bits, read as a number, order the
non-negative ones, which gives the comparisons without any arithmetic on fractions.
-/

namespace Rulebook

structure Binary64 where
  bits : UInt64
deriving DecidableEq, Inhabited

namespace Binary64

def signBit : Nat := 0x8000000000000000

def hiddenBit : Nat := 0x10000000000000

def magnitude (x : Binary64) : Nat := x.bits.toNat % signBit

def negative (x : Binary64) : Bool := decide (signBit ≤ x.bits.toNat)

def infinity : Nat := 0x7FF0000000000000

def isNaN (x : Binary64) : Bool := decide (infinity < x.magnitude)

def isFinite (x : Binary64) : Bool := decide (x.magnitude < infinity)

def ofMagnitude (negative : Bool) (m : Nat) : Binary64 :=
  ⟨UInt64.ofNat (if negative then signBit + m else m)⟩

/-- A number that is no NaN stands in the order where its key does; both zeros have the key 0. -/
def key (x : Binary64) : Int := if x.negative then -x.magnitude else x.magnitude

def relation (x y : Binary64) : Relation :=
  if x.isNaN || y.isNaN then .unordered else .ofOrdering (compare x.key y.key)

def significand (m : Nat) : Nat := if m < hiddenBit then m else hiddenBit + m % hiddenBit

def exponent (m : Nat) : Int := if m < hiddenBit then -1074 else (m / hiddenBit : Nat) - 1075

end Binary64

end Rulebook
