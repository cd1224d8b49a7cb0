import Rulebook.Binary64.Basic

namespace Rulebook.Binary64

def power (b : Nat) (e : Int) : Nat := Nat.pow b e.toNat

def roundEven (num den : Nat) : Nat :=
  let whole := num / den
  let twice := 2 * (num % den)
  if twice < den then whole
  else if den < twice then whole + 1
  else whole + whole % 2

def floorLog (num den : Nat) : Int :=
  let t : Int := (num.log2 : Int) - den.log2
  if den * power 2 t ≤ num * power 2 (-t) then t else t - 1

def nearest (num den : Nat) : Nat :=
  if num = 0 then 0
  else
    let q := max (floorLog num den - 52) (-1074)
    let m := roundEven (num * power 2 (-q)) (den * power 2 q)
    min infinity ((q + 1074).toNat * hiddenBit + m)

/-- The magnitude nearest to `m · 10 ^ e`. Far outside the range the power of ten is not formed:
`10 ^ 400` is beyond every finite double, and what is below `10 ^ -400` rounds to zero. -/
def nearestDecimal (m : Nat) (e : Int) : Nat :=
  if m = 0 then 0
  else if 400 < e then infinity
  else if e < -(400 + (m.log2 : Int)) then 0
  else nearest (m * power 10 e) (power 10 (-e))

def ofInt (n : Int) : Binary64 := ofMagnitude (decide (n < 0)) (nearest n.natAbs 1)

def unitsPerOne : Nat := power 2 1074

def units (m : Nat) : Nat := significand m * power 2 (exponent m + 1074)

def mul (a b : Nat) : Nat := nearest (units a * units b) (unitsPerOne * unitsPerOne)

def div (a b : Nat) : Nat := nearest (units a) (units b)

end Rulebook.Binary64
