import Rulebook.Binary64.Nearest
import Rulebook.Text

/-!
The decimal text of a double: the fewest digits that read back, of those the nearest. From `1e16`
on and below `1e-4` the text has an exponent, in between it has a point.
-/

namespace Rulebook.Binary64

structure Decimal where
  significand : Nat
  exponent : Int

def leadingPlace (num den : Nat) : Int :=
  if den ≤ num then (Digits.write (num / den)).length
  else 1 - ((Digits.write ((den - 1) / num)).length : Int)

/-- Of the two neighbours of `num / den` on the grid of step `10 ^ e`, the one that reads back as the
magnitude `m`; of two the nearer, and the upper one on a tie. -/
def onGrid (m num den : Nat) (e : Int) : Option Decimal :=
  let n := num * power 10 (-e)
  let d := den * power 10 e
  let low := n / d
  let lowReads := nearestDecimal low e == m
  let highReads := nearestDecimal (low + 1) e == m
  if lowReads && (!highReads || 2 * (n % d) < d) then some ⟨low, e⟩
  else if highReads then some ⟨low + 1, e⟩
  else none

def exactDecimal (m : Nat) : Decimal :=
  let q := Binary64.exponent m
  ⟨Binary64.significand m * power 2 q * power 5 (-q), min q 0⟩

def shortest (m : Nat) : Decimal :=
  if m = 0 then ⟨0, 0⟩
  else
    let k := leadingPlace (units m) unitsPerOne
    ((List.range 17).findSome? fun (i : Nat) =>
      onGrid m (units m) unitsPerOne (k - 1 - i)).getD
      (exactDecimal m)

def positional (digits : List Char) (places : Int) : List Char :=
  if places ≤ 0 then
    '0' :: '.' :: (List.replicate (-places).toNat '0' ++ digits)
  else
    let whole := digits.take places.toNat ++ List.replicate (places.toNat - digits.length) '0'
    match digits.drop places.toNat with
    | [] => whole ++ ['.', '0']
    | fraction => whole ++ '.' :: fraction

def scientific (digits : List Char) (places : Int) : List Char :=
  let mantissa :=
    match digits with
    | [] => []
    | [d] => [d]
    | d :: ds => d :: '.' :: ds
  let e := places - 1
  mantissa ++ 'e' :: ((if e < 0 then ['-'] else []) ++ Digits.write e.natAbs)

def Decimal.digits (d : Decimal) : List Char :=
  ((Digits.write d.significand).reverse.dropWhile (· == '0')).reverse

def Decimal.places (d : Decimal) : Int := (Digits.write d.significand).length + d.exponent

def magnitudeText (m : Nat) : List Char :=
  let d := shortest m
  if m = 0 then ['0', '.', '0']
  else if d.places < -3 || 16 < d.places then scientific d.digits d.places
  else positional d.digits d.places

def text (x : Binary64) : List Char :=
  if x.isNaN then ['N', 'a', 'N']
  else
    let magnitude := if x.isFinite then magnitudeText x.magnitude else ['i', 'n', 'f']
    if x.negative then '-' :: magnitude else magnitude

end Rulebook.Binary64
