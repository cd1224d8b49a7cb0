import Rulebook.Json.Token
import Rulebook.Value

/-!
The values of JSON numbers. A double is built from the leading digits that fit in 64 bits: they are
rounded first and then scaled by a power of ten, each step being rounded once.
-/

namespace Rulebook.Json

def takeDigits (m : Nat) : List Char → Nat × List Char
  | [] => (m, [])
  | c :: cs =>
    let m' := 10 * m + (c.toNat - '0'.toNat)
    if m' < Numeral.wordSize then takeDigits m' cs else (m, c :: cs)

def leading (n : Numeral) : Nat × Int :=
  let (m, wholeLeft) := takeDigits 0 n.whole
  let fraction := n.fraction.getD []
  let (m, fractionLeft) := takeDigits m fraction
  (m, (n.exponent.map Exponent.value).getD 0 + (wholeLeft.length : Int)
    - ((fraction.length : Int) - fractionLeft.length))

def powerOfTen (k : Nat) : Nat := Binary64.nearest (Binary64.power 10 k) 1

/-- The magnitude `m` scaled by `10 ^ e`, infinite where it is out of range. The greatest power of ten
that is a double is `10 ^ 308`, so a smaller scale takes two steps, and what needs more is zero. -/
def scaled (m : Nat) (e : Int) : Nat :=
  if m = 0 then 0
  else if 308 < e then Binary64.infinity
  else if 0 ≤ e then Binary64.mul m (powerOfTen e.toNat)
  else if -308 ≤ e then Binary64.div m (powerOfTen (-e).toNat)
  else if -616 ≤ e then
    Binary64.div (Binary64.div m (powerOfTen 308)) (powerOfTen (-e - 308).toNat)
  else 0

def toBinary64 (n : Numeral) : Binary64 :=
  let (m, e) := leading n
  .ofMagnitude n.negative (scaled (Binary64.nearest m 1) e)

def numberValue (n : Numeral) : Value :=
  if n.isInteger && !(n.negative && n.toInt = 0) then
    match n.toInt64? with
    | some i => .int i
    | none => .float (toBinary64 n)
  else .float (toBinary64 n)

def inRange (n : Numeral) : Bool :=
  match numberValue n with
  | .float x => x.isFinite
  | _ => true

end Rulebook.Json
