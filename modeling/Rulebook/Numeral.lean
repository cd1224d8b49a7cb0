import Rulebook.Binary64.Nearest
import Rulebook.Text

namespace Rulebook

structure Exponent where
  mark : Char
  sign : Option Char
  digits : List Char
deriving DecidableEq

structure Numeral where
  negative : Bool
  whole : List Char
  fraction : Option (List Char)
  exponent : Option Exponent
deriving DecidableEq

namespace Exponent

def text (e : Exponent) : List Char := e.mark :: (e.sign.toList ++ e.digits)

def value (e : Exponent) : Int :=
  if e.sign = some '-' then -(Digits.read e.digits) else Digits.read e.digits

def scanSign : List Char → Option Char × List Char
  | [] => (none, [])
  | c :: rest => if c = '+' || c = '-' then (some c, rest) else (none, c :: rest)

def scan : List Char → Option Exponent × List Char
  | [] => (none, [])
  | c :: rest =>
    if c = 'e' || c = 'E' then
      let (sign, after) := scanSign rest
      match after.takeWhile Char.isDigit with
      | [] => (none, c :: rest)
      | ds => (some ⟨c, sign, ds⟩, after.dropWhile Char.isDigit)
    else (none, c :: rest)

end Exponent

namespace Numeral

def text (n : Numeral) : List Char :=
  (if n.negative then ['-'] else []) ++ n.whole ++
    ((n.fraction.map ('.' :: ·)).getD []) ++ ((n.exponent.map Exponent.text).getD [])

def scanFraction : List Char → Option (List Char) × List Char
  | '.' :: rest =>
    match rest.takeWhile Char.isDigit with
    | [] => (none, '.' :: rest)
    | ds => (some ds, rest.dropWhile Char.isDigit)
  | cs => (none, cs)

def scanUnsigned (negative : Bool) (cs : List Char) : Option (Numeral × List Char) :=
  match cs.takeWhile Char.isDigit with
  | [] => none
  | whole =>
    let (fraction, rest) := scanFraction (cs.dropWhile Char.isDigit)
    let (exponent, rest) := Exponent.scan rest
    some (⟨negative, whole, fraction, exponent⟩, rest)

def scan : List Char → Option (Numeral × List Char)
  | '-' :: rest => scanUnsigned true rest
  | cs => scanUnsigned false cs

def isInteger (n : Numeral) : Bool := n.fraction.isNone && n.exponent.isNone

def toInt (n : Numeral) : Int :=
  if n.negative then -(Digits.read n.whole) else Digits.read n.whole

def wordSize : Nat := 0x10000000000000000

def toInt64? (n : Numeral) : Option Int64 :=
  if Int64.minValue.toInt ≤ n.toInt ∧ n.toInt ≤ Int64.maxValue.toInt then some (.ofInt n.toInt)
  else none

def significand (n : Numeral) : Nat := Digits.read (n.whole ++ n.fraction.getD [])

def scale (n : Numeral) : Int :=
  (n.exponent.map Exponent.value).getD 0 - ((n.fraction.getD []).length : Int)

def toBinary64 (n : Numeral) : Binary64 :=
  .ofMagnitude n.negative (Binary64.nearestDecimal n.significand n.scale)

end Numeral

end Rulebook
