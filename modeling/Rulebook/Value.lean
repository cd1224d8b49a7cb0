import Rulebook.Binary64.Shortest

namespace Rulebook

inductive Value
  | int (n : Int64)
  | float (x : Binary64)
  | bool (b : Bool)
  | str (s : String)
deriving DecidableEq, Inhabited

inductive Kind
  | number
  | string
  | boolean
deriving DecidableEq

def Kind.name : Kind → String
  | number => "number"
  | string => "string"
  | boolean => "boolean"

namespace Value

def kind : Value → Kind
  | int _ => .number
  | float _ => .number
  | bool _ => .boolean
  | str _ => .string

/-- Integers among themselves compare exactly; beside a double an integer counts as the double nearest
to it. Strings compare by code point, and `false` is below `true`. -/
def relation : Value → Value → Option Relation
  | int a, int b => some (.ofOrdering (Ord.compare a.toInt b.toInt))
  | int a, float b => some ((Binary64.ofInt a.toInt).relation b)
  | float a, int b => some (a.relation (Binary64.ofInt b.toInt))
  | float a, float b => some (a.relation b)
  | bool a, bool b => some (.ofOrdering (Ord.compare a b))
  | str a, str b => some (.ofOrdering (Ord.compare a b))
  | _, _ => none

def compare (a : Value) (o : Operator) (b : Value) : Option Bool := (relation a b).map o.holds

def same : Value → Value → Bool
  | float x, float y => x.relation y = .equal
  | v, w => v = w

def intText (n : Int) : List Char :=
  if n < 0 then '-' :: Digits.write n.natAbs else Digits.write n.natAbs

def chars : Value → List Char
  | int n => intText n.toInt
  | float x => x.text
  | bool true => ['t', 'r', 'u', 'e']
  | bool false => ['f', 'a', 'l', 's', 'e']
  | str s => Quoted.write s.toList

def text (v : Value) : String := .ofList v.chars

end Value

end Rulebook
