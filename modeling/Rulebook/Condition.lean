import Rulebook.Value

namespace Rulebook

inductive Condition
  | compare (field : String) (op : Operator) (value : Value)
  | and (left right : Condition)
  | or (left right : Condition)
deriving DecidableEq, Inhabited

namespace Condition

def depth : Condition → Nat
  | compare _ _ _ => 1
  | and a b => max a.depth b.depth + 1
  | or a b => max a.depth b.depth + 1

def leafCount : Condition → Nat
  | compare _ _ _ => 1
  | and a b => a.leafCount + b.leafCount
  | or a b => a.leafCount + b.leafCount

def fields : Condition → List String
  | compare f _ _ => [f]
  | and a b => a.fields ++ b.fields
  | or a b => a.fields ++ b.fields

def isLeaf : Condition → Bool
  | compare _ _ _ => true
  | _ => false

def isOr : Condition → Bool
  | or _ _ => true
  | _ => false

def same : Condition → Condition → Bool
  | compare f o v, compare g p w => f = g && o = p && v.same w
  | and a b, and c d => a.same c && b.same d
  | or a b, or c d => a.same c && b.same d
  | _, _ => false

def group (needed : Bool) (cs : List Char) : List Char :=
  if needed then '(' :: (cs ++ [')']) else cs

/-- AND binds tighter than OR and both chain to the left, so an OR under an AND needs parentheses, and
so does on the right whatever would otherwise join the chain. -/
def chars : Condition → List Char
  | compare f o v => f.toList ++ ' ' :: (o.text.toList ++ ' ' :: v.chars)
  | and a b => group a.isOr a.chars ++ " AND ".toList ++ group (!b.isLeaf) b.chars
  | or a b => a.chars ++ " OR ".toList ++ group b.isOr b.chars

def text (c : Condition) : String := .ofList c.chars

end Condition

end Rulebook
