import Rulebook.Engine
import Rulebook.Json

namespace Rulebook

namespace Json

def count? : Json → Option Nat
  | number n =>
    if n.isInteger && !n.negative && Digits.read n.whole < Numeral.wordSize then some (Digits.read n.whole)
    else none
  | _ => none

def countMember (ms : Members) (key : String) (standard : Nat) : Option Nat :=
  match ms.filter (·.1 = some key) with
  | [] => some standard
  | [m] => m.2.count?
  | _ => none

def countItem (items : List Json) (i : Nat) (standard : Nat) : Option Nat :=
  match items[i]? with
  | none => some standard
  | some j => j.count?

end Json

namespace Limits

def ruleLengthKey : String := "max_rule_length"

def nestingKey : String := "max_nesting_depth"

def treeKey : String := "max_tree_depth"

def partsKey : String := "max_combine_rules"

def standard : Limits := {}

def ofJson : Json → Option Limits
  | .object ms => do
    if ms.any (·.1.isNone) then none
    let ruleLength ← Json.countMember ms ruleLengthKey standard.ruleLength
    let nesting ← Json.countMember ms nestingKey standard.nesting
    let tree ← Json.countMember ms treeKey standard.tree
    let parts ← Json.countMember ms partsKey standard.parts
    return { ruleLength, nesting, tree, parts }
  | .array items => do
    if 4 < items.length then none
    let ruleLength ← Json.countItem items 0 standard.ruleLength
    let nesting ← Json.countItem items 1 standard.nesting
    let tree ← Json.countItem items 2 standard.tree
    let parts ← Json.countItem items 3 standard.parts
    return { ruleLength, nesting, tree, parts }
  | _ => none

def ofString? (text : String) : Option Limits := do ofJson (← Json.parse text)

def memberText (key : String) (n : Nat) : String := "\"" ++ key ++ "\":" ++ toString n

def text (l : Limits) : String :=
  "\x7b" ++ memberText ruleLengthKey l.ruleLength ++ "," ++ memberText nestingKey l.nesting ++ "," ++
    memberText treeKey l.tree ++ "," ++ memberText partsKey l.parts ++ "\x7d"

end Limits

end Rulebook
