import Rulebook.Rule

namespace Rulebook

namespace Token

def bracket? : Token → Option Bracket
  | leftParen => some .opening
  | rightParen => some .closing
  | _ => none

end Token

def parenNesting (text : String) : Nat :=
  deepest 0 ((Tokens.ofString text).toList.filterMap fun t => t.2.bracket?)

inductive CombinationFault
  | noParts
  | nestsTooDeep (nesting limit : Nat)
  | treeTooDeep (height limit : Nat)
deriving DecidableEq

def CombinationFault.message : CombinationFault → String
  | noParts => "empty rule list"
  | nestsTooDeep n limit =>
    "combined source would nest " ++ toString n ++ " parentheses, limit is " ++ toString limit
  | treeTooDeep n limit =>
    "combined tree would be " ++ toString n ++ " levels deep, limit is " ++ toString limit

namespace Combination

def nesting (parts : List Rule) : Nat :=
  (parts.map fun r => parenNesting r.source).foldl max 0 + 1

def height (first : Condition) (rest : List Condition) : Nat :=
  rest.foldl (fun h c => max h c.depth + 1) first.depth

def condition (first : Condition) (rest : List Condition) : Condition := rest.foldl .and first

def source (first : String) (rest : List String) : String :=
  rest.foldl (fun text s => text ++ " AND (" ++ s ++ ")") ("(" ++ first ++ ")")

def make (bounds : Bounds) : List Rule → Except CombinationFault (Condition × String)
  | [] => .error .noParts
  | first :: rest =>
    let deep := nesting (first :: rest)
    let high := height first.condition (rest.map Rule.condition)
    if bounds.nesting < deep then .error (.nestsTooDeep deep bounds.nesting)
    else if bounds.tree < high then .error (.treeTooDeep high bounds.tree)
    else
      .ok (condition first.condition (rest.map Rule.condition),
        source first.source (rest.map Rule.source))

end Combination

end Rulebook
