import Rulebook.Condition

/-!
Conditions as trees with groups of any size. A chain that nests to the left is one group, and
joining a group from the left gives the chain back.
-/

namespace Rulebook.Snapshot

inductive Tree
  | leaf (field : String) (op : Operator) (value : Value)
  | and (parts : List Tree)
  | or (parts : List Tree)

namespace Tree

def joinAnd (a b : Tree) : Tree :=
  match a with
  | and ts => and (ts ++ [b])
  | t => and [t, b]

def joinOr (a b : Tree) : Tree :=
  match a with
  | or ts => or (ts ++ [b])
  | t => or [t, b]

def ofCondition : Condition → Tree
  | .compare f o v => leaf f o v
  | .and a b => (ofCondition a).joinAnd (ofCondition b)
  | .or a b => (ofCondition a).joinOr (ofCondition b)

def chain (join : Condition → Condition → Condition) : List Condition → Option Condition
  | [] => none
  | c :: cs => some (cs.foldl join c)

mutual

def toCondition? : Tree → Option Condition
  | leaf f o v => some (.compare f o v)
  | and ts => do chain .and (← toConditions? ts)
  | or ts => do chain .or (← toConditions? ts)

def toConditions? : List Tree → Option (List Condition)
  | [] => some []
  | t :: ts => do
    let c ← toCondition? t
    let cs ← toConditions? ts
    return c :: cs

end

mutual

def isFilled : Tree → Bool
  | leaf _ _ _ => true
  | and ts => !ts.isEmpty && areFilled ts
  | or ts => !ts.isEmpty && areFilled ts

def areFilled : List Tree → Bool
  | [] => true
  | t :: ts => isFilled t && areFilled ts

end

end Tree

end Rulebook.Snapshot
