import Rulebook.Condition
import Rulebook.Table

namespace Rulebook

abbrev Record := Table String Value

inductive EvaluationError
  | missingField (field : String)
  | typeMismatch (field : String) (expected found : Kind)
deriving DecidableEq

def EvaluationError.message : EvaluationError → String
  | missingField f => "field '" ++ f ++ "': not present in record"
  | typeMismatch f e k =>
    "field '" ++ f ++ "': type mismatch, expected " ++ e.name ++ " but found " ++ k.name

namespace Condition

/-- Both sides of a connective are evaluated, the left one first, so the error reported is that of the
leftmost faulty comparison whatever the others say. -/
def evaluate (r : Record) : Condition → Except EvaluationError Bool
  | compare f o v =>
    match r.get? f with
    | none => .error (.missingField f)
    | some x =>
      match x.compare o v with
      | none => .error (.typeMismatch f v.kind x.kind)
      | some b => .ok b
  | and a b => do
    let x ← a.evaluate r
    let y ← b.evaluate r
    return x && y
  | or a b => do
    let x ← a.evaluate r
    let y ← b.evaluate r
    return x || y

end Condition

end Rulebook
