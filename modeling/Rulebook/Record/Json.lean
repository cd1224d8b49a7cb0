import Rulebook.Evaluation
import Rulebook.Json

namespace Rulebook

inductive RecordError
  | notAnObject (found : Json.Shape)
  | unsupportedValue (field : String) (found : Json.Shape)
deriving DecidableEq

def RecordError.message : RecordError → String
  | notAnObject s => "record must be a JSON object, found " ++ s.name
  | unsupportedValue f s => "field '" ++ f ++ "' holds unsupported JSON " ++ s.name

namespace Json

def toValue? : Json → Option Value
  | bool b => some (.bool b)
  | number n => some (numberValue n)
  | str s => s.map .str
  | _ => none

def memberTable (ms : Members) : Table String Json :=
  .ofList (ms.filterMap fun m => m.1.map (·, m.2))

def fieldOf (m : String × Json) : Except RecordError (String × Value) :=
  match m.2.toValue? with
  | some v => .ok (m.1, v)
  | none => .error (.unsupportedValue m.1 m.2.shape)

def toRecord : Json → Except RecordError Record
  | object ms => do return .ofList (← (memberTable ms).entries.mapM fieldOf)
  | j => .error (.notAnObject j.shape)

end Json

end Rulebook
