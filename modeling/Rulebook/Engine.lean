import Rulebook.Evaluation
import Rulebook.Store

namespace Rulebook

structure Limits extends Bounds where
  ruleLength : Nat := 4096
  parts : Nat := 256
deriving DecidableEq

@[ext]
structure Engine where
  store : Store
  limits : Limits

inductive InputFault
  | ruleTooLong (size limit : Nat)
  | tooManyParts (count limit : Nat)
  | combination (fault : CombinationFault)
deriving DecidableEq

def InputFault.message : InputFault → String
  | ruleTooLong n limit => "rule text is " ++ toString n ++ " bytes, limit is " ++ toString limit
  | tooManyParts n limit =>
    toString n ++ " rules exceeds the combine limit of " ++ toString limit
  | combination f => f.message

inductive EngineError
  | text (e : TextError)
  | notFound (id : RuleId)
  | invalidInput (fault : InputFault)
  | evaluation (e : EvaluationError)
deriving DecidableEq

namespace EngineError

def ofStore : StoreError → EngineError
  | .notFound i => notFound i
  | .combination f => invalidInput (.combination f)

def message : EngineError → String
  | text e => e.message
  | notFound i => "rule " ++ i.text ++ " not found"
  | invalidInput f => "invalid input: " ++ f.message
  | evaluation e => e.message

end EngineError

namespace Engine

def new (limits : Limits) : Engine := ⟨.empty, limits⟩

def parse (l : Limits) (text : String) : Except EngineError Condition :=
  if l.ruleLength < text.utf8ByteSize then
    .error (.invalidInput (.ruleTooLong text.utf8ByteSize l.ruleLength))
  else (Condition.parse l.toBounds text).mapError .text

def create (e : Engine) (text : String) : Except EngineError (RuleId × Engine) := do
  let c ← parse e.limits text
  let (i, s) := e.store.create c text
  return (i, { e with store := s })

def modify (e : Engine) (i : RuleId) (text : String) : Except EngineError Engine := do
  let c ← parse e.limits text
  let s ← (e.store.replace i c text).mapError .ofStore
  return { e with store := s }

def combine (e : Engine) (ids : List RuleId) : Except EngineError (RuleId × Engine) := do
  if e.limits.parts < ids.length then
    .error (.invalidInput (.tooManyParts ids.length e.limits.parts))
  let (i, s) ← (e.store.combine e.limits.toBounds ids).mapError .ofStore
  return (i, { e with store := s })

def get (e : Engine) (i : RuleId) : Except EngineError Rule :=
  (e.store.get i).mapError .ofStore

def evaluate (e : Engine) (i : RuleId) (r : Record) : Except EngineError Bool := do
  let rule ← e.get i
  (rule.condition.evaluate r).mapError .evaluation

end Engine

end Rulebook
