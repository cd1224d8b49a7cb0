import Rulebook.Combination
import Rulebook.Table

namespace Rulebook

structure Store where
  rules : Table RuleId Rule
  nextId : RuleId

inductive StoreError
  | notFound (id : RuleId)
  | combination (fault : CombinationFault)
deriving DecidableEq

namespace Store

def empty : Store := ⟨.empty, ⟨1⟩⟩

instance : Inhabited Store := ⟨empty⟩

def get (s : Store) (i : RuleId) : Except StoreError Rule :=
  match s.rules.get? i with
  | some r => .ok r
  | none => .error (.notFound i)

def create (s : Store) (c : Condition) (source : String) : RuleId × Store :=
  (s.nextId, ⟨s.rules.insert s.nextId ⟨s.nextId, c, source⟩, ⟨s.nextId.value + 1⟩⟩)

def replace (s : Store) (i : RuleId) (c : Condition) (source : String) :
    Except StoreError Store := do
  let _ ← s.get i
  return { s with rules := s.rules.insert i ⟨i, c, source⟩ }

def combine (s : Store) (bounds : Bounds) (ids : List RuleId) :
    Except StoreError (RuleId × Store) := do
  let parts ← ids.mapM s.get
  match Combination.make bounds parts with
  | .error f => .error (.combination f)
  | .ok (c, source) => return s.create c source

def text (s : Store) : String :=
  "RuleStore(" ++ toString s.rules.size ++ " rules, next id " ++ s.nextId.text ++ ")"

end Store

end Rulebook
