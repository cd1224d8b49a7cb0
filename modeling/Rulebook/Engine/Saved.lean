import Rulebook.Engine.Request
import Rulebook.Snapshot

namespace Rulebook

inductive Event
  | request (q : Request)
  | reload (limits : Limits)

inductive Action
  | create (text : String)
  | modify (id : RuleId) (text : String)
  | combine (ids : List RuleId)
  | reload

def Action.event (l : Limits) : Action → Event
  | create text => .request (.create text)
  | modify i text => .request (.modify i text)
  | combine ids => .request (.combine ids)
  | reload => .reload l

namespace Engine

def save (e : Engine) : Except Snapshot.SaveError (List UInt8) := Snapshot.write e.store

def load (e : Engine) (bs : List UInt8) : Except Snapshot.LoadError Engine :=
  (Snapshot.read bs).map fun s => { e with store := s }

/-- The engine is saved, and what is loaded back is kept within these limits. Where either fails the
engine stays as it was. -/
def reloadUnder (e : Engine) (l : Limits) : Engine :=
  match e.save with
  | .error _ => e
  | .ok bs =>
    match e.load bs with
    | .error _ => e
    | .ok e' => { e' with limits := l }

def reload (e : Engine) : Engine := e.reloadUnder e.limits

def advance (e : Engine) : Event → Engine
  | .request q => e.after q
  | .reload l => e.reloadUnder l

def through (e : Engine) (vs : List Event) : Engine := vs.foldl advance e

def act (e : Engine) (a : Action) : Engine := e.advance (a.event e.limits)

def acts (e : Engine) (as : List Action) : Engine := as.foldl act e

end Engine

end Rulebook
