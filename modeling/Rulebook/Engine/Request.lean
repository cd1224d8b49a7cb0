import Rulebook.Engine

namespace Rulebook

inductive Request
  | create (text : String)
  | modify (id : RuleId) (text : String)
  | combine (ids : List RuleId)
  | evaluate (id : RuleId) (record : Record)
  | get (id : RuleId)
  | storeCreate (condition : Condition) (source : String)
  | storeReplace (id : RuleId) (condition : Condition) (source : String)
  | storeCombine (bounds : Bounds) (ids : List RuleId)

inductive Reply
  | created (id : RuleId)
  | done
  | truth (b : Bool)
  | rule (r : Rule)

namespace Engine

def withStore (e : Engine) (s : Store) : Engine := { e with store := s }

def handle (e : Engine) : Request → Except EngineError (Reply × Engine)
  | .create text => (e.create text).map fun p => (.created p.1, p.2)
  | .modify i text => (e.modify i text).map (.done, ·)
  | .combine ids => (e.combine ids).map fun p => (.created p.1, p.2)
  | .evaluate i r => (e.evaluate i r).map (.truth ·, e)
  | .get i => (e.get i).map (.rule ·, e)
  | .storeCreate c source =>
    let (i, s) := e.store.create c source
    .ok (.created i, e.withStore s)
  | .storeReplace i c source =>
    ((e.store.replace i c source).mapError .ofStore).map (.done, e.withStore ·)
  | .storeCombine bounds ids =>
    ((e.store.combine bounds ids).mapError .ofStore).map fun p => (.created p.1, e.withStore p.2)

def after (e : Engine) (q : Request) : Engine :=
  match e.handle q with
  | .ok (_, e') => e'
  | .error _ => e

def run (e : Engine) (qs : List Request) : Engine := qs.foldl after e

end Engine

end Rulebook
