import Rulebook.Engine.Request
import Rulebook.Proofs.ChangeLog
import Rulebook.Proofs.CombinedSource

namespace Rulebook

open Results

namespace Request

def subject? : Request → Option RuleId
  | modify i _ => some i
  | storeReplace i _ _ => some i
  | _ => none

def target? (q : Request) : Reply → Option RuleId
  | .created i => some i
  | .done => q.subject?
  | _ => none

end Request

namespace Store

variable {s s' : Store} {i : RuleId}

theorem replace_ok {c : Condition} {source : String} (h : s.replace i c source = .ok s') :
    ∃ old, s.get i = .ok old ∧ s' = s.apply (.overwrite ⟨i, c, source⟩) := by
  obtain ⟨old, stored, same⟩ := bind_ok_iff.mp h
  cases same
  exact ⟨old, stored, rfl⟩

theorem combine_ok {b : Bounds} {ids : List RuleId} (h : s.combine b ids = .ok (i, s')) :
    ∃ parts c source, ids.mapM s.get = .ok parts ∧ Combination.make b parts = .ok (c, source) ∧
      i = s.nextId ∧ s' = s.apply (.append ⟨s.nextId, c, source⟩) := by
  obtain ⟨parts, found, made⟩ := bind_ok_iff.mp h
  split at made
  · cases made
  · next c source joined =>
    cases made
    exact ⟨parts, c, source, found, joined, rfl, rfl⟩

end Store

namespace Engine

def content? (e : Engine) : Request → Option (Condition × String)
  | .create text => (Condition.parse e.limits.toBounds text).toOption.map fun c => (c, text)
  | .modify _ text => (Condition.parse e.limits.toBounds text).toOption.map fun c => (c, text)
  | .combine ids => (ids.mapM e.store.get).toOption.bind Combination.joined?
  | .storeCombine _ ids => (ids.mapM e.store.get).toOption.bind Combination.joined?
  | .storeCreate c source => some (c, source)
  | .storeReplace _ c source => some (c, source)
  | .evaluate _ _ => none
  | .get _ => none

inductive Effect (e : Engine) (q : Request) : Reply → Engine → Prop
  | read {reply : Reply} : q.target? reply = none → e.content? q = none → Effect e q reply e
  | append {c : Condition} {source : String} :
    e.content? q = some (c, source) →
      Effect e q (.created e.store.nextId) (e.withStore (e.store.apply (.append ⟨e.store.nextId, c, source⟩)))
  | overwrite {i : RuleId} {old : Rule} {c : Condition} {source : String} :
    q.subject? = some i → e.content? q = some (c, source) → e.store.get i = .ok old →
      Effect e q .done (e.withStore (e.store.apply (.overwrite ⟨i, c, source⟩)))

variable {e e' : Engine}

theorem condition_of_parse {l : Limits} {text : String} {c : Condition} (h : parse l text = .ok c) :
    Condition.parse l.toBounds text = .ok c := by
  simp only [parse] at h
  split at h
  · cases h
  · exact mapError_ok_iff.mp h

theorem content_of_parse {text : String} {c : Condition} (h : parse e.limits text = .ok c) :
    (Condition.parse e.limits.toBounds text).toOption.map (fun c => (c, text)) = some (c, text) := by
  rw [condition_of_parse h]
  rfl

theorem content_of_make {b : Bounds} {ids : List RuleId} {parts : List Rule} {c : Condition} {source : String}
    (found : ids.mapM e.store.get = .ok parts) (made : Combination.make b parts = .ok (c, source)) :
    (ids.mapM e.store.get).toOption.bind Combination.joined? = some (c, source) := by
  rw [found]
  exact (Combination.make_ok_iff.mp made).1

theorem combine_ok {ids : List RuleId} {i : RuleId} (h : e.combine ids = .ok (i, e')) :
    ∃ s, e.store.combine e.limits.toBounds ids = .ok (i, s) ∧ e' = e.withStore s := by
  simp only [combine] at h
  split at h
  · cases h
  · obtain ⟨⟨j, s⟩, combined, same⟩ := bind_ok_iff.mp h
    cases same
    exact ⟨s, mapError_ok_iff.mp combined, rfl⟩

theorem effect_of_handle {q : Request} {reply : Reply} (h : e.handle q = .ok (reply, e')) :
    Effect e q reply e' := by
  cases q with
  | create text =>
    obtain ⟨⟨i, d⟩, created, same⟩ := map_ok_iff.mp h
    cases same
    obtain ⟨c, parsed, stored⟩ := bind_ok_iff.mp created
    cases stored
    exact .append (content_of_parse parsed)
  | modify i text =>
    obtain ⟨d, modified, same⟩ := map_ok_iff.mp h
    cases same
    obtain ⟨c, parsed, stored⟩ := bind_ok_iff.mp modified
    obtain ⟨s, replaced, same⟩ := bind_ok_iff.mp stored
    cases same
    obtain ⟨old, found, rfl⟩ := Store.replace_ok (mapError_ok_iff.mp replaced)
    exact .overwrite rfl (content_of_parse parsed) found
  | combine ids =>
    obtain ⟨⟨i, d⟩, combined, same⟩ := map_ok_iff.mp h
    cases same
    obtain ⟨s, stored, rfl⟩ := combine_ok combined
    obtain ⟨parts, c, source, found, made, rfl, rfl⟩ := Store.combine_ok stored
    exact .append (content_of_make found made)
  | evaluate i r =>
    obtain ⟨b, -, same⟩ := map_ok_iff.mp h
    cases same
    exact .read rfl rfl
  | get i =>
    obtain ⟨r, -, same⟩ := map_ok_iff.mp h
    cases same
    exact .read rfl rfl
  | storeCreate c source =>
    cases h
    exact .append rfl
  | storeReplace i c source =>
    obtain ⟨s, replaced, same⟩ := map_ok_iff.mp h
    cases same
    obtain ⟨old, found, rfl⟩ := Store.replace_ok (mapError_ok_iff.mp replaced)
    exact .overwrite rfl rfl found
  | storeCombine b ids =>
    obtain ⟨⟨i, s⟩, combined, same⟩ := map_ok_iff.mp h
    cases same
    obtain ⟨parts, c, source, found, made, rfl, rfl⟩ := Store.combine_ok (mapError_ok_iff.mp combined)
    exact .append (content_of_make found made)

namespace Effect

variable {q : Request} {reply : Reply} {i : RuleId}

theorem eq_of_untargeted (h : Effect e q reply e') (untargeted : q.target? reply = none) : e' = e := by
  cases h with
  | read _ _ => rfl
  | append _ => cases untargeted
  | overwrite subject _ _ => cases subject.symm.trans untargeted

theorem get_target (h : Effect e q reply e') (targeted : q.target? reply = some i) :
    ∃ c source, e.content? q = some (c, source) ∧ e'.store.get i = .ok ⟨i, c, source⟩ := by
  cases h with
  | read untargeted _ => cases untargeted.symm.trans targeted
  | append content =>
    cases targeted
    exact ⟨_, _, content, Store.get_apply_self _ _⟩
  | overwrite subject content _ =>
    cases subject.symm.trans targeted
    exact ⟨_, _, content, Store.get_apply_self _ _⟩

theorem get_other (h : Effect e q reply e') (untouched : q.target? reply ≠ some i) :
    e'.store.get i = e.store.get i := by
  cases h with
  | read _ _ => rfl
  | append _ =>
    apply Store.get_apply_other
    rintro rfl
    exact untouched rfl
  | overwrite subject _ _ =>
    apply Store.get_apply_other
    rintro rfl
    exact untouched subject

end Effect

theorem after_of_handle {q : Request} {reply : Reply} (h : e.handle q = .ok (reply, e')) : e.after q = e' := by
  simp only [after, h]

theorem after_of_error {q : Request} {err : EngineError} (h : e.handle q = .error err) : e.after q = e := by
  simp only [after, h]

theorem limits_after (e : Engine) (q : Request) : (e.after q).limits = e.limits := by
  cases handled : e.handle q with
  | error err => rw [after_of_error handled]
  | ok p =>
    obtain ⟨reply, e'⟩ := p
    rw [after_of_handle handled]
    cases effect_of_handle handled <;> rfl

end Engine

end Rulebook
