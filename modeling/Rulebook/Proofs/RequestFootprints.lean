import Rulebook.Proofs.EngineRuns
import Rulebook.Proofs.TableLookups

namespace Rulebook

open Results

namespace Request

def reads : Request → List RuleId
  | create _ => []
  | modify i _ => [i]
  | combine ids => ids
  | evaluate i _ => [i]
  | get i => [i]
  | storeCreate _ _ => []
  | storeReplace i _ _ => [i]
  | storeCombine _ ids => ids

def appends : Request → Bool
  | create _ => true
  | combine _ => true
  | storeCreate _ _ => true
  | storeCombine _ _ => true
  | _ => false

theorem subject_read {q : Request} {i : RuleId} (h : q.subject? = some i) : i ∈ q.reads := by
  cases q <;> cases h <;> exact List.mem_singleton_self _

end Request

namespace Store

def applied (s : Store) (c : Option Change) : Store := c.elim s s.apply

theorem apply_comm {c d : Change} (apart : c.rule.id ≠ d.rule.id) (s : Store) :
    (s.apply c).apply d = (s.apply d).apply c := by
  have rules := Table.insert_comm apart s.rules c.rule d.rule
  cases c <;> cases d <;> exact congrArg (Store.mk · _) rules

theorem applied_comm {c d : Option Change} (apart : ∀ x ∈ c, ∀ y ∈ d, x.rule.id ≠ y.rule.id) (s : Store) :
    (s.applied c).applied d = (s.applied d).applied c := by
  cases c with
  | none => rfl
  | some x =>
    cases d with
    | none => rfl
    | some y => exact apply_comm (apart x rfl y rfl) s

theorem Leads.eq_applied {s t : Store} {c : Option Change} (h : s.Leads c.toList t) : t = s.applied c := by
  cases c with
  | none =>
    cases h
    rfl
  | some x =>
    cases h with
    | change _ rest =>
      cases rest
      rfl

end Store

namespace Engine

def answer (e : Engine) (q : Request) : Except EngineError Reply := (e.handle q).map Prod.fst

variable {e e' d : Engine} {q : Request}

structure Alike (e d : Engine) (q : Request) : Prop where
  limits : d.limits = e.limits
  rules : ∀ i ∈ q.reads, d.store.get i = e.store.get i
  next : q.appends = true → d.store.nextId = e.store.nextId

theorem after_eq (e : Engine) (q : Request) : e.after q = e.withStore (e.store.applied (e.change? (.request q))) := by
  rw [← (request_logged e q).2.2.eq_applied, withStore, ← limits_after e q]

theorem mapM_alike {ids : List RuleId} (h : ∀ i ∈ ids, d.store.get i = e.store.get i) :
    ids.mapM d.store.get = ids.mapM e.store.get := by
  induction ids with
  | nil => rfl
  | cons i ids ih =>
    have rest := ih fun j hj => h j (List.mem_cons_of_mem i hj)
    rw [List.mapM_cons, List.mapM_cons, h i List.mem_cons_self, rest]

theorem combine_alike {ids : List RuleId} (h : ∀ i ∈ ids, d.store.get i = e.store.get i)
    (next : d.store.nextId = e.store.nextId) (b : Bounds) :
    (∃ err, d.store.combine b ids = .error err ∧ e.store.combine b ids = .error err) ∨
      ∃ i s t, d.store.combine b ids = .ok (i, s) ∧ e.store.combine b ids = .ok (i, t) := by
  rw [Store.combine, Store.combine, mapM_alike h]
  cases ids.mapM e.store.get with
  | error err => exact .inl ⟨err, rfl, rfl⟩
  | ok parts =>
    simp only [bind, Except.bind]
    cases Combination.make b parts with
    | error f => exact .inl ⟨.combination f, rfl, rfl⟩
    | ok joined =>
      exact .inr ⟨_, _, _, rfl, congrArg (fun i => Except.ok (i, _)) next.symm⟩

theorem Alike.answer_eq (h : Alike e d q) : d.answer q = e.answer q := by
  obtain ⟨limits, rules, next⟩ := h
  cases q with
  | create text =>
    simp only [answer, handle, create, limits]
    cases parse e.limits text with
    | error err => rfl
    | ok c => exact congrArg (fun i => Except.ok (Reply.created i)) (next rfl)
  | modify i text =>
    simp only [answer, handle, modify, limits, Store.replace, rules i List.mem_cons_self]
    cases parse e.limits text with
    | error err => rfl
    | ok c => cases e.store.get i <;> rfl
  | combine ids =>
    change ∀ i ∈ ids, d.store.get i = e.store.get i at rules
    simp only [answer, handle, combine, limits]
    split
    · rfl
    · rcases combine_alike rules (next rfl) e.limits.toBounds with ⟨err, left, right⟩ | ⟨i, s, t, left, right⟩
      · rw [left, right]
      · rw [left, right]
        rfl
  | evaluate i r =>
    simp only [answer, handle, evaluate, get, rules i List.mem_cons_self]
    cases e.store.get i with
    | error err => rfl
    | ok rule =>
      change (Except.map _ (Except.mapError _ (rule.condition.evaluate r))).map _ =
        (Except.map _ (Except.mapError _ (rule.condition.evaluate r))).map _
      cases rule.condition.evaluate r <;> rfl
  | get i =>
    simp only [answer, handle, get, rules i List.mem_cons_self]
    cases e.store.get i <;> rfl
  | storeCreate c source => exact congrArg (fun i => Except.ok (Reply.created i)) (next rfl)
  | storeReplace i c source =>
    simp only [answer, handle, Store.replace, rules i List.mem_cons_self]
    cases e.store.get i <;> rfl
  | storeCombine b ids =>
    change ∀ i ∈ ids, d.store.get i = e.store.get i at rules
    simp only [answer, handle]
    rcases combine_alike rules (next rfl) b with ⟨err, left, right⟩ | ⟨i, s, t, left, right⟩
    · rw [left, right]
      rfl
    · rw [left, right]
      rfl

theorem Alike.content_eq (h : Alike e d q) : d.content? q = e.content? q := by
  obtain ⟨limits, rules, -⟩ := h
  cases q with
  | create text => simp only [content?, limits]
  | modify i text => simp only [content?, limits]
  | combine ids =>
    have parts : ids.mapM d.store.get = ids.mapM e.store.get := mapM_alike rules
    simp only [content?, parts]
  | storeCombine b ids =>
    have parts : ids.mapM d.store.get = ids.mapM e.store.get := mapM_alike rules
    simp only [content?, parts]
  | _ => rfl

theorem answer_ok_iff {reply : Reply} : e.answer q = .ok reply ↔ ∃ e', e.handle q = .ok (reply, e') := by
  rw [answer, map_ok_iff]
  constructor
  · rintro ⟨⟨reply, e'⟩, handled, rfl⟩
    exact ⟨e', handled⟩
  · rintro ⟨e', handled⟩
    exact ⟨_, handled, rfl⟩

theorem Alike.change_eq (h : Alike e d q) : d.change? (.request q) = e.change? (.request q) := by
  have answers := h.answer_eq
  simp only [change?, h.content_eq]
  cases handled : e.handle q with
  | error err =>
    have failed : d.handle q = .error err := by
      rw [answer, answer, handled] at answers
      cases result : d.handle q <;> rw [result] at answers <;> cases answers
      rfl
    rw [failed]
  | ok p =>
    obtain ⟨reply, e'⟩ := p
    obtain ⟨d', same⟩ := answer_ok_iff.mp (answers.trans (answer_ok_iff.mpr ⟨e', handled⟩))
    rw [same]
    cases e.content? q <;> cases reply <;> rfl

theorem appends_of_created {i : RuleId} (h : e.handle q = .ok (.created i, e')) : q.appends = true := by
  cases q with
  | modify | evaluate | get | storeReplace =>
    obtain ⟨p, -, same⟩ := map_ok_iff.mp h
    cases same
  | create | combine | storeCreate | storeCombine => rfl

theorem change_target {c : Change} (h : e.change? (.request q) = some c) :
    (∃ r, c = .append r ∧ r.id = e.store.nextId ∧ q.appends = true) ∨
      ∃ r, c = .overwrite r ∧ q.subject? = some r.id := by
  simp only [change?] at h
  cases handled : e.handle q with
  | error err =>
    rw [handled] at h
    cases h
  | ok p =>
    obtain ⟨reply, e'⟩ := p
    rw [handled] at h
    cases effect_of_handle handled with
    | read untargeted content =>
      rw [content] at h
      cases reply <;> cases h
    | append content =>
      rw [content] at h
      cases h
      exact .inl ⟨_, rfl, rfl, appends_of_created handled⟩
    | overwrite subject content stored =>
      simp only [content, subject, Option.map_some, Option.some.injEq] at h
      exact .inr ⟨_, h.symm, subject⟩

end Engine

end Rulebook
