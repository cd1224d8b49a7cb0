import Rulebook.Proofs.LoadedStores
import Rulebook.Proofs.StoredSources

namespace Rulebook

open Results

namespace Engine

def collect {α : Type} (f : Engine → Event → Option α) (e : Engine) : List Event → List α
  | [] => []
  | v :: vs => (f e v).toList ++ collect f (e.advance v) vs

def returned? (e : Engine) : Event → Option RuleId
  | .reload _ => none
  | .request q =>
    match e.handle q with
    | .ok (.created i, _) => some i
    | _ => none

def replaced? (e : Engine) : Event → Option RuleId
  | .reload _ => none
  | .request q =>
    match e.handle q with
    | .ok (.done, _) => q.subject?
    | _ => none

def change? (e : Engine) : Event → Option Change
  | .reload _ => none
  | .request q =>
    match e.handle q, e.content? q with
    | .ok (.created i, _), some (c, source) => some (.append ⟨i, c, source⟩)
    | .ok (.done, _), some (c, source) => q.subject?.map fun i => .overwrite ⟨i, c, source⟩
    | _, _ => none

def returned (e : Engine) (vs : List Event) : List RuleId := e.collect returned? vs

def replaced (e : Engine) (vs : List Event) : List RuleId := e.collect replaced? vs

def changes (e : Engine) (vs : List Event) : List Change := e.collect change? vs

/-- The ids last: the next one never passes the greatest word. -/
def HasRoom (e : Engine) (vs : List Event) : Prop :=
  e.store.nextId.value.toNat + (e.returned vs).length < 2 ^ 64

instance (e : Engine) (vs : List Event) : Decidable (e.HasRoom vs) := inferInstanceAs (Decidable (_ < _))

variable {e e' : Engine}

theorem collect_bind {α β : Type} {f : Engine → Event → Option α} {g : Engine → Event → Option β}
    {k : α → Option β} (h : ∀ e v, g e v = (f e v).bind k) (e : Engine) (vs : List Event) :
    e.collect g vs = (e.collect f vs).filterMap k := by
  induction vs generalizing e with
  | nil => rfl
  | cons v vs ih =>
    rw [collect, collect, List.filterMap_append, ih, h]
    cases f e v with
    | none => rfl
    | some a => cases hk : k a <;> simp [hk]

theorem after_evaluate (e : Engine) (i : RuleId) (r : Record) : e.after (.evaluate i r) = e := by
  simp only [after, handle]
  cases e.evaluate i r <;> rfl

theorem after_get (e : Engine) (i : RuleId) : e.after (.get i) = e := by
  simp only [after, handle]
  cases e.get i <;> rfl

theorem request_logged (e : Engine) (q : Request) :
    e.returned? (.request q) = (e.change? (.request q)).bind Change.appended? ∧
      e.replaced? (.request q) = (e.change? (.request q)).bind Change.overwritten? ∧
      e.store.Leads (e.change? (.request q)).toList (e.after q).store := by
  cases handled : e.handle q with
  | error err =>
    rw [after_of_error handled, returned?, replaced?, change?, handled]
    exact ⟨rfl, rfl, .still _⟩
  | ok answer =>
    obtain ⟨reply, e'⟩ := answer
    rw [after_of_handle handled, returned?, replaced?, change?, handled]
    cases effect_of_handle handled with
    | read untargeted content =>
      rw [content]
      cases reply with
      | created i => cases untargeted
      | done => exact ⟨rfl, untargeted, .still _⟩
      | truth b => exact ⟨rfl, rfl, .still _⟩
      | rule r => exact ⟨rfl, rfl, .still _⟩
    | append content =>
      rw [content]
      exact ⟨rfl, rfl, .one rfl⟩
    | overwrite subject content stored =>
      simp only [content, subject]
      exact ⟨rfl, rfl, .one ⟨_, stored⟩⟩

theorem returned_eq (e : Engine) (vs : List Event) : e.returned vs = appended (e.changes vs) := by
  apply collect_bind
  intro e v
  cases v with
  | request q => exact (request_logged e q).1
  | reload l => rfl

theorem HasRoom.store {vs : List Event} (h : e.HasRoom vs) : e.store.Room (e.changes vs) := by
  rw [Store.Room, ← returned_eq]
  exact h

theorem leads_advance (h : e.store.Keyed) (v : Event) :
    e.store.Leads (e.change? v).toList (e.advance v).store := by
  cases v with
  | request q => exact (request_logged e q).2.2
  | reload l =>
    rw [advance, store_reloadUnder h]
    exact .still _

theorem leads_through (h : e.store.Keyed) (vs : List Event) :
    e.store.Leads (e.changes vs) (e.through vs).store := by
  induction vs generalizing e with
  | nil => exact .still _
  | cons v vs ih =>
    have first := leads_advance h v
    exact first.trans (ih (first.keyed h))

structure Confined (e : Engine) (q : Request) : Prop where
  failed : ∀ err, e.handle q = .error err → e.after q = e
  read : ∀ reply e', e.handle q = .ok (reply, e') → q.target? reply = none → e' = e
  written : ∀ reply e' i, e.handle q = .ok (reply, e') → q.target? reply = some i →
    ∃ c source, e.content? q = some (c, source) ∧ e'.store.get i = .ok ⟨i, c, source⟩
  others : ∀ reply e' j, e.handle q = .ok (reply, e') → q.target? reply ≠ some j →
    e'.store.get j = e.store.get j
  fresh : ∀ i e', e.handle q = .ok (.created i, e') → e.store.get i = .error (.notFound i)

theorem confined (h : e.store.Numbered) (q : Request) : Confined e q where
  failed _ failed := after_of_error failed
  read _ _ handled untargeted := (effect_of_handle handled).eq_of_untargeted untargeted
  written _ _ _ handled targeted := (effect_of_handle handled).get_target targeted
  others _ _ _ handled untouched := (effect_of_handle handled).get_other untouched
  fresh i e' handled := by
    cases effect_of_handle handled with
    | read untargeted _ => cases untargeted
    | append _ => exact h.get_nextId

/-- A run appends rules under consecutive ids and overwrites in place, and the store answers with the
last change to each id. -/
theorem through_follows_log (e : Engine) (initial : e.store.Initial) (vs : List Event)
    (room : e.HasRoom vs) :
    (e.through vs).store.Numbered ∧
      (e.returned vs).map (fun i => i.value.toNat) =
        List.range' e.store.nextId.value.toNat (e.returned vs).length ∧
      (e.through vs).store.nextId.value.toNat = e.store.nextId.value.toNat + (e.returned vs).length ∧
      (e.through vs).store.rules.keys = e.store.rules.keys ++ e.returned vs ∧
      (e.store = .empty →
        (e.through vs).store.rules.keys.map (fun i => i.value.toNat) =
          List.range' 1 ((e.through vs).store.nextId.value.toNat - 1)) ∧
      (∀ i, (e.through vs).store.get i =
        match latest? i (e.changes vs) with
        | some r => .ok r
        | none => e.store.get i) ∧
      (∀ q, Confined (e.through vs) q) ∧
      (∀ i r, (e.through vs).after (.evaluate i r) = e.through vs) ∧
      ∀ i, (e.through vs).after (.get i) = e.through vs := by
  have leads := leads_through initial.numbered.keyed vs
  have numbered := leads.numbered initial.numbered room.store
  have ids := leads.appended_toNat room.store
  have next := leads.nextId_toNat room.store
  have keys := leads.keys initial.numbered room.store
  rw [← returned_eq] at ids next keys
  refine ⟨numbered, ids, next, keys, ?_, leads.get_eq, confined numbered, after_evaluate _, after_get _⟩
  intro empty
  rw [keys, next, empty, List.map_append, ids, empty]
  simp [Store.empty, Table.keys, Table.empty]

theorem through_follows_log_sample :
    let vs : List Event := [.request (.create "a = 1"), .request (.combine [⟨1⟩, ⟨1⟩]), .request (.modify ⟨1⟩ "b"),
      .request (.modify ⟨1⟩ "b = 2"), .request (.combine [⟨3⟩]), .reload {}]
    (new {}).store.Initial ∧ (new {}).HasRoom vs ∧
      ((new {}).through vs).store.rules.keys = [⟨1⟩, ⟨2⟩] ∧
      ((new {}).through vs).store.get ⟨1⟩ = .ok ⟨⟨1⟩, .compare "b" .eq (.int 2), "b = 2"⟩ := by
  intro vs
  have log : (new {}).returned vs = [⟨1⟩, ⟨2⟩] ∧
      latest? ⟨1⟩ ((new {}).changes vs) = some ⟨⟨1⟩, .compare "b" .eq (.int 2), "b = 2"⟩ := by
    decide +kernel
  have room : (new {}).HasRoom vs := by
    rw [HasRoom, log.1]
    decide
  obtain ⟨-, -, -, keys, -, answers, -⟩ := through_follows_log (new {}) .empty vs room
  refine ⟨.empty, room, ?_, ?_⟩
  · rw [keys, log.1]
    rfl
  · rw [answers, log.2]

end Engine

end Rulebook
