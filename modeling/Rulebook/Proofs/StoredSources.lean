import Rulebook.Proofs.RequestEffects
import Rulebook.Proofs.SnapshotRoundTrip

namespace Rulebook

open Results

namespace Engine

def Described (l : Limits) (r : Rule) : Prop := Condition.parse l.toBounds r.source = .ok r.condition

structure Sound (l : Limits) (e : Engine) : Prop where
  limits : e.limits = l
  keyed : e.store.Keyed
  described : e.store.All (Described l)

variable {l : Limits} {e e' : Engine}

theorem sound_new (l : Limits) : Sound l (new l) := ⟨rfl, Store.keyed_empty, Store.all_empty _⟩

theorem Sound.insert (h : Sound l e) {i next : RuleId} {c : Condition} {text : String}
    (hc : Condition.parse l.toBounds text = .ok c) :
    Sound l { e with store := ⟨e.store.rules.insert i ⟨i, c, text⟩, next⟩ } := by
  have described : Described l ⟨i, c, text⟩ := hc
  constructor
  · exact h.limits
  · exact h.keyed.insert rfl
  · exact h.described.insert described i next

theorem Sound.create (h : Sound l e) {text : String} {i : RuleId} (hr : e.create text = .ok (i, e')) :
    Sound l e' := by
  obtain ⟨c, hc, hs⟩ := bind_ok_iff.mp hr
  cases hs
  rw [h.limits] at hc
  exact h.insert (condition_of_parse hc)

theorem Sound.modify (h : Sound l e) {text : String} {i : RuleId} (hr : e.modify i text = .ok e') :
    Sound l e' := by
  obtain ⟨c, hc, hs⟩ := bind_ok_iff.mp hr
  obtain ⟨s, replaced, he⟩ := bind_ok_iff.mp hs
  obtain ⟨old, -, rfl⟩ := Store.replace_ok (mapError_ok_iff.mp replaced)
  cases he
  rw [h.limits] at hc
  exact h.insert (condition_of_parse hc)

theorem described_of_get (h : Sound l e) {i : RuleId} {r : Rule} (hr : e.store.get i = .ok r) :
    Described l r := by
  simp only [Store.get] at hr
  split at hr
  · next found =>
    cases hr
    exact h.described.of_get found
  · cases hr

theorem Sound.combine (h : Sound l e) {ids : List RuleId} {i : RuleId} (hr : e.combine ids = .ok (i, e')) :
    Sound l e' := by
  obtain ⟨s, combined, rfl⟩ := combine_ok hr
  obtain ⟨parts, c, text, found, made, rfl, rfl⟩ := Store.combine_ok combined
  -- The new source is not parsed: that it could be rests on the sources of the parts.
  have denotes : ∀ r ∈ parts, Denotes r.source r.condition := by
    intro r hr
    obtain ⟨k, -, hk⟩ := exists_of_mem_mapM found r hr
    exact (parse_ok_iff.mp (described_of_get h hk)).1
  rw [h.limits] at made
  exact h.insert (Combination.parse_of_make denotes made)

theorem eq_of_load_of_save (h : e.store.Keyed) {bs : List UInt8} (saved : e.save = .ok bs)
    (loaded : e.load bs = .ok e') : e' = e := by
  obtain ⟨s, read, he⟩ := map_ok_iff.mp loaded
  rw [← he, Snapshot.eq_of_read_of_write h saved read]

theorem store_reloadUnder (h : e.store.Keyed) (l : Limits) : (e.reloadUnder l).store = e.store := by
  simp only [reloadUnder]
  split
  · rfl
  · next bs saved =>
    split
    · rfl
    · next e' loaded => rw [eq_of_load_of_save h saved loaded]

theorem limits_reload (e : Engine) : e.reload.limits = e.limits := by
  simp only [reload, reloadUnder]
  split
  · rfl
  · split <;> rfl

theorem reload_eq (h : e.store.Keyed) : e.reload = e := by
  apply Engine.ext
  · exact store_reloadUnder h e.limits
  · exact limits_reload e

theorem limits_act (e : Engine) (a : Action) : (e.act a).limits = e.limits := by
  cases a with
  | create text => exact limits_after e _
  | modify i text => exact limits_after e _
  | combine ids => exact limits_after e _
  | reload => exact limits_reload e

theorem acts_eq_through (e : Engine) (as : List Action) : e.acts as = e.through (as.map (Action.event e.limits)) := by
  induction as generalizing e with
  | nil => rfl
  | cons a as ih =>
    have rest := ih (e.act a)
    rw [limits_act] at rest
    exact rest

theorem Sound.after (h : Sound l e) {q : Request} (hq : ∀ r e', e.handle q = .ok (r, e') → Sound l e') :
    Sound l (e.after q) := by
  simp only [Engine.after]
  split
  · next r e' handled => exact hq r e' handled
  · exact h

theorem Sound.act (h : Sound l e) (a : Action) : Sound l (e.act a) := by
  cases a with
  | create text =>
    apply h.after
    intro r e' handled
    obtain ⟨⟨i, s⟩, created, same⟩ := map_ok_iff.mp handled
    cases same
    exact h.create created
  | modify i text =>
    apply h.after
    intro r e' handled
    obtain ⟨s, modified, same⟩ := map_ok_iff.mp handled
    cases same
    exact h.modify modified
  | combine ids =>
    apply h.after
    intro r e' handled
    obtain ⟨⟨i, s⟩, combined, same⟩ := map_ok_iff.mp handled
    cases same
    exact h.combine combined
  | reload =>
    change Sound l e.reload
    rw [reload_eq h.keyed]
    exact h

theorem Sound.acts (h : Sound l e) (as : List Action) : Sound l (e.acts as) := by
  induction as generalizing e with
  | nil => exact h
  | cons a as ih => exact ih (h.act a)

theorem acts_append (e : Engine) (as bs : List Action) : e.acts (as ++ bs) = (e.acts as).acts bs :=
  List.foldl_append

theorem acts_reload (h : Sound l e) (as bs : List Action) :
    e.acts (as ++ .reload :: bs) = e.acts (as ++ bs) := by
  have same : (e.acts as).act .reload = e.acts as := reload_eq (h.acts as).keyed
  have step : (e.acts as).acts (.reload :: bs) = ((e.acts as).act .reload).acts bs := rfl
  rw [acts_append, acts_append, step, same]

/-- In every state that is reached, the source of a stored rule is read to its condition. -/
theorem parse_stored_source (l : Limits) (as : List Action) (i : RuleId) (r : Rule)
    (h : ((new l).acts as).store.rules.get? i = some r) :
    Condition.parse l.toBounds r.source = .ok r.condition := by
  have sound := (sound_new l).acts as
  exact sound.described.of_get h

theorem parse_stored_combination :
    ∃ r, ((new {}).acts [.create "a = 1 OR b = 2", .combine [⟨1⟩, ⟨1⟩], .reload,
        .modify ⟨1⟩ "b = 3"]).store.rules.get? ⟨2⟩ = some r ∧
      r.source = "(a = 1 OR b = 2) AND (a = 1 OR b = 2)" ∧ Condition.parse {} r.source = .ok r.condition := by
  let c : Condition := .or (.compare "a" .eq (.int 1)) (.compare "b" .eq (.int 2))
  -- The reload is taken out first, or the hash of the payload would be computed.
  have same := acts_reload (sound_new {}) [.create "a = 1 OR b = 2", .combine [⟨1⟩, ⟨1⟩]]
    [.modify ⟨1⟩ "b = 3"]
  have stored : ((new {}).acts [.create "a = 1 OR b = 2", .combine [⟨1⟩, ⟨1⟩],
      .modify ⟨1⟩ "b = 3"]).store.rules.get? ⟨2⟩ =
        some ⟨⟨2⟩, .and c c, "(a = 1 OR b = 2) AND (a = 1 OR b = 2)"⟩ := by
    decide +kernel
  simp only [List.cons_append, List.nil_append] at same
  rw [← same] at stored
  exact ⟨_, stored, rfl, parse_stored_source {} _ ⟨2⟩ _ stored⟩

theorem stored_within_limits (l : Limits) (as : List Action) (i : RuleId) (r : Rule)
    (h : ((new l).acts as).store.rules.get? i = some r) :
    parenNesting r.source ≤ l.nesting ∧
      (r.condition.depth ≤ l.tree ∨ l.tree = 0 ∧ r.condition.isLeaf = true) := by
  have sound := (sound_new l).acts as
  obtain ⟨-, nesting, height | leaf⟩ := parse_ok_iff.mp (sound.described.of_get h)
  · exact ⟨nesting, .inl height⟩
  · refine ⟨nesting, ?_⟩
    rcases Nat.eq_zero_or_pos l.tree with none | some
    · exact .inr ⟨none, leaf⟩
    · left
      rw [Condition.depth_of_isLeaf leaf]
      exact some

theorem stored_within_limits_combined :
    let l : Limits := { nesting := 2, tree := 2 }
    let e := (new l).acts [.create "(a = 1 OR b = 2)", .combine [⟨1⟩], .combine [⟨2⟩]]
    ∃ r, e.store.rules.get? ⟨2⟩ = some r ∧ r.source = "((a = 1 OR b = 2))" ∧ e.store.rules.get? ⟨3⟩ = none ∧
      parenNesting r.source ≤ l.nesting ∧
        (r.condition.depth ≤ l.tree ∨ l.tree = 0 ∧ r.condition.isLeaf = true) := by
  intro l e
  have stored : e.store.rules.get? ⟨2⟩ =
      some ⟨⟨2⟩, .or (.compare "a" .eq (.int 1)) (.compare "b" .eq (.int 2)), "((a = 1 OR b = 2))"⟩ := by
    decide +kernel
  have refused : e.store.rules.get? ⟨3⟩ = none := by decide +kernel
  exact ⟨_, stored, rfl, refused, stored_within_limits l _ _ _ stored⟩

/-- A limit of no levels lets a comparison pass, though a comparison has one level. What is then stored is too
tall to be combined, even alone. -/
theorem stored_taller_than_limit :
    let l : Limits := { tree := 0 }
    let e := (new l).acts [.create "a = 1"]
    ∃ r, e.store.rules.get? ⟨1⟩ = some r ∧ ¬r.condition.depth ≤ l.tree ∧
      e.combine [⟨1⟩] = .error (.invalidInput (.combination (.treeTooDeep 1 l.tree))) := by
  intro l e
  have stored : e.store.rules.get? ⟨1⟩ = some ⟨⟨1⟩, .compare "a" .eq (.int 1), "a = 1"⟩ := by
    decide +kernel
  refine ⟨_, stored, Nat.not_succ_le_zero 0, error?_eq_some_iff.mp ?_⟩
  decide +kernel

end Engine

end Rulebook
