import Rulebook.Proofs.SnapshotRoundTrip

namespace Rulebook.Snapshot

open Results

inductive Tree.Folds : Tree → Condition → Prop
  | leaf (f : String) (o : Operator) (v : Value) : Folds (.leaf f o v) (.compare f o v)
  | and {ts : List Tree} {c : Condition} {cs : List Condition} :
    List.Forall₂ Folds ts (c :: cs) → Folds (.and ts) (cs.foldl .and c)
  | or {ts : List Tree} {c : Condition} {cs : List Condition} :
    List.Forall₂ Folds ts (c :: cs) → Folds (.or ts) (cs.foldl .or c)

namespace Tree

theorem exists_chain_iff {p : List Condition → Prop} {join : Condition → Condition → Condition} {a : Condition} :
    (∃ cs, p cs ∧ chain join cs = some a) ↔ ∃ c cs, p (c :: cs) ∧ a = cs.foldl join c := by
  constructor
  · rintro ⟨_ | ⟨c, cs⟩, parts, ⟨⟩⟩
    exact ⟨c, cs, parts, rfl⟩
  · rintro ⟨c, cs, parts, rfl⟩
    exact ⟨c :: cs, parts, rfl⟩

theorem folds_and_iff {ts : List Tree} {a : Condition} :
    (Tree.and ts).Folds a ↔ ∃ c cs, List.Forall₂ Folds ts (c :: cs) ∧ a = cs.foldl .and c := by
  constructor
  · rintro ⟨⟩
    next parts => exact ⟨_, _, parts, rfl⟩
  · rintro ⟨c, cs, parts, rfl⟩
    exact .and parts

theorem folds_or_iff {ts : List Tree} {a : Condition} :
    (Tree.or ts).Folds a ↔ ∃ c cs, List.Forall₂ Folds ts (c :: cs) ∧ a = cs.foldl .or c := by
  constructor
  · rintro ⟨⟩
    next parts => exact ⟨_, _, parts, rfl⟩
  · rintro ⟨c, cs, parts, rfl⟩
    exact .or parts

mutual

theorem toCondition?_eq_some_iff : (t : Tree) → {a : Condition} → t.toCondition? = some a ↔ t.Folds a
  | .leaf f o v, a => by
    rw [toCondition?]
    constructor
    · rintro ⟨⟩
      exact .leaf f o v
    · rintro ⟨⟩
      rfl
  | .and ts, a => by
    simp only [toCondition?, Option.bind_eq_bind, Option.bind_eq_some_iff, toConditions?_eq_some_iff ts,
      exists_chain_iff, folds_and_iff]
  | .or ts, a => by
    simp only [toCondition?, Option.bind_eq_bind, Option.bind_eq_some_iff, toConditions?_eq_some_iff ts,
      exists_chain_iff, folds_or_iff]

theorem toConditions?_eq_some_iff : (ts : List Tree) → {cs : List Condition} →
    toConditions? ts = some cs ↔ List.Forall₂ Folds ts cs
  | [], cs => by simp [toConditions?, eq_comm]
  | t :: ts, cs => by
    simp only [toConditions?, Option.bind_eq_bind, Option.bind_eq_some_iff, Option.pure_def, Option.some.injEq,
      List.forall₂_cons_left_iff, toCondition?_eq_some_iff t, toConditions?_eq_some_iff ts]
    grind

end

end Tree

structure Entry.Restores (e : Entry) (r : Rule) : Prop where
  id : r.id = e.id
  source : r.source = e.source
  folds : e.tree.Folds r.condition

theorem Entry.toRule?_eq_some_iff {e : Entry} {r : Rule} : e.toRule? = some r ↔ e.Restores r := by
  simp only [toRule?, Option.bind_eq_bind, Option.bind_eq_some_iff, Option.pure_def, Option.some.injEq,
    Tree.toCondition?_eq_some_iff]
  constructor
  · rintro ⟨c, folds, rfl⟩
    exact ⟨rfl, rfl, folds⟩
  · rintro ⟨id, source, folds⟩
    refine ⟨r.condition, folds, ?_⟩
    rw [← id, ← source]

theorem Entry.exists_restores {e : Entry} (h : e.tree.isFilled = true) : ∃ r, e.Restores r := by
  rw [Tree.isFilled_eq_isSome, Option.isSome_iff_exists] at h
  obtain ⟨c, found⟩ := h
  exact ⟨⟨e.id, c, e.source⟩, rfl, rfl, (Tree.toCondition?_eq_some_iff e.tree).mp found⟩

theorem map_id_of_restores {es : List Entry} {rs : List Rule} (h : List.Forall₂ Entry.Restores es rs) :
    rs.map Rule.id = es.map Entry.id := by
  induction h with
  | nil => rfl
  | cons first _ ih => rw [List.map_cons, List.map_cons, first.id, ih]

theorem exists_restored {es : List Entry} (h : ∀ e ∈ es, e.tree.isFilled = true) :
    ∃ rs, List.Forall₂ Entry.Restores es rs := by
  induction es with
  | nil => exact ⟨[], .nil⟩
  | cons e es ih =>
    obtain ⟨filled, others⟩ := List.forall_mem_cons.mp h
    obtain ⟨r, first⟩ := Entry.exists_restores filled
    obtain ⟨rs, rest⟩ := ih others
    exact ⟨r :: rs, .cons first rest⟩

namespace Payload

variable {p : Payload} {s : Store}

theorem toStore?_eq_some_iff :
    p.toStore? = some s ↔
      ∃ rs, List.Forall₂ Entry.Restores p.entries rs ∧ ⟨.ofList (rs.map fun r => (r.id, r)), p.nextId⟩ = s := by
  simp only [toStore?, Option.bind_eq_bind, Option.bind_eq_some_iff, mapM_eq_some_iff, Entry.toRule?_eq_some_iff,
    Option.pure_def, Option.some.injEq]

theorem exists_toStore? (h : p.check = .ok ()) : ∃ s, p.toStore? = some s := by
  obtain ⟨-, -, entries, -⟩ := check_ok_iff.mp h
  obtain ⟨rs, restored⟩ := exists_restored fun e he => (entries e he).2.2
  exact ⟨_, toStore?_eq_some_iff.mpr ⟨rs, restored, rfl⟩⟩

theorem toStore_cases (p : Payload) :
    (∃ fault, p.check = .error fault ∧ p.toStore = .error fault) ∨
      ∃ s, p.check = .ok () ∧ p.toStore? = some s ∧ p.toStore = .ok s := by
  cases checked : p.check with
  | error fault =>
    refine .inl ⟨fault, rfl, ?_⟩
    rw [toStore, checked]
    rfl
  | ok _ =>
    obtain ⟨s, found⟩ := exists_toStore? checked
    refine .inr ⟨s, rfl, found, ?_⟩
    rw [toStore, checked, found]
    rfl

theorem toStore_ok_iff : p.toStore = .ok s ↔ p.check = .ok () ∧ p.toStore? = some s := by
  obtain ⟨fault, checked, stored⟩ | ⟨t, checked, found, stored⟩ := toStore_cases p
  · simp [checked, stored]
  · simp [checked, found, stored]

theorem toStore_error_iff {fault : ValidationFault} : p.toStore = .error fault ↔ p.check = .error fault := by
  obtain ⟨fault, checked, stored⟩ | ⟨t, checked, found, stored⟩ := toStore_cases p
  · simp [checked, stored]
  · simp [checked, stored]

theorem entries_perm {rs : List Rule} (h : p.check = .ok ()) (restored : List.Forall₂ Entry.Restores p.entries rs) :
    (Table.ofList (rs.map fun r => (r.id, r))).entries.Perm (rs.map fun r => (r.id, r)) := by
  obtain ⟨-, -, -, distinct⟩ := check_ok_iff.mp h
  rw [← List.pairwise_map (f := Entry.id) (R := (· ≠ ·)), ← map_id_of_restores restored, List.pairwise_map] at distinct
  apply Table.ofList_perm
  rw [List.pairwise_map]
  apply distinct.imp
  intro a b apart same
  exact apart (Std.LawfulEqOrd.eq_of_compare same)

end Payload

end Rulebook.Snapshot
