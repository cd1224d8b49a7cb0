import Rulebook.Evaluation

namespace Rulebook

structure Leaf where
  field : String
  op : Operator
  value : Value

namespace Leaf

def Fits (r : Record) (l : Leaf) : Prop := ∃ x, r.get? l.field = some x ∧ x.kind = l.value.kind

def fault? (r : Record) (l : Leaf) : Option EvaluationError :=
  match r.get? l.field with
  | none => some (.missingField l.field)
  | some x => if x.kind = l.value.kind then none else some (.typeMismatch l.field l.value.kind x.kind)

def holds (r : Record) (l : Leaf) : Bool :=
  (r.get? l.field).bind (fun x => x.compare l.op l.value) = some true

theorem fault?_eq_none_iff {r : Record} {l : Leaf} : l.fault? r = none ↔ l.Fits r := by
  unfold fault? Fits
  cases r.get? l.field with
  | none => simp
  | some x => simp

end Leaf

theorem Value.compare_eq_none_iff {v w : Value} {o : Operator} : v.compare o w = none ↔ v.kind ≠ w.kind := by
  cases v <;> cases w <;> simp [compare, relation, kind]

namespace Condition

def leaves : Condition → List Leaf
  | compare f o v => [⟨f, o, v⟩]
  | and a b => a.leaves ++ b.leaves
  | or a b => a.leaves ++ b.leaves

def truth (holds : Leaf → Bool) : Condition → Bool
  | compare f o v => holds ⟨f, o, v⟩
  | and a b => a.truth holds && b.truth holds
  | or a b => a.truth holds || b.truth holds

def verdict (fault : Option EvaluationError) (b : Bool) : Except EvaluationError Bool :=
  match fault with
  | some e => .error e
  | none => .ok b

def scan (r : Record) (c : Condition) : Except EvaluationError Bool :=
  verdict (c.leaves.findSome? (Leaf.fault? r)) (c.truth (Leaf.holds r))

theorem verdict_join (e d : Option EvaluationError) (x y : Bool) (f : Bool → Bool → Bool) :
    (do
      let a ← verdict e x
      let b ← verdict d y
      return f a b) = verdict (e.or d) (f x y) := by
  cases e with
  | some e => rfl
  | none => cases d <;> rfl

theorem evaluate_leaf (r : Record) (f : String) (o : Operator) (v : Value) :
    (compare f o v).evaluate r = verdict (Leaf.fault? r ⟨f, o, v⟩) (Leaf.holds r ⟨f, o, v⟩) := by
  simp only [evaluate, Leaf.fault?, Leaf.holds]
  cases r.get? f with
  | none => rfl
  | some x =>
    by_cases hk : x.kind = v.kind
    · cases hc : x.compare o v with
      | none => exact absurd hk (Value.compare_eq_none_iff.mp hc)
      | some b => cases b <;> simp [hk, hc, verdict]
    · simp [hk, Value.compare_eq_none_iff.mpr hk, verdict]

theorem evaluate_eq_scan (r : Record) (c : Condition) : c.evaluate r = c.scan r := by
  induction c with
  | compare f o v =>
    rw [evaluate_leaf]
    simp [scan, leaves, truth]
  | and a b iha ihb =>
    rw [evaluate, iha, ihb]
    simp only [scan, leaves, truth, List.findSome?_append]
    exact verdict_join _ _ _ _ (· && ·)
  | or a b iha ihb =>
    rw [evaluate, iha, ihb]
    simp only [scan, leaves, truth, List.findSome?_append]
    exact verdict_join _ _ _ _ (· || ·)

theorem verdict_ok_iff {e : Option EvaluationError} {x : Bool} : (∃ b, verdict e x = .ok b) ↔ e = none := by
  cases e <;> simp [verdict]

theorem evaluate_ok_iff (r : Record) (c : Condition) :
    (∃ b, c.evaluate r = .ok b) ↔ ∀ l ∈ c.leaves, l.Fits r := by
  simp only [evaluate_eq_scan, scan, verdict_ok_iff, List.findSome?_eq_none_iff, Leaf.fault?_eq_none_iff]

theorem evaluate_congr {c : Condition} {r s : Record} (h : ∀ f ∈ c.fields, r.get? f = s.get? f) :
    c.evaluate r = c.evaluate s := by
  induction c with
  | compare f o v => simp only [evaluate, h f (List.mem_singleton_self f)]
  | and a b iha ihb =>
    simp only [fields, List.forall_mem_append] at h
    rw [evaluate, evaluate, iha h.1, ihb h.2]
  | or a b iha ihb =>
    simp only [fields, List.forall_mem_append] at h
    rw [evaluate, evaluate, iha h.1, ihb h.2]

theorem evaluate_leftmost_fault (c : Condition) (r : Record) :
    (c.evaluate r =
      match c.leaves.findSome? (Leaf.fault? r) with
      | some e => .error e
      | none => .ok (c.truth (Leaf.holds r))) ∧
      ((∃ b, c.evaluate r = .ok b) ↔ ∀ l ∈ c.leaves, l.Fits r) ∧
      ∀ s : Record, (∀ f ∈ c.fields, r.get? f = s.get? f) → c.evaluate r = c.evaluate s := by
  refine ⟨evaluate_eq_scan r c, evaluate_ok_iff r c, ?_⟩
  intro s agree
  exact evaluate_congr agree

end Condition

end Rulebook
