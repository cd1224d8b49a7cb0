import Rulebook.Proofs.OperatorLaws

namespace Rulebook

namespace Operator

section Asks

variable {α : Type} [LinearOrder α] (o : Operator) (a b : α)

def Asks : Prop :=
  match o with
  | eq => a = b
  | ne => a ≠ b
  | gt => b < a
  | ge => b ≤ a
  | lt => a < b
  | le => a ≤ b

instance : Decidable (o.Asks a b) :=
  match o with
  | eq => inferInstanceAs (Decidable (a = b))
  | ne => inferInstanceAs (Decidable (a ≠ b))
  | gt => inferInstanceAs (Decidable (b < a))
  | ge => inferInstanceAs (Decidable (b ≤ a))
  | lt => inferInstanceAs (Decidable (a < b))
  | le => inferInstanceAs (Decidable (a ≤ b))

theorem holds_compare : o.holds (.ofOrdering (compare a b)) = decide (o.Asks a b) := by
  rw [Bool.eq_iff_iff, decide_eq_true_iff]
  rcases lt_trichotomy a b with below | rfl | above
  · rw [compare_lt_iff_lt.mpr below]
    cases o <;> simp [Asks, holds, Relation.ofOrdering, below, below.le, below.ne, below.not_ge, below.asymm]
  · rw [compare_eq_iff_eq.mpr rfl]
    cases o <;> simp [Asks, holds, Relation.ofOrdering]
  · rw [compare_gt_iff_gt.mpr above]
    cases o <;> simp [Asks, holds, Relation.ofOrdering, above, above.le, above.ne', above.not_ge, above.asymm]

end Asks

end Operator

theorem Binary64.relation_eq_less {x y : Binary64} :
    x.relation y = .less ↔ x.isNaN = false ∧ y.isNaN = false ∧ x.key < y.key := by
  rw [relation]
  by_cases nan : (x.isNaN || y.isNaN) = true
  · rw [if_pos nan]
    constructor
    · intro h
      cases h
    · rintro ⟨left, right, -⟩
      rw [left, right] at nan
      cases nan
  · obtain ⟨left, right⟩ := Bool.or_eq_false_iff.mp (Bool.eq_false_of_not_eq_true nan)
    rw [if_neg nan, Relation.less_compare, left, right]
    exact ⟨fun h => ⟨rfl, rfl, h⟩, fun h => h.2.2⟩

namespace Value

inductive Below : Value → Value → Prop
  | int {a b : Int64} (h : a.toInt < b.toInt) : Below (int a) (int b)
  | intFloat {a : Int64} {y : Binary64} (ordered : y.isNaN = false) (h : (Binary64.ofInt a.toInt).key < y.key) :
    Below (int a) (float y)
  | floatInt {x : Binary64} {b : Int64} (ordered : x.isNaN = false) (h : x.key < (Binary64.ofInt b.toInt).key) :
    Below (float x) (int b)
  | float {x y : Binary64} (left : x.isNaN = false) (right : y.isNaN = false) (h : x.key < y.key) :
    Below (float x) (float y)
  | bool {a b : Bool} (h : a < b) : Below (bool a) (bool b)
  | str {s t : String} (h : s < t) : Below (str s) (str t)

namespace Below

theorem irrefl (v : Value) : ¬v.Below v := by
  intro h
  cases h with
  | int h => exact lt_irrefl _ h
  | float _ _ h => exact lt_irrefl _ h
  | bool h => exact lt_irrefl _ h
  | str h => exact lt_irrefl _ h

theorem trans {u v w : Value} (first : u.Below v) (second : v.Below w) : u.Below w := by
  cases first with
  | int h =>
    cases second with
    | int h' => exact .int (h.trans h')
    | intFloat ordered h' => exact .intFloat ordered ((Binary64.key_ofInt_mono h.le).trans_lt h')
  | intFloat ordered h =>
    cases second with
    | floatInt _ h' =>
      -- The rounded integers are in order, and rounding keeps the order, so the integers are.
      exact .int (lt_imp_lt_of_le_imp_le Binary64.key_ofInt_mono (h.trans h'))
    | float _ ordered' h' => exact .intFloat ordered' (h.trans h')
  | floatInt ordered h =>
    cases second with
    | int h' => exact .floatInt ordered (h.trans_le (Binary64.key_ofInt_mono h'.le))
    | intFloat ordered' h' => exact .float ordered ordered' (h.trans h')
  | float ordered _ h =>
    cases second with
    | floatInt _ h' => exact .floatInt ordered (h.trans h')
    | float _ ordered' h' => exact .float ordered ordered' (h.trans h')
  | bool h =>
    cases second with
    | bool h' => exact .bool (h.trans h')
  | str h =>
    cases second with
    | str h' => exact .str (h.trans h')

theorem asymm {v w : Value} (h : v.Below w) : ¬w.Below v := fun back => irrefl v (h.trans back)

end Below

theorem relation_of_below {v w : Value} (h : v.Below w) : v.relation w = some .less := by
  cases h with
  | int h => exact congrArg some (Relation.less_compare.mpr h)
  | intFloat ordered h =>
    exact congrArg some (Binary64.relation_eq_less.mpr ⟨Binary64.isNaN_ofInt _, ordered, h⟩)
  | floatInt ordered h =>
    exact congrArg some (Binary64.relation_eq_less.mpr ⟨ordered, Binary64.isNaN_ofInt _, h⟩)
  | float left right h => exact congrArg some (Binary64.relation_eq_less.mpr ⟨left, right, h⟩)
  | bool h => exact congrArg some (Relation.less_compare.mpr h)
  | str h => exact congrArg some (Relation.less_compare.mpr h)

theorem below_of_relation {v w : Value} (h : v.relation w = some .less) : v.Below w := by
  cases v <;> cases w <;> try cases h
  case int.int => exact .int (Relation.less_compare.mp (Option.some_inj.mp h))
  case int.float =>
    obtain ⟨-, ordered, less⟩ := Binary64.relation_eq_less.mp (Option.some_inj.mp h)
    exact .intFloat ordered less
  case float.int =>
    obtain ⟨ordered, -, less⟩ := Binary64.relation_eq_less.mp (Option.some_inj.mp h)
    exact .floatInt ordered less
  case float.float =>
    obtain ⟨left, right, less⟩ := Binary64.relation_eq_less.mp (Option.some_inj.mp h)
    exact .float left right less
  case bool.bool => exact .bool (Relation.less_compare.mp (Option.some_inj.mp h))
  case str.str => exact .str (Relation.less_compare.mp (Option.some_inj.mp h))

theorem compare_lt_iff_below {v w : Value} : v.compare .lt w = some true ↔ v.Below w :=
  compare_lt_iff.trans ⟨below_of_relation, relation_of_below⟩

theorem compare_int_float (n : Int64) {x : Binary64} (ordered : x.isNaN = false) (o : Operator) :
    (int n).compare o (float x) =
      some (o.holds (.ofOrdering (Ord.compare (Binary64.ofInt n.toInt).key x.key))) := by
  rw [compare, relation, Option.map_some, Binary64.relation, Binary64.isNaN_ofInt, ordered]
  rfl

section IntFloat

variable {n : Int64} {x : Binary64} (ordered : x.isNaN = false)
include ordered

theorem integerValue_lt (h : (int n).compare .lt (float x) = some true) :
    Binary64.integerValue n.toInt < x.value := by
  cases compare_lt_iff_below.mp h with
  | intFloat _ less =>
    rw [Binary64.key_ofInt] at less
    exact Binary64.lt_value_of_key_lt ordered less

theorem lt_integerValue (h : (int n).compare .gt (float x) = some true) :
    x.value < Binary64.integerValue n.toInt := by
  rw [compare_mirror] at h
  cases compare_lt_iff_below.mp h with
  | floatInt _ less =>
    rw [Binary64.key_ofInt] at less
    exact Binary64.value_lt_of_key_lt ordered less

theorem compare_integerValue (h : n.toInt.natAbs ≤ 2 ^ 53) (o : Operator) :
    (int n).compare o (float x) = some (decide (o.Asks (Binary64.integerValue n.toInt) x.value)) := by
  rw [compare_int_float n ordered, Binary64.compare_key_ofInt h ordered, Operator.holds_compare]

end IntFloat

/-- Beside a double an integer is never on the wrong side of its exact value, and up to `2 ^ 53` every operator asks
about the exact values. -/
theorem mixed_order :
    (∀ (n : Int64) (x : Binary64), x.isNaN = false →
      ((int n).compare .lt (float x) = some true → Binary64.integerValue n.toInt < x.value) ∧
      ((int n).compare .gt (float x) = some true → x.value < Binary64.integerValue n.toInt) ∧
      (n.toInt.natAbs ≤ 2 ^ 53 → ∀ o : Operator,
        (int n).compare o (float x) = some (decide (o.Asks (Binary64.integerValue n.toInt) x.value)))) ∧
    (∀ v : Value, v.compare .lt v ≠ some true) ∧
    (∀ v w : Value, v.compare .lt w = some true → w.compare .lt v ≠ some true) ∧
    (∀ u v w : Value, u.compare .lt v = some true → v.compare .lt w = some true → u.compare .lt w = some true) ∧
    (∃ (m n : Int64) (x : Binary64), (int m).compare .eq (float x) = some true ∧
      (float x).compare .eq (int n) = some true ∧ (int m).compare .eq (int n) = some false) := by
  refine ⟨?_, ?_, ?_, ?_, ?_⟩
  · intro n x ordered
    exact ⟨integerValue_lt ordered, lt_integerValue ordered, compare_integerValue ordered⟩
  · intro v h
    exact Below.irrefl v (compare_lt_iff_below.mp h)
  · intro v w h back
    exact Below.asymm (compare_lt_iff_below.mp h) (compare_lt_iff_below.mp back)
  · intro u v w first second
    rw [compare_lt_iff_below] at first second ⊢
    exact first.trans second
  · -- Both integers have the double `2 ^ 53` nearest to them.
    exact ⟨9007199254740993, 9007199254740992, ⟨0x4340000000000000⟩, by decide, by decide, by decide⟩

theorem mixed_order_large :
    Binary64.integerValue (Int64.toInt 9223372036854775807) < Binary64.value ⟨0x7FF0000000000000⟩ ∧
    Binary64.value ⟨0x43DFFFFFFFFFFFFF⟩ < Binary64.integerValue (Int64.toInt 9223372036854775807) ∧
    (∀ o : Operator, (int (-3)).compare o (float ⟨0xC004000000000000⟩) = some (decide
      (o.Asks (Binary64.integerValue (Int64.toInt (-3))) (Binary64.value ⟨0xC004000000000000⟩)))) ∧
    (int 2).compare .lt (float ⟨0x4004000000000000⟩) = some true ∧
    (float ⟨0x4004000000000000⟩).compare .lt (int 2) ≠ some true ∧
    (int 2).compare .lt (int 3) = some true := by
  obtain ⟨beside, -, asymm, trans, -⟩ := mixed_order
  have below : (int 2).compare .lt (float ⟨0x4004000000000000⟩) = some true := by decide
  refine ⟨?_, ?_, ?_, below, asymm _ _ below, ?_⟩
  · exact (beside 9223372036854775807 ⟨0x7FF0000000000000⟩ (by decide)).1 (by decide)
  · exact (beside 9223372036854775807 ⟨0x43DFFFFFFFFFFFFF⟩ (by decide)).2.1 (by decide)
  · exact (beside (-3) ⟨0xC004000000000000⟩ (by decide)).2.2 (by decide)
  · exact trans _ _ _ below (by decide)

end Value

end Rulebook
