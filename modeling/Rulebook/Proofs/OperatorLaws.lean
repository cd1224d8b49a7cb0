import Rulebook.Proofs.ByteOrder
import Rulebook.Proofs.OrderedDoubles
import Rulebook.Value

namespace Rulebook

namespace Relation

def swap : Relation → Relation
  | less => greater
  | equal => equal
  | greater => less
  | unordered => unordered

theorem swap_ofOrdering (order : Ordering) : (ofOrdering order).swap = ofOrdering order.swap := by
  cases order <;> rfl

theorem ordered_ofOrdering (order : Ordering) : decide (ofOrdering order = .unordered) = false := by
  cases order <;> rfl

theorem less_compare {α : Type} [LinearOrder α] {a b : α} : ofOrdering (compare a b) = less ↔ a < b := by
  rw [← compare_lt_iff_lt]
  cases compare a b <;> decide

theorem swap_compare {α : Type} [Ord α] [Std.OrientedOrd α] (a b : α) :
    (ofOrdering (compare a b)).swap = ofOrdering (compare b a) := by
  rw [swap_ofOrdering, ← Std.OrientedOrd.eq_swap]

end Relation

namespace Operator

def mirror : Operator → Operator
  | eq => eq
  | ne => ne
  | gt => lt
  | ge => le
  | lt => gt
  | le => ge

theorem holds_swap (o : Operator) (r : Relation) : o.mirror.holds r.swap = o.holds r := by
  cases o <;> cases r <;> rfl

structure Coherent (verdict : Operator → Bool) : Prop where
  ne : verdict .ne = !verdict .eq
  ge : verdict .ge = (verdict .gt || verdict .eq)
  le : verdict .le = (verdict .lt || verdict .eq)
  alone : [lt, eq, gt].countP verdict ≤ 1

theorem coherent_holds (r : Relation) : Coherent (·.holds r) := by
  cases r <;> constructor <;> decide

theorem lt_holds_iff {r : Relation} : lt.holds r = true ↔ r = .less := by
  cases r <;> decide

theorem holds_unordered (o : Operator) : o.holds .unordered = decide (o = .ne) := by
  cases o <;> rfl

theorem countP_holds {r : Relation} (ordered : r ≠ .unordered) : [lt, eq, gt].countP (·.holds r) = 1 := by
  cases r with
  | unordered => exact absurd rfl ordered
  | _ => rfl

end Operator

namespace Binary64

theorem unordered_relation (x y : Binary64) : decide (x.relation y = .unordered) = (x.isNaN || y.isNaN) := by
  rw [relation]
  split
  · next h => rw [h, decide_eq_true rfl]
  · next h => rw [Relation.ordered_ofOrdering, Bool.eq_false_of_not_eq_true h]

theorem swap_relation (x y : Binary64) : (x.relation y).swap = y.relation x := by
  rw [relation, relation, Bool.or_comm]
  split
  · rfl
  · exact Relation.swap_compare _ _

end Binary64

namespace Value

def isNaN : Value → Bool
  | float x => x.isNaN
  | _ => false

theorem relation_of_kind_ne {v w : Value} (h : v.kind ≠ w.kind) : v.relation w = none := by
  cases v <;> cases w <;> first | rfl | exact absurd rfl h

theorem exists_relation {v w : Value} (h : v.kind = w.kind) :
    ∃ r, v.relation w = some r ∧ decide (r = .unordered) = (v.isNaN || w.isNaN) := by
  cases v <;> cases w <;> try cases h
  case int.int a b => exact ⟨_, rfl, Relation.ordered_ofOrdering _⟩
  case int.float a y =>
    refine ⟨_, rfl, ?_⟩
    rw [Binary64.unordered_relation, Binary64.isNaN_ofInt]
    rfl
  case float.int x b =>
    refine ⟨_, rfl, ?_⟩
    rw [Binary64.unordered_relation, Binary64.isNaN_ofInt]
    rfl
  case float.float x y => exact ⟨_, rfl, Binary64.unordered_relation x y⟩
  case bool.bool a b => exact ⟨_, rfl, Relation.ordered_ofOrdering _⟩
  case str.str s t => exact ⟨_, rfl, Relation.ordered_ofOrdering _⟩

theorem swap_relation (v w : Value) : (v.relation w).map Relation.swap = w.relation v := by
  cases v <;> cases w <;> first | rfl | apply congrArg some
  case int.int => exact Relation.swap_compare _ _
  case int.float => exact Binary64.swap_relation _ _
  case float.int => exact Binary64.swap_relation _ _
  case float.float => exact Binary64.swap_relation _ _
  case bool.bool => exact Relation.swap_compare _ _
  case str.str => exact Relation.swap_compare _ _

theorem compare_mirror (v w : Value) (o : Operator) : v.compare o w = w.compare o.mirror v := by
  rw [compare, compare, ← swap_relation v w, Option.map_map]
  congr 1
  funext r
  exact (o.holds_swap r).symm

theorem compare_lt_iff {v w : Value} : v.compare .lt w = some true ↔ v.relation w = some .less := by
  rw [compare, Option.map_eq_some_iff]
  constructor
  · rintro ⟨r, relation, holds⟩
    rw [relation, Operator.lt_holds_iff.mp holds]
  · intro relation
    exact ⟨_, relation, rfl⟩

theorem str_lt_iff {s t : String} : (str s).compare .lt (str t) = some true ↔ s < t := by
  rw [compare_lt_iff, relation, Option.some_inj, Relation.less_compare]

/-- Between values of one kind every operator has an answer. The answers are those of one order, unless there is a
NaN. -/
theorem compare_coherent :
    (∀ v w : Value, v.kind ≠ w.kind → ∀ o, v.compare o w = none) ∧
    (∀ v w : Value, v.kind = w.kind → ∃ verdict : Operator → Bool,
      (∀ o, v.compare o w = some (verdict o)) ∧ Operator.Coherent verdict ∧
      (if v.isNaN || w.isNaN then ∀ o, verdict o = decide (o = .ne)
        else [.lt, .eq, .gt].countP verdict = 1)) ∧
    (∀ (v w : Value) (o : Operator), v.compare o w = w.compare o.mirror v) ∧
    (∀ s t : String, (str s).compare .lt (str t) = some true ↔
      List.Lex (· < ·) s.toUTF8.data.toList t.toUTF8.data.toList) ∧
    (∀ s t u : String, (str s).compare .lt (str t) = some true → (str t).compare .lt (str u) = some true →
      (str s).compare .lt (str u) = some true) ∧
    (∀ s t : String, (str s).compare .lt (str t) = some true ∨ s = t ∨ (str t).compare .lt (str s) = some true) := by
  refine ⟨?_, ?_, compare_mirror, ?_, ?_, ?_⟩
  · intro v w kinds o
    rw [compare, relation_of_kind_ne kinds]
    rfl
  · intro v w kinds
    obtain ⟨r, relation, unordered⟩ := exists_relation kinds
    refine ⟨(·.holds r), ?_, Operator.coherent_holds r, ?_⟩
    · intro o
      rw [compare, relation]
      rfl
    · rw [← unordered]
      split
      · next h =>
        rw [of_decide_eq_true h]
        exact Operator.holds_unordered
      · next h => exact Operator.countP_holds (by simpa using h)
  · intro s t
    exact str_lt_iff.trans toUTF8_lt_iff.symm
  · intro s t u first second
    rw [str_lt_iff] at first second ⊢
    exact first.trans second
  · intro s t
    rw [str_lt_iff, str_lt_iff]
    exact lt_trichotomy s t

theorem compare_coherent_int_nan :
    (∀ o, (int 1).compare o (str "1") = none) ∧
    (∀ o, (int 1).compare o (float ⟨0x7FF8000000000000⟩) = some (decide (o = .ne))) ∧
    (∃ verdict : Operator → Bool, (∀ o, (float ⟨0⟩).compare o (float ⟨0x8000000000000000⟩) = some (verdict o)) ∧
      [.lt, .eq, .gt].countP verdict = 1) ∧
    (str "Z").compare .lt (str "é") = some true := by
  obtain ⟨apart, together, -, bytes, chain, -⟩ := compare_coherent
  refine ⟨apart (int 1) (str "1") (by decide), ?_, ?_, ?_⟩
  · obtain ⟨verdict, answers, -, only⟩ := together (int 1) (float ⟨0x7FF8000000000000⟩) rfl
    rw [if_pos (by decide)] at only
    intro o
    rw [answers, only]
  · obtain ⟨verdict, answers, -, one⟩ := together (float ⟨0⟩) (float ⟨0x8000000000000000⟩) rfl
    rw [if_neg (by decide)] at one
    exact ⟨verdict, answers, one⟩
  · apply chain "Z" "a" "é"
    · exact (bytes "Z" "a").mpr (by decide)
    · exact (bytes "a" "é").mpr (by decide)

end Value

end Rulebook
