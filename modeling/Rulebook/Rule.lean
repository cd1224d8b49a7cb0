import Rulebook.Condition.Parse

namespace Rulebook

structure RuleId where
  value : UInt64
deriving DecidableEq, Inhabited

namespace RuleId

instance : Ord RuleId := ⟨fun a b => compare a.value b.value⟩

instance : Std.TransOrd RuleId where
  eq_swap {a b} :=
    (Std.OrientedCmp.eq_swap : compare a.value b.value = (compare b.value a.value).swap)
  isLE_trans {a _ c} h g :=
    (Std.TransCmp.isLE_trans h g : (compare a.value c.value).isLE)

instance : Std.LawfulEqOrd RuleId where
  compare_self {a} := (Std.ReflCmp.compare_self : compare a.value a.value = .eq)
  eq_of_compare {a b} h := by
    cases a
    cases b
    exact congrArg mk (Std.LawfulEqOrd.eq_of_compare h)

def text (i : RuleId) : String := toString i.value.toNat

end RuleId

structure Rule where
  id : RuleId
  condition : Condition
  source : String
deriving DecidableEq, Inhabited

def Rule.text (r : Rule) : String := "Rule(" ++ r.id.text ++ ": " ++ r.source ++ ")"

end Rulebook
