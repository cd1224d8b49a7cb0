import Rulebook.Proofs.ReloadedRuns

namespace Rulebook

open Results

namespace Condition

end Condition

namespace Store

def Within (s t : Store) : Prop := ∀ i r, s.get i = .ok r → t.get i = .ok r

theorem Within.refl (s : Store) : s.Within s := fun _ _ h => h

theorem Within.trans {s t u : Store} (h : s.Within t) (g : t.Within u) : s.Within u :=
  fun i r hr => g i r (h i r hr)

theorem Within.mapM {s t : Store} (h : s.Within t) {ids : List RuleId} {parts : List Rule}
    (found : ids.mapM s.get = .ok parts) : ids.mapM t.get = .ok parts := by
  induction ids generalizing parts with
  | nil => exact found
  | cons i ids ih =>
    rw [List.mapM_cons] at found
    obtain ⟨r, first, others⟩ := bind_ok_iff.mp found
    obtain ⟨rs, rest, same⟩ := bind_ok_iff.mp others
    rw [List.mapM_cons, h i r first, ih rest]
    exact same

end Store

namespace Engine

variable {e e' : Engine} {ids : List RuleId} {i : RuleId}

def combined (i : RuleId) (first : Rule) (rest : List Rule) : Rule :=
  ⟨i, (rest.map Rule.condition).foldl .and first.condition,
    Combination.source first.source (rest.map Rule.source)⟩

theorem free_nextId (h : e.store.Numbered) (old : Rule) : e.store.get e.store.nextId ≠ .ok old := by
  rw [h.get_nextId]
  exact fun stored => nomatch stored

end Engine

end Rulebook
