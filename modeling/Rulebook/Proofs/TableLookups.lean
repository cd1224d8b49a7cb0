import Rulebook.Proofs.KeyedStores

namespace Rulebook.Table

variable {κ ν μ : Type} [Ord κ]

theorem look_related {R : ν → μ → Prop} {l : List (κ × ν)} {m : List (κ × μ)}
    (h : l.Forall₂ (fun a b => b.1 = a.1 ∧ R a.2 b.2) m) (k : κ) : Option.Rel R (look k l) (look k m) := by
  induction h with
  | nil => exact .none
  | @cons a b l m first _ ih =>
    rw [look, look, first.1]
    split
    · exact .some first.2
    · exact ih

theorem get?_ofList_related [Std.TransOrd κ] (R : ν → μ → Prop) {t : Table κ ν} {m : List (κ × μ)}
    (h : t.entries.Forall₂ (fun a b => b.1 = a.1 ∧ R a.2 b.2) m) (k : κ) :
    Option.Rel R (t.get? k) ((ofList m).get? k) := by
  have keys : t.entries.map Prod.fst = m.map Prod.fst := by
    rw [← List.forall₂_eq_eq_eq, List.forall₂_map_left_iff, List.forall₂_map_right_iff]
    exact h.imp fun _ _ related => related.1.symm
  have listed : (t.entries.map Prod.fst).Pairwise fun a b => compare a b = .lt := List.pairwise_map.mpr t.ascending
  rw [keys] at listed
  rw [get?, get?, entries_ofList (List.pairwise_map.mp listed)]
  exact look_related h k

variable [Std.TransOrd κ] [Std.LawfulEqOrd κ]

theorem look_of_mem {k : κ} {v : ν} {l : List (κ × ν)} (ascending : l.Pairwise fun a b => compare a.1 b.1 = .lt)
    (h : (k, v) ∈ l) : look k l = some v := by
  induction l with
  | nil => cases h
  | cons e l ih =>
    obtain ⟨above, rest⟩ := List.pairwise_cons.mp ascending
    rcases List.mem_cons.mp h with rfl | later
    · simp only [look, Std.ReflCmp.compare_self, ↓reduceIte]
    · have below : compare k e.1 = .gt := Std.OrientedCmp.gt_iff_lt.mpr (above _ later)
      simp only [look, below, reduceCtorEq, ↓reduceIte]
      exact ih rest later

theorem get?_eq_some_iff {t : Table κ ν} {k : κ} {v : ν} : t.get? k = some v ↔ (k, v) ∈ t.entries :=
  ⟨mem_of_get?, look_of_mem t.ascending⟩

theorem ext_get? {t u : Table κ ν} (h : ∀ k, t.get? k = u.get? k) : t = u := by
  have distinct (t : Table κ ν) : t.entries.Nodup := by
    apply t.ascending.imp
    intro a b below same
    rw [same, Std.compare_self] at below
    cases below
  have same : ∀ e, e ∈ t.entries ↔ e ∈ u.entries := by
    rintro ⟨k, v⟩
    rw [← get?_eq_some_iff, ← get?_eq_some_iff, h]
  apply eq_of_entries
  apply List.Perm.eq_of_pairwise _ t.ascending u.ascending
    ((List.perm_ext_iff_of_nodup (distinct t) (distinct u)).mpr same)
  intro a b _ _ below above
  rw [Std.OrientedCmp.gt_iff_lt.mpr above] at below
  cases below

theorem insert_comm {i k : κ} (apart : i ≠ k) (t : Table κ ν) (v w : ν) :
    (t.insert i v).insert k w = (t.insert k w).insert i v := by
  apply ext_get?
  intro j
  rw [get?_insert, get?_insert, get?_insert, get?_insert]
  by_cases first : compare j i = .eq
  · have other : compare j k ≠ .eq := by
      rw [Std.compare_eq_iff_eq.mp first, ne_eq, Std.compare_eq_iff_eq]
      exact apart
    rw [if_neg other, if_pos first, if_pos first]
  · rw [if_neg first, if_neg first]

theorem get?_foldl_insert [DecidableEq κ] (t : Table κ ν) (l : List (κ × ν)) (k : κ) :
    (l.foldl (fun t e => t.insert e.1 e.2) t).get? k =
      ((l.reverse.find? fun e => e.1 = k).map Prod.snd).or (t.get? k) := by
  induction l generalizing t with
  | nil => rfl
  | cons e l ih =>
    rw [List.foldl_cons, ih, List.reverse_cons, List.find?_append, get?_insert]
    simp only [Std.compare_eq_iff_eq, eq_comm (a := k), List.find?_singleton, decide_eq_true_eq]
    cases l.reverse.find? fun e => e.1 = k with
    | some d => rfl
    | none => by_cases same : e.1 = k <;> simp [same]

theorem get?_ofList [DecidableEq κ] (l : List (κ × ν)) (k : κ) :
    (ofList l).get? k = (l.reverse.find? fun e => e.1 = k).map Prod.snd := by
  rw [ofList, get?_foldl_insert, get?_empty, Option.or_none]

end Rulebook.Table
