import Rulebook.Engine
import Rulebook.Proofs.Results

namespace Rulebook

namespace Table

variable {κ ν : Type} [Ord κ]

theorem eq_of_entries {t u : Table κ ν} (h : t.entries = u.entries) : t = u := by
  cases t
  cases u
  cases h
  rfl

theorem mem_of_look [Std.LawfulEqOrd κ] {k : κ} {v : ν} {l : List (κ × ν)} (h : look k l = some v) :
    (k, v) ∈ l := by
  induction l with
  | nil => cases h
  | cons e l ih =>
    simp only [look] at h
    split at h
    · next same =>
      cases h
      rw [Std.LawfulEqOrd.eq_of_compare same]
      exact List.mem_cons_self
    · exact List.mem_cons_of_mem _ (ih h)

theorem mem_of_get? [Std.LawfulEqOrd κ] {t : Table κ ν} {k : κ} {v : ν} (h : t.get? k = some v) :
    (k, v) ∈ t.entries :=
  mem_of_look h

theorem place_perm {k : κ} {v : ν} {l : List (κ × ν)} (h : ∀ e ∈ l, compare k e.1 ≠ .eq) :
    (place k v l).Perm ((k, v) :: l) := by
  induction l with
  | nil => exact .refl _
  | cons e l ih =>
    rw [place]
    split
    · exact .refl _
    · next same => exact absurd same (h e List.mem_cons_self)
    · have later := ih fun d hd => h d (List.mem_cons_of_mem e hd)
      exact (later.cons e).trans (.swap _ _ _)

variable [Std.TransOrd κ]

theorem place_last {k : κ} {v : ν} {l : List (κ × ν)} (h : ∀ e ∈ l, compare e.1 k = .lt) :
    place k v l = l ++ [(k, v)] := by
  induction l with
  | nil => rfl
  | cons e l ih =>
    have above : compare k e.1 = .gt := Std.OrientedCmp.gt_iff_lt.mpr (h e List.mem_cons_self)
    rw [place, above, ih fun d hd => h d (List.mem_cons_of_mem e hd)]
    rfl

theorem foldl_insert_perm {t : Table κ ν} {l : List (κ × ν)}
    (h : (t.entries ++ l).Pairwise fun a b => compare a.1 b.1 ≠ .eq) :
    (l.foldl (fun t e => t.insert e.1 e.2) t).entries.Perm (t.entries ++ l) := by
  induction l generalizing t with
  | nil => simp
  | cons e l ih =>
    have others : ∀ d ∈ t.entries, compare e.1 d.1 ≠ .eq := by
      intro d hd same
      exact (List.pairwise_append.mp h).2.2 d hd e List.mem_cons_self (Std.OrientedCmp.eq_symm same)
    have placed : ((t.insert e.1 e.2).entries ++ l).Perm (t.entries ++ e :: l) :=
      ((place_perm others).append_right l).trans List.perm_middle.symm
    have distinct : ((t.insert e.1 e.2).entries ++ l).Pairwise fun a b => compare a.1 b.1 ≠ .eq := by
      apply placed.symm.pairwise h
      intro a b apart same
      exact apart (Std.OrientedCmp.eq_symm same)
    exact (ih distinct).trans placed

theorem ofList_perm {l : List (κ × ν)} (h : l.Pairwise fun a b => compare a.1 b.1 ≠ .eq) :
    (ofList l).entries.Perm l :=
  foldl_insert_perm (t := empty) h

theorem entries_ofList {l : List (κ × ν)} (h : l.Pairwise fun a b => compare a.1 b.1 = .lt) :
    (ofList l).entries = l := by
  have distinct : l.Pairwise fun a b => compare a.1 b.1 ≠ .eq := by
    apply h.imp
    intro a b below same
    rw [below] at same
    cases same
  apply List.Perm.eq_of_pairwise _ (ofList l).ascending h (ofList_perm distinct)
  intro a b _ _ below above
  rw [Std.OrientedCmp.gt_iff_lt.mpr above] at below
  cases below

theorem ofList_entries (t : Table κ ν) : ofList t.entries = t := eq_of_entries (entries_ofList t.ascending)

theorem keys_insert_last {t : Table κ ν} {k : κ} {v : ν} (h : ∀ e ∈ t.entries, compare e.1 k = .lt) :
    (t.insert k v).keys = t.keys ++ [k] := by
  have placed : (t.insert k v).entries = t.entries ++ [(k, v)] := place_last h
  simp only [keys, placed, List.map_append, List.map_cons, List.map_nil]

theorem map_place [Std.LawfulEqOrd κ] {k : κ} {v w : ν} {l : List (κ × ν)}
    (ascending : l.Pairwise fun a b => compare a.1 b.1 = .lt) (h : look k l = some v) :
    (place k w l).map Prod.fst = l.map Prod.fst := by
  induction l with
  | nil => cases h
  | cons e l ih =>
    obtain ⟨above, rest⟩ := List.pairwise_cons.mp ascending
    by_cases same : compare k e.1 = .eq
    · simp only [place, same]
      rw [Std.LawfulEqOrd.eq_of_compare same]
      rfl
    · simp only [look, same, ↓reduceIte] at h
      have below : compare e.1 k = .lt := above (k, v) (mem_of_look h)
      simp only [place, Std.OrientedCmp.gt_iff_lt.mpr below]
      rw [List.map_cons, List.map_cons, ih rest h]

theorem keys_insert_of_get? [Std.LawfulEqOrd κ] {t : Table κ ν} {k : κ} {v w : ν} (h : t.get? k = some v) :
    (t.insert k w).keys = t.keys :=
  map_place t.ascending h

end Table

namespace Store

def Keyed (s : Store) : Prop := ∀ e ∈ s.rules.entries, e.2.id = e.1

structure Numbered (s : Store) : Prop where
  keyed : s.Keyed
  next : 1 ≤ s.nextId.value
  range : ∀ e ∈ s.rules.entries, 1 ≤ e.1.value ∧ e.1.value < s.nextId.value

theorem keyed_empty : empty.Keyed := fun _ h => nomatch h

theorem Keyed.entries {s : Store} (h : s.Keyed) :
    (s.rules.values.map fun r => (r.id, r)) = s.rules.entries := by
  rw [Table.values, List.map_map]
  have same : ∀ e ∈ s.rules.entries, ((fun r : Rule => (r.id, r)) ∘ Prod.snd) e = e := by
    intro e he
    exact Prod.ext (h e he) rfl
  rw [List.map_congr_left same, List.map_id']

theorem Keyed.insert {s : Store} (h : s.Keyed) {r : Rule} {i next : RuleId} (hr : r.id = i) :
    Keyed ⟨s.rules.insert i r, next⟩ := by
  intro e he
  rcases Table.mem_place he with rfl | he
  · exact hr
  · exact h e he

def All (p : Rule → Prop) (s : Store) : Prop := ∀ e ∈ s.rules.entries, p e.2

theorem all_empty (p : Rule → Prop) : empty.All p := fun _ h => nomatch h

theorem All.insert {p : Rule → Prop} {s : Store} (h : s.All p) {r : Rule} (hr : p r) (i next : RuleId) :
    All p ⟨s.rules.insert i r, next⟩ := by
  intro e he
  rcases Table.mem_place he with rfl | he
  · exact hr
  · exact h e he

theorem All.of_get {p : Rule → Prop} {s : Store} (h : s.All p) {i : RuleId} {r : Rule}
    (hr : s.rules.get? i = some r) : p r :=
  h (i, r) (Table.mem_of_get? hr)

end Store

end Rulebook
