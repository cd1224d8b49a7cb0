import Rulebook.Proofs.RequestEffects

/-!
Two ways to bound a combination: counting over its parts, and parsing the text it is given. They let the
same combinations through, and then they agree on the tree.
-/

namespace Rulebook

open Results

theorem Bounds.admits_iff {b : Bounds} (h : 1 ≤ b.tree) (c : Condition) : b.Admits c ↔ c.depth ≤ b.tree := by
  constructor
  · rintro (low | leaf)
    · exact low
    · cases c with
      | compare f o v => exact h
      | and _ _ => cases leaf
      | or _ _ => cases leaf
  · exact .inl

namespace Combination

def wrapped (s : String) : String := "(" ++ s ++ ")"

theorem foldl_eq_intercalate (first : String) (rest : List String) :
    rest.foldl (fun text s => text ++ " AND (" ++ s ++ ")") first =
      " AND ".intercalate (first :: rest.map wrapped) := by
  induction rest generalizing first with
  | nil => simp
  | cons s rest ih =>
    have joint : " AND (" = " AND " ++ "(" := rfl
    have split : first ++ " AND (" ++ s ++ ")" = first ++ " AND " ++ wrapped s := by
      rw [joint, wrapped]
      simp only [String.append_assoc]
    rw [List.foldl_cons, ih, split, String.intercalate_cons_append, List.map_cons, String.intercalate_cons_cons]

theorem source_eq_intercalate (first : String) (rest : List String) :
    source first rest = " AND ".intercalate ((first :: rest).map wrapped) :=
  foldl_eq_intercalate _ rest

theorem make_ok_iff_parse {b : Bounds} (h : 1 ≤ b.tree) {first : Rule} {rest : List Rule}
    (denotes : ∀ r ∈ first :: rest, Denotes r.source r.condition) {c : Condition} {text : String} :
    make b (first :: rest) = .ok (c, text) ↔
      source first.source (rest.map Rule.source) = text ∧ Condition.parse b text = .ok c := by
  have chain := source_chain denotes
  rw [make_ok_iff, joined?]
  constructor
  · rintro ⟨joined, shallow, low⟩
    cases joined
    exact ⟨rfl, chain.parse_ok_iff.mpr ⟨rfl, shallow, .inl low⟩⟩
  · rintro ⟨rfl, parsed⟩
    obtain ⟨rfl, shallow, admitted⟩ := chain.parse_ok_iff.mp parsed
    exact ⟨rfl, shallow, (Bounds.admits_iff h _).mp admitted⟩

end Combination

namespace Store

theorem combine_of_make {s : Store} {b : Bounds} {ids : List RuleId} {parts : List Rule} {c : Condition}
    {source : String} (found : ids.mapM s.get = .ok parts) (made : Combination.make b parts = .ok (c, source)) :
    s.combine b ids = .ok (s.create c source) := by
  simp only [combine, found, bind, Except.bind, made]
  rfl

theorem denotes_of_mapM {s : Store} {ids : List RuleId} {parts : List Rule}
    (described : s.All fun r => ∃ b, Condition.parse b r.source = .ok r.condition)
    (found : ids.mapM s.get = .ok parts) : ∀ r ∈ parts, Denotes r.source r.condition := by
  intro r hr
  obtain ⟨i, -, stored⟩ := exists_of_mem_mapM found r hr
  obtain ⟨b, parsed⟩ := described.of_get (get_eq_ok_iff.mp stored)
  exact (parse_ok_iff.mp parsed).1

theorem combine_iff_parse {s : Store} (described : s.All fun r => ∃ b, Condition.parse b r.source = .ok r.condition)
    {ids : List RuleId} (nonempty : ids ≠ []) {parts : List Rule} (found : ids.mapM s.get = .ok parts)
    {b : Bounds} (tree : 1 ≤ b.tree) :
    ((∃ i t, s.combine b ids = .ok (i, t)) ↔
        ∃ c, Condition.parse b (" AND ".intercalate (parts.map fun r => "(" ++ r.source ++ ")")) = .ok c) ∧
      ∀ i t, s.combine b ids = .ok (i, t) →
        ∃ r, t.get i = .ok r ∧ r.source = " AND ".intercalate (parts.map fun r => "(" ++ r.source ++ ")") ∧
          Condition.parse b r.source = .ok r.condition := by
  have denotes := denotes_of_mapM described found
  cases parts with
  | nil =>
    cases ids with
    | nil => exact absurd rfl nonempty
    | cons i ids =>
      obtain ⟨r, -, others⟩ := bind_ok_iff.mp (List.mapM_cons.symm.trans found)
      obtain ⟨rs, -, same⟩ := bind_ok_iff.mp others
      cases same
  | cons first rest =>
    have text : Combination.source first.source (rest.map Rule.source) =
        " AND ".intercalate ((first :: rest).map fun r => "(" ++ r.source ++ ")") := by
      rw [Combination.source_eq_intercalate, ← List.map_cons, List.map_map]
      rfl
    rw [← text]
    constructor
    · constructor
      · rintro ⟨i, t, combined⟩
        obtain ⟨parts, c, source, found', made, -, -⟩ := combine_ok combined
        cases found.symm.trans found'
        obtain ⟨rfl, parsed⟩ := (Combination.make_ok_iff_parse tree denotes).mp made
        exact ⟨c, parsed⟩
      · rintro ⟨c, parsed⟩
        have made := (Combination.make_ok_iff_parse tree denotes).mpr ⟨rfl, parsed⟩
        exact ⟨_, _, combine_of_make found made⟩
    · intro i t combined
      obtain ⟨parts, c, source, found', made, rfl, rfl⟩ := combine_ok combined
      cases found.symm.trans found'
      obtain ⟨rfl, parsed⟩ := (Combination.make_ok_iff_parse tree denotes).mp made
      exact ⟨_, get_apply_self _ _, rfl, parsed⟩

theorem combine_iff_parse_sample :
    let a : Condition := .compare "a" .eq (.int 1)
    let b : Condition := .compare "b" .eq (.int 2)
    let s : Store := ((empty.create a "((a = 1))").2.create b "b = 2").2
    (s.All fun r => ∃ b, Condition.parse b r.source = .ok r.condition) ∧
      [⟨1⟩, ⟨2⟩].mapM s.get = .ok [⟨⟨1⟩, a, "((a = 1))"⟩, ⟨⟨2⟩, b, "b = 2"⟩] ∧
      (∃ i t, s.combine ⟨3, 2⟩ [⟨1⟩, ⟨2⟩] = .ok (i, t)) ∧ (¬∃ i t, s.combine ⟨2, 2⟩ [⟨1⟩, ⟨2⟩] = .ok (i, t)) ∧
      ¬∃ i t, s.combine ⟨3, 1⟩ [⟨1⟩, ⟨2⟩] = .ok (i, t) := by
  intro a b s
  have first : Condition.parse ⟨2, 0⟩ "((a = 1))" = .ok a := by
    apply toOption_eq_some_iff.mp
    decide +kernel
  have second : Condition.parse ⟨0, 0⟩ "b = 2" = .ok b := by
    apply toOption_eq_some_iff.mp
    decide +kernel
  have described : s.All fun r => ∃ b, Condition.parse b r.source = .ok r.condition := by
    apply All.insert
    · exact (all_empty _).insert ⟨_, first⟩ _ _
    · exact ⟨_, second⟩
  have found : [⟨1⟩, ⟨2⟩].mapM s.get = .ok [⟨⟨1⟩, a, "((a = 1))"⟩, ⟨⟨2⟩, b, "b = 2"⟩] := by
    apply toOption_eq_some_iff.mp
    decide +kernel
  have parsed : Condition.parse ⟨3, 2⟩ "(((a = 1))) AND (b = 2)" = .ok (.and a b) := by
    apply toOption_eq_some_iff.mp
    decide +kernel
  have refused : (Condition.parse ⟨2, 2⟩ "(((a = 1))) AND (b = 2)").toOption = none ∧
      (Condition.parse ⟨3, 1⟩ "(((a = 1))) AND (b = 2)").toOption = none := by
    decide +kernel
  refine ⟨described, found, ?_, ?_, ?_⟩
  · exact (combine_iff_parse described (by decide) found (by decide)).1.mpr ⟨_, parsed⟩
  · intro combined
    obtain ⟨c, hc⟩ := (combine_iff_parse described (by decide) found (by decide)).1.mp combined
    exact nomatch refused.1.symm.trans (toOption_eq_some_iff.mpr hc)
  · intro combined
    obtain ⟨c, hc⟩ := (combine_iff_parse described (by decide) found (by decide)).1.mp combined
    exact nomatch refused.2.symm.trans (toOption_eq_some_iff.mpr hc)

end Store

end Rulebook
