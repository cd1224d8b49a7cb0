import Rulebook.Proofs.PayloadLayout
import Rulebook.Proofs.RestoredRules

/-!
The groups that conditions are flattened to. They are the canonical trees: flattening a condition gives a
canonical one, and a canonical one is what its own condition is flattened to. Of the trees that stand for a
condition the canonical one is never the longer to write.
-/

namespace Rulebook.Snapshot

inductive Connective
  | and
  | or

namespace Connective

def join : Connective → Condition → Condition → Condition
  | and => .and
  | or => .or

def group : Connective → List Tree → Tree
  | and => .and
  | or => .or

def merge : Connective → Tree → Tree → Tree
  | and => .joinAnd
  | or => .joinOr

theorem merge_group (k : Connective) (ts : List Tree) (t : Tree) : k.merge (k.group ts) t = k.group (ts ++ [t]) := by
  cases k <;> rfl

theorem merge_of_ne (k : Connective) {t : Tree} (h : ∀ ts, t ≠ k.group ts) (u : Tree) : k.merge t u = k.group [t, u] := by
  cases k with
  | and =>
    cases t with
    | and ts => exact absurd rfl (h ts)
    | _ => rfl
  | or =>
    cases t with
    | or ts => exact absurd rfl (h ts)
    | _ => rfl

theorem foldl_merge_group (k : Connective) (ts us : List Tree) :
    us.foldl k.merge (k.group ts) = k.group (ts ++ us) := by
  induction us generalizing ts with
  | nil => rw [List.append_nil, List.foldl_nil]
  | cons u us ih => rw [List.foldl_cons, merge_group, ih, List.append_assoc, List.singleton_append]

theorem foldl_merge_cases (k : Connective) (t u : Tree) (us : List Tree) :
    (∃ ts, t = k.group ts ∧ (u :: us).foldl k.merge t = k.group (ts ++ u :: us)) ∨
      (∀ ts, t ≠ k.group ts) ∧ (u :: us).foldl k.merge t = k.group (t :: u :: us) := by
  by_cases h : ∃ ts, t = k.group ts
  · obtain ⟨ts, rfl⟩ := h
    exact .inl ⟨ts, rfl, foldl_merge_group k ts (u :: us)⟩
  · rw [not_exists] at h
    right
    refine ⟨h, ?_⟩
    rw [List.foldl_cons, merge_of_ne k h, foldl_merge_group]
    rfl

theorem ofCondition_join (k : Connective) (a b : Condition) :
    Tree.ofCondition (k.join a b) = k.merge (.ofCondition a) (.ofCondition b) := by
  cases k <;> rfl

theorem ofCondition_foldl (k : Connective) (c : Condition) (cs : List Condition) :
    Tree.ofCondition (cs.foldl k.join c) = (cs.map Tree.ofCondition).foldl k.merge (.ofCondition c) := by
  induction cs generalizing c with
  | nil => rfl
  | cons d cs ih => rw [List.foldl_cons, ih, ofCondition_join, List.map_cons, List.foldl_cons]

theorem group_injective {k l : Connective} {ts us : List Tree} (h : k.group ts = l.group us) : k = l ∧ ts = us := by
  cases k <;> cases l <;> cases h <;> exact ⟨rfl, rfl⟩

theorem group_folds_iff (k : Connective) {ts : List Tree} {a : Condition} :
    (k.group ts).Folds a ↔ ∃ c cs, List.Forall₂ Tree.Folds ts (c :: cs) ∧ a = cs.foldl k.join c := by
  cases k with
  | and => exact Tree.folds_and_iff
  | or => exact Tree.folds_or_iff

end Connective

namespace Tree

inductive Canonical : Tree → Prop
  | leaf (f : String) (o : Operator) (v : Value) : Canonical (.leaf f o v)
  | group (k : Connective) {t u : Tree} {ts : List Tree} :
    (∀ vs, t ≠ k.group vs) → (∀ s ∈ t :: u :: ts, Canonical s) → Canonical (k.group (t :: u :: ts))

theorem canonical_group_iff {k : Connective} {ts : List Tree} :
    (k.group ts).Canonical ↔
      ∃ t u us, ts = t :: u :: us ∧ (∀ vs, t ≠ k.group vs) ∧ ∀ s ∈ ts, s.Canonical := by
  constructor
  · intro h
    generalize same : k.group ts = t at h
    cases h with
    | leaf f o v => cases k <;> cases same
    | group l first parts =>
      obtain ⟨rfl, rfl⟩ := Connective.group_injective same
      exact ⟨_, _, _, rfl, first, parts⟩
  · rintro ⟨t, u, us, rfl, first, parts⟩
    exact .group k first parts

theorem Canonical.pair {k : Connective} {s t : Tree} (first : ∀ vs, s ≠ k.group vs) (hs : s.Canonical)
    (ht : t.Canonical) : (k.group [s, t]).Canonical := by
  apply Canonical.group k first
  simp only [List.mem_cons, List.not_mem_nil, or_false]
  rintro u (rfl | rfl)
  · exact hs
  · exact ht

theorem Canonical.merge {s t : Tree} (hs : s.Canonical) (ht : t.Canonical) (k : Connective) :
    (k.merge s t).Canonical := by
  rcases k.foldl_merge_cases s t [] with ⟨ts, rfl, merged⟩ | ⟨other, merged⟩
  · obtain ⟨t₁, t₂, rest, rfl, first, parts⟩ := canonical_group_iff.mp hs
    rw [List.foldl_cons, List.foldl_nil] at merged
    rw [merged]
    refine canonical_group_iff.mpr ⟨t₁, t₂, rest ++ [t], rfl, first, ?_⟩
    intro u hu
    rcases List.mem_append.mp hu with hu | hu
    · exact parts u hu
    · rw [List.mem_singleton.mp hu]
      exact ht
  · rw [List.foldl_cons, List.foldl_nil] at merged
    rw [merged]
    exact .pair other hs ht

theorem canonical_ofCondition (c : Condition) : (ofCondition c).Canonical := by
  induction c with
  | compare f o v => exact .leaf f o v
  | and a b iha ihb => exact iha.merge ihb .and
  | or a b iha ihb => exact iha.merge ihb .or

theorem map_ofCondition {ts : List Tree} {cs : List Condition} (folds : List.Forall₂ Folds ts cs)
    (h : ∀ t ∈ ts, ∀ {c : Condition}, t.Folds c → ofCondition c = t) : cs.map ofCondition = ts := by
  induction folds with
  | nil => rfl
  | cons first _ ih =>
    obtain ⟨same, others⟩ := List.forall_mem_cons.mp h
    rw [List.map_cons, same first, ih others]

theorem Canonical.ofCondition_eq {t : Tree} (h : t.Canonical) {c : Condition} (folds : t.Folds c) :
    ofCondition c = t := by
  induction h generalizing c with
  | leaf f o v =>
    cases folds
    rfl
  | @group k t u ts first _ ih =>
    obtain ⟨a, cs, parts, rfl⟩ := k.group_folds_iff.mp folds
    have same := map_ofCondition parts ih
    rw [List.map_cons, List.cons_eq_cons] at same
    rw [Connective.ofCondition_foldl, same.1, same.2]
    rcases k.foldl_merge_cases t u ts with ⟨vs, grouped, -⟩ | ⟨-, merged⟩
    · exact absurd grouped (first vs)
    · exact merged

theorem group_length (k : Connective) (ts : List Tree) :
    (Encode.tree (k.group ts)).length = 1 + (Varint.encode ts.length).length + (Encode.trees ts).length := by
  cases k <;> simp only [Connective.group, Encode.tree, List.length_append] <;> rfl

theorem trees_length_le (k : Connective) (ts : List Tree) :
    (Encode.trees ts).length ≤ (Encode.tree (k.group ts)).length := by
  rw [group_length]
  omega

theorem encode_add_length {m n : Nat} (h : m + n < 0x100000000) :
    (Varint.encode (m + n)).length ≤ 1 + (Varint.encode m).length + (Varint.encode (1 + n)).length := by
  simp only [Varint.encode_length]
  grind

theorem foldl_merge_length (k : Connective) (t : Tree) (us : List Tree)
    (h : (Encode.tree t).length + (Encode.trees us).length < 0x100000000) :
    (Encode.tree (us.foldl k.merge t)).length ≤
      1 + (Varint.encode (1 + us.length)).length + ((Encode.tree t).length + (Encode.trees us).length) := by
  cases us with
  | nil => rw [List.foldl_nil]; omega
  | cons u us =>
    rcases k.foldl_merge_cases t u us with ⟨ts, rfl, merged⟩ | ⟨-, merged⟩
    · -- The new count may need more bytes, but the inner group gives up its tag and its count.
      have old := count_le_trees ts
      have new := count_le_trees (u :: us)
      have both : Encode.trees (ts ++ u :: us) = Encode.trees ts ++ Encode.trees (u :: us) := by
        simp only [trees_eq_flatMap, List.flatMap_append]
      rw [group_length] at h ⊢
      rw [merged, group_length, both, List.length_append, List.length_append]
      have counts := encode_add_length (m := ts.length) (n := (u :: us).length) (by omega)
      omega
    · have whole : (t :: u :: us).length = 1 + (u :: us).length := by simp only [List.length_cons]; omega
      rw [merged]
      apply Nat.le_of_eq
      rw [group_length, whole, Encode.trees, List.length_append]

theorem group_ofCondition_length_le (k : Connective) {ts : List Tree} {c : Condition} (folds : (k.group ts).Folds c)
    (h : (Encode.tree (k.group ts)).length < 0x100000000)
    (parts : ∀ {cs : List Condition}, List.Forall₂ Folds ts cs →
      (Encode.trees (cs.map ofCondition)).length ≤ (Encode.trees ts).length) :
    (Encode.tree (ofCondition c)).length ≤ (Encode.tree (k.group ts)).length := by
  obtain ⟨a, cs, folded, rfl⟩ := k.group_folds_iff.mp folds
  have shorter := parts folded
  have count : ts.length = 1 + (cs.map ofCondition).length := by
    rw [folded.length_eq, List.length_map, List.length_cons, Nat.add_comm]
  rw [List.map_cons, Encode.trees, List.length_append] at shorter
  rw [group_length] at h ⊢
  have merged := foldl_merge_length k (ofCondition a) (cs.map ofCondition) (by omega)
  rw [Connective.ofCondition_foldl, count]
  omega

mutual

theorem ofCondition_length_le : (t : Tree) → {c : Condition} → t.Folds c →
    (Encode.tree t).length < 0x100000000 → (Encode.tree (ofCondition c)).length ≤ (Encode.tree t).length
  | .leaf f o v, _, .leaf _ _ _, _ => Nat.le_refl _
  | .and ts, _, folds, h => by
    have inner := Nat.lt_of_le_of_lt (trees_length_le .and ts) h
    exact group_ofCondition_length_le .and folds h fun parts => map_ofCondition_length_le ts parts inner
  | .or ts, _, folds, h => by
    have inner := Nat.lt_of_le_of_lt (trees_length_le .or ts) h
    exact group_ofCondition_length_le .or folds h fun parts => map_ofCondition_length_le ts parts inner

theorem map_ofCondition_length_le : (ts : List Tree) → {cs : List Condition} → List.Forall₂ Folds ts cs →
    (Encode.trees ts).length < 0x100000000 → (Encode.trees (cs.map ofCondition)).length ≤ (Encode.trees ts).length
  | [], _, .nil, _ => Nat.le_refl _
  | t :: ts, _, .cons first others, h => by
    rw [Encode.trees, List.length_append] at h
    have head := ofCondition_length_le t first (by omega)
    have tail := map_ofCondition_length_le ts others (by omega)
    rw [List.map_cons, Encode.trees, Encode.trees, List.length_append, List.length_append]
    omega

end

end Tree

end Rulebook.Snapshot
