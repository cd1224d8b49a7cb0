import Rulebook.Proofs.ParserGrammar
import Rulebook.Proofs.Results
import Rulebook.Proofs.Seams
import Rulebook.Store

/-!
The text that several rules are combined to. It is put together without being parsed, yet parsing it
gives the combined condition, because its tokens are those of the parts with parentheses and AND.
-/

namespace Rulebook

def Chain (text : String) (c : Condition) (nesting : Nat) : Prop :=
  ∃ ts, Lexes text.toList ts ∧ Phrase .conjunction ts c ∧ tokenNesting ts = nesting

namespace Chain

variable {text s : String} {a c : Condition} {n : Nat}

theorem parens (h : Denotes s c) : Chain ("(" ++ s ++ ")") c (parenNesting s + 1) := by
  have part := h.lexes.parens
  have nests := tokenNesting_group h.2.balanced
  rw [← parenNesting_eq] at nests
  refine ⟨_, ?_, .single (.group h.2), nests⟩
  simpa using part

theorem and (ht : Chain text a n) (h : Denotes s c) :
    Chain (text ++ " AND (" ++ s ++ ")") (.and a c) (max n (parenNesting s + 1)) := by
  obtain ⟨ts, lexes, phrase, nests⟩ := ht
  have whole := lexes.conjoin h.lexes.parens
  have nesting :
      tokenNesting (ts ++ .and :: .leftParen :: ((Tokens.ofString s).plain ++ [.rightParen])) = _ :=
    tokenNesting_join phrase.balanced .and rfl
  rw [nests, tokenNesting_group h.2.balanced, ← parenNesting_eq] at nesting
  refine ⟨_, ?_, .and phrase (.group h.2), nesting⟩
  simpa using whole

theorem denotes (h : Chain text c n) : Denotes text c := by
  obtain ⟨ts, lexes, phrase, -⟩ := h
  exact denotes_of_lexes lexes (.alone phrase)

theorem nesting (h : Chain text c n) : parenNesting text = n := by
  obtain ⟨ts, lexes, -, nests⟩ := h
  have plain : (Tokens.ofString text).plain = ts := lexes.plain 0
  rw [parenNesting_eq, plain, nests]

theorem parse_ok_iff (h : Chain text c n) {b : Bounds} {d : Condition} :
    Condition.parse b text = .ok d ↔ d = c ∧ n ≤ b.nesting ∧ b.Admits c := by
  rw [Rulebook.parse_ok_iff, h.nesting]
  constructor
  · rintro ⟨denotes, shallow, low⟩
    cases denotes.2.unique h.denotes.2
    exact ⟨rfl, shallow, low⟩
  · rintro ⟨rfl, within⟩
    exact ⟨h.denotes, within⟩

end Chain

namespace Combination

theorem chain_foldl {rest : List Rule} (h : ∀ r ∈ rest, Denotes r.source r.condition) {text : String}
    {a : Condition} {n : Nat} (ht : Chain text a (n + 1)) :
    Chain ((rest.map Rule.source).foldl (fun text s => text ++ " AND (" ++ s ++ ")") text)
      ((rest.map Rule.condition).foldl .and a)
      ((rest.map fun r => parenNesting r.source).foldl max n + 1) := by
  induction rest generalizing text a n with
  | nil => exact ht
  | cons r rest ih =>
    have longer := ht.and (h r List.mem_cons_self)
    rw [Nat.add_max_add_right] at longer
    exact ih (fun s hs => h s (List.mem_cons_of_mem r hs)) longer

theorem source_chain {first : Rule} {rest : List Rule}
    (h : ∀ r ∈ first :: rest, Denotes r.source r.condition) :
    Chain (source first.source (rest.map Rule.source)) (condition first.condition (rest.map Rule.condition))
      (nesting (first :: rest)) := by
  have opened := Chain.parens (h first List.mem_cons_self)
  have whole := chain_foldl (fun r hr => h r (List.mem_cons_of_mem first hr)) opened
  rw [nesting, List.map_cons, List.foldl_cons, Nat.zero_max]
  exact whole

theorem height_eq_depth (first : Condition) (rest : List Condition) :
    height first rest = (condition first rest).depth := by
  induction rest generalizing first with
  | nil => rfl
  | cons c rest ih => exact ih (.and first c)

def joined? : List Rule → Option (Condition × String)
  | [] => none
  | first :: rest =>
    some (condition first.condition (rest.map Rule.condition), source first.source (rest.map Rule.source))

theorem make_ok_iff {b : Bounds} {parts : List Rule} {p : Condition × String} :
    make b parts = .ok p ↔ joined? parts = some p ∧ nesting parts ≤ b.nesting ∧ p.1.depth ≤ b.tree := by
  cases parts with
  | nil => simp [make, joined?]
  | cons first rest =>
    simp only [make, joined?, height_eq_depth, Option.some.injEq]
    by_cases deep : b.nesting < nesting (first :: rest)
    · simp [deep, Nat.not_le.mpr deep]
    · by_cases high : b.tree < (condition first.condition (rest.map Rule.condition)).depth
      · simp only [deep, high, ↓reduceIte, reduceCtorEq, false_iff]
        rintro ⟨rfl, -, low⟩
        exact Nat.not_lt.mpr low high
      · simp only [deep, high, ↓reduceIte, Except.ok.injEq]
        constructor
        · rintro rfl
          exact ⟨rfl, Nat.not_lt.mp deep, Nat.not_lt.mp high⟩
        · exact And.left

theorem parse_of_make {b : Bounds} {parts : List Rule} {c : Condition} {text : String}
    (h : ∀ r ∈ parts, Denotes r.source r.condition) (hm : make b parts = .ok (c, text)) :
    Condition.parse b text = .ok c := by
  obtain ⟨joined, shallow, low⟩ := make_ok_iff.mp hm
  cases parts with
  | nil => cases joined
  | cons first rest =>
    cases joined
    exact (source_chain h).parse_ok_iff.mpr ⟨rfl, shallow, .inl low⟩

end Combination

end Rulebook
