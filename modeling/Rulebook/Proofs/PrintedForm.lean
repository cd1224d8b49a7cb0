import Rulebook.Proofs.DecimalText
import Rulebook.Proofs.RaisedLimits
import Rulebook.Proofs.Seams

namespace Rulebook

def keywords : List String := ["AND", "and", "OR", "or", "true", "false"]

def IsFieldName (s : String) : Prop :=
  s ∉ keywords ∧
    ∃ c cs, s.toList = c :: cs ∧ Token.isWordStart c = true ∧ cs.all Token.isWordChar = true

def Value.IsLiteral : Value → Prop
  | float x => x.isFinite = true
  | _ => True

theorem ofWord_of_not_keyword {s : String} (h : s ∉ keywords) : Token.ofWord s.toList = .ident s := by
  simp only [keywords, List.mem_cons, List.not_mem_nil, or_false, not_or] at h
  rw [Token.ofWord, String.ofList_toList]
  split <;> simp_all

theorem lexes_fieldName {s : String} (h : IsFieldName s) : Lexes s.toList [.ident s] := by
  obtain ⟨hk, c, cs, hs, hc, hcs⟩ := h
  have word := lexes_word hc hcs
  rw [← hs, ofWord_of_not_keyword hk] at word
  exact word

theorem lexes_value {v : Value} (h : v.IsLiteral) : Lexes v.chars [.literal v] := by
  cases v with
  | int n => exact lexes_int n
  | float x => exact lexes_float h
  | bool b => exact lexes_bool b
  | str s =>
    have quoted := lexes_quoted s.toList
    rw [String.ofList_toList] at quoted
    exact quoted

namespace Condition

def Expressible : Condition → Prop
  | compare f _ v => IsFieldName f ∧ v.IsLiteral
  | and a b => a.Expressible ∧ b.Expressible
  | or a b => a.Expressible ∧ b.Expressible

def groupTokens (needed : Bool) (ts : List Token) : List Token :=
  if needed then .leftParen :: (ts ++ [.rightParen]) else ts

def tokens : Condition → List Token
  | compare f o v => [.ident f, .op o, .literal v]
  | and a b => groupTokens a.isOr a.tokens ++ .and :: groupTokens (!b.isLeaf) b.tokens
  | or a b => a.tokens ++ .or :: groupTokens b.isOr b.tokens

theorem lexes_group {cs : List Char} {ts : List Token} (h : Lexes cs ts) (needed : Bool) :
    Lexes (group needed cs) (groupTokens needed ts) := by
  cases needed with
  | false => exact h
  | true => exact h.parens

theorem lexes_chars {c : Condition} (h : c.Expressible) : Lexes c.chars c.tokens := by
  induction c with
  | compare f o v =>
    have field := lexes_fieldName h.1
    have value := lexes_value h.2
    exact field.spaced ((lexes_operator o).spaced value)
  | and a b iha ihb => exact (lexes_group (iha h.1) a.isOr).conjoin (lexes_group (ihb h.2) (!b.isLeaf))
  | or a b iha ihb => exact (iha h.1).disjoin (lexes_group (ihb h.2) b.isOr)

def rank : Condition → Rank
  | compare _ _ _ => .operand
  | and _ _ => .conjunction
  | or _ _ => .disjunction

theorem phrase_disjunction {c : Condition} {ts : List Token} (h : Phrase c.rank ts c) :
    Phrase .disjunction ts c := by
  cases c with
  | compare f o v => exact .alone (.single h)
  | and a b => exact .alone h
  | or a b => exact h

theorem phrase_conjunction {c : Condition} {ts : List Token} (h : Phrase c.rank ts c) :
    Phrase .conjunction (groupTokens c.isOr ts) c := by
  cases c with
  | compare f o v => exact .single h
  | and a b => exact h
  | or a b => exact .single (.group h)

theorem phrase_operand {c : Condition} {ts : List Token} (h : Phrase c.rank ts c) :
    Phrase .operand (groupTokens (!c.isLeaf) ts) c := by
  cases c with
  | compare f o v => exact h
  | and a b => exact .group (.alone h)
  | or a b => exact .group h

theorem phrase_tokens (c : Condition) : Phrase c.rank c.tokens c := by
  induction c with
  | compare f o v => exact .compare f o v
  | and a b iha ihb => exact .and (phrase_conjunction iha) (phrase_operand ihb)
  | or a b iha ihb => exact .or (phrase_disjunction iha) (phrase_conjunction ihb)

theorem denotes_text {c : Condition} (h : c.Expressible) : Denotes c.text c := by
  have lexes : Lexes c.text.toList c.tokens := by
    rw [text, String.toList_ofList]
    exact lexes_chars h
  exact denotes_of_lexes lexes (phrase_disjunction (phrase_tokens c))

theorem parenNesting_text {c : Condition} (h : c.Expressible) :
    parenNesting c.text = tokenNesting c.tokens := by
  have plain : (Tokens.ofString c.text).plain = c.tokens := by
    rw [Tokens.ofString, text, String.toList_ofList]
    exact (lexes_chars h).plain 0
  rw [parenNesting_eq, plain]

/-- An expressible condition is read back from its text exactly within the bounds, and beyond them the
text is refused for a limit. -/
theorem parse_printed {c : Condition} (h : c.Expressible) (b : Bounds) :
    (parse b c.text = .ok c ↔
      parenNesting c.text ≤ b.nesting ∧ (c.depth ≤ b.tree ∨ c.isLeaf = true)) ∧
      (¬(parenNesting c.text ≤ b.nesting ∧ (c.depth ≤ b.tree ∨ c.isLeaf = true)) →
        ∃ e, parse b c.text = .error (.parse e) ∧
          (e.fault = .tooDeep b.nesting ∨ e.fault = .treeTooDeep b.tree)) := by
  have denotes := denotes_text h
  have accepted : parse b c.text = .ok c ↔
      parenNesting c.text ≤ b.nesting ∧ (c.depth ≤ b.tree ∨ c.isLeaf = true) := by
    rw [parse_ok_iff]
    exact and_iff_right denotes
  refine ⟨accepted, ?_⟩
  intro beyond
  rcases parse_limited denotes b with read | refused
  · exact absurd (accepted.mp read) beyond
  · exact refused

def sample : Condition :=
  .and (.or (.compare "age" .ge (.float ⟨0x403E800000000000⟩)) (.compare "name" .eq (.str "it's")))
    (.and (.compare "x" .lt (.int (-1))) (.compare "on" .ne (.bool true)))

theorem sample_expressible : sample.Expressible := by
  have age : IsFieldName "age" := ⟨by decide, 'a', ['g', 'e'], by decide, by decide, by decide⟩
  have name : IsFieldName "name" := ⟨by decide, 'n', ['a', 'm', 'e'], by decide, by decide, by decide⟩
  have x : IsFieldName "x" := ⟨by decide, 'x', [], by decide, by decide, by decide⟩
  have on : IsFieldName "on" := ⟨by decide, 'o', ['n'], by decide, by decide, by decide⟩
  have finite : Binary64.isFinite ⟨0x403E800000000000⟩ = true := by decide
  exact ⟨⟨⟨age, finite⟩, ⟨name, trivial⟩⟩, ⟨x, trivial⟩, ⟨on, trivial⟩⟩

theorem parse_printed_sample :
    sample.Expressible ∧ parse ⟨1, 3⟩ sample.text = .ok sample ∧
      ∃ e, parse ⟨0, 3⟩ sample.text = .error (.parse e) ∧
        (e.fault = .tooDeep 0 ∨ e.fault = .treeTooDeep 3) := by
  have nesting : parenNesting sample.text = 1 := by
    rw [parenNesting_text sample_expressible]
    decide
  refine ⟨sample_expressible, ?_, ?_⟩
  · apply (parse_printed sample_expressible ⟨1, 3⟩).1.mpr
    rw [nesting]
    decide
  · apply (parse_printed sample_expressible ⟨0, 3⟩).2
    rw [nesting]
    decide

end Condition

end Rulebook
