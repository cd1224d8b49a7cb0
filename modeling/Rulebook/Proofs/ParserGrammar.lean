import Rulebook.Proofs.ParserCompleteness
import Rulebook.Proofs.TokenStreams

namespace Rulebook

open Condition Results

theorem ofTokens_ok_iff {b : Bounds} {ts : Tokens} {n : Node} :
    ofTokens b ts = .ok n ↔ run b .start ts = .ok n := by
  cases ts with
  | done p => exact ⟨fun h => (nomatch h), fun h => (nomatch h)⟩
  | fault e => rfl
  | next p t rest => rfl

theorem parse_ok_iff_tokens {b : Bounds} {text : String} {c : Condition} :
    parse b text = .ok c ↔ ofTokens b (.ofString text) = .ok c.node := by
  rw [parse, map_ok_iff]
  constructor
  · rintro ⟨n, hn, hc⟩
    rw [← Node.eq_node hc]
    exact hn
  · intro h
    exact ⟨c.node, h, rfl⟩

def Denotes (text : String) (c : Condition) : Prop :=
  (Tokens.ofString text).error? = none ∧ Phrase .disjunction (Tokens.ofString text).plain c

theorem Denotes.lexes {text : String} {c : Condition} (h : Denotes text c) :
    Lexes text.toList (Tokens.ofString text).plain :=
  lexes_of_scan h.1

theorem denotes_of_lexes {text : String} {ts : List Token} {c : Condition} (h : Lexes text.toList ts)
    (hp : Phrase .disjunction ts c) : Denotes text c := by
  have plain : (Tokens.ofString text).plain = ts := h.plain 0
  constructor
  · exact h.clean 0
  · rw [plain]
    exact hp

theorem parse_ok_iff {b : Bounds} {text : String} {c : Condition} :
    parse b text = .ok c ↔ Denotes text c ∧ parenNesting text ≤ b.nesting ∧ b.Admits c := by
  rw [parse_ok_iff_tokens, ofTokens_ok_iff, parenNesting_eq]
  constructor
  · intro h
    exact ⟨run_phrase h, run_within h⟩
  · rintro ⟨⟨he, hp⟩, hn, hc⟩
    exact hp.run_eq he hn hc

theorem parse_accepts_grammar (b : Bounds) (text : String) (c : Condition) :
    (parse b text = .ok c ↔
      (Tokens.ofString text).error? = none ∧ Phrase .disjunction (Tokens.ofString text).plain c ∧
        parenNesting text ≤ b.nesting ∧ (c.depth ≤ b.tree ∨ c.isLeaf = true)) ∧
      (∀ ts c₁ c₂, Phrase .disjunction ts c₁ → Phrase .disjunction ts c₂ → c₁ = c₂) ∧
      (parse b text = .ok c →
        ∃ n, ofTokens b (.ofString text) = .ok n ∧ n.condition = c ∧ n.height = c.depth) := by
  refine ⟨?_, ?_, ?_⟩
  · rw [parse_ok_iff]
    exact and_assoc
  · intro ts c₁ c₂ h₁ h₂
    exact h₁.unique h₂
  · intro h
    exact ⟨c.node, parse_ok_iff_tokens.mp h, rfl, rfl⟩

end Rulebook
