import Rulebook.Proofs.PrintedValues

namespace Rulebook

theorem stop_space : Stop ' ' := ⟨rfl, by decide, by decide, by decide, by decide⟩

theorem stop_leftParen : Stop '(' := ⟨rfl, by decide, by decide, by decide, by decide⟩

theorem stop_rightParen : Stop ')' := ⟨rfl, by decide, by decide, by decide, by decide⟩

namespace Lexes

variable {cs ds : List Char} {ts us : List Token}

theorem spaced (h : Lexes cs ts) (hu : Lexes ds us) : Lexes (cs ++ ' ' :: ds) (ts ++ us) := by
  apply h.append (stops_cons stop_space ds)
  exact hu.blank rfl

theorem leftParen (h : Lexes cs ts) : Lexes ('(' :: cs) (.leftParen :: ts) := by
  apply token (n := 0) rfl rfl
  exact h

theorem rightParen : Lexes [')'] [.rightParen] := by
  apply single rfl
  rfl

theorem parens (h : Lexes cs ts) : Lexes ('(' :: (cs ++ [')'])) (.leftParen :: (ts ++ [.rightParen])) := by
  apply leftParen
  exact h.append (stops_cons stop_rightParen []) rightParen

theorem conjoin (h : Lexes cs ts) (hu : Lexes ds us) :
    Lexes (cs ++ " AND ".toList ++ ds) (ts ++ .and :: us) := by
  have word : Lexes "AND".toList [.and] := lexes_word rfl rfl
  have tail : Lexes ("AND".toList ++ ' ' :: ds) ([.and] ++ us) := word.spaced hu
  have whole := h.spaced tail
  simpa using whole

theorem disjoin (h : Lexes cs ts) (hu : Lexes ds us) :
    Lexes (cs ++ " OR ".toList ++ ds) (ts ++ .or :: us) := by
  have word : Lexes "OR".toList [.or] := lexes_word rfl rfl
  have tail : Lexes ("OR".toList ++ ' ' :: ds) ([.or] ++ us) := word.spaced hu
  have whole := h.spaced tail
  simpa using whole

end Lexes

end Rulebook
