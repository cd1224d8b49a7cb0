import Rulebook.Proofs.PrintedForm

namespace Rulebook

open Results

namespace Token

def Printable : Token → Prop
  | ident name => IsFieldName name
  | literal v => v.IsLiteral
  | _ => True

theorem printable_ofWord {c : Char} {cs : List Char} (hc : isWordStart c = true)
    (hcs : cs.all isWordChar = true) : (ofWord (c :: cs)).Printable := by
  have spelled : (String.ofList (c :: cs)).toList = c :: cs := String.toList_ofList
  by_cases keyword : String.ofList (c :: cs) ∈ keywords
  · simp only [keywords, List.mem_cons, List.not_mem_nil, or_false] at keyword
    rcases keyword with h | h | h | h | h | h <;> rw [ofWord, h] <;> trivial
  · have word := ofWord_of_not_keyword keyword
    rw [spelled] at word
    rw [word]
    exact ⟨keyword, c, cs, spelled, hc, hcs⟩

theorem printable_ofNumeral {n : Numeral} {t : Token} (h : ofNumeral n = .ok t) : t.Printable := by
  unfold ofNumeral at h
  split at h
  · split at h
    · cases h
      trivial
    · cases h
  · split at h
    · next finite =>
      cases h
      exact finite
    · cases h

theorem printable_symbol {cs : List Char} {t : Token} {n : Nat} (h : symbol cs = some (t, n)) : t.Printable := by
  unfold symbol at h
  split at h <;> cases h <;> trivial

theorem printable_scan {c : Char} {cs : List Char} {t : Token} {n : Nat} (h : scan c cs = .ok (t, n)) :
    t.Printable := by
  unfold scan at h
  split at h
  · split at h
    · cases h
      trivial
    · cases h
  · split at h
    · split at h
      · next m left _ =>
        cases ho : ofNumeral m with
        | error e =>
          rw [ho] at h
          cases h
        | ok t =>
          rw [ho] at h
          cases h
          exact printable_ofNumeral ho
      · cases h
    · split at h
      · next hw =>
        cases h
        exact printable_ofWord hw List.all_takeWhile
      · split at h
        · next hs =>
          cases h
          exact printable_symbol hs
        · cases h

end Token

theorem Tokens.printable_scan (offset : Nat) (cs : List Char) : ∀ t ∈ (scan offset cs).plain, t.Printable := by
  fun_induction scan offset cs with
  | case1 offset =>
    intro t ht
    cases ht
  | case2 offset c cs hb ih => exact ih
  | case3 offset c cs hb f hf =>
    intro t ht
    cases ht
  | case4 offset c cs hb t n ht ih =>
    intro u hu
    rcases List.mem_cons.mp hu with rfl | hu
    · exact Token.printable_scan ht
    · exact ih u hu

theorem Phrase.expressible {r : Rank} {ts : List Token} {c : Condition} (h : Phrase r ts c)
    (ht : ∀ t ∈ ts, t.Printable) : c.Expressible := by
  induction h with
  | compare f o v => exact ⟨ht (.ident f) (by simp), ht (.literal v) (by simp)⟩
  | group h ih => exact ih fun t m => ht t (by simp [m])
  | single h ih => exact ih ht
  | and ha hb iha ihb => exact ⟨iha fun t m => ht t (by simp [m]), ihb fun t m => ht t (by simp [m])⟩
  | alone h ih => exact ih ht
  | or ha hb iha ihb => exact ⟨iha fun t m => ht t (by simp [m]), ihb fun t m => ht t (by simp [m])⟩

theorem Denotes.expressible {text : String} {c : Condition} (h : Denotes text c) : c.Expressible :=
  h.2.expressible (Tokens.printable_scan 0 text.toList)

def Rank.wraps : Rank → Condition → Bool
  | .operand, c => !c.isLeaf
  | .conjunction, c => c.isOr
  | .disjunction, _ => false

namespace Condition

theorem balanced_tokens (c : Condition) : Balanced (c.tokens.filterMap Token.bracket?) :=
  (phrase_tokens c).balanced

theorem tokenNesting_groupTokens (needed : Bool) (c : Condition) :
    tokenNesting (groupTokens needed c.tokens) = tokenNesting c.tokens + needed.toNat := by
  cases needed with
  | false => rfl
  | true => exact tokenNesting_group c.balanced_tokens

theorem tokenNesting_and (a b : Condition) :
    tokenNesting (and a b).tokens =
      max (tokenNesting a.tokens + a.isOr.toNat) (tokenNesting b.tokens + (!b.isLeaf).toNat) := by
  have left := (phrase_conjunction (phrase_tokens a)).balanced
  rw [tokens, tokenNesting_join left .and rfl, tokenNesting_groupTokens, tokenNesting_groupTokens]

theorem tokenNesting_or (a b : Condition) :
    tokenNesting (or a b).tokens = max (tokenNesting a.tokens) (tokenNesting b.tokens + b.isOr.toNat) := by
  rw [tokens, tokenNesting_join a.balanced_tokens .or rfl, tokenNesting_groupTokens]

end Condition

theorem Phrase.nesting_le {r : Rank} {ts : List Token} {c : Condition} (h : Phrase r ts c) :
    tokenNesting c.tokens + (r.wraps c).toNat ≤ tokenNesting ts := by
  -- What the rank adds is what the tree needs around it there, so a group pays for it where it stands.
  induction h with
  | compare f o v => exact Nat.le_refl _
  | @group ts c h ih =>
    rw [tokenNesting_group h.balanced]
    exact Nat.add_le_add ih (Bool.toNat_le _)
  | @single ts c h ih =>
    have less : c.isOr.toNat ≤ (!c.isLeaf).toNat := by cases c <;> simp [Condition.isOr, Condition.isLeaf]
    exact Nat.le_trans (Nat.add_le_add_left less _) ih
  | and ha hb iha ihb =>
    rw [tokenNesting_join ha.balanced .and rfl, Condition.tokenNesting_and]
    exact Nat.max_le.mpr ⟨Nat.le_trans iha (Nat.le_max_left _ _), Nat.le_trans ihb (Nat.le_max_right _ _)⟩
  | alone h ih => exact Nat.le_trans (Nat.le_add_right _ _) ih
  | or ha hb iha ihb =>
    rw [tokenNesting_join ha.balanced .or rfl, Condition.tokenNesting_or]
    exact Nat.max_le.mpr ⟨Nat.le_trans iha (Nat.le_max_left _ _), Nat.le_trans ihb (Nat.le_max_right _ _)⟩

namespace Condition

theorem parse_reprinted {b : Bounds} {text : String} {c : Condition} (h : parse b text = .ok c) :
    parenNesting c.text ≤ parenNesting text ∧ parse b c.text = .ok c := by
  obtain ⟨denotes, shallow, low⟩ := parse_ok_iff.mp h
  have expressible := denotes.expressible
  have nesting : parenNesting c.text ≤ parenNesting text := by
    rw [parenNesting_text expressible, parenNesting_eq]
    exact denotes.2.nesting_le
  exact ⟨nesting, parse_ok_iff.mpr ⟨denotes_text expressible, Nat.le_trans nesting shallow, low⟩⟩

theorem parse_reprinted_sample :
    let text := "((a=1)) AND (((b = 2 OR c == \x22it's\x22)))"
    let c : Condition :=
      .and (.compare "a" .eq (.int 1)) (.or (.compare "b" .eq (.int 2)) (.compare "c" .eq (.str "it's")))
    parse ⟨3, 3⟩ text = .ok c ∧ c.text = "a = 1 AND (b = 2 OR c = 'it\\'s')" ∧ parenNesting text = 3 ∧
      parenNesting c.text ≤ 3 ∧ parse ⟨3, 3⟩ c.text = .ok c := by
  intro text c
  have parsed : parse ⟨3, 3⟩ text = .ok c := by
    apply toOption_eq_some_iff.mp
    decide +kernel
  have printed : c.text = "a = 1 AND (b = 2 OR c = 'it\\'s')" := by
    decide +kernel
  have nesting : parenNesting text = 3 := by
    decide +kernel
  obtain ⟨shallow, read⟩ := parse_reprinted parsed
  rw [nesting] at shallow
  exact ⟨parsed, printed, nesting, shallow, read⟩

end Condition

end Rulebook
