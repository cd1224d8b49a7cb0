import Rulebook.Proofs.TokenStreams
import Rulebook.Proofs.WrittenNumerals

namespace Rulebook

theorem isBlank_visible {c : Char} (h : 0x21 ≤ c.toNat) (h' : c.toNat ≤ 0x7E) : isBlank c = false := by
  have outside : ∀ r ∈ blankRanges, r.2 < 0x21 ∨ 0x7E < r.1 := by decide
  apply List.any_eq_false.mpr
  intro r hr
  have := outside r hr
  simp only [Bool.and_eq_true, decide_eq_true_eq]
  omega

theorem isDigit_range {c : Char} (h : c.isDigit = true) : 48 ≤ c.toNat ∧ c.toNat ≤ 57 := by
  simpa [Char.isDigit, UInt32.le_iff_toNat_le] using h

theorem isWordStart_range {c : Char} (h : Token.isWordStart c = true) :
    65 ≤ c.toNat ∧ c.toNat ≤ 90 ∨ 97 ≤ c.toNat ∧ c.toNat ≤ 122 ∨ c.toNat = 95 := by
  rcases Bool.or_eq_true_iff.mp h with letter | underscore
  · rcases Bool.or_eq_true_iff.mp letter with upper | lower
    · have range : 'A'.val ≤ c.val ∧ c.val ≤ 'Z'.val := of_decide_eq_true upper
      exact .inl ⟨UInt32.le_iff_toNat_le.mp range.1, UInt32.le_iff_toNat_le.mp range.2⟩
    · obtain ⟨least, greatest⟩ := Bool.and_eq_true_iff.mp lower
      have least : 'a'.val ≤ c.val := of_decide_eq_true least
      have greatest : c.val ≤ 'z'.val := of_decide_eq_true greatest
      exact .inr (.inl ⟨UInt32.le_iff_toNat_le.mp least, UInt32.le_iff_toNat_le.mp greatest⟩)
  · have same : c = '_' := of_decide_eq_true underscore
    rw [same]
    exact .inr (.inr rfl)

theorem wordStart_visible {c : Char} (h : Token.isWordStart c = true) : isBlank c = false := by
  have range := isWordStart_range h
  apply isBlank_visible <;> omega

theorem numberStart_visible {c : Char} (h : (c.isDigit || c = '-') = true) : isBlank c = false := by
  rcases Bool.or_eq_true_iff.mp h with digit | minus
  · have range := isDigit_range digit
    apply isBlank_visible <;> omega
  · rw [of_decide_eq_true minus]
    rfl

theorem wordStart_ne_quote {c : Char} (h : Token.isWordStart c = true) :
    ¬(c = Quoted.singleQuote || c = Quoted.doubleQuote) = true := by
  simp only [Bool.or_eq_true, decide_eq_true_eq]
  rintro (rfl | rfl) <;> cases h

theorem numberStart_ne_quote {c : Char} (h : (c.isDigit || c = '-') = true) :
    ¬(c = Quoted.singleQuote || c = Quoted.doubleQuote) = true := by
  simp only [Bool.or_eq_true, decide_eq_true_eq]
  rintro (rfl | rfl) <;> cases h

theorem wordStart_ne_numberStart {c : Char} (h : Token.isWordStart c = true) : ¬(c.isDigit || c = '-') = true := by
  simp only [Bool.or_eq_true, decide_eq_true_eq]
  rintro (digit | rfl)
  · have digits := isDigit_range digit
    have letters := isWordStart_range h
    omega
  · cases h

theorem lexes_word {c : Char} {cs : List Char} (hc : Token.isWordStart c = true)
    (hcs : cs.all Token.isWordChar = true) : Lexes (c :: cs) [Token.ofWord (c :: cs)] := by
  have ht := takeWhile_all (List.all_eq_true.mp hcs)
  have hs : Token.scan c cs = .ok (Token.ofWord (c :: cs), cs.length) := by
    rw [Token.scan, if_neg (wordStart_ne_quote hc), if_neg (wordStart_ne_numberStart hc), if_pos hc, ht]
  exact .single (wordStart_visible hc) hs

theorem lexes_operator (o : Operator) : Lexes o.text.toList [.op o] := by
  cases o with
  | eq => exact .single (c := '=') rfl rfl
  | ne => exact .single (c := '!') rfl rfl
  | gt => exact .single (c := '>') rfl rfl
  | ge => exact .single (c := '>') rfl rfl
  | lt => exact .single (c := '<') rfl rfl
  | le => exact .single (c := '<') rfl rfl

theorem lexes_numeral {n : Numeral} {t : Token} (hn : n.Written) (ht : Token.ofNumeral n = .ok t) :
    Lexes n.text [t] := by
  obtain ⟨c, cs, hc, hd⟩ := hn.shaped.first
  have hs : Token.scan c cs = .ok (t, cs.length) := by
    rw [Token.scan, if_neg (numberStart_ne_quote hd), if_pos hd, ← hc, Numeral.scan_shaped hn.shaped]
    simp only [ht, Except.map, hc, List.length_cons, Nat.add_sub_cancel]
  rw [hc]
  exact .single (numberStart_visible hd) hs

namespace Quoted

theorem split_encode (cs rest : List Char) :
    split singleQuote (encode cs ++ singleQuote :: rest) = some (encode cs, rest) := by
  induction cs with
  | nil => rfl
  | cons c cs ih =>
    have he : encode (c :: cs) = escape c ++ encode cs := rfl
    rw [he, List.append_assoc, escape]
    split
    · simp only [List.cons_append, List.nil_append, split, ih, Option.map_some]
    · next hq =>
      split
      · simp only [List.cons_append, List.nil_append, split, ih, Option.map_some]
      · split
        · simp only [List.cons_append, List.nil_append, split, ih, Option.map_some]
        · simp only [Bool.or_eq_true, decide_eq_true_eq, not_or] at hq
          simp [split, hq, ih]

theorem decode_encode (cs : List Char) : decode (encode cs) = cs := by
  induction cs with
  | nil => rfl
  | cons c cs ih =>
    have he : encode (c :: cs) = escape c ++ encode cs := rfl
    rw [he, escape]
    split
    · next hq =>
      simp only [List.cons_append, List.nil_append, decode, ih]
      simp only [Bool.or_eq_true, decide_eq_true_eq] at hq
      rcases hq with rfl | rfl <;> rfl
    · next hq =>
      split
      · next h => simp only [List.cons_append, List.nil_append, decode, ih, h]; rfl
      · split
        · next h => simp only [List.cons_append, List.nil_append, decode, ih, h]; rfl
        · simp only [Bool.or_eq_true, decide_eq_true_eq, not_or] at hq
          simp [decode, hq, ih]

end Quoted

theorem lexes_quoted (cs : List Char) : Lexes (Quoted.write cs) [.literal (.str (.ofList cs))] := by
  have hs : Token.scan Quoted.singleQuote (Quoted.encode cs ++ [Quoted.singleQuote]) =
      .ok (.literal (.str (.ofList cs)), (Quoted.encode cs ++ [Quoted.singleQuote]).length) := by
    simp only [Token.scan, Quoted.split_encode, Quoted.decode_encode, List.length_append]
    rfl
  exact .single rfl hs

theorem lexes_bool (b : Bool) : Lexes (Value.bool b).chars [.literal (.bool b)] := by
  cases b with
  | true => exact lexes_word rfl rfl
  | false => exact lexes_word rfl rfl

theorem isDigits_write (n : Nat) : IsDigits (Digits.write n) :=
  ⟨Nat.toDigits_ne_nil, fun _ h => Nat.isDigit_of_mem_toDigits (by decide) (by decide) h⟩

namespace Numeral

def ofInt (n : Int) : Numeral := ⟨decide (n < 0), Digits.write n.natAbs, none, none⟩

theorem ofInt_written (n : Int) : (ofInt n).Written := by
  refine ⟨isDigits_write _, ?_, ?_⟩ <;> intro _ h <;> cases h

theorem ofInt_text (n : Int) : (ofInt n).text = Value.intText n := by
  by_cases h : n < 0 <;> simp [ofInt, text, Value.intText, h]

theorem ofInt_toInt (n : Int) : (ofInt n).toInt = n := by
  by_cases h : n < 0
  · simp only [ofInt, toInt, h, decide_true, ↓reduceIte, Digits.read_write]
    omega
  · simp only [ofInt, toInt, h, decide_false, Bool.false_eq_true, ↓reduceIte, Digits.read_write]
    omega

end Numeral

theorem lexes_int (n : Int64) : Lexes (Value.int n).chars [.literal (.int n)] := by
  have ht : Token.ofNumeral (.ofInt n.toInt) = .ok (.literal (.int n)) := by
    have hi : (Numeral.ofInt n.toInt).isInteger = true := rfl
    rw [Token.ofNumeral, if_pos hi, Numeral.toInt64?, Numeral.ofInt_toInt,
      if_pos ⟨n.minValue_le_toInt, n.toInt_le⟩, Int64.ofInt_toInt]
  have h := lexes_numeral (Numeral.ofInt_written n.toInt) ht
  rw [Numeral.ofInt_text] at h
  exact h

end Rulebook
