import Rulebook.Token.Scan

namespace Rulebook

namespace Exponent

theorem scanSign_text (cs : List Char) : (scanSign cs).1.toList ++ (scanSign cs).2 = cs := by
  cases cs with
  | nil => rfl
  | cons c cs => by_cases hc : (c = '+' || c = '-') = true <;> simp [scanSign, hc]

theorem scan_text (cs : List Char) : ((scan cs).1.map text).getD [] ++ (scan cs).2 = cs := by
  cases cs with
  | nil => rfl
  | cons c cs =>
    by_cases hc : (c = 'e' || c = 'E') = true
    · simp only [scan, hc, ↓reduceIte]
      split
      · rfl
      · have hs := scanSign_text cs
        rw [← List.takeWhile_append_dropWhile (p := Char.isDigit) (l := (scanSign cs).2)] at hs
        simp only [Option.map_some, Option.getD_some, text, List.cons_append, List.append_assoc, hs]
    · simp [scan, hc]

end Exponent

namespace Numeral

theorem scanFraction_text (cs : List Char) :
    ((scanFraction cs).1.map ('.' :: ·)).getD [] ++ (scanFraction cs).2 = cs := by
  unfold scanFraction
  split
  · split
    · rfl
    · simp only [Option.map_some, Option.getD_some, List.cons_append, List.takeWhile_append_dropWhile]
  · rfl

theorem scanUnsigned_nil {cs : List Char} (h : cs.takeWhile Char.isDigit = []) (negative : Bool) :
    scanUnsigned negative cs = none := by
  simp only [scanUnsigned, h]

theorem scanUnsigned_ne_nil {cs : List Char} (h : cs.takeWhile Char.isDigit ≠ []) (negative : Bool) :
    let f := scanFraction (cs.dropWhile Char.isDigit)
    let e := Exponent.scan f.2
    scanUnsigned negative cs = some (⟨negative, cs.takeWhile Char.isDigit, f.1, e.1⟩, e.2) := by
  dsimp only
  unfold scanUnsigned
  split
  · next hn => exact absurd hn h
  · rfl

theorem scanUnsigned_text {negative : Bool} {cs left : List Char} {n : Numeral}
    (h : scanUnsigned negative cs = some (n, left)) :
    n.text ++ left = (if negative then ['-'] else []) ++ cs := by
  by_cases hd : cs.takeWhile Char.isDigit = []
  · rw [scanUnsigned_nil hd] at h
    cases h
  · rw [scanUnsigned_ne_nil hd] at h
    obtain ⟨rfl, rfl⟩ := Prod.mk.inj (Option.some.inj h)
    have hf := scanFraction_text (cs.dropWhile Char.isDigit)
    have he := Exponent.scan_text (scanFraction (cs.dropWhile Char.isDigit)).2
    simp only [text, List.append_assoc, he, hf, List.takeWhile_append_dropWhile]

theorem scan_text {cs left : List Char} {n : Numeral} (h : scan cs = some (n, left)) :
    n.text ++ left = cs := by
  unfold scan at h
  split at h
  · exact scanUnsigned_text h
  · exact scanUnsigned_text h

end Numeral

namespace Quoted

theorem split_text {quote : Char} {cs body left : List Char} (h : split quote cs = some (body, left)) :
    body ++ quote :: left = cs := by
  fun_induction split quote cs generalizing body with
  | case1 => cases h
  | case2 c rest ih =>
    obtain ⟨p, hp, he⟩ := Option.map_eq_some_iff.mp h
    cases he
    rw [List.cons_append, List.cons_append, ih hp]
  | case3 rest hne =>
    cases h
    rfl
  | case4 c rest hne hc ih =>
    obtain ⟨p, hp, he⟩ := Option.map_eq_some_iff.mp h
    cases he
    rw [List.cons_append, ih hp]

end Quoted

namespace Token

theorem symbol_length {cs : List Char} {t : Token} {n : Nat} (h : symbol cs = some (t, n)) :
    n ≤ cs.length := by
  unfold symbol at h
  split at h <;> cases h <;> simp

theorem scan_length {c : Char} {cs : List Char} {t : Token} {n : Nat} (h : scan c cs = .ok (t, n)) :
    n ≤ cs.length := by
  unfold scan at h
  split at h
  · split at h
    · next body left hs =>
      cases h
      have hl := congrArg List.length (Quoted.split_text hs)
      simp only [List.length_append, List.length_cons] at hl
      omega
    · cases h
  · split at h
    · split at h
      · next n left hn =>
        have hl := congrArg List.length (Numeral.scan_text hn)
        simp only [List.length_append, List.length_cons] at hl
        cases ho : ofNumeral n with
        | error e => rw [ho] at h; cases h
        | ok t =>
          rw [ho] at h
          cases h
          omega
      · cases h
    · split at h
      · cases h
        exact (List.takeWhile_prefix _).length_le
      · split at h
        · next t n ht =>
          cases h
          have hl := symbol_length ht
          rw [List.length_cons] at hl
          omega
        · cases h

end Token

end Rulebook
