import Rulebook.Proofs.WrittenNumerals

namespace Rulebook

theorem isDigits_takeWhile {cs : List Char} (h : cs.takeWhile Char.isDigit ≠ []) :
    IsDigits (cs.takeWhile Char.isDigit) :=
  ⟨h, List.all_eq_true.mp List.all_takeWhile⟩

theorem length_dropWhile_le (p : Char → Bool) (cs : List Char) : (cs.dropWhile p).length ≤ cs.length :=
  (List.dropWhile_suffix p).length_le

namespace Exponent

theorem scanSign_shape (cs : List Char) : ∀ c ∈ (scanSign cs).1, c = '+' ∨ c = '-' := by
  intro c hc
  cases cs with
  | nil => cases hc
  | cons d cs =>
    by_cases sign : (d = '+' || d = '-') = true
    · rw [scanSign, if_pos sign] at hc
      cases hc
      simpa using sign
    · rw [scanSign, if_neg sign] at hc
      cases hc

theorem scan_shape (cs : List Char) : ∀ e ∈ (scan cs).1, e.Shaped := by
  intro e he
  cases cs with
  | nil => cases he
  | cons c cs =>
    by_cases mark : (c = 'e' || c = 'E') = true
    · simp only [scan, mark, ↓reduceIte] at he
      split at he
      · cases he
      · next digits =>
        cases he
        exact ⟨by simpa using mark, scanSign_shape cs, isDigits_takeWhile digits⟩
    · rw [scan, if_neg mark] at he
      cases he

theorem length_scan_le (cs : List Char) : (scan cs).2.length ≤ cs.length := by
  have whole := congrArg List.length (scan_text cs)
  rw [List.length_append] at whole
  omega

end Exponent

namespace Numeral

theorem scanFraction_shape (cs : List Char) : ∀ ds ∈ (scanFraction cs).1, IsDigits ds := by
  intro ds hds
  unfold scanFraction at hds
  split at hds
  · split at hds
    · cases hds
    · next digits =>
      cases hds
      exact isDigits_takeWhile digits
  · cases hds

theorem length_scanFraction_le (cs : List Char) : (scanFraction cs).2.length ≤ cs.length := by
  have whole := congrArg List.length (scanFraction_text cs)
  rw [List.length_append] at whole
  omega

theorem scanUnsigned_shape {negative : Bool} {cs left : List Char} {n : Numeral}
    (h : scanUnsigned negative cs = some (n, left)) : n.Shaped := by
  by_cases digits : cs.takeWhile Char.isDigit = []
  · rw [scanUnsigned_nil digits] at h
    cases h
  · rw [scanUnsigned_ne_nil digits] at h
    cases h
    exact ⟨isDigits_takeWhile digits, scanFraction_shape _, Exponent.scan_shape _⟩

theorem scan_shape {cs left : List Char} {n : Numeral} (h : scan cs = some (n, left)) : n.Shaped := by
  unfold scan at h
  split at h <;> exact scanUnsigned_shape h

theorem scan_text_append {n : Numeral} (h : n.Shaped) (rest : List Char) :
    ∃ m left, scan (n.text ++ rest) = some (m, left) ∧ left.length ≤ rest.length := by
  obtain ⟨negative, whole, fraction, exponent⟩ := n
  have digits : ∀ tail, (whole ++ tail).takeWhile Char.isDigit ≠ [] := by
    intro tail
    rw [List.takeWhile_append_of_pos h.whole.2]
    exact List.append_ne_nil_of_left_ne_nil h.whole.1 _
  simp only [text, List.append_assoc]
  rw [← List.append_assoc, scan_signed h.whole, scanUnsigned_ne_nil (digits _)]
  refine ⟨_, _, rfl, ?_⟩
  -- Only the last part of the numeral can take up more, and the parts that it lacks.
  cases exponent with
  | some e =>
    have mark : ∀ c ∈ (e.text ++ rest).head?, c = 'e' ∨ c = 'E' := by
      intro c hc
      cases hc
      exact (h.exponent e rfl).mark
    have parts := head_fraction fraction mark
    rw [Option.map_some, Option.getD_some, dropWhile_digits h.whole parts, scanFraction_shaped h.fraction mark,
      Exponent.scan_text_append (h.exponent e rfl)]
    exact length_dropWhile_le _ rest
  | none =>
    cases fraction with
    | some ds =>
      have parts : ∀ c ∈ ('.' :: (ds ++ rest)).head?, c.isDigit = false := by
        intro c hc
        cases hc
        rfl
      have taken := dropWhile_digits h.whole parts
      simp only [Option.map_some, Option.map_none, Option.getD_some, Option.getD_none, List.nil_append,
        List.cons_append, taken, scanFraction_text_append (h.fraction ds rfl)]
      exact Nat.le_trans (Exponent.length_scan_le _) (length_dropWhile_le _ rest)
    | none =>
      simp only [Option.map_none, Option.getD_none, List.nil_append, List.dropWhile_append_of_pos h.whole.2]
      apply Nat.le_trans (Exponent.length_scan_le _)
      exact Nat.le_trans (length_scanFraction_le _) (length_dropWhile_le _ rest)

end Numeral

end Rulebook
