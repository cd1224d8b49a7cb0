import Rulebook.Proofs.LexemeEnds

namespace Rulebook

def IsDigits (ds : List Char) : Prop := ds ≠ [] ∧ ∀ c ∈ ds, c.isDigit = true

theorem takeWhile_digits {ds rest : List Char} (h : IsDigits ds) (hr : ∀ c ∈ rest.head?, c.isDigit = false) :
    (ds ++ rest).takeWhile Char.isDigit = ds := by
  rw [takeWhile_stops ds hr, takeWhile_all h.2]

theorem dropWhile_digits {ds rest : List Char} (h : IsDigits ds) (hr : ∀ c ∈ rest.head?, c.isDigit = false) :
    (ds ++ rest).dropWhile Char.isDigit = rest := by
  rw [dropWhile_stops ds hr, dropWhile_all h.2, List.nil_append]

theorem IsDigits.head {ds : List Char} (h : IsDigits ds) :
    ∃ d tail, ds = d :: tail ∧ d.isDigit = true := by
  cases ds with
  | nil => exact absurd rfl h.1
  | cons d tail => exact ⟨d, tail, rfl, h.2 d List.mem_cons_self⟩

namespace Exponent

structure Shaped (e : Exponent) : Prop where
  mark : e.mark = 'e' ∨ e.mark = 'E'
  sign : ∀ c ∈ e.sign, c = '+' ∨ c = '-'
  digits : IsDigits e.digits

structure Written (e : Exponent) : Prop where
  mark : e.mark = 'e' ∨ e.mark = 'E'
  sign : e.sign = none ∨ e.sign = some '-'
  digits : IsDigits e.digits

theorem Written.shaped {e : Exponent} (h : e.Written) : e.Shaped := by
  refine ⟨h.mark, ?_, h.digits⟩
  intro c hc
  rcases h.sign with none | minus
  · rw [none] at hc
    cases hc
  · rw [minus] at hc
    cases hc
    exact .inr rfl

theorem scanSign_toList {sign : Option Char} (h : ∀ c ∈ sign, c = '+' ∨ c = '-') {ds : List Char}
    (hd : IsDigits ds) (rest : List Char) : scanSign (sign.toList ++ (ds ++ rest)) = (sign, ds ++ rest) := by
  cases sign with
  | none =>
    obtain ⟨d, tail, rfl, digit⟩ := hd.head
    have plus : d ≠ '+' := by
      rintro rfl
      cases digit
    have minus : d ≠ '-' := by
      rintro rfl
      cases digit
    simp [scanSign, plus, minus]
  | some c => rcases h c rfl with rfl | rfl <;> rfl

theorem scan_text_append {e : Exponent} (h : e.Shaped) (rest : List Char) :
    scan (e.text ++ rest) =
      (some { e with digits := e.digits ++ rest.takeWhile Char.isDigit }, rest.dropWhile Char.isDigit) := by
  have mark : (e.mark = 'e' || e.mark = 'E') = true := by
    rcases h.mark with lower | upper
    · rw [lower]
      rfl
    · rw [upper]
      rfl
  have digits : ∀ c ∈ e.digits, c.isDigit = true := h.digits.2
  simp only [text, List.cons_append, List.append_assoc, scan, mark, ↓reduceIte, scanSign_toList h.sign h.digits,
    List.takeWhile_append_of_pos digits, List.dropWhile_append_of_pos digits]
  split
  · next none => exact absurd (List.append_eq_nil_iff.mp none).1 h.digits.1
  · rfl

theorem scan_shaped {e : Exponent} (h : e.Shaped) : scan e.text = (some e, []) := by
  have whole := scan_text_append h []
  rw [List.append_nil] at whole
  rw [whole, List.takeWhile_nil, List.dropWhile_nil, List.append_nil]

theorem head_text {x : Option Exponent} (h : ∀ e ∈ x, e.Shaped) :
    ∀ c ∈ ((x.map text).getD []).head?, c = 'e' ∨ c = 'E' := by
  cases x with
  | none => exact fun _ h => nomatch h
  | some e =>
    intro c hc
    cases hc
    exact (h e rfl).mark

theorem scan_optional {x : Option Exponent} (h : ∀ e ∈ x, e.Shaped) :
    scan ((x.map text).getD []) = (x, []) := by
  cases x with
  | none => rfl
  | some e => exact scan_shaped (h e rfl)

end Exponent

namespace Numeral

structure Shaped (n : Numeral) : Prop where
  whole : IsDigits n.whole
  fraction : ∀ ds ∈ n.fraction, IsDigits ds
  exponent : ∀ e ∈ n.exponent, e.Shaped

structure Written (n : Numeral) : Prop where
  whole : IsDigits n.whole
  fraction : ∀ ds ∈ n.fraction, IsDigits ds
  exponent : ∀ e ∈ n.exponent, e.Written

theorem Written.shaped {n : Numeral} (h : n.Written) : n.Shaped :=
  ⟨h.whole, h.fraction, fun e he => (h.exponent e he).shaped⟩

theorem scanFraction_text_append {ds : List Char} (h : IsDigits ds) (rest : List Char) :
    scanFraction ('.' :: (ds ++ rest)) = (some (ds ++ rest.takeWhile Char.isDigit), rest.dropWhile Char.isDigit) := by
  simp only [scanFraction, List.takeWhile_append_of_pos h.2, List.dropWhile_append_of_pos h.2]
  split
  · next none => exact absurd (List.append_eq_nil_iff.mp none).1 h.1
  · rfl

theorem scanFraction_of_head {rest : List Char} (hr : ∀ c ∈ rest.head?, c = 'e' ∨ c = 'E') :
    scanFraction rest = (none, rest) := by
  cases rest with
  | nil => rfl
  | cons c rest =>
    have hc : c ≠ '.' := by
      rintro rfl
      exact absurd (hr '.' rfl) (by decide)
    simp [scanFraction, hc]

theorem isDigit_mark {rest : List Char} (hr : ∀ c ∈ rest.head?, c = 'e' ∨ c = 'E') :
    ∀ c ∈ rest.head?, c.isDigit = false := by
  intro c hc
  rcases hr c hc with rfl | rfl <;> rfl

theorem scanFraction_shaped {x : Option (List Char)} (h : ∀ ds ∈ x, IsDigits ds) {rest : List Char}
    (hr : ∀ c ∈ rest.head?, c = 'e' ∨ c = 'E') :
    scanFraction ((x.map ('.' :: ·)).getD [] ++ rest) = (x, rest) := by
  cases x with
  | none => exact scanFraction_of_head hr
  | some ds =>
    have none := takeWhile_stops [] (isDigit_mark hr)
    have all := dropWhile_stops [] (isDigit_mark hr)
    simp only [List.nil_append, List.takeWhile_nil, List.dropWhile_nil] at none all
    have scanned := scanFraction_text_append (h ds rfl) rest
    rw [none, all, List.append_nil] at scanned
    exact scanned

theorem head_fraction (x : Option (List Char)) {rest : List Char} (hr : ∀ c ∈ rest.head?, c = 'e' ∨ c = 'E') :
    ∀ c ∈ ((x.map ('.' :: ·)).getD [] ++ rest).head?, c.isDigit = false := by
  cases x with
  | none => exact isDigit_mark hr
  | some ds =>
    intro c hc
    cases hc
    rfl

theorem Shaped.first {n : Numeral} (h : n.Shaped) :
    ∃ c tail, n.text = c :: tail ∧ (c.isDigit || c = '-') = true := by
  obtain ⟨d, tail, whole, digit⟩ := h.whole.head
  cases negative : n.negative with
  | true => exact ⟨'-', _, by rw [text, negative]; rfl, rfl⟩
  | false => exact ⟨d, _, by rw [text, negative, whole]; rfl, by rw [digit]; rfl⟩

theorem scan_signed {whole : List Char} (h : IsDigits whole) (negative : Bool) (rest : List Char) :
    scan ((if negative then ['-'] else []) ++ whole ++ rest) = scanUnsigned negative (whole ++ rest) := by
  cases negative with
  | true => rfl
  | false =>
    obtain ⟨d, tail, rfl, digit⟩ := h.head
    have minus : d ≠ '-' := by
      rintro rfl
      cases digit
    simp [scan, minus]

theorem scan_shaped {n : Numeral} (h : n.Shaped) : scan n.text = some (n, []) := by
  have mark := Exponent.head_text h.exponent
  have parts := head_fraction n.fraction mark
  have digits := takeWhile_digits h.whole parts
  rw [text, List.append_assoc, scan_signed h.whole, scanUnsigned_ne_nil (by rw [digits]; exact h.whole.1)]
  simp only [digits, dropWhile_digits h.whole parts, scanFraction_shaped h.fraction mark,
    Exponent.scan_optional h.exponent]

end Numeral

end Rulebook
