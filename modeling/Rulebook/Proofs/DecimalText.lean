import Mathlib.Tactic.LinearCombination
import Rulebook.Proofs.PrintedValues
import Rulebook.Proofs.Rounding

namespace Rulebook

namespace Digits

theorem read_append_zeros (ds : List Char) (k : ℕ) :
    read (ds ++ List.replicate k '0') = read ds * 10 ^ k := by
  induction k with
  | zero => simp
  | succ k ih =>
    have zero : '0'.toNat - '0'.toNat = 0 := rfl
    rw [List.replicate_succ', ← List.append_assoc, read_concat, ih, zero]
    ring

theorem read_zeros_append (k : ℕ) (ds : List Char) : read (List.replicate k '0' ++ ds) = read ds := by
  induction k with
  | zero => rfl
  | succ k ih =>
    rw [← ih]
    rfl

theorem write_eq_read {n : ℕ} {ds : List Char} {k : ℕ} (h : write n = ds ++ List.replicate k '0') :
    n = read ds * 10 ^ k := by
  rw [← read_append_zeros, ← h, read_write]

end Digits

theorem exists_trailing_zeros (ds : List Char) :
    ∃ k, ds = (ds.reverse.dropWhile (· == '0')).reverse ++ List.replicate k '0' := by
  refine ⟨(ds.reverse.takeWhile (· == '0')).length, ?_⟩
  have zeros : (ds.reverse.takeWhile (· == '0')).reverse =
      List.replicate (ds.reverse.takeWhile (· == '0')).length '0' := by
    apply List.eq_replicate_iff.mpr
    constructor
    · rw [List.length_reverse]
    · intro c hc
      have := List.all_eq_true.mp List.all_takeWhile c (List.mem_reverse.mp hc)
      simpa using this
  rw [← zeros, ← List.reverse_append, List.takeWhile_append_dropWhile, List.reverse_reverse]

namespace Binary64

def Decimal.value (d : Decimal) : ℚ := d.significand * 10 ^ d.exponent

theorem Decimal.digits_spec {d : Decimal} (h : 0 < d.significand) :
    IsDigits d.digits ∧ d.value = Digits.read d.digits * 10 ^ (d.places - d.digits.length) := by
  obtain ⟨k, hk⟩ := exists_trailing_zeros (Digits.write d.significand)
  change _ = d.digits ++ _ at hk
  have value := Digits.write_eq_read hk
  constructor
  · constructor
    · intro empty
      rw [empty] at value
      change d.significand = 0 * 10 ^ k at value
      omega
    · intro c hc
      apply (isDigits_write d.significand).2
      rw [hk]
      exact List.mem_append_left _ hc
  · have places : d.places - d.digits.length = k + d.exponent := by
      rw [places, hk, List.length_append, List.length_replicate]
      omega
    rw [places, zpow_add₀ (by norm_num), ← mul_assoc, zpow_natCast, Decimal.value]
    congr 1
    exact_mod_cast value

theorem power_of_nonneg (b : ℕ) {e : ℤ} (h : 0 ≤ e) : (power b e : ℚ) = (b : ℚ) ^ e := by
  obtain ⟨n, rfl⟩ := Int.eq_ofNat_of_zero_le h
  simp [power]

theorem power_of_nonpos (b : ℕ) {e : ℤ} (h : e ≤ 0) : power b e = 1 := by
  have : e.toNat = 0 := by omega
  simp [power, this]

theorem exactDecimal_value (m : ℕ) : (exactDecimal m).value = magnitudeValue m := by
  simp only [exactDecimal, Decimal.value, magnitudeValue]
  push_cast
  by_cases h : 0 ≤ exponent m
  · rw [power_of_nonneg 2 h, power_of_nonpos 5 (by omega), min_eq_right h]
    simp
  · have tenths : (10 : ℚ) ^ exponent m = 2 ^ exponent m * 5 ^ exponent m := by
      rw [← mul_zpow]
      norm_num
    have five : (5 : ℚ) ^ (-exponent m) * 5 ^ exponent m = 1 := by
      rw [← zpow_add₀ (by norm_num), neg_add_cancel, zpow_zero]
    rw [power_of_nonpos 2 (by omega), power_of_nonneg 5 (by omega), min_eq_left (by omega), tenths]
    push_cast
    linear_combination (significand m : ℚ) * 2 ^ exponent m * five

theorem onGrid_reads {m num den : ℕ} {e : ℤ} {d : Decimal} (h : onGrid m num den e = some d) :
    nearestDecimal d.significand d.exponent = m := by
  simp only [onGrid, Bool.and_eq_true, beq_iff_eq] at h
  split at h
  · next low =>
    cases h
    exact low.1
  · split at h
    · next high =>
      cases h
      exact high
    · cases h

theorem shortest_reads {m : ℕ} (positive : 0 < m) (finite : m < infinity) :
    rounded (shortest m).value = m := by
  simp only [shortest, if_neg positive.ne']
  cases h : (List.range 17).findSome? fun (i : ℕ) =>
      onGrid m (units m) unitsPerOne (leadingPlace (units m) unitsPerOne - 1 - i) with
  | none =>
    rw [Option.getD_none, exactDecimal_value]
    exact rounded_magnitudeValue positive finite
  | some d =>
    obtain ⟨i, -, hi⟩ := List.exists_of_findSome?_eq_some h
    rw [Option.getD_some, Decimal.value, ← nearestDecimal_eq]
    exact onGrid_reads hi

theorem shortest_significand_pos {m : ℕ} (positive : 0 < m) (finite : m < infinity) :
    0 < (shortest m).significand := by
  apply Nat.pos_of_ne_zero
  intro zero
  have reads := shortest_reads positive finite
  rw [Decimal.value, zero, Nat.cast_zero, zero_mul, rounded, if_pos rfl] at reads
  omega

theorem ofMagnitude_magnitude (x : Binary64) : ofMagnitude x.negative x.magnitude = x := by
  have bound : x.bits.toNat < 2 * signBit := x.bits.toNat_lt
  have bits : (if x.negative then signBit + x.magnitude else x.magnitude) = x.bits.toNat := by
    by_cases h : signBit ≤ x.bits.toNat
    · rw [negative, decide_eq_true h, if_pos rfl, magnitude]
      rw [Nat.mod_eq_sub_mod h, Nat.mod_eq_of_lt (by omega)]
      omega
    · rw [negative, decide_eq_false h, if_neg Bool.false_ne_true, magnitude]
      exact Nat.mod_eq_of_lt (by omega)
  rw [ofMagnitude, bits, UInt64.ofNat_toNat]

end Binary64

namespace Numeral

def value (n : Numeral) : ℚ := n.significand * 10 ^ n.scale

theorem toBinary64_of_value {n : Numeral} {x : Binary64} (hx : 0 < x.magnitude) (finite : x.isFinite = true)
    (sign : n.negative = x.negative) (value : n.value = (Binary64.shortest x.magnitude).value) :
    n.toBinary64 = x := by
  have reads := Binary64.shortest_reads hx (of_decide_eq_true finite)
  rw [← value, Numeral.value, ← Binary64.nearestDecimal_eq] at reads
  rw [toBinary64, reads, sign, Binary64.ofMagnitude_magnitude]

def positional (negative : Bool) (digits : List Char) (places : ℤ) : Numeral :=
  if places ≤ 0 then
    ⟨negative, ['0'], some (List.replicate (-places).toNat '0' ++ digits), none⟩
  else if digits.length ≤ places.toNat then
    ⟨negative, digits ++ List.replicate (places.toNat - digits.length) '0', some ['0'], none⟩
  else ⟨negative, digits.take places.toNat, some (digits.drop places.toNat), none⟩

theorem isDigit_zeros (k : ℕ) : ∀ c ∈ List.replicate k '0', c.isDigit = true := by
  intro c hc
  rw [List.eq_of_mem_replicate hc]
  rfl

theorem isDigits_append {ds es : List Char} (hd : IsDigits ds) (he : ∀ c ∈ es, c.isDigit = true) :
    IsDigits (ds ++ es) := by
  constructor
  · exact List.append_ne_nil_of_left_ne_nil hd.1 es
  · exact List.forall_mem_append.mpr ⟨hd.2, he⟩

theorem isDigits_prepend {ds es : List Char} (hd : ∀ c ∈ ds, c.isDigit = true) (he : IsDigits es) :
    IsDigits (ds ++ es) := by
  constructor
  · exact List.append_ne_nil_of_right_ne_nil ds he.1
  · exact List.forall_mem_append.mpr ⟨hd, he.2⟩

theorem isDigits_zero : IsDigits ['0'] := ⟨List.cons_ne_nil _ _, isDigit_zeros 1⟩

theorem positional_text (negative : Bool) (digits : List Char) (places : ℤ) :
    (positional negative digits places).text =
      (if negative then ['-'] else []) ++ Binary64.positional digits places := by
  simp only [positional, Binary64.positional]
  by_cases small : places ≤ 0
  · simp [small, text]
  by_cases long : digits.length ≤ places.toNat
  · have none : digits.drop places.toNat = [] := List.drop_eq_nil_of_le long
    simp [small, long, text, none, List.take_of_length_le long]
  · have pad : places.toNat - digits.length = 0 := by omega
    simp only [small, long, ↓reduceIte, text, pad, List.replicate_zero, List.append_nil]
    cases rest : digits.drop places.toNat with
    | nil =>
      have := List.drop_eq_nil_iff.mp rest
      omega
    | cons d ds => simp

theorem positional_written (negative : Bool) {digits : List Char} (h : IsDigits digits) (places : ℤ) :
    (positional negative digits places).Written := by
  simp only [positional]
  by_cases small : places ≤ 0
  · rw [if_pos small]
    refine ⟨isDigits_zero, ?_, fun _ he => nomatch he⟩
    rintro _ ⟨⟩
    exact isDigits_prepend (isDigit_zeros _) h
  rw [if_neg small]
  by_cases long : digits.length ≤ places.toNat
  · rw [if_pos long]
    refine ⟨isDigits_append h (isDigit_zeros _), ?_, fun _ he => nomatch he⟩
    rintro _ ⟨⟩
    exact isDigits_zero
  · rw [if_neg long]
    refine ⟨⟨?_, ?_⟩, ?_, fun _ he => nomatch he⟩
    · intro empty
      rcases List.take_eq_nil_iff.mp empty with none | none
      · omega
      · exact h.1 none
    · intro c hc
      exact h.2 c (List.mem_of_mem_take hc)
    · rintro _ ⟨⟩
      constructor
      · intro empty
        have := List.drop_eq_nil_iff.mp empty
        omega
      · intro c hc
        exact h.2 c (List.mem_of_mem_drop hc)

theorem positional_value (negative : Bool) (digits : List Char) (places : ℤ) :
    (positional negative digits places).value = Digits.read digits * 10 ^ (places - digits.length) := by
  simp only [positional, value, significand, scale]
  by_cases small : places ≤ 0
  · have read := Digits.read_zeros_append (1 + (-places).toNat) digits
    rw [List.replicate_add, List.append_assoc] at read
    simp only [small, ↓reduceIte, Option.getD_some, Option.map_none, Option.getD_none]
    change (Digits.read (['0'] ++ (List.replicate (-places).toNat '0' ++ digits)) : ℚ) * _ = _
    rw [show ['0'] = List.replicate 1 '0' from rfl, read, List.length_append, List.length_replicate]
    congr 2
    omega
  by_cases long : digits.length ≤ places.toNat
  · have read := Digits.read_append_zeros digits (places.toNat - digits.length + 1)
    rw [List.replicate_succ', ← List.append_assoc] at read
    simp only [small, long, ↓reduceIte, Option.getD_some, Option.map_none, Option.getD_none]
    rw [read, Nat.cast_mul, mul_assoc, Nat.cast_pow, Nat.cast_ofNat, ← zpow_natCast,
      ← zpow_add₀ (by norm_num)]
    congr 2
    simp only [List.length_singleton]
    omega
  · simp only [small, long, ↓reduceIte, Option.getD_some, Option.map_none, Option.getD_none,
      List.take_append_drop, List.length_drop]
    congr 2
    omega

theorem positional_negative (negative : Bool) (digits : List Char) (places : ℤ) :
    (positional negative digits places).negative = negative := by
  simp only [positional]
  split
  · rfl
  · split <;> rfl

theorem positional_fractional (negative : Bool) (digits : List Char) (places : ℤ) :
    (positional negative digits places).isInteger = false := by
  simp only [positional]
  split
  · rfl
  · split <;> rfl

def scientific (negative : Bool) (digits : List Char) (places : ℤ) : Numeral :=
  let e := places - 1
  ⟨negative, digits.take 1, if digits.length ≤ 1 then none else some (digits.drop 1),
    some ⟨'e', if e < 0 then some '-' else none, Digits.write e.natAbs⟩⟩

theorem scientific_text (negative : Bool) (digits : List Char) (places : ℤ) :
    (scientific negative digits places).text =
      (if negative then ['-'] else []) ++ Binary64.scientific digits places := by
  have sign : (if places < 1 then some '-' else none).toList = if places < 1 then ['-'] else [] := by
    split <;> rfl
  cases digits with
  | nil => simp [scientific, Binary64.scientific, text, Exponent.text, sign]
  | cons d ds =>
    cases ds with
    | nil => simp [scientific, Binary64.scientific, text, Exponent.text, sign]
    | cons d' ds => simp [scientific, Binary64.scientific, text, Exponent.text, sign]

theorem scientific_written (negative : Bool) {digits : List Char} (h : IsDigits digits) (places : ℤ) :
    (scientific negative digits places).Written := by
  obtain ⟨d, ds, rfl, hd⟩ := h.head
  refine ⟨⟨by simp [scientific], ?_⟩, ?_, ?_⟩
  · intro c hc
    exact h.2 c (List.mem_of_mem_take hc)
  · intro es hes
    simp only [scientific] at hes
    split at hes
    · cases hes
    · next many =>
      cases hes
      constructor
      · intro empty
        have := List.drop_eq_nil_iff.mp empty
        omega
      · intro c hc
        exact h.2 c (List.mem_of_mem_drop hc)
  · rintro _ ⟨⟩
    refine ⟨.inl rfl, ?_, isDigits_write _⟩
    simp only
    split
    · exact .inr rfl
    · exact .inl rfl

theorem scientific_value (negative : Bool) {digits : List Char} (h : IsDigits digits) (places : ℤ) :
    (scientific negative digits places).value = Digits.read digits * 10 ^ (places - digits.length) := by
  obtain ⟨d, ds, rfl, hd⟩ := h.head
  have exponent : Exponent.value ⟨'e', if places - 1 < 0 then some '-' else none,
      Digits.write (places - 1).natAbs⟩ = places - 1 := by
    by_cases neg : places - 1 < 0
    · simp only [Exponent.value, neg, ↓reduceIte, Digits.read_write]
      omega
    · simp only [Exponent.value, neg, ↓reduceIte, Digits.read_write, reduceCtorEq]
      omega
  simp only [value, significand, scale, scientific, exponent, Option.map_some, Option.getD_some]
  cases ds with
  | nil => simp
  | cons d' ds =>
    have many : ¬(d :: d' :: ds).length ≤ 1 := by simp
    rw [if_neg many]
    change (Digits.read (d :: d' :: ds) : ℚ) * 10 ^ (places - 1 - ((d' :: ds).length : ℤ)) = _
    congr 2
    simp only [List.length_cons]
    omega

structure Prints (n : Numeral) (x : Binary64) : Prop where
  text : n.text = x.text
  written : n.Written
  fractional : n.isInteger = false
  reads : n.toBinary64 = x

theorem text_of_finite {x : Binary64} (finite : x.isFinite = true) :
    x.text = (if x.negative then ['-'] else []) ++ Binary64.magnitudeText x.magnitude := by
  have hx := of_decide_eq_true finite
  have number : x.isNaN = false := decide_eq_false (by omega)
  rw [Binary64.text, number, finite]
  cases x.negative <;> rfl

theorem exists_prints {x : Binary64} (finite : x.isFinite = true) : ∃ n : Numeral, n.Prints x := by
  have htext := text_of_finite finite
  have hx := of_decide_eq_true finite
  by_cases zero : x.magnitude = 0
  · refine ⟨⟨x.negative, ['0'], some ['0'], none⟩, ?_, ⟨isDigits_zero, ?_, fun _ h => nomatch h⟩, rfl, ?_⟩
    · rw [htext, Binary64.magnitudeText, if_pos zero, Numeral.text]
      simp
    · rintro _ ⟨⟩
      exact isDigits_zero
    · have := Binary64.ofMagnitude_magnitude x
      rw [zero] at this
      exact this
  have positive := Nat.pos_of_ne_zero zero
  obtain ⟨digits, value⟩ := Binary64.Decimal.digits_spec (Binary64.shortest_significand_pos positive hx)
  set d := Binary64.shortest x.magnitude with hd
  by_cases wide : (d.places < -3 || 16 < d.places) = true
  · refine ⟨scientific x.negative d.digits d.places, ?_, scientific_written _ digits _, Bool.and_false _, ?_⟩
    · rw [htext, Binary64.magnitudeText, if_neg zero, ← hd, if_pos wide, scientific_text]
    · apply toBinary64_of_value positive finite rfl
      rw [scientific_value _ digits, ← hd, value]
  · refine ⟨positional x.negative d.digits d.places, ?_, positional_written _ digits _, ?_, ?_⟩
    · rw [htext, Binary64.magnitudeText, if_neg zero, ← hd, if_neg wide, positional_text]
    · exact positional_fractional _ _ _
    · apply toBinary64_of_value positive finite
      · exact positional_negative _ _ _
      · rw [positional_value, ← hd, value]

end Numeral

theorem lexes_float {x : Binary64} (finite : x.isFinite = true) :
    Lexes (Value.float x).chars [.literal (.float x)] := by
  obtain ⟨n, hn⟩ := Numeral.exists_prints finite
  have ht : Token.ofNumeral n = .ok (.literal (.float x)) := by
    rw [Token.ofNumeral, hn.fractional, if_neg Bool.false_ne_true, hn.reads, if_pos finite]
  have h := lexes_numeral hn.written ht
  rw [hn.text] at h
  exact h

end Rulebook
