import Mathlib.Order.WithBot
import Mathlib.Tactic.SplitIfs
import Rulebook.Proofs.Rounding

/-!
Rounding keeps the order of exact values, and a value that is a double is left as it is. So where a double and a
rounded value differ, the value before it was rounded stood to the double in the same way.
-/

namespace Rulebook.Binary64

theorem roundHalfEven_le_succ (x : ℚ) : roundHalfEven x ≤ ⌊x⌋₊ + 1 := by
  simp only [roundHalfEven]
  split
  · omega
  · split <;> omega

theorem roundHalfEven_mono {x y : ℚ} (h : x ≤ y) : roundHalfEven x ≤ roundHalfEven y := by
  rcases Nat.lt_or_eq_of_le (Nat.floor_mono h) with below | same
  · calc roundHalfEven x ≤ ⌊x⌋₊ + 1 := roundHalfEven_le_succ x
      _ ≤ ⌊y⌋₊ := below
      _ ≤ roundHalfEven y := floor_le_roundHalfEven y
  · -- With one floor the fractions are in order, and the greater one rounds as high.
    have fraction : x - ⌊y⌋₊ ≤ y - ⌊y⌋₊ := sub_le_sub_right h _
    simp only [roundHalfEven, same]
    split_ifs <;> first | omega | linarith

theorem lastPlace_mono {x y : ℚ} (positive : 0 < x) (h : x ≤ y) : lastPlace x ≤ lastPlace y := by
  have log := Int.log_mono_right (b := 2) positive h
  simp only [lastPlace]
  omega

theorem significand_le (x : ℚ) : roundHalfEven (x / 2 ^ lastPlace x) ≤ 2 * hiddenBit := by
  have log : Int.log 2 x + 1 ≤ 53 + lastPlace x := by
    simp only [lastPlace]
    omega
  have bound : x / 2 ^ lastPlace x ≤ (2 * hiddenBit : ℕ) := by
    rw [div_le_iff₀ (by positivity)]
    calc x ≤ 2 ^ (Int.log 2 x + 1) := by exact_mod_cast (Int.lt_zpow_succ_log_self one_lt_two x).le
      _ ≤ 2 ^ (53 + lastPlace x) := zpow_le_zpow_right₀ one_le_two log
      _ = (2 * hiddenBit : ℕ) * 2 ^ lastPlace x := by
        rw [zpow_add₀ two_ne_zero]
        norm_num [hiddenBit]
  have rounded := roundHalfEven_mono bound
  rwa [roundHalfEven_natCast] at rounded

theorem rounded_zero : rounded 0 = 0 := if_pos rfl

theorem rounded_mono {x y : ℚ} (hx : 0 ≤ x) (h : x ≤ y) : rounded x ≤ rounded y := by
  rcases hx.eq_or_lt with rfl | positive
  · rw [rounded_zero]
    exact Nat.zero_le _
  have above := positive.trans_le h
  rw [rounded, rounded, if_neg positive.ne', if_neg above.ne']
  apply min_le_min_left
  rcases (lastPlace_mono positive h).eq_or_lt with same | lower
  · have scaled : x / 2 ^ lastPlace y ≤ y / 2 ^ lastPlace y := by gcongr
    rw [same]
    exact Nat.add_le_add_left (roundHalfEven_mono scaled) _
  · -- A greater exponent makes up for the whole range of the significands.
    have least : -1074 ≤ lastPlace x := le_max_right _ _
    have place : lastPlace y = Int.log 2 y - 52 := by
      simp only [lastPlace] at lower least ⊢
      omega
    have large := hiddenBit_le_significand above place
    have small := significand_le x
    have exponents : (lastPlace x + 1074).toNat + 1 ≤ (lastPlace y + 1074).toNat := by omega
    have scaled := Nat.mul_le_mul_right hiddenBit exponents
    rw [Nat.add_mul, Nat.one_mul] at scaled
    omega

theorem rounded_le (x : ℚ) : rounded x ≤ infinity := by
  rw [rounded]
  split
  · exact Nat.zero_le _
  · exact min_le_left _ _

def nearestKey (x : ℚ) : ℤ := if x < 0 then -rounded (-x) else rounded x

theorem nearestKey_mono {x y : ℚ} (h : x ≤ y) : nearestKey x ≤ nearestKey y := by
  simp only [nearestKey]
  split_ifs with hx hy hy
  · have swapped := rounded_mono (neg_nonneg.mpr hy.le) (neg_le_neg h)
    omega
  · omega
  · exact absurd (h.trans_lt hy) hx
  · have straight := rounded_mono (not_lt.mp hx) h
    omega

theorem nearestKey_bounds (x : ℚ) : -infinity ≤ nearestKey x ∧ nearestKey x ≤ infinity := by
  have above := rounded_le x
  have below := rounded_le (-x)
  simp only [nearestKey]
  split <;> omega

section Parts

variable {m : ℕ} (negative : Bool) (h : m < signBit)
include h

theorem bits_ofMagnitude : (ofMagnitude negative m).bits.toNat = if negative then signBit + m else m := by
  have size : signBit = 2 ^ 63 := rfl
  rw [ofMagnitude, UInt64.toNat_ofNat_of_lt']
  change _ < 2 ^ 64
  split <;> omega

theorem magnitude_ofMagnitude : (ofMagnitude negative m).magnitude = m := by
  rw [magnitude, bits_ofMagnitude negative h]
  split
  · rw [Nat.add_mod_left, Nat.mod_eq_of_lt h]
  · exact Nat.mod_eq_of_lt h

theorem negative_ofMagnitude : (ofMagnitude negative m).negative = negative := by
  rw [Binary64.negative, bits_ofMagnitude negative h]
  cases negative with
  | false => exact decide_eq_false (Nat.not_le.mpr h)
  | true => exact decide_eq_true (Nat.le_add_right _ _)

end Parts

theorem nearest_one (n : ℤ) : nearest n.natAbs 1 = rounded |(n : ℚ)| := by
  rw [nearest_eq _ Nat.one_pos, Nat.cast_one, div_one, Nat.cast_natAbs, Int.cast_abs]

theorem nearest_lt (n : ℤ) : nearest n.natAbs 1 < signBit := by
  rw [nearest_one]
  exact (rounded_le _).trans_lt (by decide)

theorem isNaN_ofInt (n : ℤ) : (ofInt n).isNaN = false := by
  rw [isNaN, ofInt, magnitude_ofMagnitude _ (nearest_lt n), nearest_one]
  exact decide_eq_false (Nat.not_lt.mpr (rounded_le _))

theorem key_ofInt (n : ℤ) : (ofInt n).key = nearestKey n := by
  rw [key, ofInt, negative_ofMagnitude _ (nearest_lt n), magnitude_ofMagnitude _ (nearest_lt n), nearest_one,
    nearestKey]
  by_cases h : n < 0
  · have below : (n : ℚ) < 0 := by exact_mod_cast h
    rw [if_pos (decide_eq_true h), if_pos below, abs_of_neg below]
  · have above : ¬(n : ℚ) < 0 := by exact_mod_cast h
    rw [if_neg (by simpa using h), if_neg above, abs_of_nonneg (not_lt.mp above)]

theorem key_ofInt_mono {m n : ℤ} (h : m ≤ n) : (ofInt m).key ≤ (ofInt n).key := by
  rw [key_ofInt, key_ofInt]
  exact nearestKey_mono (by exact_mod_cast h)

theorem magnitudeValue_pos {m : ℕ} (positive : 0 < m) : 0 < magnitudeValue m := by
  have digits : 0 < significand m := by
    rw [significand]
    split
    · exact positive
    · exact Nat.add_pos_left (by decide) _
  rw [magnitudeValue]
  positivity

theorem magnitudeValue_zero : magnitudeValue 0 = 0 := by
  rw [magnitudeValue, significand, if_pos (by decide), Nat.cast_zero, zero_mul]

def finiteValue (x : Binary64) : ℚ :=
  if x.negative then -magnitudeValue x.magnitude else magnitudeValue x.magnitude

def value (x : Binary64) : WithBot (WithTop ℚ) :=
  if x.isFinite then (x.finiteValue : WithTop ℚ) else if x.negative then ⊥ else ⊤

def integerValue (n : ℤ) : WithBot (WithTop ℚ) := ((n : ℚ) : WithTop ℚ)

theorem natAbs_key (x : Binary64) : x.key.natAbs = x.magnitude := by
  rw [key]
  split
  · rw [Int.natAbs_neg, Int.natAbs_natCast]
  · exact Int.natAbs_natCast _

theorem nearestKey_finiteValue {x : Binary64} (finite : x.isFinite = true) : nearestKey x.finiteValue = x.key := by
  rcases Nat.eq_zero_or_pos x.magnitude with zero | positive
  · have value : x.finiteValue = 0 := by
      rw [finiteValue, zero, magnitudeValue_zero, neg_zero, ite_self]
    rw [value, nearestKey, if_neg (lt_irrefl _), rounded_zero, key, zero, Nat.cast_zero, neg_zero, ite_self]
  · have exact := rounded_magnitudeValue positive (of_decide_eq_true finite)
    have above := magnitudeValue_pos positive
    rw [finiteValue, key, nearestKey]
    split
    · rw [if_pos (neg_neg_of_pos above), neg_neg, exact]
    · rw [if_neg above.le.not_gt, exact]

theorem finiteValue_eq_of_key_eq {x y : Binary64} (h : x.key = y.key) : x.finiteValue = y.finiteValue := by
  have magnitude : x.magnitude = y.magnitude := by rw [← natAbs_key, h, natAbs_key]
  rcases Nat.eq_zero_or_pos y.magnitude with zero | positive
  · rw [finiteValue, finiteValue, magnitude, zero, magnitudeValue_zero, neg_zero, ite_self, ite_self]
  · have sign : x.negative = y.negative := by
      simp only [key, magnitude] at h
      split at h <;> split at h <;> first | omega | simp_all
    rw [finiteValue, finiteValue, magnitude, sign]

theorem isFinite_of_key_eq {x y : Binary64} (h : x.key = y.key) (finite : y.isFinite = true) : x.isFinite = true := by
  rw [isFinite, ← natAbs_key, h, natAbs_key]
  exact finite

theorem key_of_infinite {x : Binary64} (ordered : x.isNaN = false) (finite : x.isFinite = false) :
    x.key = if x.negative then -(infinity : ℤ) else infinity := by
  have magnitude : x.magnitude = infinity :=
    Nat.le_antisymm (Nat.not_lt.mp (of_decide_eq_false ordered)) (Nat.not_lt.mp (of_decide_eq_false finite))
  rw [key, magnitude]

theorem lt_value_of_key_lt {q : ℚ} {x : Binary64} (ordered : x.isNaN = false) (h : nearestKey q < x.key) :
    (q : WithTop ℚ) < x.value := by
  rw [value]
  by_cases finite : x.isFinite = true
  · rw [if_pos finite]
    rw [← nearestKey_finiteValue finite] at h
    exact_mod_cast lt_imp_lt_of_le_imp_le nearestKey_mono h
  · rw [key_of_infinite ordered (Bool.not_eq_true _ ▸ finite)] at h
    have bound := (nearestKey_bounds q).1
    rw [if_neg finite]
    split at h
    · omega
    · next sign =>
      rw [if_neg sign]
      exact WithBot.coe_lt_coe.mpr (WithTop.coe_lt_top q)

theorem value_lt_of_key_lt {q : ℚ} {x : Binary64} (ordered : x.isNaN = false) (h : x.key < nearestKey q) :
    x.value < (q : WithTop ℚ) := by
  rw [value]
  by_cases finite : x.isFinite = true
  · rw [if_pos finite]
    rw [← nearestKey_finiteValue finite] at h
    exact_mod_cast lt_imp_lt_of_le_imp_le nearestKey_mono h
  · rw [key_of_infinite ordered (Bool.not_eq_true _ ▸ finite)] at h
    have bound := (nearestKey_bounds q).2
    rw [if_neg finite]
    split at h
    · next sign =>
      rw [if_pos sign]
      exact WithBot.bot_lt_coe _
    · omega

theorem magnitudeValue_normal {s : ℕ} (p : ℕ) (least : hiddenBit ≤ s) (most : s < 2 * hiddenBit) :
    magnitudeValue (p * hiddenBit + s) = s * 2 ^ ((p : ℤ) - 1074) := by
  have normal : ¬p * hiddenBit + s < hiddenBit := by omega
  have digits : hiddenBit + (p * hiddenBit + s) % hiddenBit = s := by
    simp only [hiddenBit] at *
    omega
  have place : ((p * hiddenBit + s) / hiddenBit : ℕ) = p + 1 := by
    simp only [hiddenBit] at *
    omega
  rw [magnitudeValue, significand, exponent, if_neg normal, if_neg normal, digits, place]
  congr 2
  omega

theorem exists_magnitudeValue {k : ℕ} (h : k ≤ 2 ^ 53) : ∃ m, m < infinity ∧ magnitudeValue m = k := by
  have bit : hiddenBit = 2 ^ 52 := rfl
  have top : infinity = 2047 * 2 ^ 52 := rfl
  rcases Nat.eq_zero_or_pos k with rfl | positive
  · exact ⟨0, by decide, by rw [magnitudeValue_zero, Nat.cast_zero]⟩
  rcases h.eq_or_lt with rfl | below
  · refine ⟨1075 * hiddenBit + hiddenBit, by decide, ?_⟩
    rw [magnitudeValue_normal 1075 (Nat.le_refl _) (by decide), bit]
    norm_num
  -- As many places as `k` is moved up to fill the significand, its exponent is lower.
  have low := Nat.log2_self_le positive.ne'
  have high := Nat.lt_log2_self (n := k)
  have short := (Nat.log2_lt positive.ne').mpr below
  obtain ⟨d, places⟩ := Nat.exists_eq_add_of_le (Nat.le_of_lt_succ short)
  have least : hiddenBit ≤ k * 2 ^ d := by
    rw [bit, places, pow_add]
    exact Nat.mul_le_mul_right _ low
  have most : k * 2 ^ d < 2 * hiddenBit := by
    rw [bit, ← pow_succ', places, Nat.add_right_comm, pow_add]
    exact Nat.mul_lt_mul_of_pos_right high (by positivity)
  refine ⟨(1074 - d) * hiddenBit + k * 2 ^ d, ?_, ?_⟩
  · rw [bit] at most ⊢
    omega
  · rw [magnitudeValue_normal _ least most]
    have exponent : ((1074 - d : ℕ) : ℤ) - 1074 = -d := by omega
    rw [exponent, zpow_neg, zpow_natCast]
    push_cast
    field_simp

theorem exists_finiteValue {n : ℤ} (h : n.natAbs ≤ 2 ^ 53) :
    ∃ y : Binary64, y.isFinite = true ∧ y.finiteValue = n := by
  obtain ⟨m, finite, value⟩ := exists_magnitudeValue h
  have small : m < signBit := finite.trans (by decide)
  refine ⟨ofMagnitude (decide (n < 0)) m, ?_, ?_⟩
  · rw [isFinite, magnitude_ofMagnitude _ small]
    exact decide_eq_true finite
  · rw [finiteValue, negative_ofMagnitude _ small, magnitude_ofMagnitude _ small, value]
    rw [Nat.cast_natAbs]
    by_cases sign : n < 0
    · rw [if_pos (decide_eq_true sign), abs_of_neg sign, Int.cast_neg, neg_neg]
    · rw [if_neg (by simpa using sign), abs_of_nonneg (not_lt.mp sign)]

theorem compare_key_ofInt {n : ℤ} {x : Binary64} (h : n.natAbs ≤ 2 ^ 53) (ordered : x.isNaN = false) :
    compare (ofInt n).key x.key = compare (integerValue n) x.value := by
  rw [key_ofInt, integerValue]
  rcases lt_trichotomy (nearestKey n) x.key with below | same | above
  · rw [compare_lt_iff_lt.mpr below, compare_lt_iff_lt.mpr (lt_value_of_key_lt ordered below)]
  · obtain ⟨y, finite, value⟩ := exists_finiteValue h
    have keys : x.key = y.key := by rw [← nearestKey_finiteValue finite, value, same]
    have equal : x.value = (x.finiteValue : WithTop ℚ) := if_pos (isFinite_of_key_eq keys finite)
    rw [equal, finiteValue_eq_of_key_eq keys, value, compare_eq_iff_eq.mpr same, compare_eq_iff_eq.mpr rfl]
  · rw [compare_gt_iff_gt.mpr above, compare_gt_iff_gt.mpr (value_lt_of_key_lt ordered above)]

end Rulebook.Binary64
