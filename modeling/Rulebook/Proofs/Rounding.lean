import Mathlib.Data.Int.Log
import Mathlib.Data.Rat.Floor
import Mathlib.Algebra.Order.Field.Power
import Mathlib.Algebra.Order.Floor.Semifield
import Mathlib.Tactic.FieldSimp
import Mathlib.Tactic.Linarith
import Mathlib.Tactic.NormNum
import Mathlib.Tactic.Positivity
import Mathlib.Tactic.Ring
import Rulebook.Binary64.Nearest

namespace Rulebook.Binary64

def roundHalfEven (x : ℚ) : ℕ :=
  if x - ⌊x⌋₊ < 1 / 2 then ⌊x⌋₊
  else if 1 / 2 < x - ⌊x⌋₊ then ⌊x⌋₊ + 1
  else ⌊x⌋₊ + ⌊x⌋₊ % 2

def lastPlace (x : ℚ) : ℤ := max (Int.log 2 x - 52) (-1074)

def rounded (x : ℚ) : ℕ :=
  if x = 0 then 0
  else min infinity ((lastPlace x + 1074).toNat * hiddenBit + roundHalfEven (x / 2 ^ lastPlace x))

theorem power_ratio {b : ℕ} (hb : 0 < b) (e : ℤ) : (power b e : ℚ) / power b (-e) = (b : ℚ) ^ e := by
  have hb' : (b : ℚ) ≠ 0 := by positivity
  simp only [power, Nat.pow_eq, Nat.cast_pow, ← zpow_natCast]
  rw [← zpow_sub₀ hb']
  congr 1
  omega

theorem power_pos {b : ℕ} (hb : 0 < b) (e : ℤ) : 0 < power b e := Nat.pow_pos hb

theorem log_bounds {n : ℕ} (hn : 0 < n) :
    (2 : ℚ) ^ (n.log2 : ℤ) ≤ n ∧ (n : ℚ) < 2 ^ ((n.log2 : ℤ) + 1) := by
  have hl : 2 ^ n.log2 ≤ n := Nat.log2_self_le hn.ne'
  have hu : n < 2 ^ (n.log2 + 1) := Nat.lt_log2_self
  constructor
  · rw [zpow_natCast]
    exact_mod_cast hl
  · rw [show (n.log2 : ℤ) + 1 = ((n.log2 + 1 : ℕ) : ℤ) by push_cast; rfl, zpow_natCast]
    exact_mod_cast hu

theorem floorLog_eq {num den : ℕ} (hn : 0 < num) (hd : 0 < den) :
    floorLog num den = Int.log 2 ((num : ℚ) / den) := by
  have hd' : (0 : ℚ) < den := by exact_mod_cast hd
  have hx : 0 < (num : ℚ) / den := div_pos (by exact_mod_cast hn) hd'
  set t : ℤ := (num.log2 : ℤ) - den.log2 with ht
  obtain ⟨nl, nu⟩ := log_bounds hn
  obtain ⟨dl, du⟩ := log_bounds hd
  -- The bit lengths leave two binades for the quotient, and the test tells which.
  have lower : t - 1 ≤ Int.log 2 ((num : ℚ) / den) := by
    apply (Int.zpow_le_iff_le_log one_lt_two hx).mp
    calc (2 : ℚ) ^ (t - 1) = 2 ^ (num.log2 : ℤ) / 2 ^ ((den.log2 : ℤ) + 1) := by
          rw [← zpow_sub₀ two_ne_zero]
          congr 1
          omega
      _ ≤ (num : ℚ) / den := div_le_div₀ (by positivity) nl hd' du.le
  have upper : Int.log 2 ((num : ℚ) / den) < t + 1 := by
    apply (Int.lt_zpow_iff_log_lt one_lt_two hx).mp
    calc (num : ℚ) / den < 2 ^ ((num.log2 : ℤ) + 1) / 2 ^ (den.log2 : ℤ) :=
          div_lt_div₀ nu dl (by positivity) (by positivity)
      _ = 2 ^ (t + 1) := by
          rw [← zpow_sub₀ two_ne_zero]
          congr 1
          omega
  have test : den * power 2 t ≤ num * power 2 (-t) ↔ t ≤ Int.log 2 ((num : ℚ) / den) := by
    have hp : (0 : ℚ) < power 2 (-t) := by exact_mod_cast power_pos two_pos (-t)
    have ratio := power_ratio two_pos t
    rw [← Int.zpow_le_iff_le_log one_lt_two hx]
    rw [show ((2 : ℕ) : ℚ) ^ t = (2 : ℚ) ^ t by norm_num] at ratio
    rw [show (((2 : ℕ) : ℚ)) ^ t = (2 : ℚ) ^ t by norm_num, ← ratio, div_le_div_iff₀ hp hd']
    rw [mul_comm den]
    exact_mod_cast Iff.rfl
  simp only [floorLog]
  rw [← ht]
  split <;> omega

theorem roundEven_eq (num : ℕ) {den : ℕ} (hd : 0 < den) :
    roundEven num den = roundHalfEven ((num : ℚ) / den) := by
  have hd' : (0 : ℚ) < den := by exact_mod_cast hd
  have floor : ⌊(num : ℚ) / den⌋₊ = num / den := Nat.floor_div_eq_div num den
  have split : (num : ℚ) = den * (num / den : ℕ) + (num % den : ℕ) := by
    exact_mod_cast (Nat.div_add_mod num den).symm
  have rest : (num : ℚ) / den - (num / den : ℕ) = (num % den : ℕ) / den := by
    field_simp
    linarith
  have below : (num : ℚ) / den - (num / den : ℕ) < 1 / 2 ↔ 2 * (num % den) < den := by
    rw [rest, div_lt_div_iff₀ hd' two_pos, one_mul, mul_comm]
    exact_mod_cast Iff.rfl
  have above : 1 / 2 < (num : ℚ) / den - (num / den : ℕ) ↔ den < 2 * (num % den) := by
    rw [rest, div_lt_div_iff₀ two_pos hd', one_mul, mul_comm _ (2 : ℚ)]
    exact_mod_cast Iff.rfl
  simp only [roundEven, roundHalfEven, floor, below, above]

theorem nearest_eq (num : ℕ) {den : ℕ} (hd : 0 < den) :
    nearest num den = rounded ((num : ℚ) / den) := by
  have hd' : (den : ℚ) ≠ 0 := by positivity
  simp only [nearest, rounded, div_eq_zero_iff, Nat.cast_eq_zero, hd', or_false]
  by_cases hn : num = 0
  · rw [if_pos hn, if_pos hn]
  rw [if_neg hn, if_neg hn, floorLog_eq (by omega) hd]
  change min infinity ((lastPlace _ + 1074).toNat * hiddenBit +
    roundEven (num * power 2 (-lastPlace _)) (den * power 2 (lastPlace _))) = _
  set q := lastPlace ((num : ℚ) / den)
  have hq : 0 < power 2 q := power_pos two_pos q
  have scaled : ((num * power 2 (-q) : ℕ) : ℚ) / (den * power 2 q : ℕ) = num / den / 2 ^ q := by
    have ratio : (power 2 q : ℚ) / power 2 (-q) = 2 ^ q := by exact_mod_cast power_ratio two_pos q
    have hq' : (power 2 q : ℚ) ≠ 0 := by positivity
    have hm : (power 2 (-q) : ℚ) ≠ 0 := by
      have := power_pos two_pos (-q)
      positivity
    rw [← ratio]
    push_cast
    field_simp
  rw [roundEven_eq _ (Nat.mul_pos hd hq), scaled]

theorem roundHalfEven_natCast (n : ℕ) : roundHalfEven n = n := by
  simp [roundHalfEven]

theorem lastPlace_scaled {s : ℕ} {e : ℤ} (positive : 0 < s) (lt : s < 2 * hiddenBit) (he : -1074 ≤ e)
    (normal : e = -1074 ∨ hiddenBit ≤ s) : lastPlace (s * 2 ^ e) = e := by
  have hx : (0 : ℚ) < s * 2 ^ e := by positivity
  have upper : Int.log 2 ((s : ℚ) * 2 ^ e) < 53 + e := by
    apply (Int.lt_zpow_iff_log_lt one_lt_two hx).mp
    rw [Nat.cast_ofNat, zpow_add₀ two_ne_zero]
    have : (s : ℚ) < 2 ^ 53 := by exact_mod_cast lt
    gcongr
    exact_mod_cast this
  have lower : hiddenBit ≤ s → 52 + e ≤ Int.log 2 ((s : ℚ) * 2 ^ e) := by
    intro h
    apply (Int.zpow_le_iff_le_log one_lt_two hx).mp
    rw [Nat.cast_ofNat, zpow_add₀ two_ne_zero]
    have : (2 : ℚ) ^ 52 ≤ s := by exact_mod_cast h
    gcongr
    exact_mod_cast this
  simp only [lastPlace]
  rcases normal with h | h
  · omega
  · have := lower h
    omega

theorem rounded_scaled {s : ℕ} {e : ℤ} (positive : 0 < s) (lt : s < 2 * hiddenBit) (he : -1074 ≤ e)
    (normal : e = -1074 ∨ hiddenBit ≤ s) :
    rounded (s * 2 ^ e) = min infinity ((e + 1074).toNat * hiddenBit + s) := by
  have hx : (s : ℚ) * 2 ^ e ≠ 0 := by positivity
  have hp : (2 : ℚ) ^ e ≠ 0 := by positivity
  rw [rounded, if_neg hx, lastPlace_scaled positive lt he normal, mul_div_cancel_right₀ _ hp,
    roundHalfEven_natCast]

def magnitudeValue (m : ℕ) : ℚ := significand m * 2 ^ exponent m

theorem rounded_magnitudeValue {m : ℕ} (positive : 0 < m) (finite : m < infinity) :
    rounded (magnitudeValue m) = m := by
  have hpos : 0 < hiddenBit := by decide
  simp only [magnitudeValue, significand, exponent]
  -- A subnormal magnitude is its own significand; above, the exponent stands over the hidden bit.
  by_cases h : m < hiddenBit
  · rw [if_pos h, if_pos h, rounded_scaled positive (by omega) (by omega) (.inl rfl)]
    simp only [Int.reduceNeg, Int.add_left_neg, Int.toNat_zero, Nat.zero_mul, Nat.zero_add]
    omega
  · have hlt : m % hiddenBit < hiddenBit := Nat.mod_lt m hpos
    have hdiv : 1 ≤ m / hiddenBit := (Nat.one_le_div_iff hpos).mpr (by omega)
    have whole := Nat.div_add_mod m hiddenBit
    rw [if_neg h, if_neg h, rounded_scaled (by omega) (by omega) (by omega) (.inr (by omega))]
    rw [show ((m / hiddenBit : ℕ) - 1075 + 1074 : ℤ).toNat = m / hiddenBit - 1 by omega]
    rw [Nat.sub_mul, Nat.one_mul, Nat.mul_comm]
    have : hiddenBit * 1 ≤ hiddenBit * (m / hiddenBit) := Nat.mul_le_mul_left _ hdiv
    omega

theorem floor_le_roundHalfEven (x : ℚ) : ⌊x⌋₊ ≤ roundHalfEven x := by
  simp only [roundHalfEven]
  split
  · exact Nat.le_refl _
  · split <;> omega

theorem hiddenBit_le_significand {x : ℚ} (positive : 0 < x) (place : lastPlace x = Int.log 2 x - 52) :
    hiddenBit ≤ roundHalfEven (x / 2 ^ lastPlace x) := by
  have scaled : (hiddenBit : ℚ) ≤ x / 2 ^ lastPlace x := by
    rw [le_div_iff₀ (by positivity), place]
    calc (hiddenBit : ℚ) * 2 ^ (Int.log 2 x - 52) = 2 ^ Int.log 2 x := by
          rw [show (hiddenBit : ℚ) = 2 ^ (52 : ℤ) by norm_num [hiddenBit], ← zpow_add₀ two_ne_zero]
          congr 1
          omega
      _ ≤ x := by exact_mod_cast Int.zpow_log_le_self one_lt_two positive
  exact (Nat.le_floor scaled).trans (floor_le_roundHalfEven _)

theorem rounded_large {x : ℚ} (h : 2 ^ (1024 : ℤ) ≤ x) : rounded x = infinity := by
  have hx : 0 < x := lt_of_lt_of_le (by positivity) h
  have hlog : 1024 ≤ Int.log 2 x := by
    apply (Int.zpow_le_iff_le_log one_lt_two hx).mp
    simpa only [Nat.cast_ofNat] using h
  have place : lastPlace x = Int.log 2 x - 52 := by
    simp only [lastPlace]
    omega
  have significandLarge := hiddenBit_le_significand hx place
  have exponentLarge : 2046 ≤ (lastPlace x + 1074).toNat := by omega
  rw [rounded, if_neg hx.ne']
  apply Nat.min_eq_left
  calc infinity = 2046 * hiddenBit + hiddenBit := by decide
    _ ≤ (lastPlace x + 1074).toNat * hiddenBit + roundHalfEven (x / 2 ^ lastPlace x) := by gcongr

theorem rounded_small {x : ℚ} (hx : 0 < x) (h : x < 2 ^ (-1075 : ℤ)) : rounded x = 0 := by
  have hlog : Int.log 2 x < -1075 := by
    apply (Int.lt_zpow_iff_log_lt one_lt_two hx).mp
    exact_mod_cast h
  have place : lastPlace x = -1074 := by
    simp only [lastPlace]
    omega
  have half : x / 2 ^ (-1074 : ℤ) < 1 / 2 := by
    rw [div_lt_iff₀ (by positivity)]
    calc x < 2 ^ (-1075 : ℤ) := h
      _ = 2 ^ (-1 : ℤ) * 2 ^ (-1074 : ℤ) := by rw [← zpow_add₀ two_ne_zero]; rfl
      _ = 1 / 2 * 2 ^ (-1074 : ℤ) := by rw [zpow_neg_one, one_div]
  have floor : ⌊x / 2 ^ (-1074 : ℤ)⌋₊ = 0 := Nat.floor_eq_zero.mpr (by linarith)
  rw [rounded, if_neg hx.ne', place, roundHalfEven, floor, Nat.cast_zero, sub_zero, if_pos half]
  decide

theorem two_pow_lt_ten_pow {a b : ℕ} (h : a < 3 * b) : (2 : ℚ) ^ (a : ℤ) < 10 ^ (b : ℤ) := by
  rw [zpow_natCast, zpow_natCast]
  calc (2 : ℚ) ^ a < 2 ^ (3 * b) := pow_lt_pow_right₀ one_lt_two h
    _ = 8 ^ b := by
      rw [pow_mul]
      norm_num
    _ ≤ 10 ^ b := by
      gcongr
      norm_num

theorem nearestDecimal_eq (m : ℕ) (e : ℤ) : nearestDecimal m e = rounded (m * 10 ^ e) := by
  rw [nearestDecimal]
  by_cases hm : m = 0
  · simp [hm, rounded]
  have hm' : (1 : ℚ) ≤ m := by exact_mod_cast Nat.one_le_iff_ne_zero.mpr hm
  rw [if_neg hm]
  split
  · next large =>
    symm
    apply rounded_large
    calc (2 : ℚ) ^ (1024 : ℤ) ≤ 10 ^ (401 : ℤ) := (two_pow_lt_ten_pow (by decide)).le
      _ ≤ 10 ^ e := zpow_le_zpow_right₀ (by norm_num) (by omega)
      _ ≤ m * 10 ^ e := le_mul_of_one_le_left (by positivity) hm'
  split
  · next small =>
    symm
    apply rounded_small (by positivity)
    have bound : (m : ℚ) ≤ 10 ^ ((m.log2 : ℤ) + 1) := by
      refine (log_bounds (by omega)).2.le.trans ?_
      exact zpow_le_zpow_left₀ (by omega) (by norm_num) (by norm_num)
    calc (m : ℚ) * 10 ^ e ≤ 10 ^ ((m.log2 : ℤ) + 1) * 10 ^ (-401 - (m.log2 : ℤ)) := by
          gcongr
          · norm_num
          · omega
      _ = 10 ^ (-400 : ℤ) := by
          rw [← zpow_add₀ (by norm_num)]
          congr 1
          omega
      _ < 2 ^ (-1075 : ℤ) := by
        rw [zpow_neg, zpow_neg]
        exact inv_strictAnti₀ (by positivity) (two_pow_lt_ten_pow (by decide))
  · rw [nearest_eq _ (power_pos (by norm_num) _)]
    have ratio : (power 10 e : ℚ) / power 10 (-e) = 10 ^ e := by
      exact_mod_cast power_ratio (b := 10) (by norm_num) e
    push_cast
    rw [mul_div_assoc, ratio]

end Rulebook.Binary64
