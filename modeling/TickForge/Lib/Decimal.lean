import Mathlib.Algebra.Order.Field.Basic
import Mathlib.Algebra.Order.Field.Rat
import Mathlib.Data.List.Induction
import Mathlib.Tactic.IntervalCases
import Mathlib.Tactic.Linarith
import Mathlib.Tactic.Ring
import TickForge.Lib.Double

/-! Decimal numerals, and the exact numeral of a finite `double`. -/
namespace Binary64

open ByteString

namespace Double

variable {num den : ℕ} {d : Double} {e e' : ℤ}

theorem zpow_split (e : ℤ) : (2 : ℚ) ^ e.toNat = 2 ^ e * 2 ^ (-e).toNat := by
  rcases Int.le_total 0 e with h | h
  · obtain ⟨n, rfl⟩ := Int.eq_ofNat_of_zero_le h
    simp
  · obtain ⟨n, hn⟩ := Int.eq_ofNat_of_zero_le (Int.neg_nonneg_of_nonpos h)
    obtain rfl : e = -(n : ℤ) := by omega
    simp

/-- A comparison of scaled integers is one of rationals. -/
theorem lt_scaled_iff (num : ℕ) (hden : 0 < den) (e : ℤ) (k : ℕ) :
    num * 2 ^ (-e).toNat < den * 2 ^ e.toNat * k ↔ (num / den : ℚ) < 2 ^ e * k := by
  have hd : (0 : ℚ) < den := by exact_mod_cast hden
  have hp : (0 : ℚ) < 2 ^ (-e).toNat := by positivity
  rw [div_lt_iff₀ hd, ← Nat.cast_lt (α := ℚ)]
  push_cast
  rw [zpow_split e]
  constructor
  · intro h
    nlinarith
  · intro h
    nlinarith

/-- The leading bits of a quotient make up a number of 53 bits. -/
theorem leading_bounds (hnum : num ≠ 0) (hden : 0 < den) :
    (2 : ℚ) ^ (leading num den + 52) ≤ num / den ∧
      (num / den : ℚ) < 2 ^ (leading num den + 53) := by
  have hd : (0 : ℚ) < den := by exact_mod_cast hden
  have hnlo : (2 : ℚ) ^ num.log2 ≤ num := by exact_mod_cast Nat.log2_self_le hnum
  have hnhi : (num : ℚ) < 2 ^ (num.log2 + 1) := by exact_mod_cast Nat.lt_log2_self
  have hdlo : (2 : ℚ) ^ den.log2 ≤ den := by exact_mod_cast Nat.log2_self_le (by omega)
  have hdhi : (den : ℚ) < 2 ^ (den.log2 + 1) := by exact_mod_cast Nat.lt_log2_self
  set e : ℤ := (num.log2 : ℤ) - den.log2 - 52 with he
  have hlo : (2 : ℚ) ^ (e + 51) ≤ num / den := by
    rw [le_div_iff₀ hd]
    have : (2 : ℚ) ^ (e + 51) * 2 ^ (den.log2 + 1) = 2 ^ num.log2 := by
      rw [← zpow_natCast, ← zpow_natCast, ← zpow_add₀ (by norm_num)]
      congr 1
      push_cast
      omega
    have hpos : (0 : ℚ) < 2 ^ (e + 51) := zpow_pos (by norm_num) _
    nlinarith
  have hhi : (num / den : ℚ) < 2 ^ (e + 53) := by
    rw [div_lt_iff₀ hd]
    have : (2 : ℚ) ^ (e + 53) * 2 ^ den.log2 = 2 ^ (num.log2 + 1) := by
      rw [← zpow_natCast, ← zpow_natCast, ← zpow_add₀ (by norm_num)]
      congr 1
      push_cast
      omega
    have hpos : (0 : ℚ) < 2 ^ (e + 53) := zpow_pos (by norm_num) _
    nlinarith
  have hmid := lt_scaled_iff num hden e (2 ^ 52)
  have hpow : ∀ k : ℤ, (2 : ℚ) ^ (e + k) = 2 ^ e * 2 ^ k := fun k => zpow_add₀ (by norm_num) e k
  have hlead : leading num den = if num * 2 ^ (-e).toNat < den * 2 ^ e.toNat * 2 ^ 52
      then e - 1 else e := rfl
  rw [hlead]
  split
  · next h =>
    refine ⟨?_, ?_⟩
    · rwa [show e - 1 + 52 = e + 51 by omega]
    · have := hmid.mp h
      rw [show e - 1 + 53 = e + 52 by omega, hpow]
      exact_mod_cast this
  · next h =>
    refine ⟨?_, hhi⟩
    have := not_lt.mp (hmid.not.mp h)
    rw [hpow]
    exact_mod_cast this

/-- The three fields make up the bits. -/
theorem ofMagnitude_fields (d : Double) :
    ofMagnitude d.negative (d.exponent * 2 ^ 52 + d.fraction) = d := by
  have hlt := d.bits.isLt
  have hmsb : d.negative = decide (2 ^ 63 ≤ d.bits.toNat) := BitVec.msb_eq_decide d.bits
  have hsum : (if d.negative then 2 ^ 63 else 0) + (d.exponent * 2 ^ 52 + d.fraction) =
      d.bits.toNat := by
    simp only [hmsb, exponent, fraction, decide_eq_true_eq]
    split <;> omega
  rw [ofMagnitude, hsum]
  simp

theorem exponent_lt (h : d.isFinite = true) : d.exponent < 2047 := by
  have hne : d.exponent ≠ 2047 := by simpa [isFinite] using h
  have hlt : d.exponent < 2 ^ 11 := Nat.mod_lt _ (by norm_num)
  omega

theorem fraction_lt (d : Double) : d.fraction < 2 ^ 52 := Nat.mod_lt _ (by norm_num)

/-- The last bit that is kept of a value that a `double` has is the last bit of the `double`. -/
theorem lastBit_exact (hnum : num ≠ 0) (hden : 0 < den)
    (h : (num / den : ℚ) = d.significand * 2 ^ d.scale) : lastBit num den = d.scale := by
  obtain ⟨hlo, hhi⟩ := leading_bounds hnum hden
  have hpow : ∀ k : ℤ, (2 : ℚ) ^ (d.scale + k) = 2 ^ d.scale * 2 ^ k :=
    fun k => zpow_add₀ (by norm_num) _ k
  have hpos : (0 : ℚ) < 2 ^ d.scale := zpow_pos (by norm_num) _
  have hfrac := d.fraction_lt
  have hmono : ∀ {i j : ℤ}, (2 : ℚ) ^ i < 2 ^ j → i < j :=
    fun hij => (zpow_lt_zpow_iff_right₀ (by norm_num)).mp hij
  rw [lastBit]
  by_cases hexp : d.exponent = 0
  · have hscale : d.scale = -1074 := by simp [scale, hexp]
    have hsig : (d.significand : ℚ) < 2 ^ (52 : ℤ) := by
      have : d.significand < 2 ^ 52 := by simpa [significand, hexp] using hfrac
      exact_mod_cast this
    have hlt : (num / den : ℚ) < 2 ^ (d.scale + 52) := by
      rw [h, hpow, mul_comm]
      exact mul_lt_mul_of_pos_left hsig hpos
    have := hmono (hlo.trans_lt hlt)
    omega
  · have hscale : -1074 ≤ d.scale := by
      simp only [scale]
      omega
    have hnat : 2 ^ 52 ≤ d.significand ∧ d.significand < 2 ^ 53 := by
      simp only [significand, hexp, if_false]
      omega
    have hge : (2 : ℚ) ^ (d.scale + 52) ≤ num / den := by
      have : (2 : ℚ) ^ (52 : ℤ) ≤ d.significand := by exact_mod_cast hnat.1
      rw [h, hpow, mul_comm (d.significand : ℚ)]
      exact mul_le_mul_of_nonneg_left this hpos.le
    have hlt : (num / den : ℚ) < 2 ^ (d.scale + 53) := by
      have : (d.significand : ℚ) < 2 ^ (53 : ℤ) := by exact_mod_cast hnat.2
      rw [h, hpow, mul_comm (d.significand : ℚ)]
      exact mul_lt_mul_of_pos_left this hpos
    have h₁ := hmono (hlo.trans_lt hlt)
    have h₂ := hmono (hge.trans_lt hhi)
    omega

theorem scaled_exact (hden : 0 < den)
    (h : (num / den : ℚ) = d.significand * 2 ^ d.scale) :
    scaled num den d.scale = d.significand := by
  have hd : (den : ℚ) ≠ 0 := by exact_mod_cast hden.ne'
  have hmul : num * 2 ^ (-d.scale).toNat = d.significand * (den * 2 ^ d.scale.toNat) := by
    have : (num : ℚ) * 2 ^ (-d.scale).toNat = d.significand * (den * 2 ^ d.scale.toNat) := by
      rw [zpow_split d.scale, (div_eq_iff hd).mp h]
      ring
    exact_mod_cast this
  have hpos : 0 < den * 2 ^ d.scale.toNat := Nat.mul_pos hden (by positivity)
  rw [scaled, hmul, roundHalfEven, Nat.mul_div_cancel _ hpos, Nat.mul_mod_left]
  simp only [Nat.mul_zero, gt_iff_lt, Nat.not_lt_zero, decide_false, Bool.false_or, beq_iff_eq,
    Bool.and_eq_true]
  exact if_neg fun hz => hpos.ne hz.1

/-- A ratio that a finite `double` is equal to converts to it. -/
theorem ofRatio_exact (hden : 0 < den) (hfin : d.isFinite = true)
    (h : (num / den : ℚ) = d.significand * 2 ^ d.scale) : ofRatio d.negative num den = some d := by
  have hexp := exponent_lt hfin
  have hfrac := d.fraction_lt
  have hd : (den : ℚ) ≠ 0 := by exact_mod_cast hden.ne'
  by_cases hnum : num = 0
  · have hsig : d.significand = 0 := by
      have hz : (d.significand : ℚ) * 2 ^ d.scale = 0 := by rw [← h, hnum]; simp
      rcases mul_eq_zero.mp hz with hz | hz
      · exact_mod_cast hz
      · exact (zpow_ne_zero _ (by norm_num) hz).elim
    have hfields : d.exponent * 2 ^ 52 + d.fraction = 0 := by
      simp only [significand] at hsig
      split at hsig <;> omega
    rw [ofRatio, if_pos hnum, ← hfields, ofMagnitude_fields]
  · have hmag : (d.scale + 1074).toNat * 2 ^ 52 + d.significand =
        d.exponent * 2 ^ 52 + d.fraction := by
      simp only [scale, significand]
      split <;> omega
    simp only [ofRatio, if_neg hnum, lastBit_exact hnum hden h, scaled_exact hden h, hmag,
      ofMagnitude_fields]
    rw [if_pos (by omega)]

end Double

/-- The last decimal digit of a number. -/
def digit (n : ℕ) : UInt8 := UInt8.ofNat (48 + n % 10)

theorem isDigit_digit (n : ℕ) : isDigit (digit n) = true := by
  have h : n % 10 < 10 := Nat.mod_lt _ (by norm_num)
  rw [digit]
  interval_cases n % 10 <;> rfl

theorem toNat_digit (n : ℕ) : (digit n).toNat - 48 = n % 10 := by
  have h : n % 10 < 10 := Nat.mod_lt _ (by norm_num)
  rw [digit]
  interval_cases n % 10 <;> rfl

/-- The last `k` digits of a number. -/
def padded : ℕ → ℕ → Bytes
  | 0, _ => []
  | k + 1, n => padded k (n / 10) ++ [digit n]

/-- How many digits a number has, given at least as much fuel. -/
def width : ℕ → ℕ → ℕ
  | 0, _ => 1
  | fuel + 1, n => if n < 10 then 1 else width fuel (n / 10) + 1

def decimal (n : ℕ) : Bytes := padded (width n n) n

theorem digitsValue_concat (ds : Bytes) (c : UInt8) :
    digitsValue (ds ++ [c]) = 10 * digitsValue ds + (c.toNat - 48) := by
  simp [digitsValue]

theorem digitsValue_padded (k n : ℕ) : digitsValue (padded k n) = n % 10 ^ k := by
  induction k generalizing n with
  | zero => simp [padded, digitsValue, Nat.mod_one]
  | succ k ih =>
    rw [padded, digitsValue_concat, ih, toNat_digit, pow_succ, Nat.mul_comm (10 ^ k),
      Nat.mod_mul]
    omega

theorem length_padded (k n : ℕ) : (padded k n).length = k := by
  induction k generalizing n with
  | zero => rfl
  | succ k ih => simp [padded, ih]

theorem isDigit_padded {k n : ℕ} {c : UInt8} (h : c ∈ padded k n) : isDigit c = true := by
  induction k generalizing n with
  | zero => simp [padded] at h
  | succ k ih =>
    rcases List.mem_append.mp h with h | h
    · exact ih h
    · rw [List.mem_singleton.mp h]
      exact isDigit_digit n

theorem lt_pow_width {fuel n : ℕ} (h : n ≤ fuel) : n < 10 ^ width fuel n := by
  induction fuel generalizing n with
  | zero => simp [width]; omega
  | succ fuel ih =>
    rw [width]
    split
    · omega
    · have := ih (n := n / 10) (by omega)
      rw [pow_succ]
      omega

theorem width_pos (fuel n : ℕ) : 0 < width fuel n := by
  cases fuel with
  | zero => simp [width]
  | succ fuel =>
    rw [width]
    split <;> omega

theorem digitsValue_decimal (n : ℕ) : digitsValue (decimal n) = n := by
  rw [decimal, digitsValue_padded, Nat.mod_eq_of_lt (lt_pow_width (Nat.le_refl n))]

theorem decimal_ne_nil (n : ℕ) : decimal n ≠ [] := by
  have h := width_pos n n
  intro hnil
  have := length_padded (width n n) n
  rw [← decimal, hnil, List.length_nil] at this
  omega

theorem digitsValue_append (xs ys : Bytes) :
    digitsValue (xs ++ ys) = digitsValue xs * 10 ^ ys.length + digitsValue ys := by
  induction ys using List.reverseRecOn with
  | nil => simp [digitsValue]
  | append_singleton ys c ih =>
    rw [← List.append_assoc, digitsValue_concat, digitsValue_concat, ih, List.length_append,
      List.length_singleton, pow_succ]
    ring

/-- `m / 2 ^ k` in lowest terms. -/
def halve : ℕ → ℕ → ℕ × ℕ
  | m, 0 => (m, 0)
  | m, k + 1 => if m % 2 = 0 then halve (m / 2) k else (m, k + 1)

theorem halve_eq (m k : ℕ) : ((halve m k).1 / 2 ^ (halve m k).2 : ℚ) = m / 2 ^ k := by
  induction k generalizing m with
  | zero => rfl
  | succ k ih =>
    rw [halve]
    split
    · next h =>
      have hm : (m : ℚ) = 2 * (m / 2 : ℕ) := by
        have : m = 2 * (m / 2) := by omega
        exact_mod_cast this
      rw [ih, hm, pow_succ, mul_comm ((2 : ℚ) ^ k), mul_div_mul_left _ _ (by norm_num)]
    · rfl

namespace Double

/-- The digits before and behind the point; there is at least one behind it. -/
def exactDigits (d : Double) : Bytes × Bytes :=
  let (m, k) := halve (d.significand * 2 ^ d.scale.toNat) (-d.scale).toNat
  let n := m * 5 ^ k
  (decimal (n / 10 ^ k), if k = 0 then [48] else padded k n)

theorem exactDigits_value (d : Double) :
    (digitsValue (d.exactDigits.1 ++ d.exactDigits.2) / 10 ^ d.exactDigits.2.length : ℚ) =
      d.significand * 2 ^ d.scale := by
  have hhalve := halve_eq (d.significand * 2 ^ d.scale.toNat) (-d.scale).toNat
  have hvalue : ((d.significand * 2 ^ d.scale.toNat : ℕ) / 2 ^ (-d.scale).toNat : ℚ) =
      d.significand * 2 ^ d.scale := by
    have hp : (2 : ℚ) ^ (-d.scale).toNat ≠ 0 := pow_ne_zero _ (by norm_num)
    rw [div_eq_iff hp]
    push_cast
    rw [zpow_split d.scale, mul_assoc]
  rw [← hvalue, ← hhalve]
  simp only [exactDigits]
  generalize halve (d.significand * 2 ^ d.scale.toNat) (-d.scale).toNat = p
  obtain ⟨m, k⟩ := p
  cases k with
  | zero =>
    have hzero : digitsValue [48] = 0 := rfl
    simp [digitsValue_append, digitsValue_decimal, hzero]
  | succ k =>
    have hsplit : m * 5 ^ (k + 1) / 10 ^ (k + 1) * 10 ^ (k + 1) +
        m * 5 ^ (k + 1) % 10 ^ (k + 1) = m * 5 ^ (k + 1) := Nat.div_add_mod' _ _
    simp only [Nat.succ_ne_zero, if_false, digitsValue_append, digitsValue_decimal,
      length_padded, digitsValue_padded, hsplit]
    rw [show (10 : ℚ) = 5 * 2 by norm_num, mul_pow]
    push_cast
    rw [mul_comm (m : ℚ), mul_div_mul_left _ _ (pow_ne_zero _ (by norm_num))]

theorem isDigit_exactDigits (d : Double) :
    (∀ c ∈ d.exactDigits.1, isDigit c = true) ∧ ∀ c ∈ d.exactDigits.2, isDigit c = true := by
  simp only [exactDigits]
  refine ⟨fun c hc => isDigit_padded hc, ?_⟩
  split
  · intro c hc
    obtain rfl := List.mem_singleton.mp hc
    rfl
  · exact fun c hc => isDigit_padded hc

theorem exactDigits_ne_nil (d : Double) : d.exactDigits.1 ≠ [] ∧ d.exactDigits.2 ≠ [] := by
  simp only [exactDigits]
  refine ⟨decimal_ne_nil _, ?_⟩
  split
  · simp
  · next h => exact fun hnil => h (by simpa [length_padded] using congrArg List.length hnil)

/-- Reading the exact numeral gives the value back. -/
theorem ofDecimal_exactDigits {d : Double} (h : d.isFinite = true) :
    ofDecimal d.negative (digitsValue (d.exactDigits.1 ++ d.exactDigits.2))
      (0 - d.exactDigits.2.length) = some d := by
  rw [ofDecimal]
  have hpos : (0 - (d.exactDigits.2.length : ℤ)).toNat = 0 := by omega
  have hneg : (-(0 - (d.exactDigits.2.length : ℤ))).toNat = d.exactDigits.2.length := by omega
  rw [hpos, hneg]
  apply ofRatio_exact (Nat.pow_pos (by norm_num)) h
  have := exactDigits_value d
  push_cast
  simpa using this

end Double

end Binary64
