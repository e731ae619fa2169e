import TickForge.Lib.Decimal

/-! Decimal numerals as texts, and what `std::from_chars` makes of them. -/
namespace Binary64

open ByteString

/-- The exponent part of a numeral. -/
structure Exponent where
  letter : UInt8
  sign : Bytes
  digits : Bytes
  isLetter : toLower letter = 101
  isSign : sign = [] ∨ sign = [43] ∨ sign = [45]
  isDigits : ∀ c ∈ digits, isDigit c = true
  digits_ne_nil : digits ≠ []

namespace Exponent

def text (x : Exponent) : Bytes := x.letter :: (x.sign ++ x.digits)

def value (x : Exponent) : ℤ := (if x.sign = [45] then -1 else 1) * (digitsValue x.digits : ℤ)

end Exponent

/-- A decimal numeral: digits with an optional point among them, before, or behind, and an
optional exponent. -/
structure Numeral where
  negative : Bool
  whole : Bytes
  /-- The digits behind the point, if there is one. -/
  frac : Option Bytes
  exponent : Option Exponent
  isDigits_whole : ∀ c ∈ whole, isDigit c = true
  isDigits_frac : ∀ c ∈ frac.getD [], isDigit c = true
  digits_ne_nil : whole ++ frac.getD [] ≠ []

namespace Numeral

/-- The numeral without its sign. -/
def magnitude (n : Numeral) : Bytes :=
  n.whole ++ (n.frac.elim [] (46 :: ·) ++ n.exponent.elim [] Exponent.text)

def text (n : Numeral) : Bytes := if n.negative then 45 :: n.magnitude else n.magnitude

def mantissa (n : Numeral) : ℕ := digitsValue (n.whole ++ n.frac.getD [])

/-- The power of ten that the mantissa is multiplied with. -/
def power (n : Numeral) : ℤ := n.exponent.elim 0 Exponent.value - (n.frac.getD []).length

def value (n : Numeral) : ℚ := (if n.negative then -1 else 1) * n.mantissa * 10 ^ n.power

/-- The text `rest` behind a numeral does not continue it. -/
structure Ends (n : Numeral) (rest : Bytes) : Prop where
  digit : ∀ c ∈ rest.head?, isDigit c = false
  point : n.frac = none → n.exponent = none → rest.head? ≠ some 46
  exponent : n.exponent = none → ∀ x : Exponent, ¬ x.text <+: rest

/-- What is reported of a numeral; one that no `double` is near to is out of range. -/
def result (n : Numeral) (rest : Bytes) : FromChars :=
  match Double.ofDecimal n.negative n.mantissa n.power with
  | none => .resultOutOfRange rest
  | some d => if n.mantissa != 0 && d.isZero then .resultOutOfRange rest else .ok d rest

end Numeral

variable {s rest : Bytes}

theorem isDigit_false_of_letter {c : UInt8} (h : toLower c = 101) : isDigit c = false := by
  by_contra hd
  have hd' : 48 ≤ c ∧ c ≤ 57 := by simpa [isDigit] using hd
  have hlow : ¬ (65 ≤ c ∧ c ≤ 90) := by
    rintro ⟨h65, -⟩
    exact absurd (UInt8.le_trans h65 hd'.2) (by decide)
  rw [toLower] at h
  simp only [Bool.and_eq_true, decide_eq_true_eq, hlow, if_false] at h
  subst h
  exact absurd hd'.2 (by decide)

theorem scanExponent_text (x : Exponent) (h : ∀ c ∈ rest.head?, isDigit c = false) :
    scanExponent (x.text ++ rest) = (x.value, rest) := by
  obtain ⟨htake, hdrop⟩ := takeWhile_delimited x.isDigits h
  obtain ⟨letter, sign, digits, hl, hs, hd, hne⟩ := x
  rcases hs with rfl | rfl | rfl
  · cases digits with
    | nil => exact (hne rfl).elim
    | cons c digits =>
      have hc := hd c (by simp)
      have hminus : c ≠ 45 := by
        rintro rfl
        simp [isDigit] at hc
      have hplus : c ≠ 43 := by
        rintro rfl
        simp [isDigit] at hc
      simp only [List.cons_append] at htake hdrop
      simp [scanExponent, Exponent.text, Exponent.value, hl, hminus, hplus, htake, hdrop]
  · simp [scanExponent, Exponent.text, Exponent.value, hl, htake, hdrop, hne]
  · simp [scanExponent, Exponent.text, Exponent.value, hl, htake, hdrop, hne]

/-- There is an exponent part, or nothing is taken off. -/
theorem scanExponent_cases (s : Bytes) :
    (scanExponent s = (0, s) ∧ ∀ x : Exponent, ¬ x.text <+: s) ∨
    ∃ x rest, s = Exponent.text x ++ rest ∧ ∀ c ∈ rest.head?, isDigit c = false := by
  by_cases hx : ∃ x : Exponent, x.text <+: s
  · right
    obtain ⟨x, t, rfl⟩ := hx
    -- the digits that follow belong to the exponent as well
    refine ⟨{ x with digits := x.digits ++ t.takeWhile isDigit, isDigits := ?_, digits_ne_nil := ?_ },
      t.dropWhile isDigit, ?_, dropWhile_head t⟩
    · intro c hc
      rcases List.mem_append.mp hc with hc | hc
      · exact x.isDigits c hc
      · exact List.mem_takeWhile_imp hc
    · simp [x.digits_ne_nil]
    · simp [Exponent.text, List.takeWhile_append_dropWhile]
  · left
    simp only [not_exists] at hx
    refine ⟨?_, hx⟩
    cases s with
    | nil => rfl
    | cons letter t =>
      by_cases hl : toLower letter = 101
      · have hnone : ∀ sign ds : Bytes, (sign = [] ∨ sign = [43] ∨ sign = [45]) → t = sign ++ ds →
            ds.takeWhile isDigit = [] := by
          intro sign ds hs ht
          by_contra hne
          refine hx ⟨letter, sign, ds.takeWhile isDigit, hl, hs,
            fun c hc => List.mem_takeWhile_imp hc, hne⟩ ⟨ds.dropWhile isDigit, ?_⟩
          simp [Exponent.text, ht, List.takeWhile_append_dropWhile]
        simp only [scanExponent, hl, if_true]
        split
        · next ds => simp [hnone [45] ds (by simp) rfl]
        · next ds => simp [hnone [43] ds (by simp) rfl]
        · next ds _ _ => simp [hnone [] _ (by simp) rfl]
      · simp [scanExponent, hl]

namespace Numeral

variable {n : Numeral}

theorem scanExponent_of_ends (h : n.Ends rest) :
    scanExponent (n.exponent.elim [] Exponent.text ++ rest) =
      (n.exponent.elim 0 Exponent.value, rest) := by
  cases hx : n.exponent with
  | some x => exact scanExponent_text x h.digit
  | none =>
    rcases scanExponent_cases rest with ⟨hs, -⟩ | ⟨x, r, hr, -⟩
    · exact hs
    · exact (h.exponent hx x ⟨r, hr.symm⟩).elim

/-- Nothing behind the digits looks like another digit, or like a point if there is none. -/
theorem exponent_head (h : n.Ends rest) :
    (∀ c ∈ (n.exponent.elim [] Exponent.text ++ rest).head?, isDigit c = false) ∧
    (n.frac = none → (n.exponent.elim [] Exponent.text ++ rest).head? ≠ some 46) := by
  cases hx : n.exponent with
  | none => exact ⟨h.digit, fun hf => h.point hf hx⟩
  | some x =>
    have hl := isDigit_false_of_letter x.isLetter
    refine ⟨by simpa [Exponent.text] using hl, fun _ => ?_⟩
    intro hc
    have hl := x.isLetter
    rw [show x.letter = 46 by simpa [Exponent.text] using hc] at hl
    exact absurd hl (by decide)

/-- A numeral is read up to its end. -/
theorem scanDecimal_magnitude (h : n.Ends rest) :
    scanDecimal n.negative (n.magnitude ++ rest) = n.result rest := by
  obtain ⟨hdigit, hpoint⟩ := exponent_head h
  have hexp := scanExponent_of_ends h
  have hsplit : n.magnitude ++ rest = n.whole ++
      (n.frac.elim [] (46 :: ·) ++ (n.exponent.elim [] Exponent.text ++ rest)) := by
    simp [magnitude]
  generalize n.exponent.elim [] Exponent.text ++ rest = tail at *
  have hnil := n.digits_ne_nil
  have hfrac := n.isDigits_frac
  rw [hsplit]
  cases hf : n.frac with
  | none =>
    obtain ⟨htake, hdrop⟩ := takeWhile_delimited n.isDigits_whole hdigit
    have hne : n.whole ≠ [] := by simpa [hf] using hnil
    simp only [scanDecimal, Option.elim_none, List.nil_append, htake, hdrop]
    split
    · next r => exact (hpoint hf rfl).elim
    · have hm : n.mantissa = digitsValue (n.whole ++ []) := by rw [mantissa, hf, Option.getD_none]
      have hp : n.power = n.exponent.elim 0 Exponent.value - (([] : Bytes).length : ℤ) := by
        rw [power, hf, Option.getD_none]
      simp only [List.isEmpty_iff, hne, Bool.and_true, if_false, List.isEmpty_nil, hexp, ← hm, ← hp]
      rfl
  | some ds =>
    obtain ⟨htake, hdrop⟩ := takeWhile_delimited (r := 46 :: (ds ++ tail)) n.isDigits_whole
      (by simp [isDigit])
    rw [hf] at hfrac hnil
    obtain ⟨htake', hdrop'⟩ := takeWhile_delimited hfrac hdigit
    simp only [Option.getD_some] at hnil htake' hdrop'
    have hne : (n.whole.isEmpty && ds.isEmpty) = false := by
      simpa [List.append_eq_nil_iff] using hnil
    have hm : n.mantissa = digitsValue (n.whole ++ ds) := by rw [mantissa, hf, Option.getD_some]
    have hp : n.power = n.exponent.elim 0 Exponent.value - (ds.length : ℤ) := by
      rw [power, hf, Option.getD_some]
    simp only [scanDecimal, Option.elim_some, List.cons_append, htake, hdrop, htake', hdrop', hne,
      hexp, Bool.false_eq_true, if_false, ← hm, ← hp]
    rfl

/-- The exponent part that a text begins with, if any, and what is then left. -/
theorem exists_ends (neg : Bool) {whole rest : Bytes} {frac : Option Bytes}
    (hw : ∀ c ∈ whole, isDigit c = true) (hf : ∀ c ∈ frac.getD [], isDigit c = true)
    (hne : whole ++ frac.getD [] ≠ []) (hd : ∀ c ∈ rest.head?, isDigit c = false)
    (hp : frac = none → rest.head? ≠ some 46) :
    ∃ n r, n.negative = neg ∧ whole ++ (frac.elim [] (46 :: ·) ++ rest) = magnitude n ++ r ∧
      n.Ends r := by
  rcases scanExponent_cases rest with ⟨-, hx⟩ | ⟨x, r, rfl, hr⟩
  · exact ⟨⟨neg, whole, frac, none, hw, hf, hne⟩, rest, rfl, by simp [magnitude], hd,
      fun hf _ => hp hf, fun _ => hx⟩
  · exact ⟨⟨neg, whole, frac, some x, hw, hf, hne⟩, r, rfl, by simp [magnitude], hr,
      by simp, by simp⟩

theorem scanDecimal_cases (neg : Bool) (s : Bytes) :
    scanDecimal neg s = .invalidArgument ∨
    ∃ n rest, n.negative = neg ∧ s = magnitude n ++ rest ∧ n.Ends rest := by
  have hs : s = s.takeWhile isDigit ++ s.dropWhile isDigit := by simp
  have hw : ∀ c ∈ s.takeWhile isDigit, isDigit c = true := fun c hc => List.mem_takeWhile_imp hc
  have htail : ∀ c ∈ (s.dropWhile isDigit).head?, isDigit c = false := dropWhile_head s
  by_cases hp : ∃ t, s.dropWhile isDigit = 46 :: t
  · obtain ⟨t, ht⟩ := hp
    by_cases hne : s.takeWhile isDigit ++ t.takeWhile isDigit = []
    · left
      simp only [List.append_eq_nil_iff] at hne
      simp [scanDecimal, ht, hne]
    · right
      obtain ⟨n, r, hn, hr, he⟩ := @exists_ends neg _ _ (some (t.takeWhile isDigit)) hw
        (fun c hc => List.mem_takeWhile_imp hc) hne (dropWhile_head t) (by simp)
      refine ⟨n, r, hn, ?_, he⟩
      rw [← hr]
      simpa [ht] using hs
  · by_cases hne : s.takeWhile isDigit = []
    · left
      cases ht : s.dropWhile isDigit with
      | nil => simp [scanDecimal, hne, ht]
      | cons c t =>
        have hc : c ≠ 46 := fun hc => hp ⟨t, by rw [ht, hc]⟩
        simp [scanDecimal, hne, ht, hc]
    · right
      obtain ⟨n, r, hn, hr, he⟩ := @exists_ends neg _ _ none hw (by simp)
        (by simpa using hne) htail (by
          intro _ hc
          obtain ⟨t, ht⟩ := List.head?_eq_some_iff.mp hc
          exact hp ⟨t, ht⟩)
      refine ⟨n, r, hn, ?_, he⟩
      rw [← hr]
      simp

/-- A numeral begins with a digit or a point. -/
theorem magnitude_head (n : Numeral) (rest : Bytes) :
    ∃ c t, n.magnitude ++ rest = c :: t ∧ (isDigit c = true ∨ c = 46) := by
  cases hw : n.whole with
  | cons c t => exact ⟨c, _, by simp [magnitude, hw]; rfl, Or.inl (n.isDigits_whole c (by simp [hw]))⟩
  | nil =>
    cases hf : n.frac with
    | none => exact (n.digits_ne_nil (by simp [hw, hf])).elim
    | some ds => exact ⟨46, _, by simp [magnitude, hw, hf]; rfl, Or.inr rfl⟩

end Numeral

/-- The special spellings: `inf` and `nan` in any case of their letters. -/
def Special (s : Bytes) : Prop :=
  (stripWord (utf8 "inf") s).isSome ∨ (stripWord (utf8 "nan") s).isSome

theorem toLower_lt {c : UInt8} (h : isDigit c = true ∨ c = 46) : toLower c < 97 := by
  rcases h with h | rfl
  · simp only [isDigit, Bool.and_eq_true, decide_eq_true_eq] at h
    have hc : ¬ 65 ≤ c := fun hc => absurd (UInt8.le_trans hc h.2) (by decide)
    simp only [toLower, hc, decide_false, Bool.false_and, Bool.false_eq_true, if_false]
    exact UInt8.lt_of_le_of_lt h.2 (by decide)
  · decide

theorem stripWord_ne {w c : UInt8} {word t : Bytes} (h : toLower c ≠ w) :
    stripWord (w :: word) (c :: t) = none := by
  simp [stripWord, h]

/-- No word begins with a digit or a point. -/
theorem stripWord_none {w c : UInt8} {word t : Bytes} (hc : isDigit c = true ∨ c = 46)
    (hw : 97 ≤ w) : stripWord (w :: word) (c :: t) = none := by
  have hlt := toLower_lt hc
  apply stripWord_ne
  rintro rfl
  exact absurd (UInt8.lt_of_lt_of_le hlt hw) (UInt8.lt_irrefl _)

theorem scanUnsigned_magnitude {n : Numeral} (h : n.Ends rest) :
    scanUnsigned n.negative (n.magnitude ++ rest) = n.result rest := by
  have hscan := n.scanDecimal_magnitude h
  obtain ⟨c, t, ht, hc⟩ := n.magnitude_head rest
  rw [ht] at hscan ⊢
  have hinfinity : stripWord (utf8 "infinity") (c :: t) = none := stripWord_none hc (by decide)
  have hinf : stripWord (utf8 "inf") (c :: t) = none := stripWord_none hc (by decide)
  have hnan : stripWord (utf8 "nan") (c :: t) = none := stripWord_none hc (by decide)
  simp [scanUnsigned, hinfinity, hinf, hnan, hscan]

/-- A numeral is matched up to its end, whatever follows it. -/
theorem fromChars_text {n : Numeral} (h : n.Ends rest) :
    fromChars (n.text ++ rest) = n.result rest := by
  have hscan := scanUnsigned_magnitude h
  rw [Numeral.text]
  cases hn : n.negative with
  | true =>
    rw [hn] at hscan
    exact hscan
  | false =>
    rw [hn] at hscan
    obtain ⟨c, t, ht, hc⟩ := n.magnitude_head rest
    have hne : c ≠ 45 := by
      rintro rfl
      exact absurd hc (by decide)
    simp only [Bool.false_eq_true, if_false]
    rw [ht] at hscan ⊢
    rw [← hscan]
    simp [fromChars, hne]

theorem stripWord_isSome {word : Bytes} :
    (stripWord word s).isSome = true ↔ (s.take word.length).map toLower = word := by
  rw [stripWord]
  split <;> simp_all

/-- What begins with a longer word begins with its first letters. -/
theorem stripWord_isSome_left {word word' : Bytes} (h : (stripWord (word ++ word') s).isSome = true) :
    (stripWord word s).isSome = true := by
  rw [stripWord_isSome] at h ⊢
  have htake := congrArg (List.take word.length) h
  rw [← List.map_take, List.take_take, List.length_append, Nat.min_eq_left (by omega)] at htake
  simpa using htake

theorem scanUnsigned_inf (neg : Bool) (h : (stripWord (utf8 "inf") s).isSome = true) :
    ∃ rest, scanUnsigned neg s = .ok (.infinity neg) rest := by
  obtain ⟨rest, hr⟩ := Option.isSome_iff_exists.mp h
  cases hi : stripWord (utf8 "infinity") s with
  | some rest' => exact ⟨rest', by simp [scanUnsigned, hi]⟩
  | none => exact ⟨rest, by simp [scanUnsigned, hi, hr]⟩

theorem not_inf_of_nan (h : (stripWord (utf8 "nan") s).isSome = true) :
    stripWord (utf8 "inf") s = none := by
  rw [stripWord_isSome] at h
  by_contra hinf
  have hinf' := stripWord_isSome.mp (Option.isSome_iff_ne_none.mpr hinf)
  exact absurd (h.symm.trans hinf') (by decide)

theorem not_infinity (h : stripWord (utf8 "inf") s = none) :
    stripWord (utf8 "infinity") s = none := by
  by_contra hlong
  have := @stripWord_isSome_left s (utf8 "inf") (utf8 "inity")
    (Option.isSome_iff_ne_none.mpr hlong)
  simp [h] at this

theorem scanUnsigned_nan (neg : Bool) (h : (stripWord (utf8 "nan") s).isSome = true) :
    ∃ rest, scanUnsigned neg s = .ok (.nan neg) rest := by
  have hinf := not_inf_of_nan h
  obtain ⟨rest, hr⟩ := Option.isSome_iff_exists.mp h
  exact ⟨_, by simp [scanUnsigned, not_infinity hinf, hinf, hr]; rfl⟩

theorem scanUnsigned_ordinary (neg : Bool) (h : ¬ Special s) :
    scanUnsigned neg s = scanDecimal neg s := by
  have hinf : stripWord (utf8 "inf") s = none := by
    simpa using fun hi => h (Or.inl hi)
  have hnan : stripWord (utf8 "nan") s = none := by
    simpa using fun hi => h (Or.inr hi)
  simp [scanUnsigned, not_infinity hinf, hinf, hnan]

namespace Double

theorem toNat_ofMagnitude {neg : Bool} {m : ℕ} (h : m < 2 ^ 63) :
    (ofMagnitude neg m).bits.toNat = (if neg then 2 ^ 63 else 0) + m := by
  rw [ofMagnitude, BitVec.toNat_ofNat]
  cases neg
  · simp
    omega
  · simp
    omega

theorem negative_ofMagnitude {neg : Bool} {m : ℕ} (h : m < 2 ^ 63) :
    (ofMagnitude neg m).negative = neg := by
  rw [negative, BitVec.msb_eq_decide, toNat_ofMagnitude h]
  cases neg
  · simp
    omega
  · simp

theorem exponent_ofMagnitude {neg : Bool} {m : ℕ} (h : m < 2 ^ 63) :
    (ofMagnitude neg m).exponent = m / 2 ^ 52 := by
  rw [exponent, toNat_ofMagnitude h]
  cases neg
  · simp
    omega
  · simp
    omega

theorem fraction_ofMagnitude {neg : Bool} {m : ℕ} (h : m < 2 ^ 63) :
    (ofMagnitude neg m).fraction = m % 2 ^ 52 := by
  rw [fraction, toNat_ofMagnitude h]
  cases neg
  · simp
  · simp
    omega

/-- A conversion keeps the sign, gives a finite value, and takes zero to zero. -/
theorem ofRatio_some {neg : Bool} {num den : ℕ} {d : Double} (h : ofRatio neg num den = some d) :
    d.negative = neg ∧ d.isFinite = true ∧ (num = 0 → d.isZero = true) := by
  have hfields : ∀ m, m < 2047 * 2 ^ 52 → ofMagnitude neg m = d →
      d.negative = neg ∧ d.isFinite = true := by
    rintro m hm rfl
    have hlt : m < 2 ^ 63 := by omega
    refine ⟨negative_ofMagnitude hlt, ?_⟩
    rw [isFinite, exponent_ofMagnitude hlt, bne_iff_ne]
    omega
  rw [ofRatio] at h
  split at h
  · obtain rfl := Option.some.inj h
    obtain ⟨hn, hf⟩ := hfields 0 (by decide) rfl
    refine ⟨hn, hf, fun _ => ?_⟩
    have hlt : 0 < 2 ^ 63 := by decide
    rw [isZero, exponent_ofMagnitude hlt, fraction_ofMagnitude hlt]
    rfl
  · next hne =>
    dsimp only at h
    split at h
    · next hm =>
      obtain ⟨hn, hf⟩ := hfields _ hm (Option.some.inj h)
      exact ⟨hn, hf, fun hz => (hne hz).elim⟩
    · simp at h

theorem ofDecimal_some {neg : Bool} {m : ℕ} {e : ℤ} {d : Double} (h : ofDecimal neg m e = some d) :
    d.negative = neg ∧ d.isFinite = true ∧ (m = 0 → d.isZero = true) := by
  obtain ⟨hn, hf, hz⟩ := ofRatio_some h
  exact ⟨hn, hf, fun hm => hz (by simp [hm])⟩

/-- A finite value is positive unless it is negative or zero. -/
theorem nonPositive_of_isFinite {d : Double} (h : d.isFinite = true) :
    d.nonPositive = (d.negative || d.isZero) := by
  have : d.isNaN = false := by
    simp only [isFinite, bne_iff_ne] at h
    simp [isNaN, h]
  simp [nonPositive, this]

end Double

namespace Numeral

variable {n : Numeral}

/-- Its nearest `double` is finite and not zero. -/
def InRange (n : Numeral) : Prop :=
  ∃ d, Double.ofDecimal n.negative n.mantissa n.power = some d ∧ d.isZero = false

theorem value_pos : 0 < n.value ↔ n.negative = false ∧ n.mantissa ≠ 0 := by
  have hp : (0 : ℚ) < 10 ^ n.power := zpow_pos (by norm_num) _
  rw [value, mul_pos_iff_of_pos_right hp]
  cases n.negative with
  | true => simp
  | false => simp [Nat.pos_iff_ne_zero]

theorem result_positive_iff :
    (∃ d r, n.result rest = .ok d r ∧ d.nonPositive = false) ↔ n.InRange ∧ 0 < n.value := by
  rw [value_pos]
  constructor
  · rintro ⟨d, r, hd, hpos⟩
    rw [result] at hd
    cases ho : Double.ofDecimal n.negative n.mantissa n.power with
    | none => simp [ho] at hd
    | some d' =>
      obtain ⟨hn, hf, hz⟩ := Double.ofDecimal_some ho
      simp only [ho] at hd
      split at hd
      · simp at hd
      · obtain ⟨rfl, -⟩ : d' = d ∧ rest = r := by simpa using hd
        rw [Double.nonPositive_of_isFinite hf, Bool.or_eq_false_iff] at hpos
        refine ⟨⟨d', ho, hpos.2⟩, hn ▸ hpos.1, ?_⟩
        intro hm
        simp [hz hm] at hpos
  · rintro ⟨⟨d, ho, hz⟩, hn, hm⟩
    obtain ⟨hneg, hf, -⟩ := Double.ofDecimal_some ho
    refine ⟨d, rest, by simp [result, ho, hz], ?_⟩
    rw [Double.nonPositive_of_isFinite hf, hneg, hn, hz]
    rfl

theorem ends_nil (n : Numeral) : n.Ends [] := by
  refine ⟨by simp, by simp, ?_⟩
  rintro - x ⟨t, ht⟩
  simp [Exponent.text] at ht

/-- What is reported of a numeral says where it ends. -/
theorem result_rest {n' : Numeral} {r : Bytes} (h : n.result rest = n'.result r) : rest = r := by
  simp only [result] at h
  cases Double.ofDecimal n.negative n.mantissa n.power <;>
    cases Double.ofDecimal n'.negative n'.mantissa n'.power <;>
    grind

theorem result_isFinite {d : Double} {r : Bytes} (h : n.result rest = .ok d r) :
    d.isFinite = true := by
  rw [result] at h
  cases ho : Double.ofDecimal n.negative n.mantissa n.power with
  | none => simp [ho] at h
  | some d' =>
    simp only [ho] at h
    split at h
    · simp at h
    · obtain ⟨rfl, -⟩ : d' = d ∧ rest = r := by simpa using h
      exact (Double.ofDecimal_some ho).2.1

end Numeral

/-- `inf`, `nan` or `-nan` and whatever follows: the beginnings that are matched without
being a numeral, and are not `<= 0`. -/
def NonFiniteSpelling (p : Bytes) : Prop :=
  Special p ∨ ∃ q, p = 45 :: q ∧ (stripWord (utf8 "nan") q).isSome = true

theorem fromChars_unsigned {p : Bytes} (h : p.head? ≠ some 45) :
    fromChars p = scanUnsigned false p := by
  cases p with
  | nil => rfl
  | cons c p =>
    have hc : c ≠ 45 := by simpa using h
    simp [fromChars, hc]

/-- A special spelling begins with a letter. -/
theorem Special.head {p : Bytes} (h : Special p) : p.head? ≠ some 45 := by
  intro hc
  obtain ⟨t, rfl⟩ := List.head?_eq_some_iff.mp hc
  have hinf : stripWord (utf8 "inf") (45 :: t) = none := stripWord_ne (by decide)
  have hnan : stripWord (utf8 "nan") (45 :: t) = none := stripWord_ne (by decide)
  simp [Special, hinf, hnan] at h

theorem fromChars_nonFinite {p : Bytes} (h : NonFiniteSpelling p) :
    ∃ d r, fromChars p = .ok d r ∧ d.nonPositive = false ∧ d.isFinite = false := by
  rcases h with h | ⟨q, rfl, hnan⟩
  · rw [fromChars_unsigned h.head]
    rcases h with hinf | hnan
    · obtain ⟨r, hr⟩ := scanUnsigned_inf false hinf
      exact ⟨_, r, hr, by decide, by decide⟩
    · obtain ⟨r, hr⟩ := scanUnsigned_nan false hnan
      exact ⟨_, r, hr, by decide, by decide⟩
  · obtain ⟨r, hr⟩ := scanUnsigned_nan true hnan
    exact ⟨_, r, hr, by decide, by decide⟩

/-- The texts whose beginning is matched as a value that is not `<= 0`. -/
theorem fromChars_positive_iff (p : Bytes) :
    (∃ d r, fromChars p = .ok d r ∧ d.nonPositive = false) ↔
      (∃ n rest, p = Numeral.text n ++ rest ∧ n.Ends rest ∧ n.InRange ∧ 0 < n.value) ∨
      NonFiniteSpelling p := by
  constructor
  · rintro ⟨d, r, hd, hpos⟩
    -- the text behind the sign, and the scanner it goes to
    obtain ⟨neg, s, hp, hs⟩ : ∃ (neg : Bool) (s : Bytes), (p = if neg then 45 :: s else s) ∧
        scanUnsigned neg s = .ok d r := by
      by_cases hc : p.head? = some 45
      · obtain ⟨q, rfl⟩ := List.head?_eq_some_iff.mp hc
        exact ⟨true, q, rfl, hd⟩
      · exact ⟨false, p, rfl, (fromChars_unsigned hc).symm.trans hd⟩
    by_cases hspecial : Special s
    · right
      cases neg with
      | false =>
        obtain rfl : p = s := by simpa using hp
        exact Or.inl hspecial
      | true =>
        obtain rfl : p = 45 :: s := by simpa using hp
        rcases hspecial with hinf | hnan
        · obtain ⟨r', hr⟩ := scanUnsigned_inf true hinf
          obtain ⟨rfl, -⟩ : d = .infinity true ∧ r = r' := by simpa [hs] using hr
          exact absurd hpos (by decide)
        · exact Or.inr ⟨s, rfl, hnan⟩
    · left
      rw [scanUnsigned_ordinary neg hspecial] at hs
      rcases Numeral.scanDecimal_cases neg s with hinv | ⟨n, rest, rfl, rfl, hends⟩
      · simp [hinv] at hs
      · rw [Numeral.scanDecimal_magnitude hends] at hs
        refine ⟨n, rest, ?_, hends, Numeral.result_positive_iff.mp ⟨d, r, hs, hpos⟩⟩
        rw [hp, Numeral.text]
        cases n.negative <;> simp
  · rintro (⟨n, rest, rfl, hends, hrange, hval⟩ | h)
    · rw [fromChars_text hends]
      exact Numeral.result_positive_iff.mpr ⟨hrange, hval⟩
    · obtain ⟨d, r, hd, hpos, -⟩ := fromChars_nonFinite h
      exact ⟨d, r, hd, hpos⟩

/-- The whole text is a numeral of a number greater than zero. -/
def PositiveNumeral (p : Bytes) : Prop := ∃ n : Numeral, n.text = p ∧ 0 < n.value

/-- A positive numeral with something behind it that does not belong to it, or the
beginning of a special spelling. -/
def LooseNumeral (p : Bytes) : Prop :=
  (∃ n rest, p = Numeral.text n ++ rest ∧ rest ≠ [] ∧ n.Ends rest ∧ n.InRange ∧ 0 < n.value) ∨
    NonFiniteSpelling p

theorem Numeral.fromChars_whole (n : Numeral) : fromChars n.text = n.result [] := by
  simpa using fromChars_text n.ends_nil

/-- Nothing of a numeral is left unmatched. -/
theorem PositiveNumeral.rest_eq_nil {p r : Bytes} {d : Double} (h : PositiveNumeral p)
    (hf : fromChars p = .ok d r) : r = [] := by
  obtain ⟨n, rfl, -⟩ := h
  rw [n.fromChars_whole, Numeral.result] at hf
  split at hf
  · simp at hf
  · split at hf <;> simp_all

/-- No text is both. -/
theorem LooseNumeral.not_positiveNumeral {p : Bytes} (h : LooseNumeral p) :
    ¬ PositiveNumeral p := by
  rintro ⟨n, rfl, -⟩
  have hn := n.fromChars_whole
  rcases h with ⟨n', rest, heq, hne, hends, hrange, hval⟩ | h
  · rw [heq, fromChars_text hends] at hn
    exact hne (Numeral.result_rest hn)
  · obtain ⟨d, r, hd, -, hf⟩ := fromChars_nonFinite h
    have := Numeral.result_isFinite (hn.symm.trans hd)
    simp [hf] at this

/-- A text that is matched as a positive value is one or the other. -/
theorem positiveNumeral_or_loose {p r : Bytes} {d : Double} (h : fromChars p = .ok d r)
    (hd : d.nonPositive = false) : PositiveNumeral p ∨ LooseNumeral p := by
  rcases (fromChars_positive_iff p).mp ⟨d, r, h, hd⟩ with
    ⟨n, rest, rfl, hends, hrange, hval⟩ | hspecial
  · by_cases hr : rest = []
    · exact Or.inl ⟨n, by simp [hr], hval⟩
    · exact Or.inr (Or.inl ⟨n, rest, rfl, hr, hends, hrange, hval⟩)
  · exact Or.inr (Or.inr hspecial)

theorem LooseNumeral.matched {p : Bytes} (h : LooseNumeral p) :
    ∃ d r, fromChars p = .ok d r ∧ d.nonPositive = false := by
  rw [fromChars_positive_iff]
  rcases h with ⟨n, rest, hp, -, hends, hrange, hval⟩ | h
  · exact Or.inl ⟨n, rest, hp, hends, hrange, hval⟩
  · exact Or.inr h

/-- The exact digits of a positive value are read back as it. -/
theorem fromChars_exactDigits {d : Double} (h : d.isFinite = true) (hd : d.nonPositive = false) :
    fromChars (d.exactDigits.1 ++ 46 :: d.exactDigits.2) = .ok d [] := by
  rw [Double.nonPositive_of_isFinite h, Bool.or_eq_false_iff] at hd
  let n : Numeral := ⟨false, d.exactDigits.1, some d.exactDigits.2, none, d.isDigit_exactDigits.1,
    d.isDigit_exactDigits.2, by simp [d.exactDigits_ne_nil.1]⟩
  have hread : Double.ofDecimal n.negative n.mantissa n.power = some d := by
    have := Double.ofDecimal_exactDigits h
    rwa [hd.1] at this
  have hresult : n.result [] = .ok d [] := by
    simp [Numeral.result, hread, hd.2]
  have htext := n.fromChars_whole
  rw [hresult] at htext
  simpa [n, Numeral.text, Numeral.magnitude] using htext

end Binary64
