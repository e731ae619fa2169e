import Mathlib.Algebra.Ring.Int.Defs
import Mathlib.Algebra.Ring.Nat
import TickForge.Lib.ByteString

/-! IEEE 754 binary64 values, decimal conversion to them, and `std::from_chars`. -/
namespace Binary64

open ByteString

/-- A `double`, as its bit pattern. -/
structure Double where
  bits : BitVec 64
  deriving DecidableEq, Repr

namespace Double

def negative (d : Double) : Bool := d.bits.msb

/-- The eleven exponent bits. -/
def exponent (d : Double) : ℕ := d.bits.toNat / 2 ^ 52 % 2 ^ 11

def fraction (d : Double) : ℕ := d.bits.toNat % 2 ^ 52

def isFinite (d : Double) : Bool := d.exponent != 2047

def isNaN (d : Double) : Bool := d.exponent == 2047 && d.fraction != 0

def isZero (d : Double) : Bool := d.exponent == 0 && d.fraction == 0

/-- `d <= 0.0`, which is false for NaN. -/
def nonPositive (d : Double) : Bool := !d.isNaN && (d.negative || d.isZero)

/-- The fraction with its hidden bit: a finite value is `± significand * 2 ^ scale`. -/
def significand (d : Double) : ℕ := if d.exponent = 0 then d.fraction else 2 ^ 52 + d.fraction

def scale (d : Double) : ℤ := max d.exponent 1 - 1075

/-- The integer part, for a finite value. -/
def truncate (d : Double) : ℤ :=
  let magnitude := d.significand * 2 ^ d.scale.toNat / 2 ^ (-d.scale).toNat
  if d.negative then -magnitude else magnitude

def ofMagnitude (neg : Bool) (magnitude : ℕ) : Double :=
  ⟨BitVec.ofNat 64 ((if neg then 2 ^ 63 else 0) + magnitude)⟩

def infinity (neg : Bool) : Double := ofMagnitude neg (2047 * 2 ^ 52)

def nan (neg : Bool) : Double := ofMagnitude neg (2047 * 2 ^ 52 + 2 ^ 51)

/-- `num / den`, rounded half to even. -/
def roundHalfEven (num den : ℕ) : ℕ :=
  let q := num / den
  let r := num % den
  if 2 * r > den || (2 * r == den && q % 2 == 1) then q + 1 else q

/-- `num / den` in units of `2 ^ e`, rounded half to even. -/
def scaled (num den : ℕ) (e : ℤ) : ℕ :=
  roundHalfEven (num * 2 ^ (-e).toNat) (den * 2 ^ e.toNat)

/-- The exponent of the last of the 53 leading bits of `num / den`. -/
def leading (num den : ℕ) : ℤ :=
  let e : ℤ := Nat.log2 num - Nat.log2 den - 52
  if num * 2 ^ (-e).toNat < den * 2 ^ e.toNat * 2 ^ 52 then e - 1 else e

/-- The exponent of the last bit that is kept, at least that of a subnormal. -/
def lastBit (num den : ℕ) : ℤ := max (leading num den) (-1074)

/-- The nearest `double` to `± num / den`; none when it rounds beyond the finite ones.
A significand that rounds up to the next power of two carries into the exponent. -/
def ofRatio (neg : Bool) (num den : ℕ) : Option Double :=
  if num = 0 then some (ofMagnitude neg 0)
  else
    let e := lastBit num den
    let magnitude := (e + 1074).toNat * 2 ^ 52 + scaled num den e
    if magnitude < 2047 * 2 ^ 52 then some (ofMagnitude neg magnitude) else none

/-- The nearest `double` to `± mantissa * 10 ^ exponent`. -/
def ofDecimal (neg : Bool) (mantissa : ℕ) (exponent : ℤ) : Option Double :=
  ofRatio neg (mantissa * 10 ^ exponent.toNat) (10 ^ (-exponent).toNat)

/-- `static_cast<double>` of a 64-bit integer, signed or unsigned. -/
def ofInt (z : ℤ) : Double := (ofRatio (z < 0) z.natAbs 1).getD (infinity (z < 0))

end Double

def isDigit (c : UInt8) : Bool := 48 ≤ c && c ≤ 57

def digitsValue (ds : Bytes) : ℕ := ds.foldl (fun n c => 10 * n + (c.toNat - 48)) 0

def toLower (c : UInt8) : UInt8 := if 65 ≤ c && c ≤ 90 then c + 32 else c

/-- Strips a word, whatever the case of its letters. -/
def stripWord (word s : Bytes) : Option Bytes :=
  if (s.take word.length).map toLower = word then some (s.drop word.length) else none

/-- What `std::from_chars` reports for a `double`: `ec` and the text behind the match. -/
inductive FromChars where
  | invalidArgument
  | resultOutOfRange (rest : Bytes)
  | ok (value : Double) (rest : Bytes)
  deriving DecidableEq, Repr

/-- The optional exponent part; without a digit it is not part of the match. -/
def scanExponent (s : Bytes) : ℤ × Bytes :=
  match s with
  | c :: rest =>
    if toLower c = 101 then
      let (neg, ds) :=
        match rest with
        | 45 :: ds => (true, ds)
        | 43 :: ds => (false, ds)
        | ds => (false, ds)
      let digits := ds.takeWhile isDigit
      if digits.isEmpty then (0, s)
      else ((if neg then -1 else 1) * (digitsValue digits : ℤ), ds.dropWhile isDigit)
    else (0, s)
  | [] => (0, [])

/-- Digits with an optional point and exponent. -/
def scanDecimal (neg : Bool) (s : Bytes) : FromChars :=
  let whole := s.takeWhile isDigit
  let (frac, rest) :=
    match s.dropWhile isDigit with
    | 46 :: rest => (rest.takeWhile isDigit, rest.dropWhile isDigit)
    | rest => ([], rest)
  if whole.isEmpty && frac.isEmpty then .invalidArgument
  else
    let (exponent, rest) := scanExponent rest
    let mantissa := digitsValue (whole ++ frac)
    match Double.ofDecimal neg mantissa (exponent - frac.length) with
    | none => .resultOutOfRange rest
    | some d => if mantissa != 0 && d.isZero then .resultOutOfRange rest else .ok d rest

/-- The optional `(...)` behind `nan`. -/
def scanNanPayload (s : Bytes) : Bytes :=
  match s with
  | 40 :: rest =>
    match rest.dropWhile (fun c => isDigit c || (97 ≤ toLower c && toLower c ≤ 122) || c == 95) with
    | 41 :: rest => rest
    | _ => s
  | _ => s

/-- The unsigned part: the special spellings first, then a decimal numeral. -/
def scanUnsigned (neg : Bool) (s : Bytes) : FromChars :=
  match stripWord (utf8 "infinity") s with
  | some rest => .ok (.infinity neg) rest
  | none =>
    match stripWord (utf8 "inf") s with
    | some rest => .ok (.infinity neg) rest
    | none =>
      match stripWord (utf8 "nan") s with
      | some rest => .ok (.nan neg) (scanNanPayload rest)
      | none => scanDecimal neg s

/-- `std::from_chars` for `double` in the general format: the longest prefix of the
`strtod` form without leading blanks or plus sign. -/
def fromChars (s : Bytes) : FromChars :=
  match s with
  | 45 :: rest => scanUnsigned true rest
  | _ => scanUnsigned false s

/-- `1.0`, `-0.1` and the smallest subnormal; a value beyond the largest is out of range. -/
example : fromChars (utf8 "1.0") = .ok ⟨0x3ff0000000000000#64⟩ [] ∧
    fromChars (utf8 "-0.1x") = .ok ⟨0xbfb999999999999a#64⟩ (utf8 "x") ∧
    fromChars (utf8 "4.9e-324") = .ok ⟨1#64⟩ [] ∧
    fromChars (utf8 "1e309") = .resultOutOfRange [] ∧
    fromChars (utf8 "nan(1)") = .ok ⟨0x7ff8000000000000#64⟩ [] := by
  decide +kernel

end Binary64
