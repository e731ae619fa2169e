import TickForge.Lib.Decimal
import TickForge.Lib.Json

/-! Compact JSON text: a printer and a parser that meet the laws. -/
namespace Nlohmann

open ByteString Binary64

/-- The letter of a two-character escape. -/
def escapeLetter (c : UInt8) : Option UInt8 :=
  [((8 : UInt8), (98 : UInt8)), (9, 116), (10, 110), (12, 102), (13, 114), (34, 34),
    (92, 92)].lookup c

def unescapeLetter (k : UInt8) : Option UInt8 :=
  [((98 : UInt8), (8 : UInt8)), (116, 9), (110, 10), (102, 12), (114, 13), (34, 34),
    (92, 92)].lookup k

def hexDigit (n : ℕ) : UInt8 := UInt8.ofNat (if n < 10 then 48 + n else 87 + n)

def hexValue (c : UInt8) : Option UInt8 :=
  if isDigit c then some (c - 48) else if 97 ≤ c && c ≤ 102 then some (c - 87) else none

def escape (c : UInt8) : Bytes :=
  match escapeLetter c with
  | some k => [92, k]
  | none =>
    if c < 32 then [92, 117, 48, 48, hexDigit (c.toNat / 16), hexDigit (c.toNat % 16)] else [c]

def quoted (s : Bytes) : Bytes := 34 :: (s.flatMap escape ++ [34])

def integerText (z : Integer) : Bytes :=
  if z.val < 0 then 45 :: decimal z.val.natAbs else decimal z.val.natAbs

def floatText (d : Double) : Bytes :=
  let digits := d.exactDigits.1 ++ 46 :: d.exactDigits.2
  if d.negative then 45 :: digits else digits

mutual

def compactText : Json → Bytes
  | .null => utf8 "null"
  | .boolean true => utf8 "true"
  | .boolean false => utf8 "false"
  | .integer z => integerText z
  | .float d => if d.isFinite then floatText d else utf8 "null"
  | .string s => quoted s
  | .array [] => [91, 93]
  | .array (e :: es) => 91 :: (compactText e ++ elemsText es)
  | .object [] => [123, 125]
  | .object ((k, v) :: ms) => 123 :: (quoted k ++ 58 :: (compactText v ++ membersText ms))

/-- The elements behind the first one. -/
def elemsText : List Json → Bytes
  | [] => [93]
  | e :: es => 44 :: (compactText e ++ elemsText es)

def membersText : List (Bytes × Json) → Bytes
  | [] => [125]
  | (k, v) :: ms => 44 :: (quoted k ++ 58 :: (compactText v ++ membersText ms))

end

def unescape : Bytes → Option (UInt8 × Bytes)
  | 117 :: 48 :: 48 :: a :: b :: rest =>
    match hexValue a, hexValue b with
    | some x, some y => some (16 * x + y, rest)
    | _, _ => none
  | k :: rest => (unescapeLetter k).map fun c => (c, rest)
  | [] => none

/-- A string behind its opening quote. -/
def parseString : ℕ → Bytes → Option (Bytes × Bytes)
  | 0, _ | _, [] => none
  | fuel + 1, c :: rest =>
    if c = 34 then some ([], rest)
    else if c = 92 then
      match unescape rest with
      | some (c, rest) => (parseString fuel rest).map fun p => (c :: p.1, p.2)
      | none => none
    else if c < 32 then none
    else (parseString fuel rest).map fun p => (c :: p.1, p.2)

def isNumberChar (c : UInt8) : Bool :=
  isDigit c || c == 45 || c == 43 || c == 46 || c == 101 || c == 69

/-- An integer literal beyond 64 bits becomes a float. -/
def ofInteger (neg : Bool) (n : ℕ) : Json :=
  let z : ℤ := if neg then -n else n
  if h : -2 ^ 63 ≤ z ∧ z < 2 ^ 64 then .integer ⟨z, h.1, h.2⟩
  else .float ((Double.ofDecimal neg n 0).getD (.infinity neg))

/-- A numeral with a point or an exponent; an overflowing one is kept as an infinity. -/
def ofFraction (neg : Bool) (whole frac rest : Bytes) : Option Json :=
  let (e, rest) := scanExponent rest
  if rest.isEmpty then
    some (.float ((Double.ofDecimal neg (digitsValue (whole ++ frac)) (e - frac.length)).getD
      (.infinity neg)))
  else none

def ofUnsigned (neg : Bool) (s : Bytes) : Option Json :=
  let whole := s.takeWhile isDigit
  if whole.isEmpty then none
  else
    match s.dropWhile isDigit with
    | [] => some (ofInteger neg (digitsValue whole))
    | c :: rest =>
      if c = 46 then
        let frac := rest.takeWhile isDigit
        if frac.isEmpty then none else ofFraction neg whole frac (rest.dropWhile isDigit)
      else ofFraction neg whole [] (c :: rest)

def ofNumeral (s : Bytes) : Option Json :=
  if s.head? = some 45 then ofUnsigned true s.tail else ofUnsigned false s

def literal (word : Bytes) (j : Json) (b : Bytes) : Option (Json × Bytes) :=
  if b.take word.length = word then some (j, b.drop word.length) else none

mutual

def parseValue : ℕ → Bytes → Option (Json × Bytes)
  | 0, _ | _, [] => none
  | fuel + 1, c :: rest =>
    if c = 110 then literal (utf8 "null") .null (c :: rest)
    else if c = 116 then literal (utf8 "true") (.boolean true) (c :: rest)
    else if c = 102 then literal (utf8 "false") (.boolean false) (c :: rest)
    else if c = 34 then (parseString rest.length rest).map fun p => (.string p.1, p.2)
    else if c = 91 then
      if rest.head? = some 93 then some (.array [], rest.tail)
      else do
        let (e, rest) ← parseValue fuel rest
        let (es, rest) ← parseElems fuel rest
        return (.array (e :: es), rest)
    else if c = 123 then
      if rest.head? = some 125 then some (.object [], rest.tail)
      else do
        let (m, rest) ← parseMember fuel rest
        let (ms, rest) ← parseMembers fuel rest
        -- a later member replaces an earlier one of the same key
        return (.object ((m :: ms).foldl (fun ms m => insert m.1 m.2 ms) []), rest)
    else
      (ofNumeral ((c :: rest).takeWhile isNumberChar)).map
        fun j => (j, (c :: rest).dropWhile isNumberChar)

def parseElems : ℕ → Bytes → Option (List Json × Bytes)
  | 0, _ | _, [] => none
  | fuel + 1, c :: rest =>
    if c = 93 then some ([], rest)
    else if c = 44 then do
      let (e, rest) ← parseValue fuel rest
      let (es, rest) ← parseElems fuel rest
      return (e :: es, rest)
    else none

def parseMember : ℕ → Bytes → Option ((Bytes × Json) × Bytes)
  | 0, _ | _, [] => none
  | fuel + 1, c :: rest =>
    if c = 34 then do
      let (k, rest) ← parseString rest.length rest
      if rest.head? = some 58 then
        let (v, rest) ← parseValue fuel rest.tail
        return ((k, v), rest)
      else none
    else none

def parseMembers : ℕ → Bytes → Option (List (Bytes × Json) × Bytes)
  | 0, _ | _, [] => none
  | fuel + 1, c :: rest =>
    if c = 125 then some ([], rest)
    else if c = 44 then do
      let (m, rest) ← parseMember fuel rest
      let (ms, rest) ← parseMembers fuel rest
      return (m :: ms, rest)
    else none

end

/-- A whole text. -/
def parseText (b : Bytes) : Option Json :=
  match parseValue (b.length + 1) b with
  | some (j, []) => some j
  | _ => none

variable {c : UInt8} {s rest : Bytes} {fuel : ℕ}

theorem escape_control (h : c < 32 ∨ c = 34 ∨ c = 92) :
    ∃ w, escape c = 92 :: w ∧ newline ∉ w ∧ ∀ rest, unescape (w ++ rest) = some (c, rest) := by
  rcases h with h | rfl | rfl
  · have hn : c.toNat < 32 := h
    obtain ⟨n, hc⟩ : ∃ n, n = c.toNat := ⟨_, rfl⟩
    obtain rfl : c = UInt8.ofNat n := by rw [hc]; simp
    rw [← hc] at hn
    clear hc h
    interval_cases n <;> exact ⟨_, rfl, by decide, fun rest => rfl⟩
  · exact ⟨_, rfl, by decide, fun rest => rfl⟩
  · exact ⟨_, rfl, by decide, fun rest => rfl⟩

theorem escape_plain (h : ¬ c < 32) (hq : c ≠ 34) (hb : c ≠ 92) : escape c = [c] := by
  have hne : ∀ k : UInt8, k < 32 → (c == k) = false := by
    intro k hk
    exact beq_eq_false_iff_ne.mpr fun he => h (he ▸ hk)
  have hletter : escapeLetter c = none := by
    simp [escapeLetter, List.lookup_cons, hne 8 (by decide), hne 9 (by decide), hne 10 (by decide),
      hne 12 (by decide), hne 13 (by decide), beq_eq_false_iff_ne.mpr hq,
      beq_eq_false_iff_ne.mpr hb]
  simp [escape, hletter, h]

theorem parseString_escape (fuel : ℕ) (c : UInt8) (rest : Bytes) :
    parseString (fuel + 1) (escape c ++ rest) =
      (parseString fuel rest).map fun p => (c :: p.1, p.2) := by
  by_cases h : c < 32 ∨ c = 34 ∨ c = 92
  · obtain ⟨w, hw, -, hu⟩ := escape_control h
    simp [hw, parseString, hu]
  · simp only [not_or] at h
    simp [escape_plain h.1 h.2.1 h.2.2, parseString, h]

theorem parseString_quoted (h : s.length < fuel) :
    parseString fuel (s.flatMap escape ++ 34 :: rest) = some (s, rest) := by
  induction s generalizing fuel with
  | nil =>
    cases fuel with
    | zero => omega
    | succ fuel => simp [parseString]
  | cons c s ih =>
    cases fuel with
    | zero => omega
    | succ fuel =>
      rw [List.flatMap_cons, List.append_assoc, parseString_escape,
        ih (by simpa using h)]
      rfl

theorem length_flatMap_escape (s : Bytes) : s.length ≤ (s.flatMap escape).length := by
  induction s with
  | nil => simp
  | cons c s ih =>
    have : 1 ≤ (escape c).length := by
      by_cases h : c < 32 ∨ c = 34 ∨ c = 92
      · obtain ⟨w, hw, -⟩ := escape_control h
        simp [hw]
      · simp only [not_or] at h
        simp [escape_plain h.1 h.2.1 h.2.2]
    simp only [List.flatMap_cons, List.length_append, List.length_cons]
    omega

/-- A string is read up to its closing quote, whatever follows. -/
theorem parseString_behind_quote (s rest : Bytes) :
    parseString (s.flatMap escape ++ 34 :: rest).length (s.flatMap escape ++ 34 :: rest) =
      some (s, rest) := by
  apply parseString_quoted
  have := length_flatMap_escape s
  simp only [List.length_append, List.length_cons]
  omega

/-- What may follow a number: nothing that could belong to it. -/
def Delimited (rest : Bytes) : Prop := ∀ c ∈ rest.head?, isNumberChar c = false

theorem ofUnsigned_decimal (neg : Bool) (n : ℕ) :
    ofUnsigned neg (decimal n) = some (ofInteger neg n) := by
  obtain ⟨htake, hdrop⟩ := takeWhile_delimited (p := isDigit) (r := [])
    (fun c (hc : c ∈ decimal n) => isDigit_padded hc) (by simp)
  rw [List.append_nil] at htake hdrop
  simp [ofUnsigned, htake, hdrop, decimal_ne_nil, digitsValue_decimal]

theorem ofUnsigned_exactDigits {d : Double} (h : d.isFinite = true) :
    ofUnsigned d.negative (d.exactDigits.1 ++ 46 :: d.exactDigits.2) = some (.float d) := by
  obtain ⟨hwhole, hfrac⟩ := d.isDigit_exactDigits
  obtain ⟨htake, hdrop⟩ := takeWhile_delimited (r := 46 :: d.exactDigits.2) hwhole
    (by simp [isDigit])
  obtain ⟨htake', hdrop'⟩ := takeWhile_delimited (r := []) hfrac (by simp)
  rw [List.append_nil] at htake' hdrop'
  have hread := Double.ofDecimal_exactDigits h
  rw [zero_sub] at hread
  simp [ofUnsigned, htake, hdrop, htake', hdrop', d.exactDigits_ne_nil, ofFraction, scanExponent,
    hread]

theorem head_ne_minus (hs : ∀ c ∈ s, isDigit c = true) (r : Bytes) (hr : r.head? ≠ some 45) :
    (s ++ r).head? ≠ some 45 := by
  cases s with
  | nil => exact hr
  | cons c s =>
    have := hs c (by simp)
    intro h
    obtain rfl : c = 45 := by simpa using h
    simp [isDigit] at this

theorem ofNumeral_integerText (z : Integer) : ofNumeral (integerText z) = some (.integer z) := by
  have hz : ∀ neg : Bool, (neg = true ↔ z.val < 0) → ofInteger neg z.val.natAbs = .integer z := by
    intro neg hneg
    have hval : (if neg then -(z.val.natAbs : ℤ) else z.val.natAbs) = z.val := by
      cases neg with
      | true =>
        have := hneg.mp rfl
        rw [if_pos rfl]
        omega
      | false =>
        have : ¬ z.val < 0 := fun h => by simpa using hneg.mpr h
        rw [if_neg (by simp)]
        omega
    have hlo := z.lower
    have hhi := z.upper
    simp only [ofInteger, hval]
    rw [dif_pos ⟨hlo, hhi⟩]
  have hhead : (decimal z.val.natAbs).head? ≠ some 45 := by
    have := head_ne_minus (fun c (hc : c ∈ decimal z.val.natAbs) => isDigit_padded hc) [] (by simp)
    rwa [List.append_nil] at this
  rw [integerText]
  split
  · next h => simp [ofNumeral, ofUnsigned_decimal, hz true (by simp [h])]
  · next h => simp [ofNumeral, hhead, ofUnsigned_decimal, hz false (by simp [h])]

theorem ofNumeral_floatText {d : Double} (h : d.isFinite = true) :
    ofNumeral (floatText d) = some (.float d) := by
  have hread := ofUnsigned_exactDigits h
  have hhead := head_ne_minus d.isDigit_exactDigits.1 (46 :: d.exactDigits.2) (by simp)
  simp only [floatText]
  cases hn : d.negative with
  | true =>
    rw [hn] at hread
    simp [ofNumeral, hread]
  | false =>
    rw [hn] at hread
    simp only [Bool.false_eq_true, if_false, ofNumeral, hhead, hread]

theorem isNumberChar_of_isDigit (h : isDigit c = true) : isNumberChar c = true := by
  simp [isNumberChar, h]

theorem isNumberChar_integerText {z : Integer} (hc : c ∈ integerText z) :
    isNumberChar c = true := by
  have hd : c ∈ decimal z.val.natAbs → isNumberChar c = true :=
    fun hc => isNumberChar_of_isDigit (isDigit_padded hc)
  rw [integerText] at hc
  split at hc
  · rcases List.mem_cons.mp hc with rfl | hc
    · rfl
    · exact hd hc
  · exact hd hc

theorem isNumberChar_floatText {d : Double} (hc : c ∈ floatText d) : isNumberChar c = true := by
  have hd : c ∈ d.exactDigits.1 ++ 46 :: d.exactDigits.2 → isNumberChar c = true := by
    intro hc
    rcases List.mem_append.mp hc with hc | hc
    · exact isNumberChar_of_isDigit (d.isDigit_exactDigits.1 c hc)
    · rcases List.mem_cons.mp hc with rfl | hc
      · rfl
      · exact isNumberChar_of_isDigit (d.isDigit_exactDigits.2 c hc)
  simp only [floatText] at hc
  split at hc
  · rcases List.mem_cons.mp hc with rfl | hc
    · rfl
    · exact hd hc
  · exact hd hc

/-- No other value begins like a number. -/
theorem ne_of_isNumberChar (hc : isNumberChar c = true) :
    c ≠ 110 ∧ c ≠ 116 ∧ c ≠ 102 ∧ c ≠ 34 ∧ c ≠ 91 ∧ c ≠ 123 := by
  refine ⟨?_, ?_, ?_, ?_, ?_, ?_⟩ <;> rintro rfl <;> revert hc <;> decide

/-- A numeral is read up to its last character. -/
theorem parseValue_numeral {j : Json} {r : Bytes} (hs : ∀ c ∈ s, isNumberChar c = true)
    (hj : ofNumeral s = some j) (hr : Delimited r) :
    parseValue (fuel + 1) (s ++ r) = some (j, r) := by
  obtain ⟨htake, hdrop⟩ := takeWhile_delimited hs hr
  cases s with
  | nil => simp [ofNumeral, ofUnsigned] at hj
  | cons c s =>
    have hne := ne_of_isNumberChar (hs c (by simp))
    simp only [List.cons_append] at htake hdrop ⊢
    simp [parseValue, hne, htake, hdrop, hj]

/-- Behind the keys so far, a larger key goes to the end. -/
theorem insert_last {key : Bytes} {v : Json} {ms : List (Bytes × Json)}
    (h : ∀ m ∈ ms, m.1 < key) : insert key v ms = ms ++ [(key, v)] := by
  induction ms with
  | nil => rfl
  | cons m ms ih =>
    have hm := h m (by simp)
    have hne : m.1 ≠ key := by
      intro he
      rw [he] at hm
      exact List.lt_irrefl key hm
    have hnlt : ¬ key < m.1 := fun hlt => List.lt_asymm hm hlt
    rw [insert, if_neg hne, if_neg hnlt, ih fun m hm => h m (List.mem_cons_of_mem _ hm)]
    rfl

theorem foldl_insert {acc ms : List (Bytes × Json)}
    (h : ((acc ++ ms).map (·.1)).Pairwise (· < ·)) :
    ms.foldl (fun ms m => insert m.1 m.2 ms) acc = acc ++ ms := by
  induction ms generalizing acc with
  | nil => simp
  | cons m ms ih =>
    have hacc : ∀ m' ∈ acc, m'.1 < m.1 := by
      intro m' hm'
      rw [List.map_append, List.pairwise_append] at h
      exact h.2.2 _ (List.mem_map_of_mem hm') _ (by simp)
    rw [List.foldl_cons, insert_last hacc, ih (by simpa using h)]
    simp

theorem delimited_elems (es : List Json) (r : Bytes) : Delimited (elemsText es ++ r) := by
  cases es <;> simp [Delimited, elemsText] <;> decide

theorem delimited_members (ms : List (Bytes × Json)) (r : Bytes) :
    Delimited (membersText ms ++ r) := by
  cases ms with
  | nil => simp [Delimited, membersText]; decide
  | cons m ms => simp [Delimited, membersText]; decide

theorem parseMember_text {k : Bytes} {v : Json} {r : Bytes}
    (hv : parseValue fuel (compactText v ++ r) = some (v, r)) :
    parseMember (fuel + 1) (quoted k ++ 58 :: (compactText v ++ r)) = some ((k, v), r) := by
  have hk := parseString_behind_quote k (58 :: (compactText v ++ r))
  simp only [quoted, List.cons_append, List.append_assoc, List.nil_append, parseMember, if_true]
  rw [hk]
  simp [hv]

/-- No value begins like the end of an array. -/
theorem head_ne_of_parseValue {b : Bytes} {p : Json × Bytes} (h : parseValue fuel b = some p) :
    b.head? ≠ some 93 := by
  cases fuel with
  | zero => simp [parseValue] at h
  | succ fuel =>
    cases b with
    | nil => simp
    | cons c b =>
      intro hc
      obtain rfl : c = 93 := by simpa using hc
      have hchar : isNumberChar 93 = false := rfl
      simp [parseValue, hchar, ofNumeral, ofUnsigned] at h

open Json

theorem literal_append (word : Bytes) (j : Json) (r : Bytes) :
    literal word j (word ++ r) = some (j, r) := by
  simp [literal]

mutual

/-- Every value is read back from its text, whatever follows. -/
theorem parseValue_text : ∀ (j : Json) (fuel : ℕ) (r : Bytes), j.finite = true → j.sorted = true →
    (compactText j).length < fuel → Delimited r →
    parseValue fuel (compactText j ++ r) = some (j, r)
  | _, 0, _, _, _, hlen, _ => by omega
  | .null, fuel + 1, r, _, _, _, _ => literal_append (utf8 "null") .null r
  | .boolean true, fuel + 1, r, _, _, _, _ => literal_append (utf8 "true") (.boolean true) r
  | .boolean false, fuel + 1, r, _, _, _, _ => literal_append (utf8 "false") (.boolean false) r
  | .integer z, fuel + 1, r, _, _, _, hr => by
    rw [compactText]
    exact parseValue_numeral (fun c hc => isNumberChar_integerText hc) (ofNumeral_integerText z) hr
  | .float d, fuel + 1, r, hfin, _, _, hr => by
    have hd : d.isFinite = true := by simpa [finite, everywhere, floatFinite] using hfin
    rw [compactText, if_pos hd]
    exact parseValue_numeral (fun c hc => isNumberChar_floatText hc) (ofNumeral_floatText hd) hr
  | .string s, fuel + 1, r, _, _, _, _ => by
    have hs := parseString_behind_quote s r
    simp only [compactText, quoted, List.cons_append, List.append_assoc, List.nil_append,
      parseValue, hs]
    rfl
  | .array [], fuel + 1, r, _, _, _, _ => by simp [compactText, parseValue]
  | .array (e :: es), fuel + 1, r, hfin, hsort, hlen, _ => by
    simp only [finite, sorted, everywhere, everywhereElems, Bool.and_eq_true] at hfin hsort
    simp only [compactText, List.length_cons, List.length_append] at hlen
    have he := parseValue_text e fuel (elemsText es ++ r) hfin.2.1 hsort.2.1 (by omega)
      (delimited_elems es r)
    have hes := parseElems_text es fuel r hfin.2.2 hsort.2.2 (by omega)
    have hhead := head_ne_of_parseValue he
    simp only [compactText, List.cons_append, List.append_assoc, parseValue, if_neg hhead, he, hes,
      Option.bind_eq_bind, Option.bind_some]
    rfl
  | .object [], fuel + 1, r, _, _, _, _ => by simp [compactText, parseValue]
  | .object ((k, v) :: ms), fuel + 1, r, hfin, hsort, hlen, _ => by
    simp only [finite, sorted, everywhere, everywhereMembers, keysSorted, Bool.and_eq_true,
      decide_eq_true_eq] at hfin hsort
    simp only [compactText, List.length_cons, List.length_append] at hlen
    have hm := parseMember_entry k v fuel (membersText ms ++ r) hfin.2.1 hsort.2.1 (by omega)
      (delimited_members ms r)
    have hms := parseMembers_text ms fuel r hfin.2.2 hsort.2.2 (by omega)
    have hins : ((k, v) :: ms).foldl (fun ms m => insert m.1 m.2 ms) [] = (k, v) :: ms :=
      foldl_insert hsort.1
    have hhead : (quoted k ++ 58 :: (compactText v ++ (membersText ms ++ r))).head? ≠ some 125 := by
      simp [quoted]
    simp only [compactText, List.cons_append, List.append_assoc, parseValue, if_neg hhead, hm, hms,
      Option.bind_eq_bind, Option.bind_some, hins]
    rfl

theorem parseElems_text : ∀ (es : List Json) (fuel : ℕ) (r : Bytes),
    everywhereElems floatFinite es = true → everywhereElems keysSorted es = true →
    (elemsText es).length < fuel → parseElems fuel (elemsText es ++ r) = some (es, r)
  | _, 0, _, _, _, hlen => by omega
  | [], fuel + 1, r, _, _, _ => by simp [elemsText, parseElems]
  | e :: es, fuel + 1, r, hfin, hsort, hlen => by
    simp only [everywhereElems, Bool.and_eq_true] at hfin hsort
    simp only [elemsText, List.length_cons, List.length_append] at hlen
    have he := parseValue_text e fuel (elemsText es ++ r) hfin.1 hsort.1 (by omega)
      (delimited_elems es r)
    have hes := parseElems_text es fuel r hfin.2 hsort.2 (by omega)
    simp only [elemsText, List.cons_append, List.append_assoc]
    simp [parseElems, he, hes]

theorem parseMember_entry : ∀ (k : Bytes) (v : Json) (fuel : ℕ) (r : Bytes),
    everywhere floatFinite v = true → everywhere keysSorted v = true →
    (compactText v).length + 1 < fuel → Delimited r →
    parseMember fuel (quoted k ++ 58 :: (compactText v ++ r)) = some ((k, v), r)
  | _, _, 0, _, _, _, hlen, _ => by omega
  | k, v, fuel + 1, r, hfin, hsort, hlen, hr =>
    parseMember_text (parseValue_text v fuel r hfin hsort (by omega) hr)

theorem parseMembers_text : ∀ (ms : List (Bytes × Json)) (fuel : ℕ) (r : Bytes),
    everywhereMembers floatFinite ms = true → everywhereMembers keysSorted ms = true →
    (membersText ms).length < fuel → parseMembers fuel (membersText ms ++ r) = some (ms, r)
  | _, 0, _, _, _, hlen => by omega
  | [], fuel + 1, r, _, _, _ => by simp [membersText, parseMembers]
  | (k, v) :: ms, fuel + 1, r, hfin, hsort, hlen => by
    simp only [everywhereMembers, Bool.and_eq_true] at hfin hsort
    simp only [membersText, List.length_cons, List.length_append] at hlen
    have hm := parseMember_entry k v fuel (membersText ms ++ r) hfin.1 hsort.1
      (by simp only [quoted] at hlen; simp at hlen; omega) (delimited_members ms r)
    have hms := parseMembers_text ms fuel r hfin.2 hsort.2 (by omega)
    simp only [membersText, List.cons_append, List.append_assoc]
    simp [parseMembers, hm, hms]

end

theorem newline_notMem_escape (c : UInt8) : newline ∉ escape c := by
  by_cases h : c < 32 ∨ c = 34 ∨ c = 92
  · obtain ⟨w, hw, hn, -⟩ := escape_control h
    simpa [hw, newline] using hn
  · simp only [not_or] at h
    rw [escape_plain h.1 h.2.1 h.2.2, List.mem_singleton]
    rintro rfl
    exact h.1 (by decide)

theorem newline_notMem_quoted (s : Bytes) : newline ∉ quoted s := by
  have hs : newline ∉ s.flatMap escape := by
    simpa [List.mem_flatMap] using fun c _ => newline_notMem_escape c
  simp only [quoted, List.mem_cons, List.mem_append, List.not_mem_nil, or_false, not_or]
  exact ⟨by decide, hs, by decide⟩

theorem newline_notMem_numeral {s : Bytes} (hs : ∀ c ∈ s, isNumberChar c = true) :
    newline ∉ s := by
  intro h
  have := hs newline h
  simp [isNumberChar, isDigit, newline] at this

mutual

theorem newline_notMem_compactText : ∀ j : Json, newline ∉ compactText j
  | .null | .boolean true | .boolean false | .array [] | .object [] => by
    simp only [compactText]
    decide
  | .integer z => by
    rw [compactText]
    exact newline_notMem_numeral fun c hc => isNumberChar_integerText hc
  | .float d => by
    rw [compactText]
    split
    · exact newline_notMem_numeral fun c hc => isNumberChar_floatText hc
    · decide
  | .string s => by
    rw [compactText]
    exact newline_notMem_quoted s
  | .array (e :: es) => by
    simp only [compactText, List.mem_cons, List.mem_append, not_or]
    exact ⟨by decide, newline_notMem_compactText e, newline_notMem_elemsText es⟩
  | .object ((k, v) :: ms) => by
    simp only [compactText, List.mem_cons, List.mem_append, not_or]
    exact ⟨by decide, newline_notMem_quoted k, by decide, newline_notMem_compactText v,
      newline_notMem_membersText ms⟩

theorem newline_notMem_elemsText : ∀ es : List Json, newline ∉ elemsText es
  | [] => by decide
  | e :: es => by
    simp only [elemsText, List.mem_cons, List.mem_append, not_or]
    exact ⟨by decide, newline_notMem_compactText e, newline_notMem_elemsText es⟩

theorem newline_notMem_membersText : ∀ ms : List (Bytes × Json), newline ∉ membersText ms
  | [] => by decide
  | (k, v) :: ms => by
    simp only [membersText, List.mem_cons, List.mem_append, not_or]
    exact ⟨by decide, newline_notMem_quoted k, by decide, newline_notMem_compactText v,
      newline_notMem_membersText ms⟩

end

theorem parseText_compactText {j : Json} (hfin : j.finite = true) (hsort : j.sorted = true) :
    parseText (compactText j) = some j := by
  have h := parseValue_text j ((compactText j).length + 1) [] hfin hsort (by omega)
    (by simp [Delimited])
  rw [List.append_nil] at h
  simp [parseText, h]

/-- The text functions for text without insignificant blanks. -/
def compact : Codec where
  accepts b := (parseText b).any utf8Valid
  overflows b := (parseText b).any fun j => !j.finite
  value b := (parseText b).getD .null
  what _ := utf8 "[json.exception.parse_error.101] parse error"
  text := compactText

theorem compact_lawful : compact.Lawful where
  parse_text := by
    rintro j ⟨hutf, hfin, hsort⟩
    simp [compact, Codec.parse, parseText_compactText hfin hsort, hutf, hfin]
  text_ne_nil := by
    rintro j ⟨-, hfin, hsort⟩ h
    have hread := parseText_compactText hfin hsort
    simp only [compact] at h
    simp [h, parseText, parseValue] at hread
  newline_notMem := fun {j} _ => newline_notMem_compactText j

mutual

theorem compactText_finitize : ∀ j : Json, compactText j = compactText j.finitize
  | .null | .boolean _ | .integer _ | .string _ => rfl
  | .float d => by
    rw [finitize]
    split
    · rfl
    · next h => simp [compactText, h]
  | .array [] | .object [] => rfl
  | .array (e :: es) => by
    simp only [finitize, finitizeElems, compactText]
    rw [compactText_finitize e, elemsText_finitize es]
  | .object ((k, v) :: ms) => by
    simp only [finitize, finitizeMembers, compactText]
    rw [compactText_finitize v, membersText_finitize ms]

theorem elemsText_finitize : ∀ es : List Json, elemsText es = elemsText (finitizeElems es)
  | [] => rfl
  | e :: es => by
    simp only [finitizeElems, elemsText]
    rw [compactText_finitize e, elemsText_finitize es]

theorem membersText_finitize :
    ∀ ms : List (Bytes × Json), membersText ms = membersText (finitizeMembers ms)
  | [] => rfl
  | (k, v) :: ms => by
    simp only [finitizeMembers, membersText]
    rw [compactText_finitize v, membersText_finitize ms]

end

theorem compact_nonFiniteAsNull : compact.NonFiniteAsNull := fun j _ => compactText_finitize j

/-- What is parsed is a value of valid UTF-8 and finite numbers. -/
theorem compact_reads {b : Bytes} {j : Json} (h : compact.parse b = .ok j) :
    j.utf8Valid = true ∧ j.finite = true := by
  simp only [Codec.parse, compact] at h
  cases hp : parseText b with
  | none => simp [hp] at h
  | some j' =>
    simp only [hp, Option.any_some, Option.getD_some] at h
    split at h
    · simp at h
    · next hv =>
      split at h
      · simp at h
      · next hf =>
        obtain rfl : j' = j := by simpa using h
        exact ⟨by simpa using hv, by simpa using hf⟩

theorem compact_readsUtf8 : compact.ReadsUtf8 := fun h => (compact_reads h).1

theorem compact_readsFinite : compact.ReadsFinite := fun h => (compact_reads h).2

end Nlohmann
