import TickForge.Lib.JsonText
import TickForge.Sources.WireFormat

/-! What the integer fields of an accepted message become, on both decoding paths. -/
namespace TickForge

open ByteString Binary64 Nlohmann Json

variable {c : Codec} {raw s : Bytes} {j data : Json} {d : Double} {z z' : Integer}
  {e : MarketEvent}

/-- The event is exactly `z` milliseconds after the epoch, within the clock's range, and is
written with that integer. -/
structure KeepsTime (z : Integer) (e : MarketEvent) : Prop where
  lower : -2 ^ 63 ≤ z.val * 1000000
  upper : z.val * 1000000 < 2 ^ 63
  value : e.eventTime.toInt = z.val * 1000000
  written : (marketEventToJson e).view asInteger? (utf8 "event_time_ms") = some z

theorem view_event_time (e : MarketEvent) :
    (marketEventToJson e).view asInteger? (utf8 "event_time_ms") =
      some (.ofInt64 (toMilliseconds e.eventTime)) := by
  rw [marketEventToJson_eq]
  rfl

/-- The conversion to nanoseconds is exact as long as it does not overflow. -/
theorem keepsTime_iff (h : e.eventTime = ofMilliseconds z.toInt64) :
    KeepsTime z e ↔ z.val.natAbs ≤ 9223372036854 := by
  have htime : e.eventTime.toInt = (z.val * 1000000).bmod (2 ^ 64) := by
    rw [h, toInt_ofMilliseconds]
  constructor
  · rintro ⟨hlo, hhi, -, -⟩
    omega
  · intro hz
    have hlo : -2 ^ 63 ≤ z.val * 1000000 := by omega
    have hhi : z.val * 1000000 < 2 ^ 63 := by omega
    have hexact : e.eventTime.toInt = z.val * 1000000 := by
      rw [htime]
      exact Int.bmod_eq_of_le (by omega) (by omega)
    refine ⟨hlo, hhi, hexact, ?_⟩
    rw [view_event_time]
    congr 1
    apply Integer.ext
    simp only [Integer.ofInt64, toInt_toMilliseconds, hexact]
    exact Int.mul_tdiv_cancel _ (by decide)

/-- A timestamp keeps its value exactly when its nanoseconds fit 64 bits, that is up to
9223372036854 milliseconds before or after the epoch; every other integer is accepted all
the same. -/
theorem timestamp_kept_iff (c : Codec) :
    (∀ raw data z e, parseBinanceTradeMessage c raw = .ok (.ok e) →
      messageData c raw = some data → data.view asInteger? (utf8 "T") = some z →
      (KeepsTime z e ↔ z.val.natAbs ≤ 9223372036854)) ∧
    (∀ j z e, marketEventFromJson j = .ok (.ok e) →
      j.view asInteger? (utf8 "event_time_ms") = some z →
      (KeepsTime z e ↔ z.val.natAbs ≤ 9223372036854)) := by
  constructor
  · intro raw data z e h hd hz
    obtain ⟨data', s, p, z', d, rest, hd', ht, -, -, rfl⟩ := messageData_accepts h
    obtain rfl : data' = data := by simpa [hd] using hd'.symm
    obtain rfl : z' = z := by simpa [hz] using ht.time.symm
    exact keepsTime_iff rfl
  · intro j z e h hz
    obtain ⟨s, d, z', -, -, -, hz', rfl⟩ := marketEventFromJson_fields h
    obtain rfl : z' = z := by simpa [hz] using hz'.symm
    exact keepsTime_iff rfl

/-- A message whose trade time and trade id are the given literals. -/
def messageWith (time sequence : String) : Bytes :=
  utf8 "\x7b\"data\":\x7b\"T\":" ++ utf8 time ++
    utf8 ",\"e\":\"trade\",\"p\":\"65432.5\",\"s\":\"BTCUSDT\",\"t\":" ++ utf8 sequence ++
    utf8 "\x7d,\"stream\":\"btcusdt@trade\"\x7d"

def eventWith (time : Int64) (sequence : Option UInt64) : MarketEvent where
  symbol := utf8 "BTCUSDT"
  price := ⟨0x40eff31000000000#64⟩
  eventTime := time
  providerSequence := sequence

theorem timestamp_kept_iff_last :
    ∃ data z, messageData compact (messageWith "9223372036854" "42") = some data ∧
      data.view asInteger? (utf8 "T") = some z ∧ z.val = 9223372036854 ∧
      KeepsTime z (eventWith 9223372036854000000 (some 42)) := by
  have h : parseBinanceTradeMessage compact (messageWith "9223372036854" "42") =
      .ok (.ok (eventWith 9223372036854000000 (some 42))) := by decide +kernel
  obtain ⟨data, s, p, z, d, rest, hd, ht, -⟩ := messageData_accepts h
  have hz : ((messageData compact (messageWith "9223372036854" "42")).bind
      (view asInteger? (utf8 "T"))).map (·.val) = some 9223372036854 := by decide +kernel
  have hval : z.val = 9223372036854 := by simpa [hd, ht.time] using hz
  exact ⟨data, z, hd, ht.time, hval,
    ((timestamp_kept_iff compact).1 _ data z _ h hd ht.time).mpr (by rw [hval]; decide)⟩

/-- One millisecond later the clock wraps around to the year 1677, and another integer is
written back. -/
theorem late_timestamp_wraps :
    parseBinanceTradeMessage compact (messageWith "9223372036855" "42") =
      .ok (.ok (eventWith (-9223372036854551616) (some 42))) ∧
    (eventWith (-9223372036854551616) (some 42)).eventTime.toInt ≠ 9223372036855 * 1000000 ∧
    ((marketEventToJson (eventWith (-9223372036854551616) (some 42))).view asInteger?
      (utf8 "event_time_ms")).map (·.val) = some (-9223372036854) := by
  refine ⟨by decide +kernel, by decide, by decide +kernel⟩

/-- The sequence fields of accepted messages and records, with what they are decoded to. -/
inductive Carries (c : Codec) : Option Json → Option UInt64 → Prop where
  | message {raw : Bytes} {data : Json} {e : MarketEvent} :
      parseBinanceTradeMessage c raw = .ok (.ok e) → messageData c raw = some data →
      Carries c (data.find? (utf8 "t")) e.providerSequence
  | record {j : Json} {e : MarketEvent} : marketEventFromJson j = .ok (.ok e) →
      Carries c (j.find? (utf8 "provider_sequence")) e.providerSequence

/-- Both are absent, or both are the same number. -/
def Identifies (field : Option Json) (sequence : Option UInt64) : Prop :=
  (field = none ∧ sequence = none) ∨
    ∃ z n, field = some (.integer z) ∧ sequence = some n ∧ z.val = n.toNat

/-- The field is absent, or an integer that is not negative. -/
def UnsignedField (field : Option Json) : Prop :=
  field = none ∨ ∃ z, field = some (.integer z) ∧ 0 ≤ z.val

variable {field field' : Option Json} {sequence sequence' : Option UInt64}

/-- A field that is no integer is passed over; an integer is reduced to 64 bits. -/
theorem Carries.sequence_eq (h : Carries c field sequence) :
    sequence = (field.bind asInteger?).map (·.toUInt64) := by
  cases h with
  | @message raw data e h hd =>
    obtain ⟨data', s, p, z, d, rest, hd', -, -, -, rfl⟩ := messageData_accepts h
    obtain rfl : data' = data := by simpa [hd] using hd'.symm
    rfl
  | record h =>
    obtain ⟨s, d, z, -, -, -, -, rfl⟩ := marketEventFromJson_fields h
    rfl

theorem toNat_toUInt64 (z : Integer) : (z.toUInt64.toNat : ℤ) = z.val % 2 ^ 64 := by
  simp only [Integer.toUInt64, UInt64.ofInt, UInt64.toNat_ofNat']
  omega

theorem Carries.identifies_iff (h : Carries c field sequence) :
    Identifies field sequence ↔ UnsignedField field := by
  rw [h.sequence_eq]
  constructor
  · rintro (⟨hf, -⟩ | ⟨z, n, hf, -, hz⟩)
    · exact Or.inl hf
    · exact Or.inr ⟨z, hf, by omega⟩
  · rintro (rfl | ⟨z, rfl, hz⟩)
    · exact Or.inl ⟨rfl, rfl⟩
    · have := toNat_toUInt64 z
      have := z.upper
      exact Or.inr ⟨z, z.toUInt64, rfl, rfl, by omega⟩

/-- The sequence number is the field's own exactly when the field is absent or an integer
that is not negative, and among such fields different integers stay different. -/
theorem provider_sequence_identity_iff (c : Codec) :
    (∀ field sequence, Carries c field sequence →
      (Identifies field sequence ↔ UnsignedField field)) ∧
    ∀ z z' sequence sequence', Carries c (some (.integer z)) sequence →
      Carries c (some (.integer z')) sequence' → 0 ≤ z.val → 0 ≤ z'.val → z ≠ z' →
      sequence ≠ sequence' := by
  refine ⟨fun _ _ h => h.identifies_iff, ?_⟩
  intro z z' sequence sequence' h h' hz hz' hne heq
  rw [h.sequence_eq, h'.sequence_eq] at heq
  have heq' : z.toUInt64 = z'.toUInt64 := by simpa [asInteger?] using heq
  have hmod : (z.toUInt64.toNat : ℤ) = z'.toUInt64.toNat := by rw [heq']
  rw [toNat_toUInt64, toNat_toUInt64] at hmod
  have := z.upper
  have := z'.upper
  exact hne (Integer.ext (by omega))

/-- The sequence field of an accepted message, as `messageWith` writes it. -/
theorem carries_messageWith (sequence : String) {z : Integer} {n : UInt64}
    (h : parseBinanceTradeMessage compact (messageWith "1700000000123" sequence) =
      .ok (.ok (eventWith 1700000000123000000 (some n))))
    (hz : ((messageData compact (messageWith "1700000000123" sequence)).bind
      (view asInteger? (utf8 "t"))).map (·.val) = some z.val) :
    Carries compact (some (.integer z)) (some n) := by
  obtain ⟨data, s, p, z', d, rest, hd, -⟩ := messageData_accepts h
  simp only [hd, Option.bind_some, view] at hz
  cases hf : data.find? (utf8 "t") with
  | none => simp [hf] at hz
  | some v =>
    cases v with
    | integer y =>
      have hy : y.val = z.val := by simpa [hf, asInteger?] using hz
      obtain rfl : y = z := Integer.ext hy
      exact hf ▸ Carries.message h hd
    | _ => simp [hf, asInteger?] at hz

theorem provider_sequence_identity_iff_sample :
    Identifies (some (.integer ⟨42, by decide, by decide⟩)) (some 42) :=
  ((provider_sequence_identity_iff compact).1 _ _
    (carries_messageWith "42" (by decide +kernel) (by decide +kernel))).mpr
    (Or.inr ⟨_, rfl, by decide⟩)

/-- `-1` and `18446744073709551615` are accepted as the same sequence number, and a sequence
field that is a string is accepted as none. -/
theorem negative_sequence_collides :
    Carries compact (some (.integer ⟨-1, by decide, by decide⟩)) (some 18446744073709551615) ∧
    Carries compact (some (.integer ⟨18446744073709551615, by decide, by decide⟩))
      (some 18446744073709551615) ∧
    parseBinanceTradeMessage compact (messageWith "1700000000123" "\"seven\"") =
      .ok (.ok (eventWith 1700000000123000000 none)) :=
  ⟨carries_messageWith "-1" (by decide +kernel) (by decide +kernel),
    carries_messageWith "18446744073709551615" (by decide +kernel)
      (by decide +kernel), by decide +kernel⟩

end TickForge
