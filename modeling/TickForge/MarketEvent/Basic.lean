import TickForge.Lib.Json

/-! The event every source produces, and its capture and wire format. -/
namespace TickForge

open ByteString Binary64 Nlohmann

/-- Both clocks count nanoseconds in a signed 64-bit integer. -/
structure MarketEvent where
  symbol : Bytes := []
  price : Double := ⟨0⟩
  eventTime : Int64 := 0
  providerSequence : Option UInt64 := none
  ingestTime : Int64 := 0
  source : Bytes := []
  deriving DecidableEq

namespace MarketEvent

/-- The event without its `ingest_time`, which never leaves the process. -/
def timeless (e : MarketEvent) : MarketEvent := { e with ingestTime := 0 }

@[simp] theorem timeless_symbol (e : MarketEvent) : e.timeless.symbol = e.symbol := rfl

/-- What the capture and wire format carries without loss. -/
structure Encodable (e : MarketEvent) : Prop where
  symbol_ne_nil : e.symbol ≠ []
  symbol_utf8 : ValidUtf8 e.symbol
  source_utf8 : ValidUtf8 e.source
  price_finite : e.price.isFinite = true
  whole_ms : e.eventTime.toInt % 1000000 = 0

end MarketEvent

/-- `duration_cast` to milliseconds, which truncates. -/
def toMilliseconds (t : Int64) : Int64 := t / 1000000

/-- The `time_point` of a millisecond count; the multiplication wraps around. -/
def ofMilliseconds (ms : Int64) : Int64 := ms * 1000000

theorem toInt_toMilliseconds (t : Int64) :
    (toMilliseconds t).toInt = t.toInt.tdiv 1000000 :=
  Int64.toInt_div_of_ne_right t 1000000 (by decide)

/-- Only whole milliseconds survive, and the way back never wraps. -/
theorem ofMilliseconds_toMilliseconds (t : Int64) :
    ofMilliseconds (toMilliseconds t) = t ↔ t.toInt % 1000000 = 0 := by
  have hlo := t.le_toInt
  have hhi := t.toInt_lt
  have hdiv : t.toInt.tdiv 1000000 =
      t.toInt / 1000000 + if 0 ≤ t.toInt ∨ 1000000 ∣ t.toInt then 0 else 1 := by
    rw [Int.tdiv_eq_ediv]
    rfl
  have hmul : (ofMilliseconds (toMilliseconds t)).toInt = t.toInt.tdiv 1000000 * 1000000 := by
    rw [ofMilliseconds, Int64.toInt_mul, toInt_toMilliseconds]
    have hk : Int64.toInt 1000000 = 1000000 := rfl
    rw [hk, hdiv]
    split <;> exact Int.bmod_eq_of_le (by omega) (by omega)
  rw [← Int64.toInt_inj, hmul, hdiv]
  split <;> omega

def marketEventToJson (event : MarketEvent) : Json :=
  let j := insert (utf8 "symbol") (.string event.symbol) []
  let j := insert (utf8 "price") (.float event.price) j
  let j := insert (utf8 "event_time_ms") (.integer (.ofInt64 (toMilliseconds event.eventTime))) j
  let j :=
    match event.providerSequence with
    | some n => insert (utf8 "provider_sequence") (.integer (.ofUInt64 n)) j
    | none => j
  .object (insert (utf8 "source") (.string event.source) j)

/-- The inner error is the text left in `error_out`. -/
def marketEventFromJson (json : Json) : Except Exception (Except Bytes MarketEvent) := do
  if !json.isObject then
    return .error (utf8 "not a JSON object")
  if !(← json.hasNonEmptyString (utf8 "symbol")) then
    return .error (utf8 "missing or empty \"symbol\"")
  if !(← json.has (utf8 "price") Json.isNumber) then
    return .error (utf8 "missing or non-numeric \"price\"")
  if !(← json.has (utf8 "event_time_ms") Json.isNumberInteger) then
    return .error (utf8 "missing or non-integer \"event_time_ms\"")
  let mut event : MarketEvent := {}
  event := { event with symbol := ← json.getAt (utf8 "symbol") Json.getString }
  event := { event with price := ← json.getAt (utf8 "price") Json.getDouble }
  event := { event with
    eventTime := ofMilliseconds (← json.getAt (utf8 "event_time_ms") Json.getInt64) }
  if ← json.has (utf8 "provider_sequence") Json.isNumberInteger then
    event := { event with
      providerSequence := some (← json.getAt (utf8 "provider_sequence") Json.getUInt64) }
  if ← json.has (utf8 "source") Json.isString then
    event := { event with source := ← json.getAt (utf8 "source") Json.getString }
  return .ok event

open Json

variable {j : Json} {s : Bytes} {d : Double} {z : Integer}

/-- The event of an accepted object. -/
def decoded (j : Json) (s : Bytes) (d : Double) (z : Integer) : MarketEvent where
  symbol := s
  price := d
  eventTime := ofMilliseconds z.toInt64
  providerSequence := (j.view asInteger? (utf8 "provider_sequence")).map (·.toUInt64)
  source := (j.view asString? (utf8 "source")).getD []

theorem marketEventFromJson_accepts (hs : j.view asString? (utf8 "symbol") = some s)
    (hne : s ≠ []) (hp : j.view asNumber? (utf8 "price") = some d)
    (ht : j.view asInteger? (utf8 "event_time_ms") = some z) :
    marketEventFromJson j = .ok (.ok (decoded j s d z)) := by
  simp only [marketEventFromJson, isObject_of_view hs, hasNonEmptyString_eq, has_eq isNumber_eq,
    has_eq isNumberInteger_eq, has_eq isString_eq, getAt_eq hs getString_of,
    getAt_eq hp getDouble_of, getAt_eq ht getInt64_of, hs, hp, ht, decoded, bind, Except.bind]
  cases hq : j.view asInteger? (utf8 "provider_sequence") with
  | none =>
    cases hr : j.view asString? (utf8 "source") with
    | none => simp [hne, pure, Except.pure]
    | some r => simp [hne, getAt_eq hr getString_of, pure, Except.pure]
  | some q =>
    cases hr : j.view asString? (utf8 "source") with
    | none => simp [hne, getAt_eq hq getUInt64_of, pure, Except.pure]
    | some r => simp [hne, getAt_eq hq getUInt64_of, getAt_eq hr getString_of, pure, Except.pure]

/-- An object with a symbol and no number under `price`. -/
theorem marketEventFromJson_no_price (hs : j.view asString? (utf8 "symbol") = some s)
    (hne : s ≠ []) (hp : j.view asNumber? (utf8 "price") = none) :
    marketEventFromJson j = .ok (.error (utf8 "missing or non-numeric \"price\"")) := by
  simp [marketEventFromJson, isObject_of_view hs, hasNonEmptyString_eq, has_eq isNumber_eq, hs, hp,
    hne, bind, Except.bind, pure, Except.pure]

/-- The decoder never throws: it rejects, or it reads the fields it has checked. -/
theorem marketEventFromJson_cases (j : Json) :
    (∃ message, marketEventFromJson j = .ok (.error message)) ∨
    ∃ s d z, j.view asString? (utf8 "symbol") = some s ∧ s ≠ [] ∧
      j.view asNumber? (utf8 "price") = some d ∧
      j.view asInteger? (utf8 "event_time_ms") = some z ∧
      marketEventFromJson j = .ok (.ok (decoded j s d z)) := by
  by_cases ho : j.isObject = true
  swap
  · exact Or.inl ⟨_, by simp [marketEventFromJson, ho, pure, Except.pure]; rfl⟩
  have hrejects : (j.view asString? (utf8 "symbol")).any (!·.isEmpty) = false ∨
      j.view asNumber? (utf8 "price") = none ∨ j.view asInteger? (utf8 "event_time_ms") = none →
      ∃ message, marketEventFromJson j = .ok (.error message) := by
    simp only [marketEventFromJson, ho, hasNonEmptyString_eq, has_eq isNumber_eq,
      has_eq isNumberInteger_eq, bind, Except.bind, pure, Except.pure]
    intro h
    cases hs : (j.view asString? (utf8 "symbol")).any (!·.isEmpty) with
    | false => simp
    | true =>
      cases hp : j.view asNumber? (utf8 "price") with
      | none => simp
      | some d =>
        cases ht : j.view asInteger? (utf8 "event_time_ms") with
        | none => simp
        | some z => simp_all
  cases hs : j.view asString? (utf8 "symbol") with
  | none => exact Or.inl (hrejects (by simp [hs]))
  | some s =>
    cases hp : j.view asNumber? (utf8 "price") with
    | none => exact Or.inl (hrejects (by simp [hp]))
    | some d =>
      cases ht : j.view asInteger? (utf8 "event_time_ms") with
      | none => exact Or.inl (hrejects (by simp [ht]))
      | some z =>
        by_cases hne : s = []
        · exact Or.inl (hrejects (by simp [hs, hne]))
        · exact Or.inr ⟨s, d, z, rfl, hne, rfl, rfl, marketEventFromJson_accepts hs hne hp ht⟩

/-- An accepted object has every field that is checked. -/
theorem marketEventFromJson_fields {e : MarketEvent}
    (h : marketEventFromJson j = .ok (.ok e)) :
    ∃ s d z, j.view asString? (utf8 "symbol") = some s ∧ s ≠ [] ∧
      j.view asNumber? (utf8 "price") = some d ∧
      j.view asInteger? (utf8 "event_time_ms") = some z ∧ e = decoded j s d z := by
  rcases marketEventFromJson_cases j with ⟨m, hm⟩ | ⟨s, d, z, hs, hne, hp, ht, hok⟩
  · simp [hm] at h
  · refine ⟨s, d, z, hs, hne, hp, ht, ?_⟩
    simpa [h] using hok

theorem marketEventFromJson_total (j : Json) : ∃ r, marketEventFromJson j = .ok r := by
  rcases marketEventFromJson_cases j with ⟨m, h⟩ | ⟨s, d, z, -, -, -, -, h⟩
  · exact ⟨_, h⟩
  · exact ⟨_, h⟩

/-- What the checks find in an encoded event. -/
theorem view_toJson (e : MarketEvent) :
    (marketEventToJson e).view asString? (utf8 "symbol") = some e.symbol ∧
      (marketEventToJson e).view asNumber? (utf8 "price") = some e.price ∧
      (marketEventToJson e).view asInteger? (utf8 "event_time_ms") =
        some (.ofInt64 (toMilliseconds e.eventTime)) ∧
      (marketEventToJson e).view asString? (utf8 "source") = some e.source := by
  obtain ⟨symbol, price, time, sequence, ingest, source⟩ := e
  cases sequence <;> exact ⟨rfl, rfl, rfl, rfl⟩

theorem view_sequence_toJson (e : MarketEvent) :
    ((marketEventToJson e).view asInteger? (utf8 "provider_sequence")).map (·.toUInt64) =
      e.providerSequence := by
  obtain ⟨symbol, price, time, sequence, ingest, source⟩ := e
  cases sequence with
  | none => rfl
  | some n => exact congrArg some (Integer.toUInt64_ofUInt64 n)

/-- Encoding and decoding change nothing but the clocks: `ingest_time` is dropped, and
`event_time` is cut to milliseconds. -/
theorem marketEventFromJson_toJson {e : MarketEvent} (h : e.symbol ≠ []) :
    marketEventFromJson (marketEventToJson e) = .ok (.ok { e.timeless with
      eventTime := ofMilliseconds (toMilliseconds e.eventTime) }) := by
  obtain ⟨hsymbol, hprice, htime, hsource⟩ := view_toJson e
  rw [marketEventFromJson_accepts hsymbol h hprice htime]
  simp [decoded, MarketEvent.timeless, view_sequence_toJson, hsource]

theorem marketEventFromJson_roundtrip {e : MarketEvent} (h : e.Encodable) :
    marketEventFromJson (marketEventToJson e) = .ok (.ok e.timeless) := by
  rw [marketEventFromJson_toJson h.symbol_ne_nil,
    (ofMilliseconds_toMilliseconds _).mpr h.whole_ms]
  rfl

end TickForge
