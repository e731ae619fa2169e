import TickForge.MarketEvent.Basic

/-! The parser of one combined-stream trade message. -/
namespace TickForge

open ByteString Binary64 Nlohmann Json

/-- The checks and conversions on the `data` object. -/
def parseTrade (data : Json) : Except Exception (Except Bytes MarketEvent) := do
  if !(← data.has (utf8 "e") (isText (utf8 "trade"))) then
    return .error (utf8 "not a trade event (\"e\" != \"trade\")")
  if !(← data.hasNonEmptyString (utf8 "s")) then
    return .error (utf8 "missing or empty symbol (\"s\")")
  if !(← data.has (utf8 "p") isString) then
    return .error (utf8 "missing or non-string price (\"p\")")
  if !(← data.has (utf8 "T") isNumberInteger) then
    return .error (utf8 "missing or non-integer trade time (\"T\")")
  let priceStr ← data.getAt (utf8 "p") getString
  -- only `ec` is looked at: text behind the matched prefix is not an error
  match fromChars priceStr with
  | .ok price _ =>
    if price.nonPositive then
      return .error (utf8 "price (\"p\") must be positive, got \"" ++ priceStr ++ utf8 "\"")
    let mut event : MarketEvent := {}
    event := { event with symbol := ← data.getAt (utf8 "s") getString }
    event := { event with price := price }
    event := { event with eventTime := ofMilliseconds (← data.getAt (utf8 "T") getInt64) }
    if ← data.has (utf8 "t") isNumberInteger then
      event := { event with providerSequence := some (← data.getAt (utf8 "t") getUInt64) }
    return .ok event
  | _ =>
    return .error
      (utf8 "price (\"p\") is not a valid decimal number: \"" ++ priceStr ++ utf8 "\"")

/-- The inner error is the text left in `error_out`. -/
def parseBinanceTradeMessage (c : Codec) (rawJson : Bytes) :
    Except Exception (Except Bytes MarketEvent) :=
  match c.parse rawJson with
  | .error (.parseError what) => .ok (.error (utf8 "invalid JSON: " ++ what))
  | .error e => .error e
  | .ok envelope => do
    if !(← envelope.has (utf8 "data") isObject) then
      return .error (utf8 "missing or malformed \"data\" object")
    parseTrade (← envelope.at_ (utf8 "data"))

/-- What `LiveSource::next()` fills in. -/
def MarketEvent.live (e : MarketEvent) (ingestTime : Int64) : MarketEvent :=
  { e with ingestTime := ingestTime, source := utf8 "live:binance" }

variable {c : Codec} {raw s p rest : Bytes} {data j : Json} {d : Double} {z : Integer}
  {e : MarketEvent}

def asObject? (v : Json) : Option Json := if v.isObject then some v else none

theorem isObject_eq (v : Json) : v.isObject = (asObject? v).isSome := by
  cases v <;> rfl

/-- `operator==` with a literal, as a view. -/
def asText? (s : Bytes) (v : Json) : Option Unit := if v.isText s then some () else none

theorem isText_eq (s : Bytes) (v : Json) : v.isText s = (asText? s v).isSome := by
  cases h : v.isText s <;> simp [asText?, h]

/-- The fields that a trade is read from. -/
structure Trade (data : Json) (s p : Bytes) (z : Integer) : Prop where
  kind : data.view (asText? (utf8 "trade")) (utf8 "e") = some ()
  symbol : data.view asString? (utf8 "s") = some s
  symbol_ne_nil : s ≠ []
  price : data.view asString? (utf8 "p") = some p
  time : data.view asInteger? (utf8 "T") = some z

/-- The event of an accepted trade. -/
def tradeEvent (data : Json) (s : Bytes) (d : Double) (z : Integer) : MarketEvent where
  symbol := s
  price := d
  eventTime := ofMilliseconds z.toInt64
  providerSequence := (data.view asInteger? (utf8 "t")).map (·.toUInt64)

theorem parseTrade_fields (h : Trade data s p z) :
    parseTrade data = .ok
      (match fromChars p with
      | .ok d _ =>
        if d.nonPositive then
          .error (utf8 "price (\"p\") must be positive, got \"" ++ p ++ utf8 "\"")
        else .ok (tradeEvent data s d z)
      | _ =>
        .error (utf8 "price (\"p\") is not a valid decimal number: \"" ++ p ++ utf8 "\"")) := by
  simp only [parseTrade, hasNonEmptyString_eq, has_eq (isText_eq _), has_eq isNumberInteger_eq,
    has_eq isString_eq, getAt_eq h.symbol getString_of, getAt_eq h.price getString_of,
    getAt_eq h.time getInt64_of, h.kind, h.symbol, h.price, h.time, tradeEvent, bind, Except.bind,
    pure, Except.pure]
  cases fromChars p with
  | ok d rest =>
    cases hq : data.view asInteger? (utf8 "t") with
    | none => cases hd : d.nonPositive <;> simp [h.symbol_ne_nil, hd]
    | some q =>
      cases hd : d.nonPositive <;> simp [h.symbol_ne_nil, hd, getAt_eq hq getUInt64_of]
  | _ => simp [h.symbol_ne_nil]

/-- Either a field is missing, which is reported, or all of them are there. -/
theorem parseTrade_cases (data : Json) :
    (∃ message, parseTrade data = .ok (.error message)) ∨ ∃ s p z, Trade data s p z := by
  by_cases hok : ∃ s p z, Trade data s p z
  · exact Or.inr hok
  left
  simp only [parseTrade, hasNonEmptyString_eq, has_eq (isText_eq _), has_eq isNumberInteger_eq,
    has_eq isString_eq, bind, Except.bind, pure, Except.pure]
  cases hk : data.view (asText? (utf8 "trade")) (utf8 "e") with
  | none => simp
  | some u =>
    cases hs : data.view asString? (utf8 "s") with
    | none => simp
    | some s =>
      by_cases hne : s = []
      · simp [hne]
      cases hp : data.view asString? (utf8 "p") with
      | none => simp [hne]
      | some p =>
        cases ht : data.view asInteger? (utf8 "T") with
        | none => simp [hne]
        | some z => exact (hok ⟨s, p, z, hk, hs, hne, hp, ht⟩).elim

theorem parseTrade_total (data : Json) : ∃ r, parseTrade data = .ok r := by
  rcases parseTrade_cases data with ⟨m, h⟩ | ⟨s, p, z, h⟩
  · exact ⟨_, h⟩
  · exact ⟨_, parseTrade_fields h⟩

/-- An accepted trade has every field, and its price text begins with a numeral that is
not `<= 0`. -/
theorem parseTrade_accepts (h : parseTrade data = .ok (.ok e)) :
    ∃ s p z d rest, Trade data s p z ∧ fromChars p = .ok d rest ∧ d.nonPositive = false ∧
      e = tradeEvent data s d z := by
  rcases parseTrade_cases data with ⟨m, hm⟩ | ⟨s, p, z, ht⟩
  · simp [hm] at h
  rw [parseTrade_fields ht] at h
  cases hf : fromChars p with
  | ok d rest =>
    rw [hf] at h
    cases hd : d.nonPositive with
    | true => simp [hd] at h
    | false =>
      simp only [hd, Bool.false_eq_true, if_false, Except.ok.injEq] at h
      exact ⟨s, p, z, d, rest, ht, hf, hd, h.symm⟩
  | _ => simp [hf] at h

/-- The `data` object of a message. -/
def dataOf (envelope : Json) : Option Json := envelope.view asObject? (utf8 "data")

theorem parseBinanceTradeMessage_valid (h : c.parse raw = .ok j) :
    parseBinanceTradeMessage c raw =
      match dataOf j with
      | some data => parseTrade data
      | none => .ok (.error (utf8 "missing or malformed \"data\" object")) := by
  simp only [parseBinanceTradeMessage, h, has_eq isObject_eq]
  cases hd : dataOf j with
  | none =>
    rw [dataOf] at hd
    simp [hd, bind, Except.bind, pure, Except.pure]
  | some data =>
    obtain ⟨v, hv, ho⟩ := Option.bind_eq_some_iff.mp hd
    obtain rfl : v = data := by
      simp only [asObject?] at ho
      split at ho <;> simp_all
    rw [dataOf] at hd
    simp [hd, at_of_find? hv, bind, Except.bind]

theorem parseBinanceTradeMessage_accepts (h : parseBinanceTradeMessage c raw = .ok (.ok e)) :
    ∃ j data s p z d rest, c.parse raw = .ok j ∧ dataOf j = some data ∧ Trade data s p z ∧
      fromChars p = .ok d rest ∧ d.nonPositive = false ∧ e = tradeEvent data s d z := by
  cases hj : c.parse raw with
  | error x => cases x <;> simp [parseBinanceTradeMessage, hj] at h
  | ok j =>
    rw [parseBinanceTradeMessage_valid hj] at h
    cases hd : dataOf j with
    | none => simp [hd] at h
    | some data =>
      rw [hd] at h
      obtain ⟨s, p, z, d, rest, ht, hf, hpos, rfl⟩ := parseTrade_accepts h
      exact ⟨j, data, s, p, z, d, rest, rfl, hd, ht, hf, hpos, rfl⟩

/-- The trade object of a message. -/
def messageData (c : Codec) (raw : Bytes) : Option Json := (c.parse raw).toOption.bind dataOf

theorem parseBinanceTradeMessage_data (h : messageData c raw = some data) :
    parseBinanceTradeMessage c raw = parseTrade data := by
  rw [messageData] at h
  cases hj : c.parse raw with
  | error x => simp [hj, Except.toOption] at h
  | ok j =>
    have hd : dataOf j = some data := by simpa [hj, Except.toOption] using h
    rw [parseBinanceTradeMessage_valid hj, hd]

/-- An accepted message is read from its trade object. -/
theorem messageData_accepts (h : parseBinanceTradeMessage c raw = .ok (.ok e)) :
    ∃ data s p z d rest, messageData c raw = some data ∧ Trade data s p z ∧
      fromChars p = .ok d rest ∧ d.nonPositive = false ∧ e = tradeEvent data s d z := by
  obtain ⟨j, data, s, p, z, d, rest, hj, hd, ht, hf, hpos, he⟩ := parseBinanceTradeMessage_accepts h
  exact ⟨data, s, p, z, d, rest, by simp [messageData, hj, Except.toOption, hd], ht, hf, hpos, he⟩

end TickForge
