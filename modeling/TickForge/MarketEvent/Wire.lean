import TickForge.MarketEvent.Basic

/-! An event on its way through text: what the printer and the decoder make of it. -/
namespace TickForge

open ByteString Binary64 Nlohmann Json

variable {c : Codec} {e : MarketEvent}

/-- The members in the order of their keys, the optional one in the middle. -/
def membersWith (e : MarketEvent) (sequence : List (Bytes × Json)) : List (Bytes × Json) :=
  (utf8 "event_time_ms", .integer (.ofInt64 (toMilliseconds e.eventTime))) ::
    (utf8 "price", .float e.price) ::
    (sequence ++ [(utf8 "source", .string e.source), (utf8 "symbol", .string e.symbol)])

theorem marketEventToJson_eq (e : MarketEvent) :
    marketEventToJson e = .object (membersWith e (e.providerSequence.toList.map fun n =>
      (utf8 "provider_sequence", .integer (.ofUInt64 n)))) := by
  obtain ⟨symbol, price, time, sequence, ingest, source⟩ := e
  cases sequence <;> rfl

theorem utf8Valid_toJson (hs : ValidUtf8 e.symbol) (hr : ValidUtf8 e.source) :
    (marketEventToJson e).utf8Valid = true := by
  rw [marketEventToJson_eq]
  cases e.providerSequence <;>
    simp [membersWith, utf8Valid, everywhere, everywhereMembers, stringValid, validUtf8_utf8, hs,
      hr]

theorem finite_toJson (e : MarketEvent) : (marketEventToJson e).finite = e.price.isFinite := by
  rw [marketEventToJson_eq]
  cases e.providerSequence <;> simp [membersWith, finite, everywhere, everywhereMembers, floatFinite]

theorem sorted_toJson (e : MarketEvent) : (marketEventToJson e).sorted = true := by
  rw [marketEventToJson_eq]
  cases e.providerSequence <;> rfl

theorem printable_toJson (hs : ValidUtf8 e.symbol) (hr : ValidUtf8 e.source)
    (hp : e.price.isFinite = true) : Codec.Printable (marketEventToJson e) :=
  ⟨utf8Valid_toJson hs hr, (finite_toJson e).trans hp, sorted_toJson e⟩

theorem MarketEvent.Encodable.printable (h : e.Encodable) :
    Codec.Printable (marketEventToJson e) :=
  printable_toJson h.symbol_utf8 h.source_utf8 h.price_finite

/-- A trade at 65432.5. -/
def sampleEvent : MarketEvent where
  symbol := utf8 "BTCUSDT"
  price := ⟨0x40eff31000000000#64⟩
  eventTime := 1700000000123000000
  providerSequence := some 42
  source := utf8 "live:binance"

theorem sampleEvent_encodable : sampleEvent.Encodable where
  symbol_ne_nil := by decide
  symbol_utf8 := validUtf8_utf8 _
  source_utf8 := validUtf8_utf8 _
  price_finite := by decide
  whole_ms := by decide

/-- The next trade of the same symbol, a millisecond later. -/
def laterEvent : MarketEvent :=
  { sampleEvent with eventTime := 1700000000124000000, providerSequence := some 43 }

theorem encodable_two : ∀ e ∈ [sampleEvent, laterEvent], e.Encodable := by
  have hlater : laterEvent.Encodable :=
    ⟨by decide, validUtf8_utf8 _, validUtf8_utf8 _, by decide, by decide⟩
  simpa using ⟨sampleEvent_encodable, hlater⟩

/-- One captured line or one Kafka payload: only `parse_error` is caught, and none stands
for a record that is counted as malformed. -/
def decodeRecord (c : Codec) (text : Bytes) : Except Exception (Option MarketEvent) :=
  match c.parse text with
  | .error (.parseError _) => .ok none
  | .error e => .error e
  | .ok parsed => do
    match ← marketEventFromJson parsed with
    | .ok event => return some event
    | .error _ => return none

/-- A sequence of records, each decoded on its own. -/
def decodeAll (c : Codec) (texts : List Bytes) : Except Exception (List (Option MarketEvent)) :=
  texts.mapM (decodeRecord c)

variable {text : Bytes} {texts : List Bytes} {f : MarketEvent}

/-- The only text that escapes the decoder: valid JSON with a literal beyond every `double`. -/
def Overflowing (c : Codec) (text : Bytes) : Prop :=
  c.accepts text = true ∧ c.overflows text = true

theorem decodeRecord_total_iff :
    (∃ r, decodeRecord c text = .ok r) ↔ ¬ Overflowing c text := by
  rw [decodeRecord, Codec.parse, Overflowing]
  cases c.accepts text with
  | false => simp
  | true =>
    cases c.overflows text with
    | true => simp
    | false =>
      rcases marketEventFromJson_total (c.value text) with ⟨r, hr⟩
      cases r <;> simp [hr, bind, Except.bind, pure, Except.pure]

/-- The decoder leaves `ingest_time` at its default. -/
theorem decodeRecord_timeless (h : decodeRecord c text = .ok (some f)) : f.timeless = f := by
  rw [decodeRecord] at h
  cases hp : c.parse text with
  | error x => cases x <;> simp [hp] at h
  | ok j =>
    rw [hp] at h
    rcases marketEventFromJson_cases j with ⟨m, hm⟩ | ⟨s, d, z, -, -, -, -, hm⟩
    · simp [hm, bind, Except.bind, pure, Except.pure] at h
    · simp only [hm, bind, Except.bind, pure, Except.pure, Except.ok.injEq, Option.some.injEq] at h
      rw [← h]
      rfl

theorem decodeAll_cons (c : Codec) (text : Bytes) (texts : List Bytes) :
    decodeAll c (text :: texts) =
      match decodeRecord c text with
      | .error e => .error e
      | .ok o => (decodeAll c texts).map (o :: ·) := by
  rw [decodeAll, List.mapM_cons]
  cases decodeRecord c text with
  | error e => rfl
  | ok o =>
    cases h : texts.mapM (decodeRecord c) <;>
      simp [decodeAll, h, bind, Except.bind, pure, Except.pure, Except.map]

/-- A sequence that decodes was decoded record by record. -/
theorem decodeAll_cons_ok {os : List (Option MarketEvent)}
    (h : decodeAll c (text :: texts) = .ok os) :
    ∃ o rest, decodeRecord c text = .ok o ∧ decodeAll c texts = .ok rest ∧ os = o :: rest := by
  rw [decodeAll_cons] at h
  cases hd : decodeRecord c text with
  | error e => simp [hd] at h
  | ok o =>
    cases hs : decodeAll c texts with
    | error e => simp [hd, hs, Except.map] at h
    | ok rest =>
      obtain rfl : o :: rest = os := by simpa [hd, hs, Except.map] using h
      exact ⟨o, rest, rfl, rfl, rfl⟩

theorem decodeAll_nil_ok {os : List (Option MarketEvent)} (h : decodeAll c [] = .ok os) :
    os = [] := by
  simpa [decodeAll, pure, Except.pure, eq_comm] using h

theorem decodeAll_length {os : List (Option MarketEvent)} (h : decodeAll c texts = .ok os) :
    os.length = texts.length := by
  induction texts generalizing os with
  | nil => simp [decodeAll_nil_ok h]
  | cons text texts ih =>
    obtain ⟨o, rest, -, hs, rfl⟩ := decodeAll_cons_ok h
    simp [ih hs]

theorem decodeAll_total_iff :
    (∃ r, decodeAll c texts = .ok r) ↔ ∀ text ∈ texts, ¬ Overflowing c text := by
  induction texts with
  | nil => simp [decodeAll, pure, Except.pure]
  | cons text texts ih =>
    rw [List.forall_mem_cons, ← ih, ← decodeRecord_total_iff, decodeAll_cons]
    cases decodeRecord c text with
    | error e => simp
    | ok o => cases decodeAll c texts <;> simp [Except.map]

/-- The event a record decodes to. -/
def decodeEvent (c : Codec) (text : Bytes) : Option MarketEvent :=
  (decodeRecord c text).toOption.join

theorem decodeRecord_eq (h : ¬ Overflowing c text) :
    decodeRecord c text = .ok (decodeEvent c text) := by
  obtain ⟨o, ho⟩ := decodeRecord_total_iff.mpr h
  simp [decodeEvent, ho, Except.toOption]

theorem decodeAll_eq (h : ∀ text ∈ texts, ¬ Overflowing c text) :
    decodeAll c texts = .ok (texts.map (decodeEvent c)) := by
  induction texts with
  | nil => rfl
  | cons text texts ih =>
    rw [decodeAll_cons, decodeRecord_eq (h text (by simp)),
      ih fun text ht => h text (List.mem_cons_of_mem _ ht)]
    rfl

/-- Dump, parse, decode. -/
def throughText (c : Codec) (e : MarketEvent) : Except Exception (Except Bytes MarketEvent) := do
  marketEventFromJson (← c.parse (← c.dump (marketEventToJson e)))

/-- A finite price comes through, and so does everything else but the clocks' fractions. -/
theorem throughText_finite (hc : c.Lawful) (hne : e.symbol ≠ []) (hs : ValidUtf8 e.symbol)
    (hr : ValidUtf8 e.source) (hp : e.price.isFinite = true) :
    throughText c e = .ok (.ok { e.timeless with
      eventTime := ofMilliseconds (toMilliseconds e.eventTime) }) := by
  have hj := printable_toJson hs hr hp
  simp only [throughText, Codec.dump, hj.1, if_true, bind, Except.bind, hc.parse_text hj]
  exact marketEventFromJson_toJson hne

/-- A non-finite price is written as `null`, and the decoder then misses the price. -/
theorem throughText_nonFinite (hc : c.Lawful) (hn : c.NonFiniteAsNull) (hne : e.symbol ≠ [])
    (hs : ValidUtf8 e.symbol) (hr : ValidUtf8 e.source) (hp : e.price.isFinite = false) :
    throughText c e = .ok (.error (utf8 "missing or non-numeric \"price\"")) := by
  have hu := utf8Valid_toJson hs hr
  have hj : Codec.Printable (marketEventToJson e).finitize := by
    rw [marketEventToJson_eq]
    cases e.providerSequence <;>
      simp [membersWith, finitize, finitizeMembers, hp, Codec.Printable, utf8Valid, finite, sorted,
        everywhere, everywhereMembers, stringValid, floatFinite, keysSorted, validUtf8_utf8, hs,
        hr] <;> decide
  simp only [throughText, Codec.dump, hu, if_true, bind, Except.bind, hn _ hu, hc.parse_text hj]
  refine marketEventFromJson_no_price (s := e.symbol) ?_ hne ?_
  all_goals
    rw [marketEventToJson_eq]
    cases e.providerSequence <;> simp [membersWith, finitize, finitizeMembers, hp] <;> rfl

end TickForge
