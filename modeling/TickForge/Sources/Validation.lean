import TickForge.Lib.JsonText
import TickForge.Lib.Numeral
import TickForge.Sources.BinanceTradeParser
import TickForge.Sources.ReplaySource
import TickForge.Kafka.Consumer

/-! The live parser's constraints, and which recorded events meet them. -/
namespace TickForge

open ByteString Binary64 Nlohmann Json

variable {c : Codec} {raw text s : Bytes} {j : Json} {d : Double} {z : Integer} {e : MarketEvent}

/-- What the live parser checks of an event. -/
def MarketEvent.Valid (e : MarketEvent) : Prop := e.symbol ≠ [] ∧ e.price.nonPositive = false

/-- Some message of the provider is read as this event, whose source and receipt time are
not the provider's. -/
def Producible (c : Codec) (e : MarketEvent) : Prop :=
  ∃ raw f, parseBinanceTradeMessage c raw = .ok (.ok f) ∧
    { f with source := e.source, ingestTime := e.ingestTime } = e

theorem Producible.valid (h : Producible c e) : e.Valid := by
  obtain ⟨raw, f, hf, he⟩ := h
  obtain ⟨data, s, p, z, d, rest, -, ht, -, hpos, rfl⟩ := messageData_accepts hf
  rw [← he]
  exact ⟨ht.symbol_ne_nil, hpos⟩

/-- The trade object for given fields. -/
def tradeData (s p : Bytes) (z : Integer) (sequence : Option UInt64) : Json :=
  .object ((utf8 "T", .integer z) :: (utf8 "e", .string (utf8 "trade")) ::
    (utf8 "p", .string p) :: (utf8 "s", .string s) ::
    (sequence.toList.map fun n => (utf8 "t", .integer (.ofUInt64 n))))

theorem tradeData_trade {p : Bytes} (hs : s ≠ []) (sequence : Option UInt64) :
    Trade (tradeData s p z sequence) s p z :=
  ⟨rfl, rfl, hs, rfl, rfl⟩

theorem view_sequence (s p : Bytes) (z : Integer) (sequence : Option UInt64) :
    (view asInteger? (utf8 "t") (tradeData s p z sequence)).map (·.toUInt64) = sequence := by
  cases sequence with
  | none => rfl
  | some n =>
    have hview : view asInteger? (utf8 "t") (tradeData s p z (some n)) = some (.ofUInt64 n) := rfl
    rw [hview, Option.map_some, Integer.toUInt64_ofUInt64]

theorem printable_message {p : Bytes} (hs : ValidUtf8 s) (hp : ValidUtf8 p)
    (sequence : Option UInt64) :
    Codec.Printable (.object [(utf8 "data", tradeData s p z sequence)]) := by
  cases sequence <;>
    simp [tradeData, Codec.Printable, utf8Valid, finite, sorted, everywhere, everywhereMembers,
      stringValid, floatFinite, keysSorted, validUtf8_utf8, hs, hp] <;> decide

/-- Every positive price has a text that the parser reads as it. -/
theorem exists_priceText (hpos : d.nonPositive = false)
    (hd : d.isFinite = true ∨ ∃ neg, d = .infinity neg) :
    ∃ p rest, fromChars p = .ok d rest ∧ ValidUtf8 p := by
  rcases hd with hfin | ⟨neg, rfl⟩
  · refine ⟨_, _, fromChars_exactDigits hfin hpos, validUtf8_ascii ?_⟩
    have hdigit : ∀ c, isDigit c = true → c < 128 := by
      intro c hc
      simp only [isDigit, Bool.and_eq_true, decide_eq_true_eq] at hc
      exact UInt8.lt_of_le_of_lt hc.2 (by decide)
    intro c hc
    rcases List.mem_append.mp hc with hc | hc
    · exact hdigit c (d.isDigit_exactDigits.1 c hc)
    · rcases List.mem_cons.mp hc with rfl | hc
      · decide
      · exact hdigit c (d.isDigit_exactDigits.2 c hc)
  · cases neg with
    | true => exact absurd hpos (by decide)
    | false => exact ⟨utf8 "inf", [], by decide, validUtf8_utf8 _⟩

/-- A valid event at a whole millisecond could have come from the provider. -/
theorem producible_of_valid (hc : c.Lawful) (hv : e.Valid) (hs : ValidUtf8 e.symbol)
    (hd : e.price.isFinite = true ∨ ∃ neg, e.price = .infinity neg)
    (hz : e.eventTime = ofMilliseconds z.toInt64) : Producible c e := by
  obtain ⟨p, rest, hp, hpu⟩ := exists_priceText hv.2 hd
  have hprint := printable_message (z := z) hs hpu e.providerSequence
  have hdata : messageData c (c.text (.object [(utf8 "data",
      tradeData e.symbol p z e.providerSequence)])) =
      some (tradeData e.symbol p z e.providerSequence) := by
    simp only [messageData, hc.parse_text hprint]
    rfl
  have hparse : parseBinanceTradeMessage c (c.text (.object [(utf8 "data",
      tradeData e.symbol p z e.providerSequence)])) = .ok (.ok (tradeEvent
      (tradeData e.symbol p z e.providerSequence) e.symbol e.price z)) := by
    rw [parseBinanceTradeMessage_data hdata, parseTrade_fields (tradeData_trade hv.1 _), hp]
    simp [hv.2]
  refine ⟨_, _, hparse, ?_⟩
  obtain ⟨symbol, price, time, sequence, ingest, source⟩ := e
  simp only [tradeEvent, view_sequence, ← hz]

/-- A number of a parsed text is finite, or an integer rounded beyond the finite ones. -/
theorem asNumber?_of_finite {key : Bytes} (h : j.finite = true)
    (hv : j.view asNumber? key = some d) : d.isFinite = true ∨ ∃ neg, d = .infinity neg := by
  obtain ⟨v, hf, hn⟩ := Option.bind_eq_some_iff.mp hv
  cases v with
  | integer z =>
    obtain rfl : Double.ofInt z.val = d := by simpa [asNumber?] using hn
    rw [Double.ofInt]
    cases ho : Double.ofRatio (decide (z.val < 0)) z.val.natAbs 1 with
    | none => exact Or.inr ⟨_, rfl⟩
    | some d' => exact Or.inl (Double.ofRatio_some ho).2.1
  | float d' =>
    obtain rfl : d' = d := by simpa [asNumber?] using hn
    exact Or.inl (by simpa [everywhere, floatFinite] using everywhere_find? h hf)
  | _ => simp [asNumber?] at hn

/-- An object that has all the fields of an event, with a price that is not positive. -/
def Underpriced (j : Json) : Prop :=
  ∃ s d z, j.view asString? (utf8 "symbol") = some s ∧ s ≠ [] ∧
    j.view asNumber? (utf8 "price") = some d ∧ d.nonPositive = true ∧
    j.view asInteger? (utf8 "event_time_ms") = some z

theorem valid_iff_not_underpriced (j : Json) :
    (∀ e, marketEventFromJson j = .ok (.ok e) → e.Valid) ↔ ¬ Underpriced j := by
  constructor
  · rintro h ⟨s, d, z, hs, hne, hp, hd, hz⟩
    have := (h _ (marketEventFromJson_accepts hs hne hp hz)).2
    simp [decoded, hd] at this
  · intro h e he
    obtain ⟨s, d, z, hs, hne, hp, hz, rfl⟩ := marketEventFromJson_fields he
    refine ⟨hne, ?_⟩
    by_contra hd
    exact h ⟨s, d, z, hs, hne, hp, by simpa [decoded] using hd, hz⟩

/-- A record is parsed as an object of that kind. -/
def UnderpricedRecord (c : Codec) (text : Bytes) : Prop :=
  ∃ j, c.parse text = .ok j ∧ Underpriced j

theorem decodeRecord_accepts (h : decodeRecord c text = .ok (some e)) :
    ∃ j, c.parse text = .ok j ∧ marketEventFromJson j = .ok (.ok e) := by
  rw [decodeRecord] at h
  cases hp : c.parse text with
  | error x => cases x <;> simp [hp] at h
  | ok j =>
    rw [hp] at h
    rcases marketEventFromJson_total j with ⟨r, hr⟩
    cases r with
    | error m => simp [hr, bind, Except.bind, pure, Except.pure] at h
    | ok f =>
      obtain rfl : f = e := by simpa [hr, bind, Except.bind, pure, Except.pure] using h
      exact ⟨j, rfl, hr⟩

/-- What one record becomes is producible unless its price is not positive. -/
theorem record_producible_iff (hc : c.Lawful) (hu : c.ReadsUtf8) (hf : c.ReadsFinite)
    (text : Bytes) :
    (∀ e, decodeRecord c text = .ok (some e) → Producible c e) ↔ ¬ UnderpricedRecord c text := by
  constructor
  · rintro h ⟨j, hj, s, d, z, hs, hne, hp, hd, hz⟩
    have hdec : decodeRecord c text = .ok (some (decoded j s d z)) := by
      simp [decodeRecord, hj, marketEventFromJson_accepts hs hne hp hz, bind, Except.bind, pure,
        Except.pure]
    have := (h _ hdec).valid.2
    simp [decoded, hd] at this
  · intro h e he
    obtain ⟨j, hj, hm⟩ := decodeRecord_accepts he
    have hv := (valid_iff_not_underpriced j).mpr (fun hj' => h ⟨j, hj, hj'⟩) e hm
    obtain ⟨s, d, z, hs, hne, hp, hz, rfl⟩ := marketEventFromJson_fields hm
    exact producible_of_valid hc hv (validUtf8_of_view (hu hj) hs) (asNumber?_of_finite (hf hj) hp)
      rfl

theorem mem_decodeAll {texts : List Bytes} {os : List (Option MarketEvent)}
    (h : decodeAll c texts = .ok os) :
    e ∈ os.reduceOption ↔ ∃ text ∈ texts, decodeRecord c text = .ok (some e) := by
  induction texts generalizing os with
  | nil => simp [decodeAll_nil_ok h]
  | cons text texts ih =>
    obtain ⟨o, rest, hd, hs, rfl⟩ := decodeAll_cons_ok h
    have hrest := ih hs
    simp only [List.mem_cons, exists_eq_or_imp, hd, ← hrest]
    cases o with
    | none => simp
    | some f => simp [eq_comm]

/-- `Producible` does not look at the receipt time. -/
theorem producible_timeless : Producible c e.timeless ↔ Producible c e := by
  constructor
  · rintro ⟨raw, f, hf, he⟩
    refine ⟨raw, f, hf, ?_⟩
    obtain ⟨symbol, price, time, sequence, ingest, source⟩ := e
    simp_all [MarketEvent.timeless]
  · rintro ⟨raw, f, hf, he⟩
    refine ⟨raw, f, hf, ?_⟩
    rw [← he]
    rfl

/-- Records that were all decoded are producible unless one of them is underpriced. -/
theorem decodeAll_producible_iff (hc : c.Lawful) (hu : c.ReadsUtf8) (hf : c.ReadsFinite)
    {texts : List Bytes} {os : List (Option MarketEvent)} {events : List MarketEvent}
    (h : decodeAll c texts = .ok os)
    (he : events.map MarketEvent.timeless = os.reduceOption) :
    (∀ e ∈ events, Producible c e) ↔ ∀ text ∈ texts, ¬ UnderpricedRecord c text := by
  have hevents : (∀ e ∈ events, Producible c e) ↔ ∀ e ∈ os.reduceOption, Producible c e := by
    rw [← he, List.forall_mem_map]
    simp only [producible_timeless]
  rw [hevents]
  simp only [mem_decodeAll h, ← record_producible_iff hc hu hf]
  constructor
  · exact fun h text ht e hd => h e ⟨text, ht, hd⟩
  · rintro h e ⟨text, ht, hd⟩
    exact h text ht e hd

theorem decodeAll_of_drain {file : Bytes} {clock : ℕ → Int64} {delivered : List MarketEvent}
    {final : ReplaySource}
    (h : ReplaySource.drain c clock (.start file) = .ok (delivered, final)) :
    ∃ os, decodeAll c (ReplaySource.records file) = .ok os ∧
      delivered.map MarketEvent.timeless = os.reduceOption := by
  cases hs : decodeAll c (ReplaySource.records file) with
  | error x =>
    have := ReplaySource.drain_error (r := .start file) clock hs
    simp [this] at h
  | ok os =>
    obtain ⟨events, hd, he⟩ := ReplaySource.drain_ok (r := .start file) clock hs
    obtain ⟨rfl, -⟩ : events = delivered ∧ _ := by simpa [h, eq_comm] using hd
    exact ⟨os, rfl, he⟩

theorem decodeAll_of_consume {polls : List Poll} {clock : ℕ → Int64}
    {records : List ConsumedRecord} {final : KafkaEventConsumer}
    (h : KafkaEventConsumer.consume c clock (polls.map .poll) {} = .ok (records, final)) :
    ∃ os, decodeAll c ((polls.filterMap Poll.message?).map (·.payload)) = .ok os ∧
      (records.map (·.event)).map MarketEvent.timeless = os.reduceOption := by
  cases hs : decodeAll c ((polls.filterMap Poll.message?).map (·.payload)) with
  | error x => simp [KafkaEventConsumer.consume_error clock hs] at h
  | ok os =>
    obtain ⟨rs, hd, he⟩ := KafkaEventConsumer.consume_ok (k := {}) clock hs
    obtain ⟨rfl, -⟩ : rs = records ∧ _ := by simpa [h, eq_comm] using hd
    have hevents := congrArg (List.map (·.event)) he
    rw [KafkaEventConsumer.event_pairs (by simpa using decodeAll_length hs), List.map_map]
      at hevents
    refine ⟨os, rfl, ?_⟩
    rw [List.map_map, ← hevents]
    rfl

/-- A recorded event meets the live parser's constraints, and is one the live path could
have produced, exactly when its record does not have a price that is not positive. -/
theorem recorded_valid_iff (hc : c.Lawful) (hu : c.ReadsUtf8) (hf : c.ReadsFinite) :
    (∀ j, (∀ e, marketEventFromJson j = .ok (.ok e) → e.Valid) ↔ ¬ Underpriced j) ∧
    (∀ file clock delivered final,
      ReplaySource.drain c clock (.start file) = .ok (delivered, final) →
      ((∀ e ∈ delivered, Producible c e) ↔
        ∀ line ∈ ReplaySource.records file, ¬ UnderpricedRecord c line)) ∧
    (∀ (polls : List Poll) clock records final,
      KafkaEventConsumer.consume c clock (polls.map .poll) {} = .ok (records, final) →
      ((∀ r ∈ records, Producible c r.event) ↔
        ∀ m ∈ polls.filterMap Poll.message?, ¬ UnderpricedRecord c m.payload)) := by
  refine ⟨valid_iff_not_underpriced, ?_, ?_⟩
  · intro file clock delivered final h
    obtain ⟨os, hs, he⟩ := decodeAll_of_drain h
    exact decodeAll_producible_iff hc hu hf hs he
  · intro polls clock records final h
    obtain ⟨os, hs, he⟩ := decodeAll_of_consume h
    have := decodeAll_producible_iff hc hu hf hs he
    rwa [List.forall_mem_map, List.forall_mem_map] at this

theorem sampleEvent_not_underpriced : ¬ Underpriced (marketEventToJson sampleEvent) := by
  rintro ⟨s, d, z, -, -, hp, hd, -⟩
  obtain rfl : sampleEvent.price = d := by simpa [(view_toJson sampleEvent).2.1] using hp
  exact absurd hd (by decide)

/-- A capture file of one line. -/
theorem recorded_valid_iff_sample :
    ∃ delivered final, ReplaySource.drain compact (fun _ => 5)
        (.start (compact.text (marketEventToJson sampleEvent))) = .ok (delivered, final) ∧
      delivered.length = 1 ∧ ∀ e ∈ delivered, Producible compact e := by
  have hlines : ReplaySource.records (compact.text (marketEventToJson sampleEvent)) =
      [compact.text (marketEventToJson sampleEvent)] := by decide +kernel
  have hdec : decodeAll compact (ReplaySource.records
      (compact.text (marketEventToJson sampleEvent))) = .ok [some sampleEvent] := by
    decide +kernel
  obtain ⟨delivered, hd, heq⟩ := ReplaySource.drain_ok (r := .start _) (fun _ => 5) hdec
  refine ⟨delivered, _, hd, by simpa using congrArg List.length heq, ?_⟩
  refine ((recorded_valid_iff compact_lawful compact_readsUtf8 compact_readsFinite).2.1
    _ _ _ _ hd).mpr ?_
  intro line hl
  obtain rfl := List.mem_singleton.mp (hlines ▸ hl :)
  rintro ⟨j, hj, hu⟩
  rw [compact_lawful.parse_text sampleEvent_encodable.printable] at hj
  obtain rfl := Except.ok.inj hj
  exact sampleEvent_not_underpriced hu

/-- A captured line or payload with a price of `-5.0`. -/
def negativePrice : Bytes :=
  utf8 "\x7b\"event_time_ms\":1700000000123,\"price\":-5.0,\"symbol\":\"BTCUSDT\"\x7d"

/-- It is delivered, although the live parser would refuse it in every message. -/
theorem negative_price_delivered :
    ∃ e, decodeRecord compact negativePrice = .ok (some e) ∧
      e.price = ⟨0xc014000000000000#64⟩ ∧ ¬ e.Valid ∧ ¬ Producible compact e := by
  let e : MarketEvent :=
    { symbol := utf8 "BTCUSDT", price := ⟨0xc014000000000000#64⟩, eventTime := 1700000000123000000 }
  have hdec : decodeRecord compact negativePrice = .ok (some e) := by decide +kernel
  have hv : ¬ e.Valid := by
    rintro ⟨-, hpos⟩
    exact absurd hpos (by decide)
  exact ⟨e, hdec, rfl, hv, fun hp => hv hp.valid⟩

end TickForge
