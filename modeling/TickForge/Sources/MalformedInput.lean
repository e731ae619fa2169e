import TickForge.Kafka.Consumer
import TickForge.Lib.JsonText
import TickForge.Sources.BinanceTradeParser
import TickForge.Sources.ReplaySource

/-! Which texts the parser and the two read loops survive. -/
namespace TickForge

open ByteString Nlohmann

variable {c : Codec} {raw : Bytes} {texts : List Bytes} {os : List (Option MarketEvent)}

theorem parseBinanceTradeMessage_total_iff :
    (∃ r, parseBinanceTradeMessage c raw = .ok r) ↔ ¬ Overflowing c raw := by
  rw [Overflowing]
  cases ha : c.accepts raw with
  | false => simp [parseBinanceTradeMessage, Codec.parse, ha]
  | true =>
    cases ho : c.overflows raw with
    | true => simp [parseBinanceTradeMessage, Codec.parse, ha, ho]
    | false =>
      have hp : c.parse raw = .ok (c.value raw) := by simp [Codec.parse, ha, ho]
      rw [parseBinanceTradeMessage_valid hp]
      cases dataOf (c.value raw) with
      | none => simp
      | some data => simpa using parseTrade_total data

theorem countP_isSome_add_isNone (os : List (Option MarketEvent)) :
    os.countP (·.isSome) + os.countP (·.isNone) = os.length := by
  induction os with
  | nil => rfl
  | cons o os ih =>
    cases o <;> simp <;> omega

theorem length_reduceOption (os : List (Option MarketEvent)) :
    os.reduceOption.length = os.countP (·.isSome) := by
  rw [List.reduceOption_length_eq, List.countP_eq_length_filter]

theorem drain_survives_iff (file : Bytes) (clock : ℕ → Int64) :
    (∃ delivered final,
        ReplaySource.drain c clock (.start file) = .ok (delivered, final) ∧ final.input = [] ∧
        delivered.length + final.linesMalformed = (ReplaySource.records file).length) ↔
      ∀ line ∈ ReplaySource.records file, ¬ Overflowing c line := by
  rw [← decodeAll_total_iff]
  constructor
  · rintro ⟨delivered, final, hd, -, -⟩
    cases hs : decodeAll c (ReplaySource.records file) with
    | ok os => exact ⟨os, rfl⟩
    | error x =>
      have : ReplaySource.drain c clock (.start file) = .error x :=
        ReplaySource.drain_error clock hs
      simp [this] at hd
  · rintro ⟨os, hs⟩
    obtain ⟨delivered, hd, heq⟩ :=
      ReplaySource.drain_ok (r := ReplaySource.start file) clock hs
    refine ⟨delivered, _, hd, rfl, ?_⟩
    have hlen := congrArg List.length heq
    rw [List.length_map, length_reduceOption] at hlen
    have hsum := countP_isSome_add_isNone os
    have hos := decodeAll_length hs
    simp only [ReplaySource.start]
    omega

theorem consume_survives_iff (polls : List Poll) (clock : ℕ → Int64) :
    (∃ records final,
        KafkaEventConsumer.consume c clock (polls.map .poll) {} = .ok (records, final) ∧
        records.length = final.messagesConsumed ∧
        records.length + final.messagesMalformed = (polls.filterMap Poll.message?).length) ↔
      ∀ m ∈ polls.filterMap Poll.message?, ¬ Overflowing c m.payload := by
  have htexts : (∀ m ∈ polls.filterMap Poll.message?, ¬ Overflowing c m.payload) ↔
      ∀ text ∈ (polls.filterMap Poll.message?).map (·.payload), ¬ Overflowing c text := by
    rw [List.forall_mem_map]
  rw [htexts, ← decodeAll_total_iff]
  constructor
  · rintro ⟨records, final, hd, -, -⟩
    cases hs : decodeAll c ((polls.filterMap Poll.message?).map (·.payload)) with
    | ok os => exact ⟨os, rfl⟩
    | error x => simp [KafkaEventConsumer.consume_error clock hs] at hd
  · rintro ⟨os, hs⟩
    obtain ⟨records, hd, heq⟩ := KafkaEventConsumer.consume_ok (k := {}) clock hs
    have hos : os.length = (polls.filterMap Poll.message?).length := by
      simpa using decodeAll_length hs
    have hlen := congrArg List.length heq
    have hpairs := congrArg List.length (KafkaEventConsumer.event_pairs hos)
    rw [List.length_map] at hlen hpairs
    rw [length_reduceOption] at hpairs
    have hsum := countP_isSome_add_isNone os
    refine ⟨records, _, hd, ?_, ?_⟩ <;> simp only <;> omega

/-- The parser and both read loops survive exactly the texts without an overflowing
literal: there each record is delivered or counted, and the loop goes on to the end. -/
theorem read_loops_survive_iff (c : Codec) :
    (∀ raw, (∃ r, parseBinanceTradeMessage c raw = .ok r) ↔ ¬ Overflowing c raw) ∧
    (∀ file clock, (∃ delivered final,
        ReplaySource.drain c clock (.start file) = .ok (delivered, final) ∧ final.input = [] ∧
        delivered.length + final.linesMalformed = (ReplaySource.records file).length) ↔
      ∀ line ∈ ReplaySource.records file, ¬ Overflowing c line) ∧
    (∀ (polls : List Poll) clock, (∃ records final,
        KafkaEventConsumer.consume c clock (polls.map .poll) {} = .ok (records, final) ∧
        records.length = final.messagesConsumed ∧
        records.length + final.messagesMalformed = (polls.filterMap Poll.message?).length) ↔
      ∀ m ∈ polls.filterMap Poll.message?, ¬ Overflowing c m.payload) :=
  ⟨fun _ => parseBinanceTradeMessage_total_iff, drain_survives_iff, consume_survives_iff⟩

/-- A record whose price literal is beyond every `double`. -/
def hugePrice : Bytes :=
  utf8 "\x7b\"event_time_ms\":1700000000000,\"price\":1e999,\"symbol\":\"BTCUSDT\"\x7d"

theorem parse_hugePrice : compact.parse hugePrice = .error .outOfRange := by
  have ha : compact.accepts hugePrice = true := by decide +kernel
  have ho : compact.overflows hugePrice = true := by decide +kernel
  simp [Codec.parse, ha, ho]

theorem decodeAll_hugePrice : decodeAll compact [hugePrice] = .error .outOfRange := by
  simp [decodeAll_cons, decodeRecord, parse_hugePrice]

/-- One such text ends the parser, the replay and the consumer with `out_of_range`. -/
theorem huge_price_escapes :
    parseBinanceTradeMessage compact hugePrice = .error .outOfRange ∧
    ReplaySource.drain compact (fun _ => 0) (.start hugePrice) = .error .outOfRange ∧
    KafkaEventConsumer.consume compact (fun _ => 0) [.poll (.message ⟨0, 0, hugePrice⟩)] {} =
      .error .outOfRange := by
  refine ⟨?_, ?_, ?_⟩
  · simp [parseBinanceTradeMessage, parse_hugePrice]
  · refine ReplaySource.drain_error _ ?_
    have : ReplaySource.records (ReplaySource.start hugePrice).input = [hugePrice] := by
      decide +kernel
    rw [this, decodeAll_hugePrice]
  · let polls : List Poll := [.message ⟨0, 0, hugePrice⟩]
    have hs : decodeAll compact ((polls.filterMap Poll.message?).map (·.payload)) =
        .error .outOfRange := decodeAll_hugePrice
    exact KafkaEventConsumer.consume_error _ hs

end TickForge
