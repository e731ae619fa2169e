import TickForge.Lib.JsonText
import TickForge.MarketEvent.Wire
import TickForge.Sources.BinanceTradeParser

/-! Which accepted trades the capture and Kafka format carries. -/
namespace TickForge

open ByteString Binary64 Nlohmann Json

variable {c : Codec} {raw s p rest : Bytes} {data j : Json} {d : Double} {z : Integer}
  {e : MarketEvent} {now : Int64}

theorem utf8Valid_dataOf (h : j.utf8Valid = true) (hd : dataOf j = some data) :
    data.utf8Valid = true := by
  obtain ⟨v, hf, ho⟩ := Option.bind_eq_some_iff.mp hd
  obtain rfl : v = data := by
    simp only [asObject?] at ho
    split at ho <;> simp_all
  exact everywhere_find? h hf

theorem toInt_ofMilliseconds (z : Integer) :
    (ofMilliseconds z.toInt64).toInt = (z.val * 1000000).bmod (2 ^ 64) := by
  have hk : Int64.toInt 1000000 = 1000000 := rfl
  rw [ofMilliseconds, Int64.toInt_mul, Integer.toInt64, Int64.toInt_ofInt, hk]
  exact Int.bmod_mul_bmod ..

/-- The message's price text begins with a numeral of a finite number, and its trade time
in nanoseconds, as far as 64 bits hold it, is a whole number of milliseconds. -/
def CarriedFields (c : Codec) (raw : Bytes) : Prop :=
  ∃ j data p z d rest, c.parse raw = .ok j ∧ dataOf j = some data ∧
    data.view asString? (utf8 "p") = some p ∧ data.view asInteger? (utf8 "T") = some z ∧
    fromChars p = .ok d rest ∧ d.isFinite = true ∧
    (z.val * 1000000).bmod (2 ^ 64) % 1000000 = 0

/-- An accepted trade comes back from the wire as it was, up to `ingest_time`, exactly when
its price is finite and its time is one that milliseconds can express. -/
theorem live_event_survives_iff (hc : c.Lawful) (hn : c.NonFiniteAsNull) (hu : c.ReadsUtf8)
    (h : parseBinanceTradeMessage c raw = .ok (.ok e)) :
    (∃ f, throughText c (e.live now) = .ok (.ok f) ∧ f.timeless = (e.live now).timeless) ↔
      CarriedFields c raw := by
  obtain ⟨j, data, s, p, z, d, rest, hj, hd, ht, hf, -, rfl⟩ := parseBinanceTradeMessage_accepts h
  have hs : ValidUtf8 s := validUtf8_of_view (utf8Valid_dataOf (hu hj) hd) ht.symbol
  have hr : ValidUtf8 ((tradeEvent data s d z).live now).source := validUtf8_utf8 _
  have hfields : CarriedFields c raw ↔
      d.isFinite = true ∧ (z.val * 1000000).bmod (2 ^ 64) % 1000000 = 0 := by
    constructor
    · rintro ⟨j', data', p', z', d', rest', hj', hd', hp', hz', hf', hfin⟩
      obtain rfl : j' = j := by simpa [hj] using hj'.symm
      obtain rfl : data' = data := by simpa [hd] using hd'.symm
      obtain rfl : p' = p := by simpa [ht.price] using hp'.symm
      obtain rfl : z' = z := by simpa [ht.time] using hz'.symm
      obtain ⟨rfl, -⟩ : d' = d ∧ rest' = rest := by simpa [hf, eq_comm] using hf'
      exact hfin
    · exact fun hfin => ⟨j, data, p, z, d, rest, hj, hd, ht.price, ht.time, hf, hfin⟩
  rw [hfields, ← toInt_ofMilliseconds]
  cases hp : d.isFinite with
  | false =>
    rw [throughText_nonFinite hc hn ht.symbol_ne_nil hs hr hp]
    simp
  | true =>
    rw [throughText_finite hc ht.symbol_ne_nil hs hr hp, ← ofMilliseconds_toMilliseconds]
    simp [MarketEvent.timeless, MarketEvent.live, tradeEvent]

/-- A message at the given price text, and the event it is read as. -/
def tradeMessage (price : String) : Bytes :=
  utf8 "\x7b\"data\":\x7b\"T\":1700000000123,\"e\":\"trade\",\"p\":\"" ++ utf8 price ++
    utf8 "\",\"s\":\"BTCUSDT\",\"t\":42\x7d,\"stream\":\"btcusdt@trade\"\x7d"

def tradeAt (price : Double) : MarketEvent where
  symbol := utf8 "BTCUSDT"
  price := price
  eventTime := 1700000000123000000
  providerSequence := some 42

theorem live_event_survives_iff_finite :
    parseBinanceTradeMessage compact (tradeMessage "65432.5") =
      .ok (.ok (tradeAt ⟨0x40eff31000000000#64⟩)) ∧
    CarriedFields compact (tradeMessage "65432.5") := by
  have h : parseBinanceTradeMessage compact (tradeMessage "65432.5") =
      .ok (.ok (tradeAt ⟨0x40eff31000000000#64⟩)) := by decide +kernel
  have hiff := @live_event_survives_iff _ _ _ 0 compact_lawful compact_nonFiniteAsNull
    compact_readsUtf8 h
  exact ⟨h, hiff.mp ⟨_, throughText_finite compact_lawful (by decide) (validUtf8_utf8 _)
    (validUtf8_utf8 _) (by decide), by decide⟩⟩

/-- A price of `inf` is accepted, written as `null` and then refused for want of a price. -/
theorem infinite_price_lost :
    parseBinanceTradeMessage compact (tradeMessage "inf") =
      .ok (.ok (tradeAt (.infinity false))) ∧
    throughText compact ((tradeAt (.infinity false)).live 0) =
      .ok (.error (utf8 "missing or non-numeric \"price\"")) := by
  constructor
  · decide +kernel
  · exact throughText_nonFinite compact_lawful compact_nonFiniteAsNull (by decide)
      (validUtf8_utf8 _) (validUtf8_utf8 _) (by decide)

end TickForge
