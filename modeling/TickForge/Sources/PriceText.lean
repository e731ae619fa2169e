import TickForge.Lib.JsonText
import TickForge.Lib.Numeral
import TickForge.Sources.WireFormat

/-! Which price texts the parser lets through. -/
namespace TickForge

open ByteString Binary64 Nlohmann Json

/-- A trade that is in order but for its price: a positive numeral that something follows,
or a spelling of infinity or NaN. -/
def LoosePrice (c : Codec) (raw : Bytes) : Prop :=
  ∃ data s p z, messageData c raw = some data ∧ Trade data s p z ∧ LooseNumeral p

/-- A message is accepted only for a price that is a positive numeral as a whole, unless its
price is a loose one; and a loose one is always accepted. -/
theorem whole_price_iff (c : Codec) (raw : Bytes) :
    (∀ e data p, parseBinanceTradeMessage c raw = .ok (.ok e) → messageData c raw = some data →
      data.view asString? (utf8 "p") = some p → PositiveNumeral p) ↔ ¬ LoosePrice c raw := by
  constructor
  · rintro h ⟨data, s, p, z, hd, ht, hloose⟩
    obtain ⟨d, r, hf, hpos⟩ := hloose.matched
    have hparse : parseBinanceTradeMessage c raw = .ok (.ok (tradeEvent data s d z)) := by
      rw [parseBinanceTradeMessage_data hd, parseTrade_fields ht, hf]
      simp [hpos]
    exact hloose.not_positiveNumeral (h _ data p hparse hd ht.price)
  · intro hloose e data p h hd hp
    obtain ⟨data', s, p', z, d, rest, hd', ht, hf, hpos, -⟩ := messageData_accepts h
    obtain rfl : data' = data := by simpa [hd] using hd'.symm
    obtain rfl : p' = p := by simpa [hp] using ht.price.symm
    rcases positiveNumeral_or_loose hf hpos with hnum | hl
    · exact hnum
    · exact (hloose ⟨data', s, p', z, hd, ht, hl⟩).elim

/-- Characters behind the numeral are dropped without notice. -/
theorem trailing_text_accepted :
    parseBinanceTradeMessage compact (tradeMessage "65432.5abc") =
      .ok (.ok (tradeAt ⟨0x40eff31000000000#64⟩)) ∧
    ¬ PositiveNumeral (utf8 "65432.5abc") := by
  refine ⟨by decide +kernel, ?_⟩
  intro h
  have hf : fromChars (utf8 "65432.5abc") = .ok ⟨0x40eff31000000000#64⟩ (utf8 "abc") := by
    decide +kernel
  exact absurd (h.rest_eq_nil hf) (by decide)

end TickForge
