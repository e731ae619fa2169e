import TickForge.Capture.Reproduction
import TickForge.LiveSource.Ingestion
import TickForge.Sources.WireFormat

/-! From the frames of a live session to the run that replays its capture file. -/
namespace TickForge.LiveIngestion

open ByteString Binary64 Nlohmann Json Transition EventRecorder
open IngestionPipeline (Config Call OneStart)

variable {c : Codec} {e : MarketEvent} {events : List MarketEvent} {raw : Bytes} {s : State}
  {script : List Call}

/-- The parser as `next()` sees it. A frame that makes it throw is the last of its process. -/
def tradeParser (c : Codec) (raw : Bytes) : Option MarketEvent :=
  match parseBinanceTradeMessage c raw with
  | .ok (.ok e) => some e
  | _ => none

/-- What the capture format keeps of an event: nothing at all of a non-finite price, and of
the event's time the milliseconds. -/
def carried (e : MarketEvent) : Option MarketEvent :=
  if e.price.isFinite then
    some { e.timeless with eventTime := ofMilliseconds (toMilliseconds e.eventTime) }
  else none

/-- An event that `record()` can write. -/
structure Recordable (e : MarketEvent) : Prop where
  symbol_ne_nil : e.symbol ≠ []
  symbol_utf8 : ValidUtf8 e.symbol
  source_utf8 : ValidUtf8 e.source

theorem tradeParser_some (h : tradeParser c raw = some e) :
    parseBinanceTradeMessage c raw = .ok (.ok e) := by
  unfold tradeParser at h
  split at h
  · next e' he =>
    obtain rfl := Option.some.inj h
    exact he
  · cases h

theorem recordable_live (hu : c.ReadsUtf8) (h : tradeParser c raw = some e) (t : Int64) :
    Recordable (e.live t) := by
  obtain ⟨j, data, symbol, p, z, d, rest, hj, hd, ht, -, -, rfl⟩ :=
    parseBinanceTradeMessage_accepts (tradeParser_some h)
  exact ⟨ht.symbol_ne_nil, validUtf8_of_view (utf8Valid_dataOf (hu hj) hd) ht.symbol,
    validUtf8_utf8 _⟩

theorem Recordable.utf8Valid (h : Recordable e) : (marketEventToJson e).utf8Valid = true :=
  utf8Valid_toJson h.symbol_utf8 h.source_utf8

/-- The text of an event is that of a printable value, whatever the price. -/
theorem Recordable.printable (h : Recordable e) :
    Codec.Printable (marketEventToJson e).finitize := by
  rw [marketEventToJson_eq]
  cases hp : e.price.isFinite <;> cases e.providerSequence <;>
    simp [membersWith, finitize, finitizeMembers, hp, Codec.Printable, Json.utf8Valid, finite,
      sorted, everywhere, everywhereMembers, stringValid, floatFinite, keysSorted, validUtf8_utf8,
      h.symbol_utf8, h.source_utf8] <;> decide

theorem Recordable.text (hc : c.Lawful) (hn : c.NonFiniteAsNull) (h : Recordable e) :
    c.text (marketEventToJson e) ≠ [] ∧ newline ∉ c.text (marketEventToJson e) := by
  rw [hn _ h.utf8Valid]
  exact ⟨hc.text_ne_nil h.printable, hc.newline_notMem h.printable⟩

theorem Recordable.throughText (hc : c.Lawful) (hn : c.NonFiniteAsNull) (h : Recordable e) :
    ∃ r, throughText c e = .ok r ∧ r.toOption = carried e := by
  cases hp : e.price.isFinite with
  | true =>
    refine ⟨_, throughText_finite hc h.symbol_ne_nil h.symbol_utf8 h.source_utf8 hp, ?_⟩
    simp [carried, hp, Except.toOption]
  | false =>
    refine ⟨_, throughText_nonFinite hc hn h.symbol_ne_nil h.symbol_utf8 h.source_utf8 hp, ?_⟩
    simp [carried, hp, Except.toOption]

/-- A line of the file is read as what the format keeps of its event. -/
theorem decodeRecord_recordable (hc : c.Lawful) (hn : c.NonFiniteAsNull) (h : Recordable e) :
    decodeRecord c (c.text (marketEventToJson e)) = .ok (carried e) := by
  obtain ⟨r, hr, hcar⟩ := h.throughText hc hn
  simp only [TickForge.throughText, Codec.dump, h.utf8Valid, if_true, bind, Except.bind] at hr
  cases hp : c.parse (c.text (marketEventToJson e)) with
  | error x => simp [hp] at hr
  | ok j =>
    simp only [hp] at hr
    simp only [decodeRecord, hp, hr, bind, Except.bind, pure, Except.pure]
    rw [← hcar]
    cases r <;> rfl

theorem decodeAll_recordable (hc : c.Lawful) (hn : c.NonFiniteAsNull)
    (h : ∀ e ∈ events, Recordable e) :
    decodeAll c (events.map fun e => c.text (marketEventToJson e)) = .ok (events.map carried) := by
  induction events with
  | nil => rfl
  | cons e events ih =>
    have hes := ih fun e he => h e (List.mem_cons_of_mem _ he)
    rw [List.map_cons, decodeAll_cons, decodeRecord_recordable hc hn (h e (by simp)), hes]
    rfl

theorem countP_carried (events : List MarketEvent) :
    (events.map carried).countP (·.isNone) = events.countP fun e => !e.price.isFinite := by
  rw [List.countP_map]
  congr 1
  funext e
  cases hp : e.price.isFinite <;> simp [carried, hp]

theorem length_carried (events : List MarketEvent) :
    (events.filterMap carried).length + events.countP (fun e => !e.price.isFinite) =
      events.length := by
  induction events with
  | nil => rfl
  | cons e events ih =>
    cases hp : e.price.isFinite <;> simp [carried, hp] at ih ⊢ <;> omega

/-- Every event has its line. -/
theorem records_lines (hc : c.Lawful) (hn : c.NonFiniteAsNull) (h : ∀ e ∈ events, Recordable e) :
    ReplaySource.records (events.flatMap (line c)) =
      events.map fun e => c.text (marketEventToJson e) := by
  have htexts : ∀ text ∈ events.map fun e => c.text (marketEventToJson e),
      text ≠ [] ∧ newline ∉ text := by
    intro text ht
    obtain ⟨e, he, rfl⟩ := List.mem_map.mp ht
    exact (h e he).text hc hn
  have happ := ReplaySource.records_flatMap_append htexts []
  rw [List.append_nil, List.flatMap_map] at happ
  refine happ.trans ?_
  rw [ReplaySource.records, lines, List.filter_nil, List.append_nil]

/-- A file of recordable events is written without an exception, and replays as what the
format keeps of them; the other lines are counted. -/
theorem drain_recorded (hc : c.Lawful) (hn : c.NonFiniteAsNull) (h : ∀ e ∈ events, Recordable e)
    (clock : ℕ → Int64) :
    recordAll c events = .ok ⟨events.flatMap (line c), []⟩ ∧
    ∃ delivered, ReplaySource.drain c clock (.start (events.flatMap (line c))) =
        .ok (delivered, ⟨[], events.countP fun e => !e.price.isFinite⟩) ∧
      delivered.map MarketEvent.timeless = events.filterMap carried := by
  refine ⟨recordAll_ok fun e he => (h e he).utf8Valid, ?_⟩
  have hdec : decodeAll c (ReplaySource.records
      (ReplaySource.start (events.flatMap (line c))).input) = .ok (events.map carried) := by
    rw [ReplaySource.start, records_lines hc hn h, decodeAll_recordable hc hn h]
  obtain ⟨delivered, hd, heq⟩ := ReplaySource.drain_ok clock hdec
  refine ⟨delivered, ?_, ?_⟩
  · rw [hd, countP_carried]
    simp [ReplaySource.start]
  · simpa [List.reduceOption, List.filterMap_map] using heq

theorem recordable_frames (hu : c.ReadsUtf8) (frames : List (Bytes × Int64)) :
    ∀ e ∈ frames.filterMap (LiveSource.decode (tradeParser c)), Recordable e := by
  intro e he
  obtain ⟨frame, -, hframe⟩ := List.mem_filterMap.mp he
  obtain ⟨e', hp, rfl⟩ := Option.map_eq_some_iff.mp hframe
  exact recordable_live hu hp frame.2

/-- Once a live session has stopped, its capture is written, and a replay of the file, over
any schedule that reads it to the end, hands to its publisher what the format keeps of the
frames, in their order. The lines of non-finite prices are the ones counted as malformed. -/
theorem live_capture_replays (hc : c.Lawful) (hn : c.NonFiniteAsNull) (hu : c.ReadsUtf8)
    {cfg : Setup} (hparse : cfg.parse = tradeParser c) (hrec : cfg.recorder = true)
    (ho : OneStart script) (h : Reachable (Step cfg) (initial cfg script) s)
    (hstop : s.pipeline.stopped = true) :
    ∃ r, recordAll c s.pipeline.recorded = .ok r ∧ ∀ clock : ℕ → Int64,
      (∃ delivered final, ReplaySource.drain c clock (.start r.file) = .ok (delivered, final) ∧
        delivered.map MarketEvent.timeless =
          (s.live.frames.filterMap (LiveSource.decode cfg.parse)).filterMap carried ∧
        delivered.length + final.linesMalformed = s.pipeline.eventsReceived) ∧
      ∀ {cfg' : Config MarketEvent} {script' : List Call} {t : IngestionPipeline.State MarketEvent},
        cfg'.source = ReplaySource.source c clock r.file → OneStart script' →
        Reachable (IngestionPipeline.Step cfg') (IngestionPipeline.initial cfg' script') t →
        t.stopped = true → t.exhausted = true →
        t.handed.map MarketEvent.timeless =
          (s.live.frames.filterMap (LiveSource.decode cfg.parse)).filterMap carried := by
  have hflow := (simulates_pipeline.reachable (invariant_initial ho) h).2.flow
  obtain ⟨-, hrecv, -, hrecorded⟩ := hflow.complete hstop
  have hyield := yielded_of_stopped ho h hstop
  have hall : ∀ e ∈ s.pipeline.recorded, Recordable e := by
    rw [hrecorded hrec, hyield, hparse]
    exact recordable_frames hu s.live.frames
  refine ⟨_, (drain_recorded hc hn hall fun _ => 0).1, fun clock => ?_⟩
  obtain ⟨-, delivered, hd, heq⟩ := drain_recorded hc hn hall clock
  have hframes : delivered.map MarketEvent.timeless =
      (s.live.frames.filterMap (LiveSource.decode cfg.parse)).filterMap carried := by
    rw [heq, hrecorded hrec, hyield]
  refine ⟨⟨delivered, _, hd, hframes, ?_⟩, ?_⟩
  · have hlen := congrArg List.length heq
    rw [List.length_map] at hlen
    rw [hlen, hrecv, ← hrecorded hrec]
    exact length_carried s.pipeline.recorded
  · intro cfg' script' t hsrc ho' ht htstop hteof
    have hhand := (IngestionPipeline.flow_reachable ho' ht).complete htstop
    have hseq := IngestionPipeline.sequenced_reachable
      (hsrc ▸ ReplaySource.source_follows hd) ho' ht
    rw [hhand.1, hseq.exhausted hteof, hframes]

/-- Two trades of one symbol as frames, each with the time of its arrival. -/
def twoTrades : List (Bytes × Int64) := [(tradeMessage "65432.5", 7), (tradeMessage "65433.5", 9)]

/-- What the format keeps of them. -/
def keptTrades : List MarketEvent :=
  [sampleEvent, { sampleEvent with price := ⟨0x40eff33000000000#64⟩ }]

theorem tradeParser_first : tradeParser compact (tradeMessage "65432.5") =
    some (tradeAt ⟨0x40eff31000000000#64⟩) := by
  decide +kernel

theorem tradeParser_second : tradeParser compact (tradeMessage "65433.5") =
    some (tradeAt ⟨0x40eff33000000000#64⟩) := by
  decide +kernel

theorem carried_twoTrades :
    (twoTrades.filterMap (LiveSource.decode (tradeParser compact))).filterMap carried =
      keptTrades := by
  have hfirst : LiveSource.decode (tradeParser compact) (tradeMessage "65432.5", 7) =
      some ((tradeAt ⟨0x40eff31000000000#64⟩).live 7) := by
    rw [LiveSource.decode, tradeParser_first]
    rfl
  have hsecond : LiveSource.decode (tradeParser compact) (tradeMessage "65433.5", 9) =
      some ((tradeAt ⟨0x40eff33000000000#64⟩).live 9) := by
    rw [LiveSource.decode, tradeParser_second]
    rfl
  rw [twoTrades, List.filterMap_cons_some hfirst, List.filterMap_cons_some hsecond]
  decide

/-- Two trades that arrive as frames, are captured, and are replayed. -/
theorem live_capture_replays_two_trades :
    ∃ (s : State) (t : IngestionPipeline.State MarketEvent),
      s.live.frames = twoTrades ∧ t.handed.map MarketEvent.timeless = keptTrades := by
  obtain ⟨s, h, hstop, hframes⟩ := two_frames_run tradeParser_first tradeParser_second
  obtain ⟨r, hr, hall⟩ := live_capture_replays compact_lawful compact_nonFiniteAsNull
    compact_readsUtf8 rfl rfl (by decide) h hstop
  obtain ⟨⟨delivered, final, hd, heq, -⟩, hrun⟩ := hall fun _ => 5
  have hkept : (s.live.frames.filterMap
      (LiveSource.decode (tradeParser compact))).filterMap carried = keptTrades := by
    rw [hframes]
    exact carried_twoTrades
  obtain ⟨t, ht, htstop, hteof, -⟩ :=
    IngestionPipeline.whole_run (ReplaySource.source_delivers hd)
  exact ⟨s, t, hframes, (hrun rfl (by decide) ht htstop hteof).trans hkept⟩

end TickForge.LiveIngestion
