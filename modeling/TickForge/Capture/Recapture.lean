import TickForge.Capture.LiveCapture
import TickForge.Kafka.Producer
import TickForge.Sources.ReplayCalls
import TickForge.Sources.Validation

/-! What the threads of the pipeline write of the events they get: no call throws, and a
replay that is captured again ends in one file. -/
namespace TickForge

open ByteString Binary64 Nlohmann Json Transition EventRecorder
open IngestionPipeline (Config Call OneStart)
open LiveIngestion (Recordable carried tradeParser records_lines)

variable {c : Codec} {e : MarketEvent} {events : List MarketEvent} {text file : Bytes}
  {clock : ℕ → Int64}

theorem recordable_decoded (hu : c.ReadsUtf8) (h : decodeRecord c text = .ok (some e)) :
    Recordable e := by
  obtain ⟨j, hj, hm⟩ := decodeRecord_accepts h
  obtain ⟨s, d, z, hs, hne, -, -, rfl⟩ := marketEventFromJson_fields hm
  refine ⟨hne, validUtf8_of_view (hu hj) hs, ?_⟩
  cases hsrc : j.view asString? (utf8 "source") with
  | none =>
    simp only [decoded, hsrc, Option.getD_none]
    exact validUtf8_utf8 ""
  | some b =>
    simp only [decoded, hsrc, Option.getD_some]
    exact validUtf8_of_view (hu hj) hsrc

theorem ReplaySource.next_recordable {stops : ℕ → Bool} {now : Int64} {r r' : ReplaySource}
    (hu : c.ReadsUtf8) (h : r.next c stops now = .ok (some e, r')) : Recordable e := by
  fun_induction next c stops now r with
  | case1 | case2 | case4 => simp at h
  | case3 _ _ _ _ _ _ _ ih | case5 _ _ _ _ _ _ _ _ ih => exact ih h
  | case6 stops r hs line rest hg hline event hd =>
    simp only [Except.ok.injEq, Prod.mk.injEq, Option.some.injEq] at h
    obtain ⟨rfl, -⟩ := h
    have hev := recordable_decoded hu hd
    exact ⟨hev.symbol_ne_nil, hev.symbol_utf8, hev.source_utf8⟩

theorem ReplaySource.source_recordable {k : ℕ} {late now : Bool} (hu : c.ReadsUtf8)
    (h : (source c clock file).mayReturn k late now (some e)) : Recordable e := by
  obtain ⟨r, r', stops, -, -, -, hn⟩ := h
  exact next_recordable hu hn

/-- Neither `record()` nor `publish()` throws for this event, whatever the file, the client
library and the broker are like. -/
def Harmless (c : Codec) (e : MarketEvent) : Prop :=
  (∀ r : EventRecorder, ∃ r', r.record c e = .ok r') ∧
  ∀ partitioner accepted b, ∃ o, KafkaEventProducer.publish c partitioner accepted b e = .ok o

theorem LiveIngestion.Recordable.harmless (h : Recordable e) : Harmless c e := by
  have hdump : c.dump (marketEventToJson e) = .ok (c.text (marketEventToJson e)) := by
    rw [Codec.dump, if_pos h.utf8Valid]
  refine ⟨fun r => ?_, fun partitioner accepted b => ?_⟩
  · exact ⟨_, by rw [EventRecorder.record, hdump]; rfl⟩
  · cases accepted with
    | true => exact ⟨_, by rw [KafkaEventProducer.publish, hdump]; rfl⟩
    | false => exact ⟨_, by rw [KafkaEventProducer.publish, hdump]; rfl⟩

theorem recordable_replayed (hu : c.ReadsUtf8) {cfg : Config MarketEvent} {script : List Call}
    {s : IngestionPipeline.State MarketEvent}
    (hsrc : cfg.source = ReplaySource.source c clock file)
    (h : Reachable (IngestionPipeline.Step cfg) (IngestionPipeline.initial cfg script) s) :
    ∀ e ∈ s.yielded, Recordable e := by
  intro e he
  obtain ⟨k, late, now, hr⟩ := IngestionPipeline.yielded_returned h e he
  exact ReplaySource.source_recordable hu (hsrc ▸ hr)

theorem recordable_ingested (hu : c.ReadsUtf8) {cfg : LiveIngestion.Setup} {script : List Call}
    {s : LiveIngestion.State} (hparse : cfg.parse = tradeParser c) (ho : OneStart script)
    (h : Reachable (LiveIngestion.Step cfg) (LiveIngestion.initial cfg script) s) :
    ∀ e ∈ s.pipeline.yielded, Recordable e := by
  obtain ⟨hlive, hi⟩ :=
    LiveIngestion.simulates_live.reachable (LiveIngestion.invariant_initial ho) h
  intro e he
  rw [hi.coupled.yielded] at he
  have hmem : e ∈ s.live.frames.filterMap (LiveSource.decode cfg.parse) := by
    rw [← (LiveSource.accounted_reachable hlive).frames]
    exact List.mem_append_left _ he
  rw [hparse] at hmem
  exact LiveIngestion.recordable_frames hu _ e hmem

/-- No event of any run, of a replay of any bytes or of a live session with any frames, makes
a worker thread throw once `next()` has returned it. -/
theorem workers_never_throw (hu : c.ReadsUtf8) :
    (∀ {cfg : Config MarketEvent} {clock : ℕ → Int64} {file : Bytes} {script : List Call}
      {s : IngestionPipeline.State MarketEvent},
      cfg.source = ReplaySource.source c clock file →
      Reachable (IngestionPipeline.Step cfg) (IngestionPipeline.initial cfg script) s →
      ∀ e ∈ s.yielded, Harmless c e) ∧
    (∀ {cfg : LiveIngestion.Setup} {script : List Call} {s : LiveIngestion.State},
      cfg.parse = tradeParser c → OneStart script →
      Reachable (LiveIngestion.Step cfg) (LiveIngestion.initial cfg script) s →
      ∀ e ∈ s.pipeline.yielded, Harmless c e) :=
  ⟨fun hsrc h e he => (recordable_replayed hu hsrc h e he).harmless,
    fun hparse ho h e he => (recordable_ingested hu hparse ho h e he).harmless⟩

/-- A file of two lines for one symbol. -/
def twoLines : Bytes := [sampleEvent, laterEvent].flatMap (line compact)

theorem twoLines_delivers :
    ∃ delivered : List MarketEvent, delivered.length = 2 ∧ ∀ k ≤ delivered.length,
      (ReplaySource.source compact (fun _ => 5) twoLines).mayReturn k false false
        delivered[k]? := by
  obtain ⟨delivered, hd, heq⟩ := drain_capture (fun _ => 5) compact_lawful encodable_two
    (recordAll_ok fun e he => (encodable_two e he).printable.1)
  exact ⟨delivered, by simpa using congrArg List.length heq, ReplaySource.source_delivers hd⟩

/-- Two trades as frames, and two replayed ones. -/
theorem workers_never_throw_trades :
    (∃ s : LiveIngestion.State, s.live.frames = LiveIngestion.twoTrades ∧
      ∀ e ∈ s.pipeline.yielded, Harmless compact e) ∧
    ∃ s : IngestionPipeline.State MarketEvent, s.yielded.length = 2 ∧
      ∀ e ∈ s.yielded, Harmless compact e := by
  have hall := workers_never_throw compact_readsUtf8
  refine ⟨?_, ?_⟩
  · obtain ⟨s, h, -, hframes⟩ := LiveIngestion.two_frames_run LiveIngestion.tradeParser_first
      LiveIngestion.tradeParser_second
    exact ⟨s, hframes, hall.2 rfl (by decide) h⟩
  · obtain ⟨delivered, hlen, hsrc⟩ := twoLines_delivers
    obtain ⟨s, h, -, -, hyield, -⟩ := IngestionPipeline.whole_run hsrc
    exact ⟨s, hyield ▸ hlen, hall.1 rfl h⟩

/-- The lines that a recorder writes of the events of a file. -/
def canonical (c : Codec) (file : Bytes) : Bytes := (ReplaySource.accepted c file).flatMap (line c)

theorem accepted_lines (hc : c.Lawful) (hn : c.NonFiniteAsNull) (h : ∀ e ∈ events, Recordable e) :
    ReplaySource.accepted c (events.flatMap (line c)) = events.filterMap carried := by
  rw [ReplaySource.accepted, records_lines hc hn h, List.filterMap_map]
  refine List.filterMap_congr fun e he => ?_
  simp [decodeEvent, LiveIngestion.decodeRecord_recordable hc hn (h e he), Except.toOption]

theorem recordable_accepted (hu : c.ReadsUtf8) (file : Bytes) :
    ∀ e ∈ ReplaySource.accepted c file, Recordable e := by
  intro e he
  obtain ⟨text, -, htext⟩ := List.mem_filterMap.mp he
  rw [decodeEvent] at htext
  cases hd : decodeRecord c text with
  | error x => simp [hd, Except.toOption] at htext
  | ok o =>
    obtain rfl : o = some e := by simpa [hd, Except.toOption] using htext
    exact recordable_decoded hu hd

theorem toMilliseconds_ofMilliseconds (t : Int64) :
    toMilliseconds (ofMilliseconds (toMilliseconds t)) = toMilliseconds t := by
  have hlo := t.le_toInt
  have hhi := t.toInt_lt
  have hk : Int64.toInt 1000000 = 1000000 := rfl
  have hdiv : t.toInt.tdiv 1000000 =
      t.toInt / 1000000 + if 0 ≤ t.toInt ∨ 1000000 ∣ t.toInt then 0 else 1 := by
    rw [Int.tdiv_eq_ediv]
    rfl
  rw [← Int64.toInt_inj, toInt_toMilliseconds, toInt_toMilliseconds, ofMilliseconds,
    Int64.toInt_mul, toInt_toMilliseconds, hk, Int.bmod_eq_of_le]
  · exact Int.mul_tdiv_cancel _ (by decide)
  · rw [hdiv]
    split <;> omega
  · rw [hdiv]
    split <;> omega

/-- What the format keeps of an event it keeps as it is. -/
theorem carried_carried {f : MarketEvent} (h : carried e = some f) : carried f = some f := by
  obtain ⟨symbol, price, time, sequence, ingest, source⟩ := e
  unfold carried at h
  split_ifs at h with hp
  obtain rfl := Option.some.inj h
  refine (if_pos hp).trans ?_
  simp only [MarketEvent.timeless, toMilliseconds_ofMilliseconds]

theorem line_carried {f : MarketEvent} (h : carried e = some f) : line c f = line c e := by
  unfold carried at h
  split_ifs at h
  obtain rfl := Option.some.inj h
  simp [line, marketEventToJson, MarketEvent.timeless, toMilliseconds_ofMilliseconds]

theorem flatMap_carried (c : Codec) (events : List MarketEvent) :
    (events.filterMap carried).flatMap (line c) =
      (events.filter (·.price.isFinite)).flatMap (line c) := by
  induction events with
  | nil => rfl
  | cons e events ih =>
    cases hp : e.price.isFinite with
    | true =>
      obtain ⟨f, hf⟩ : ∃ f, carried e = some f := ⟨_, if_pos hp⟩
      rw [List.filterMap_cons_some hf, List.filter_cons_of_pos (by simpa using hp),
        List.flatMap_cons, List.flatMap_cons, line_carried hf, ih]
    | false =>
      have hf : carried e = none := by simp [carried, hp]
      rw [List.filterMap_cons_none hf, List.filter_cons_of_neg (by simp [hp]), ih]

theorem filterMap_carried (events : List MarketEvent) :
    (events.filterMap carried).filterMap carried = events.filterMap carried := by
  rw [List.filterMap_filterMap]
  refine List.filterMap_congr fun e _ => ?_
  cases hk : carried e with
  | none => rfl
  | some f => exact carried_carried hk

theorem accepted_canonical (hc : c.Lawful) (hn : c.NonFiniteAsNull) (hu : c.ReadsUtf8)
    (file : Bytes) : ReplaySource.accepted c (canonical c file) =
      (ReplaySource.accepted c file).filterMap carried :=
  accepted_lines hc hn (recordable_accepted hu file)

theorem recordAll_accepted (hu : c.ReadsUtf8)
    (h : events.map MarketEvent.timeless = ReplaySource.accepted c file) :
    recordAll c events = .ok ⟨canonical c file, []⟩ := by
  have hsame : recordAll c events = recordAll c (ReplaySource.accepted c file) := by
    refine recordAll_congr ?_
    rw [← h, List.map_map]
    rfl
  rw [hsame, recordAll_ok fun e he => (recordable_accepted hu file e he).utf8Valid]
  rfl

/-- A replayed file is a source of the decodings of its lines. -/
theorem ReplaySource.follows_accepted (clock : ℕ → Int64) (hfile : Readable c (start file)) :
    ∃ delivered, (source c clock file).Follows delivered ∧
      delivered.map MarketEvent.timeless = accepted c file := by
  obtain ⟨delivered, hd, heq⟩ := drain_ok clock (decodeAll_eq hfile)
  refine ⟨delivered, source_follows hd, ?_⟩
  rw [heq, List.reduceOption, List.filterMap_map]
  rfl

/-- A file that was read to its end has no line that makes the decoder throw. -/
theorem ReplaySource.readable_of_end {k : ℕ} {late : Bool}
    (h : (source c clock file).mayReturn k late false none) : Readable c (start file) := by
  obtain ⟨r, r', stops, hk, -, hstops, hn⟩ := h
  obtain rfl : stops = never := funext (hstops rfl)
  obtain ⟨⟨delivered, final⟩, hd⟩ := drain_of_after hk ⟨([], r'), by
    rw [drain_unfold]
    simp only [Nat.add_zero, hn]⟩
  obtain ⟨os, hos, -⟩ := decodeAll_of_drain hd
  exact decodeAll_total_iff.mp ⟨os, hos⟩

/-- A replay that reads its file to the end yields the decodings of the lines. -/
theorem yielded_accepted {cfg : Config MarketEvent} {script : List Call}
    {s : IngestionPipeline.State MarketEvent} (hfile : ReplaySource.Readable c (.start file))
    (hsrc : cfg.source = ReplaySource.source c clock file) (ho : OneStart script)
    (h : Reachable (IngestionPipeline.Step cfg) (IngestionPipeline.initial cfg script) s)
    (heof : s.exhausted = true) :
    s.yielded.map MarketEvent.timeless = ReplaySource.accepted c file := by
  obtain ⟨delivered, hfollows, heq⟩ := ReplaySource.follows_accepted clock hfile
  have hseq := IngestionPipeline.sequenced_reachable (hsrc ▸ hfollows) ho h
  rw [hseq.exhausted heof, heq]

theorem readable_lines (hc : c.Lawful) (hn : c.NonFiniteAsNull) (h : ∀ e ∈ events, Recordable e) :
    ReplaySource.Readable c (.start (events.flatMap (line c))) := by
  intro text ht
  rw [ReplaySource.start, records_lines hc hn h] at ht
  obtain ⟨e, he, rfl⟩ := List.mem_map.mp ht
  exact decodeRecord_total_iff.mp ⟨_, LiveIngestion.decodeRecord_recordable hc hn (h e he)⟩

/-- A run over a capture file that records what it replays writes the same file whatever the
schedule, with one line for each event of the old one. That file replays as what the format
keeps of the events. A second pass drops the lines of non-finite prices and changes nothing
else, and a third one changes nothing. -/
theorem recapture_normalises (hc : c.Lawful) (hn : c.NonFiniteAsNull) (hu : c.ReadsUtf8)
    (hfile : ReplaySource.Readable c (.start file)) :
    (∀ {cfg : Config MarketEvent} {clock : ℕ → Int64} {script : List Call}
      {s : IngestionPipeline.State MarketEvent},
      cfg.source = ReplaySource.source c clock file → cfg.recorder = true → OneStart script →
      Reachable (IngestionPipeline.Step cfg) (IngestionPipeline.initial cfg script) s →
      s.stopped = true → s.exhausted = true →
      recordAll c s.recorded = .ok ⟨canonical c file, []⟩) ∧
    ReplaySource.Readable c (.start (canonical c file)) ∧
    ReplaySource.accepted c (canonical c file) =
      (ReplaySource.accepted c file).filterMap carried ∧
    canonical c (canonical c file) =
      ((ReplaySource.accepted c file).filter (·.price.isFinite)).flatMap (line c) ∧
    canonical c (canonical c (canonical c file)) = canonical c (canonical c file) := by
  have haccepted := accepted_canonical hc hn hu file
  refine ⟨?_, readable_lines hc hn (recordable_accepted hu file), haccepted, ?_, ?_⟩
  · intro cfg clock script s hsrc hrec ho h hstop heof
    obtain ⟨-, -, -, hrecorded⟩ := (IngestionPipeline.flow_reachable ho h).complete hstop
    rw [hrecorded hrec]
    exact recordAll_accepted hu (yielded_accepted hfile hsrc ho h heof)
  · rw [canonical, haccepted, flatMap_carried]
  · rw [canonical, accepted_canonical hc hn hu, haccepted, filterMap_carried, ← haccepted]
    rfl

theorem recordable_two : ∀ e ∈ [sampleEvent, laterEvent], Recordable e := by
  intro e he
  have henc := encodable_two e he
  exact ⟨henc.symbol_ne_nil, henc.symbol_utf8, henc.source_utf8⟩

theorem canonical_twoLines : canonical compact twoLines = twoLines := by
  have hkept : [sampleEvent, laterEvent].filterMap carried = [sampleEvent, laterEvent] := by
    decide
  rw [canonical, twoLines,
    accepted_lines compact_lawful compact_nonFiniteAsNull recordable_two, hkept]

/-- The recorder's own file is captured again as it is. -/
theorem recapture_normalises_two_trades :
    ∃ s : IngestionPipeline.State MarketEvent, s.yielded.length = 2 ∧
      recordAll compact s.recorded = .ok ⟨twoLines, []⟩ := by
  obtain ⟨delivered, hlen, hsrc⟩ := twoLines_delivers
  obtain ⟨s, h, hstop, heof, hyield, -⟩ := IngestionPipeline.whole_run hsrc
  have hfile := (recapture_normalises compact_lawful compact_nonFiniteAsNull compact_readsUtf8
    (readable_lines compact_lawful compact_nonFiniteAsNull recordable_two)).1 rfl rfl (by decide)
    h hstop heof
  rw [← twoLines, canonical_twoLines] at hfile
  exact ⟨s, hyield ▸ hlen, hfile⟩

end TickForge
