import TickForge.Capture.Recapture
import TickForge.Kafka.LiveDelivery

/-! The consumer of a live session, and the consumer of the session that replays its capture. -/
namespace TickForge.ReplayDelivery

open ByteString Nlohmann Transition EventRecorder
open IngestionPipeline (Config Call OneStart published)
open LiveIngestion (Setup Recordable carried tradeParser)

variable {c : Codec} {cfg : Setup} {partitioner : Bytes → ℕ} {script : List Call}
  {s : LiveDelivery.State}

/-- All messages of the symbol's partition have been appended and polled. -/
def ReadToEnd (partitioner : Bytes → ℕ) (d : Delivery.State) (symbol : Bytes) : Prop :=
  d.broker.outbox (partitioner symbol) = [] ∧
    d.position (partitioner symbol) = (d.broker.log (partitioner symbol)).length

/-- A replay of what the format keeps publishes just that. -/
theorem filterMap_carried_of_timeless {events kept : List MarketEvent}
    (h : events.map MarketEvent.timeless = kept.filterMap carried) :
    events.filterMap carried = kept.filterMap carried := by
  rw [← filterMap_carried kept, ← h, List.filterMap_map]
  rfl

theorem pipeline_reachable {cfg : Config MarketEvent} {d : Delivery.State}
    (h : Reachable (Delivery.Step c cfg partitioner) (Delivery.initial cfg script) d) :
    Reachable (IngestionPipeline.Step cfg) (IngestionPipeline.initial cfg script) d.pipeline := by
  refine h.invariant (P := fun d => Reachable (IngestionPipeline.Step cfg)
    (IngestionPipeline.initial cfg script) d.pipeline) (Reachable.refl _) ?_
  intro d a d' hd hstep
  rcases Delivery.step_pipeline hstep with heq | ⟨b, hpipe⟩
  · rw [heq]
    exact hd
  · exact hd.snoc hpipe

/-- What a stopped live session has published and recorded are the events of its frames, and
they can be written. -/
theorem session_events (hu : c.ReadsUtf8) (hparse : cfg.parse = tradeParser c)
    (hrec : cfg.recorder = true) (hok : ∀ k, cfg.publishReturns k = true) (ho : OneStart script)
    (h : Reachable (LiveDelivery.Step c cfg partitioner) (LiveDelivery.initial cfg script) s)
    (hstop : s.delivery.pipeline.stopped = true) :
    published s.delivery.pipeline = s.delivery.pipeline.recorded ∧
      s.delivery.pipeline.recorded =
        s.ingestion.live.frames.filterMap (LiveSource.decode cfg.parse) ∧
      ∀ e ∈ s.delivery.pipeline.recorded, Recordable e := by
  obtain ⟨hflow, -⟩ :=
    Delivery.delivered_reachable ho (LiveDelivery.simulates_delivery.reachable trivial h).1
  have hrecorded := (hflow.complete hstop).2.2.2 hrec
  have hing := (LiveDelivery.simulates_ingestion.reachable trivial h).1
  have hall := recordable_ingested hu hparse ho hing
  have hagree := LiveDelivery.pipelines_agree h
  have hframes := LiveIngestion.yielded_of_stopped ho hing (hagree ▸ hstop)
  rw [← hagree] at hall hframes
  rw [hrecorded]
  exact ⟨LiveDelivery.published_all hflow hstop hok, hframes, hall⟩

/-- The consumer of a replayed capture returns for each symbol what the consumer of the live
session returned, whatever the two schedules, capacities, partitionings and clocks were, once
both have read the symbol's partition to its end. Both brokers store each accepted message
once and in order. -/
theorem replay_indistinguishable (hc : c.Lawful) (hn : c.NonFiniteAsNull) (hu : c.ReadsUtf8)
    (hparse : cfg.parse = tradeParser c) (hrec : cfg.recorder = true)
    (hok : ∀ k, cfg.publishReturns k = true) (ho : OneStart script)
    (h : Reachable (LiveDelivery.Step c cfg partitioner) (LiveDelivery.initial cfg script) s)
    (hstop : s.delivery.pipeline.stopped = true) :
    ∃ r, recordAll c s.delivery.pipeline.recorded = .ok r ∧
      ∀ {cfg' : Config MarketEvent} {clock : ℕ → Int64} {partitioner' : Bytes → ℕ}
        {script' : List Call} {t : Delivery.State},
        cfg'.source = ReplaySource.source c clock r.file →
        (∀ k, cfg'.publishReturns k = true) → OneStart script' →
        Reachable (Delivery.Step c cfg' partitioner') (Delivery.initial cfg' script') t →
        t.pipeline.stopped = true → t.pipeline.exhausted = true →
        ∀ now now' : ℕ → Int64, ∃ records final records' final',
          KafkaEventConsumer.consume c now (s.delivery.polls.map .poll) {} =
            .ok (records, final) ∧
          KafkaEventConsumer.consume c now' (t.polls.map .poll) {} = .ok (records', final') ∧
          ∀ symbol, ReadToEnd partitioner s.delivery symbol → ReadToEnd partitioner' t symbol →
            (records'.map (·.event.timeless)).filter (·.symbol = symbol) =
              (records.map (·.event.timeless)).filter (·.symbol = symbol) := by
  obtain ⟨hpub, -, hall⟩ := session_events hu hparse hrec hok ho h hstop
  obtain ⟨-, hd⟩ :=
    Delivery.delivered_reachable ho (LiveDelivery.simulates_delivery.reachable trivial h).1
  refine ⟨_, (LiveIngestion.drain_recorded hc hn hall fun _ => 0).1, ?_⟩
  intro cfg' clock partitioner' script' t hsrc hok' ho' ht htstop hteof now now'
  have hrun := pipeline_reachable ht
  obtain ⟨-, delivered, hdrain, heq⟩ := LiveIngestion.drain_recorded hc hn hall clock
  have hyield : t.pipeline.yielded = delivered :=
    (IngestionPipeline.sequenced_reachable (hsrc ▸ ReplaySource.source_follows hdrain) ho'
      hrun).exhausted hteof
  obtain ⟨hflow', hd'⟩ := Delivery.delivered_reachable ho' ht
  have hpub' := LiveDelivery.published_all hflow' htstop hok'
  obtain ⟨records, final, hcons, hsym⟩ :=
    LiveDelivery.consumed_symbols hd hc hn (hpub ▸ hall) now
  obtain ⟨records', final', hcons', hsym'⟩ := LiveDelivery.consumed_symbols hd' hc hn
    (hpub' ▸ recordable_replayed hu hsrc hrun) now'
  refine ⟨records, final, records', final', hcons, hcons', fun symbol hread hread' => ?_⟩
  rw [(hsym' symbol).2 hread'.1 hread'.2, (hsym symbol).2 hread.1 hread.2, hpub', hyield, hpub,
    filterMap_carried_of_timeless heq]

/-- Two trades are consumed live, captured, replayed, and consumed again. -/
theorem replay_indistinguishable_two_trades :
    ∃ (s : LiveDelivery.State) (t : Delivery.State) (records records' : List ConsumedRecord)
      (final final' : KafkaEventConsumer),
      s.ingestion.live.frames = LiveIngestion.twoTrades ∧ t.pipeline.yielded.length = 2 ∧
      KafkaEventConsumer.consume compact (fun _ => 5) (s.delivery.polls.map .poll) {} =
        .ok (records, final) ∧
      KafkaEventConsumer.consume compact (fun _ => 9) (t.polls.map .poll) {} =
        .ok (records', final') ∧
      (records'.map (·.event.timeless)).filter (·.symbol = sampleEvent.symbol) =
        (records.map (·.event.timeless)).filter (·.symbol = sampleEvent.symbol) := by
  obtain ⟨s, h, hstop, hframes, hout, hpos⟩ := LiveDelivery.two_trades_run
    LiveIngestion.tradeParser_first LiveIngestion.tradeParser_second
    (LiveDelivery.utf8Valid_trade LiveIngestion.tradeParser_first 7)
    (LiveDelivery.utf8Valid_trade LiveIngestion.tradeParser_second 9)
  obtain ⟨r, hr, hall⟩ := replay_indistinguishable compact_lawful compact_nonFiniteAsNull
    compact_readsUtf8 rfl rfl (fun _ => rfl) (by decide) h hstop
  obtain ⟨-, hevents, hrec⟩ :=
    session_events compact_readsUtf8 rfl rfl (fun _ => rfl) (by decide) h hstop
  obtain ⟨hfile, delivered, hd, heq⟩ :=
    LiveIngestion.drain_recorded compact_lawful compact_nonFiniteAsNull hrec fun _ => 3
  obtain rfl : r = _ := Except.ok.inj (hr.symm.trans hfile)
  have hlen : delivered.length = 2 := by
    have hkept := heq
    rw [hevents, hframes] at hkept
    have hcount := congrArg List.length (hkept.trans LiveIngestion.carried_twoTrades)
    rwa [List.length_map] at hcount
  have hsrc := ReplaySource.source_delivers hd
  obtain ⟨t, ht, htstop, hteof, hout', hpos'⟩ := @Delivery.whole_run compact _ delivered hsrc
    fun e he => by
      obtain ⟨k, hk, rfl⟩ := List.mem_iff_getElem.mp he
      have hnext := hsrc k (Nat.le_of_lt hk)
      rw [List.getElem?_eq_getElem hk] at hnext
      exact (ReplaySource.source_recordable compact_readsUtf8 hnext).utf8Valid
  have hyield := (IngestionPipeline.sequenced_reachable (ReplaySource.source_follows hd)
    (by decide) (pipeline_reachable ht)).exhausted hteof
  obtain ⟨records, final, records', final', hcons, hcons', hsame⟩ :=
    hall rfl (fun _ => rfl) (by decide) ht htstop hteof (fun _ => 5) (fun _ => 9)
  exact ⟨s, t, records, records', final, final', hframes, hyield ▸ hlen, hcons, hcons',
    hsame _ ⟨hout, hpos⟩ ⟨hout', hpos'⟩⟩

end TickForge.ReplayDelivery
