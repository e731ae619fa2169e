import TickForge.Capture.LiveCapture
import TickForge.Kafka.EndToEnd

/-! From the frames of a live session to the consumer in another process. -/
namespace TickForge.LiveDelivery

open ByteString Nlohmann Transition
open IngestionPipeline (Call Thread OneStart published)
open LiveIngestion (Setup Recordable carried tradeParser)

/-- The ingesting process with its live source, and the way of its messages. The pipeline is
part of both. -/
structure State where
  ingestion : LiveIngestion.State
  delivery : Delivery.State

def initial (cfg : Setup) (script : List Call) : State :=
  ⟨LiveIngestion.initial cfg script, Delivery.initial cfg.pipeline script⟩

inductive Step (c : Codec) (cfg : Setup) (partitioner : Bytes → ℕ) :
    State → Option (Option Thread × Option LiveSource.Action) × Option Delivery.Party →
      State → Prop where
  /-- The source moves inside a call of the pipeline. -/
  | source {s x l} : LiveIngestion.Step cfg s.ingestion x l → x.1 = none →
      Step c cfg partitioner s (some x, none) { s with ingestion := l }
  | pipeline {s x a l d} : LiveIngestion.Step cfg s.ingestion x l → x.1 = some a →
      Delivery.Step c cfg.pipeline partitioner s.delivery (.pipeline a) d →
      d.pipeline = l.pipeline →
      Step c cfg partitioner s (some x, some (.pipeline a)) ⟨l, d⟩
  /-- The broker or the consumer moves. -/
  | kafka {s b d} : (∀ a, b ≠ .pipeline a) →
      Delivery.Step c cfg.pipeline partitioner s.delivery b d →
      Step c cfg partitioner s (none, some b) { s with delivery := d }

variable {c : Codec} {cfg : Setup} {partitioner : Bytes → ℕ} {script : List Call} {s : State}
  {d : Delivery.State} {events : List MarketEvent}

theorem simulates_ingestion :
    Simulates (Step c cfg partitioner) (LiveIngestion.Step cfg) State.ingestion Prod.fst
      fun _ => True where
  keeps _ _ := trivial
  visible _ h hx := by
    cases h with
    | source hl | pipeline hl =>
      cases hx
      exact hl
    | kafka => cases hx
  hidden _ h hx := by
    cases h with
    | kafka => rfl
    | _ => cases hx

theorem simulates_delivery :
    Simulates (Step c cfg partitioner) (Delivery.Step c cfg.pipeline partitioner) State.delivery
      Prod.snd fun _ => True where
  keeps _ _ := trivial
  visible _ h hx := by
    cases h with
    | pipeline _ _ hd | kafka _ hd =>
      cases hx
      exact hd
    | source => cases hx
  hidden _ h hx := by
    cases h with
    | source => rfl
    | _ => cases hx

/-- Both parts stay with one pipeline. -/
theorem pipelines_agree (h : Reachable (Step c cfg partitioner) (initial cfg script) s) :
    s.delivery.pipeline = s.ingestion.pipeline := by
  refine h.invariant (P := fun s => s.delivery.pipeline = s.ingestion.pipeline) rfl ?_
  intro s x t hs hstep
  cases hstep with
  | source hl hx => exact hs.trans (LiveIngestion.pipeline_hidden hl hx).symm
  | pipeline _ _ _ heq => exact heq
  | kafka hb hd =>
    refine Eq.trans ?_ hs
    cases hd with
    | pipeline => exact (hb _ rfl).elim
    | publish => exact (hb _ rfl).elim
    | _ => rfl

theorem results_grow {pipe : IngestionPipeline.Config MarketEvent}
    {p q : IngestionPipeline.State MarketEvent} {a : Thread}
    (h : IngestionPipeline.Step pipe p a q) : p.results <+: q.results := by
  cases h with
  | publishReturn => exact List.prefix_append _ _
  | _ => exact List.prefix_rfl

theorem ingestion_results_grow {l l' : LiveIngestion.State}
    {x : Option Thread × Option LiveSource.Action} (hi : LiveIngestion.Invariant cfg l)
    (h : LiveIngestion.Step cfg l x l') : l.pipeline.results <+: l'.pipeline.results := by
  cases hx : x.1 with
  | none => exact LiveIngestion.pipeline_hidden h hx ▸ List.prefix_rfl
  | some a => exact results_grow (LiveIngestion.pipeline_visible hi h hx)

/-- What the ingesting process can do between two returns of `publish()` it can do here. -/
theorem lift_reachable {l l' : LiveIngestion.State} (hi : LiveIngestion.Invariant cfg l)
    (h : Reachable (LiveIngestion.Step cfg) l l') (hd : d.pipeline = l.pipeline)
    (hres : l'.pipeline.results = l.pipeline.results) :
    Reachable (Step c cfg partitioner) ⟨l, d⟩ ⟨l', { d with pipeline := l'.pipeline }⟩ := by
  obtain ⟨xs, hx⟩ := h
  have hinv : ∀ {ys m}, Trace (LiveIngestion.Step cfg) l ys m →
      LiveIngestion.Invariant cfg m ∧ l.pipeline.results <+: m.pipeline.results := by
    intro ys m hm
    induction hm with
    | refl => exact ⟨hi, List.prefix_rfl⟩
    | snoc _ hs ih =>
      exact ⟨LiveIngestion.simulates_pipeline.keeps ih.1 hs,
        ih.2.trans (ingestion_results_grow ih.1 hs)⟩
  induction hx with
  | refl =>
    rw [← hd]
    exact Reachable.refl _
  | @snoc m u ys x hm hs ih =>
    obtain ⟨him, hpre⟩ := hinv hm
    have hsame : m.pipeline.results = l.pipeline.results := by
      refine (hpre.eq_of_length_le ?_).symm
      rw [← hres]
      exact (ingestion_results_grow him hs).length_le
    refine (ih hsame).snoc (?_ : Step c cfg partitioner _ (some x, x.1.map .pipeline) _)
    cases hx : x.1 with
    | none =>
      rw [LiveIngestion.pipeline_hidden hs hx]
      exact .source hs hx
    | some a =>
      exact .pipeline hs hx (.pipeline (LiveIngestion.pipeline_visible him hs hx)
        (hres.trans hsame.symm)) rfl

/-- Two trades from their frames to the consumer, and the stop behind them. -/
theorem two_trades_run {parse : Bytes → Option MarketEvent} {raw raw' : Bytes}
    {e e' : MarketEvent} (hp : parse raw = some e) (hp' : parse raw' = some e')
    (he : (marketEventToJson (e.live 7)).utf8Valid = true)
    (he' : (marketEventToJson (e'.live 9)).utf8Valid = true) :
    ∃ s, Reachable (Step c (LiveIngestion.oneSlot parse) fun _ => 1)
        (initial (LiveIngestion.oneSlot parse) [.start, .requestStop, .stop]) s ∧
      s.delivery.pipeline.stopped = true ∧ s.ingestion.live.frames = [(raw, 7), (raw', 9)] ∧
      s.delivery.broker.outbox 1 = [] ∧
      s.delivery.position 1 = (s.delivery.broker.log 1).length := by
  have h₀ : Reachable (Step c (LiveIngestion.oneSlot parse) fun _ => 1)
      (initial (LiveIngestion.oneSlot parse) [.start, .requestStop, .stop]) _ :=
    lift_reachable (LiveIngestion.invariant_initial (by decide))
      (LiveIngestion.afterSecond_reachable hp hp') rfl rfl
  have h₁ := h₀.snoc (.pipeline (.pipeline rfl (fun _ => rfl) (.publish rfl)) rfl
    (.pipeline (.publish rfl) rfl) rfl)
  have h₂ := h₁.snoc (.pipeline (.pipeline rfl (fun _ => rfl) (.publishReturn rfl)) rfl
    (.publish rfl (publish_utf8Valid (p := 1) he rfl _) (.publishReturn rfl) rfl) rfl)
  have h₃ := h₂.snoc (.kafka (by simp) (.append (p := 1) (by simp [Broker.produce])))
  have h₄ := h₃.snoc (.kafka (by simp) (.pollMessage (p := 1) rfl))
  have h₅ := h₄.snoc (.pipeline (.pipeline rfl (fun _ => rfl) (.countPublished rfl)) rfl
    (.pipeline (.countPublished rfl) rfl) rfl)
  have h₆ := h₅.snoc (.pipeline (.pipeline rfl (fun _ => rfl) (.countReceived rfl)) rfl
    (.pipeline (.countReceived rfl) rfl) rfl)
  have h₇ := h₆.snoc (.pipeline (.pipeline rfl (fun _ => rfl) (.record rfl)) rfl
    (.pipeline (.record rfl) rfl) rfl)
  have h₈ := h₇.snoc (.pipeline (.pipeline rfl (fun _ => rfl) (.pushTrue rfl rfl rfl)) rfl
    (.pipeline (.pushTrue rfl rfl rfl) rfl) rfl)
  have h₉ := h₈.snoc (.pipeline (.pipeline rfl (fun _ => rfl) (.popTrue rfl rfl rfl)) rfl
    (.pipeline (.popTrue rfl rfl rfl) rfl) rfl)
  have h₁₀ := h₉.snoc (.pipeline (.pipeline rfl (fun _ => rfl) (.publish rfl)) rfl
    (.pipeline (.publish rfl) rfl) rfl)
  have h₁₁ := h₁₀.snoc (.pipeline (.pipeline rfl (fun _ => rfl) (.publishReturn rfl)) rfl
    (.publish rfl (publish_utf8Valid (p := 1) he' rfl _) (.publishReturn rfl) rfl) rfl)
  have h₁₂ := h₁₁.snoc (.kafka (by simp) (.append (p := 1) (by simp [Broker.produce])))
  have h₁₃ := h₁₂.snoc (.kafka (by simp) (.pollMessage (p := 1) rfl))
  have h₁₄ := h₁₃.snoc (.pipeline (.pipeline rfl (fun _ => rfl) (.countPublished rfl)) rfl
    (.pipeline (.countPublished rfl) rfl) rfl)
  have h₁₅ := h₁₄.snoc (.pipeline (.requestStop rfl rfl rfl (.requestStop rfl)) rfl
    (.pipeline (.requestStop rfl rfl) rfl) rfl)
  have h₁₆ := h₁₅.snoc (.source (.finishStop rfl rfl (.lockStop rfl rfl)) rfl)
  have h₁₇ := h₁₆.snoc (.source (.finishStop rfl rfl (.closeSocket rfl)) rfl)
  have h₁₈ := h₁₇.snoc (.pipeline (.callNext rfl rfl) rfl (.pipeline (.callNext rfl) rfl) rfl)
  have h₁₉ := h₁₈.snoc (.pipeline (.nextFalse rfl (.stopSeen rfl rfl) rfl) rfl
    (.pipeline (.nextFalse rfl ⟨by simp, fun _ => rfl⟩) rfl) rfl)
  have h₂₀ := h₁₉.snoc (.pipeline (.pipeline rfl (fun _ => rfl) (.finishIngest rfl)) rfl
    (.pipeline (.finishIngest rfl) rfl) rfl)
  have h₂₁ := h₂₀.snoc (.pipeline (.pipeline rfl (fun _ => rfl) (.stop rfl rfl rfl)) rfl
    (.pipeline (.stop rfl rfl rfl) rfl) rfl)
  have h₂₂ := h₂₁.snoc (.pipeline (.pipeline rfl (fun _ => rfl) (.joinIngest rfl fun _ => rfl)) rfl
    (.pipeline (.joinIngest rfl fun _ => rfl) rfl) rfl)
  have h₂₃ := h₂₂.snoc (.pipeline (.pipeline rfl (fun _ => rfl) (.shutDownQueue rfl)) rfl
    (.pipeline (.shutDownQueue rfl) rfl) rfl)
  have h₂₄ := h₂₃.snoc (.pipeline (.pipeline rfl (fun _ => rfl) (.popFalse rfl rfl rfl)) rfl
    (.pipeline (.popFalse rfl rfl rfl) rfl) rfl)
  have h₂₅ := h₂₄.snoc (.pipeline (.pipeline rfl (fun _ => rfl) (.flush rfl)) rfl
    (.pipeline (.flush rfl) rfl) rfl)
  have h₂₆ := h₂₅.snoc (.pipeline (.pipeline rfl (fun _ => rfl) (.joinPublish rfl fun _ => rfl)) rfl
    (.pipeline (.joinPublish rfl fun _ => rfl) rfl) rfl)
  exact ⟨_, h₂₆, rfl, rfl, rfl, rfl⟩

theorem decodeEvent_recordable (hc : c.Lawful) (hn : c.NonFiniteAsNull) {e : MarketEvent}
    (h : Recordable e) : decodeEvent c (entry c e).payload = carried e := by
  simp [decodeEvent, entry, LiveIngestion.decodeRecord_recordable hc hn h, Except.toOption]

theorem carried_symbol {e f : MarketEvent} (h : carried e = some f) : f.symbol = e.symbol := by
  unfold carried at h
  split_ifs at h
  obtain rfl := Option.some.inj h
  rfl

/-- What the consumer can make of the messages of one partition. -/
theorem partition_carried (hs : Delivery.Delivered c partitioner d) (hc : c.Lawful)
    (hn : c.NonFiniteAsNull) (hrec : ∀ e ∈ published d.pipeline, Recordable e) (p : ℕ) :
    ((d.messages.filter (·.partition = p)).map (·.payload)).filterMap (decodeEvent c) =
      (((published d.pipeline).filter (partitioner ·.symbol = p)).take (d.position p)).filterMap
        carried := by
  have hlog : (d.broker.log p).take (d.position p) =
      (((published d.pipeline).filter (partitioner ·.symbol = p)).take (d.position p)).map
        (entry c) := by
    rw [List.map_take, ← hs.given p, Broker.given, List.take_append_of_le_length (hs.position p)]
  rw [hs.polled p, hlog, List.map_map, List.filterMap_map]
  refine List.filterMap_congr fun e he => ?_
  exact decodeEvent_recordable hc hn (hrec e (List.mem_of_mem_filter (List.mem_of_mem_take he)))

/-- The consumer throws nothing and returns what the format keeps of its messages. -/
theorem consumed_carried (hs : Delivery.Delivered c partitioner d) (hc : c.Lawful)
    (hn : c.NonFiniteAsNull) (hrec : ∀ e ∈ published d.pipeline, Recordable e)
    (clock : ℕ → Int64) :
    ∃ records final, KafkaEventConsumer.consume c clock (d.polls.map .poll) {} =
        .ok (records, final) ∧
      records.map (·.event.timeless) =
        (d.messages.map (·.payload)).filterMap (decodeEvent c) := by
  have hall : decodeAll c (d.messages.map (·.payload)) =
      .ok ((d.messages.map (·.payload)).map (decodeEvent c)) := by
    apply decodeAll_eq
    rw [List.forall_mem_map]
    intro m hm
    obtain ⟨e, he, -, hpay⟩ := hs.message hm
    rw [hpay]
    exact decodeRecord_total_iff.mp
      ⟨_, LiveIngestion.decodeRecord_recordable hc hn (hrec e he)⟩
  obtain ⟨records, hcons, heq⟩ := KafkaEventConsumer.consume_ok (k := {}) clock hall
  have hmap := congrArg (List.map (·.event)) heq
  have hpairs := @KafkaEventConsumer.event_pairs d.messages
    ((d.messages.map (·.payload)).map (decodeEvent c)) (by simp)
  rw [List.map_map] at hmap
  refine ⟨records, _, hcons, hmap.trans (hpairs.trans ?_)⟩
  rw [List.reduceOption, List.filterMap_map]
  rfl

/-- All events of a symbol go to its partition. -/
theorem filter_carried (partitioner : Bytes → ℕ) (events : List MarketEvent) (symbol : Bytes) :
    ((events.filter (partitioner ·.symbol = partitioner symbol)).filterMap carried).filter
        (·.symbol = symbol) =
      (events.filterMap carried).filter (·.symbol = symbol) := by
  induction events with
  | nil => rfl
  | cons e events ih =>
    by_cases hp : partitioner e.symbol = partitioner symbol
    · rw [List.filter_cons_of_pos (by simpa using hp)]
      cases hk : carried e with
      | none => rw [List.filterMap_cons_none hk, List.filterMap_cons_none hk, ih]
      | some f =>
        rw [List.filterMap_cons_some hk, List.filterMap_cons_some hk, List.filter_cons,
          List.filter_cons, ih]
    · rw [List.filter_cons_of_neg (by simpa using hp), ih]
      cases hk : carried e with
      | none => rw [List.filterMap_cons_none hk]
      | some f =>
        have hne : f.symbol ≠ symbol := by
          rintro rfl
          exact hp (by rw [carried_symbol hk])
        rw [List.filterMap_cons_some hk, List.filter_cons_of_neg (by simpa using hne)]

theorem published_sublist (p : IngestionPipeline.State MarketEvent) :
    (published p).Sublist p.yielded := by
  have hzip : ∀ (xs : List MarketEvent) (bs : List Bool),
      (((xs.zip bs).filter (·.2)).map (·.1)).Sublist xs := by
    intro xs
    induction xs with
    | nil => simp
    | cons x xs ih =>
      intro bs
      cases bs with
      | nil => simp
      | cons b bs =>
        cases b with
        | true => simpa using ih bs
        | false => simpa using (ih bs).cons x
  exact hzip p.yielded p.results

/-- With no local failure every event of a stopped pipeline has been published. -/
theorem published_all {p : IngestionPipeline.State MarketEvent}
    {cfg : IngestionPipeline.Config MarketEvent} (hf : IngestionPipeline.Flow cfg p)
    (hstop : p.stopped = true) (hok : ∀ k, cfg.publishReturns k = true) :
    published p = p.yielded := by
  obtain ⟨-, hdone, -⟩ := hf.stopped hstop
  have hlen := hf.counted.returned
  rw [hdone, (hf.complete hstop).1] at hlen
  have htrue : ∀ b ∈ p.results, b = true := by
    rw [hf.counted.pattern]
    intro b hb
    obtain ⟨k, -, rfl⟩ := List.mem_map.mp hb
    exact hok k
  have hfilter : (p.yielded.zip p.results).filter (·.2) = p.yielded.zip p.results := by
    rw [List.filter_eq_self]
    rintro ⟨e, b⟩ hmem
    exact htrue b (List.of_mem_zip hmem).2
  rw [published, hfilter]
  exact List.map_fst_zip (by simpa [IngestionPipeline.PublishPC.pending] using hlen.ge)

/-- Of each symbol the consumer returns what the format keeps of the first events that were
published, and of all of them once its partition has been read to the end. -/
theorem consumed_symbols (hs : Delivery.Delivered c partitioner d) (hc : c.Lawful)
    (hn : c.NonFiniteAsNull) (hrec : ∀ e ∈ published d.pipeline, Recordable e)
    (clock : ℕ → Int64) :
    ∃ records final, KafkaEventConsumer.consume c clock (d.polls.map .poll) {} =
        .ok (records, final) ∧
      ∀ symbol,
        ((records.map (·.event.timeless)).filter (·.symbol = symbol)).Sublist
          (((published d.pipeline).filterMap carried).filter (·.symbol = symbol)) ∧
        (d.broker.outbox (partitioner symbol) = [] →
          d.position (partitioner symbol) = (d.broker.log (partitioner symbol)).length →
          (records.map (·.event.timeless)).filter (·.symbol = symbol) =
            ((published d.pipeline).filterMap carried).filter (·.symbol = symbol)) := by
  obtain ⟨records, final, hcons, hmap⟩ := consumed_carried hs hc hn hrec clock
  refine ⟨records, final, hcons, fun symbol => ?_⟩
  have hpart : ∀ m ∈ d.messages, ∀ e, decodeEvent c m.payload = some e →
      partitioner e.symbol = m.partition := by
    intro m hm e he
    obtain ⟨e', he', hp, hpay⟩ := hs.message hm
    rw [hpay, decodeEvent_recordable hc hn (hrec e' he')] at he
    rw [carried_symbol he]
    exact hp
  rw [hmap, Delivery.filter_symbol symbol hpart, partition_carried hs hc hn hrec,
    ← filter_carried partitioner (published d.pipeline)]
  refine ⟨((List.take_sublist _ _).filterMap _).filter _, ?_⟩
  intro hout hpos
  have hall : (d.broker.log (partitioner symbol)).length =
      ((published d.pipeline).filter (partitioner ·.symbol = partitioner symbol)).length := by
    have hgiven := congrArg List.length (hs.given (partitioner symbol))
    simpa [Broker.given, hout] using hgiven
  rw [hpos, hall, List.take_length]

/-- Whatever the interleaving of the source, the pipeline, the broker and the consumer, the
consumer returns for each symbol trades of the frames, in the frames' order, and nothing
else. It returns all that the format can carry once the pipeline has stopped without a local
failure and the symbol's partition has been read to its end. The broker is the one of
`Delivery.Step`, which stores each accepted message once and in order. -/
theorem consumer_sees_frames (hc : c.Lawful) (hn : c.NonFiniteAsNull) (hu : c.ReadsUtf8)
    (hparse : cfg.parse = tradeParser c) (partitioner : Bytes → ℕ) (ho : OneStart script)
    (h : Reachable (Step c cfg partitioner) (initial cfg script) s) (clock : ℕ → Int64) :
    ∃ records final, KafkaEventConsumer.consume c clock (s.delivery.polls.map .poll) {} =
        .ok (records, final) ∧
      ∀ symbol,
        ((records.map (·.event.timeless)).filter (·.symbol = symbol)).Sublist
          (((s.ingestion.live.frames.filterMap (LiveSource.decode cfg.parse)).filterMap
            carried).filter (·.symbol = symbol)) ∧
        (s.delivery.pipeline.stopped = true → (∀ k, cfg.publishReturns k = true) →
          s.delivery.broker.outbox (partitioner symbol) = [] →
          s.delivery.position (partitioner symbol) =
            (s.delivery.broker.log (partitioner symbol)).length →
          (records.map (·.event.timeless)).filter (·.symbol = symbol) =
            ((s.ingestion.live.frames.filterMap (LiveSource.decode cfg.parse)).filterMap
              carried).filter (·.symbol = symbol)) := by
  have hing := (simulates_ingestion.reachable trivial h).1
  obtain ⟨hflow, hd⟩ :=
    Delivery.delivered_reachable ho (simulates_delivery.reachable trivial h).1
  have hagree := pipelines_agree h
  obtain ⟨hlive, hi⟩ :=
    LiveIngestion.simulates_live.reachable (LiveIngestion.invariant_initial ho) hing
  have hframes := (LiveSource.accounted_reachable hlive).frames
  have hsub : (published s.delivery.pipeline).Sublist
      (s.ingestion.live.frames.filterMap (LiveSource.decode cfg.parse)) := by
    refine (published_sublist _).trans ?_
    rw [hagree, hi.coupled.yielded, ← hframes]
    exact List.sublist_append_left _ _
  have hrec : ∀ e ∈ published s.delivery.pipeline, Recordable e := by
    intro e he
    have hmem := hsub.subset he
    rw [hparse] at hmem
    exact LiveIngestion.recordable_frames hu _ e hmem
  obtain ⟨records, final, hcons, hsymbols⟩ := consumed_symbols hd hc hn hrec clock
  refine ⟨records, final, hcons, fun symbol => ?_⟩
  obtain ⟨hfirst, hall⟩ := hsymbols symbol
  refine ⟨hfirst.trans ((hsub.filterMap _).filter _), ?_⟩
  intro hstop hok hout hpos
  rw [hall hout hpos, published_all hflow hstop hok, hagree,
    LiveIngestion.yielded_of_stopped ho hing (hagree ▸ hstop)]

theorem utf8Valid_trade {raw : Bytes} {e : MarketEvent}
    (hp : LiveIngestion.tradeParser compact raw = some e) (t : Int64) :
    (marketEventToJson (e.live t)).utf8Valid = true :=
  (LiveIngestion.recordable_live compact_readsUtf8 hp t).utf8Valid

theorem consumer_sees_frames_two_trades :
    ∃ (s : State) (records : List ConsumedRecord) (final : KafkaEventConsumer),
      s.ingestion.live.frames = LiveIngestion.twoTrades ∧
      KafkaEventConsumer.consume compact (fun _ => 5) (s.delivery.polls.map .poll) {} =
        .ok (records, final) ∧
      (records.map (·.event.timeless)).filter (·.symbol = sampleEvent.symbol) =
        LiveIngestion.keptTrades := by
  obtain ⟨s, h, hstop, hframes, hout, hpos⟩ := two_trades_run LiveIngestion.tradeParser_first
    LiveIngestion.tradeParser_second (utf8Valid_trade LiveIngestion.tradeParser_first 7)
    (utf8Valid_trade LiveIngestion.tradeParser_second 9)
  obtain ⟨records, final, hcons, hall⟩ := consumer_sees_frames compact_lawful
    compact_nonFiniteAsNull compact_readsUtf8 rfl _ (by decide) h fun _ => 5
  refine ⟨s, records, final, hframes, hcons, ?_⟩
  have hsymbol := (hall sampleEvent.symbol).2 hstop (fun _ => rfl) hout hpos
  rw [hframes] at hsymbol
  refine hsymbol.trans ((congrArg _ LiveIngestion.carried_twoTrades).trans ?_)
  decide

end TickForge.LiveDelivery
