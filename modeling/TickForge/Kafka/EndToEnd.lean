import TickForge.Capture.RoundTrip
import TickForge.IngestionPipeline.Sequence
import TickForge.Kafka.Consumer
import TickForge.Kafka.Producer

/-! From the source of one process to the consumer of another. -/
namespace TickForge.Delivery

open ByteString Nlohmann Transition
open IngestionPipeline (Config Call Flow OneStart Offered published)

/-- The ingesting pipeline, the broker, and what the consumer has polled. -/
structure State where
  pipeline : IngestionPipeline.State MarketEvent
  broker : Broker
  polls : List Poll
  /-- The next offset of each partition. -/
  position : ℕ → ℕ

/-- Who moves. -/
inductive Party where
  | pipeline (thread : IngestionPipeline.Thread)
  | broker
  | consumer
  deriving DecidableEq

def initial (cfg : Config MarketEvent) (script : List Call) : State where
  pipeline := IngestionPipeline.initial cfg script
  broker := .empty
  polls := []
  position _ := 0

/-- Every message that the client library accepts is appended once, in the order of the calls. -/
inductive Step (c : Codec) (cfg : Config MarketEvent) (partitioner : Bytes → ℕ) :
    State → Party → State → Prop where
  | pipeline {s a t} : IngestionPipeline.Step cfg s.pipeline a t →
      t.results = s.pipeline.results →
      Step c cfg partitioner s (.pipeline a) { s with pipeline := t }
  /-- `publish()` returns to the publish thread; what it returns is up to the client library. -/
  | publish {s e ok b t} : s.pipeline.publish = .inPublish e →
      KafkaEventProducer.publish c partitioner
        (cfg.publishReturns s.pipeline.results.length) s.broker e = .ok (ok, b) →
      IngestionPipeline.Step cfg s.pipeline .publish t →
      t.results = s.pipeline.results ++ [ok] →
      Step c cfg partitioner s (.pipeline .publish) { s with pipeline := t, broker := b }
  | append {s p} : s.broker.outbox p ≠ [] →
      Step c cfg partitioner s .broker { s with broker := s.broker.append p }
  /-- A timeout, an error or the end of a partition. -/
  | pollNothing {s p} : p.message? = none →
      Step c cfg partitioner s .consumer { s with polls := s.polls ++ [p] }
  | pollMessage {s p m} : (s.broker.log p)[s.position p]? = some m →
      Step c cfg partitioner s .consumer { s with
        polls := s.polls ++ [.message ⟨p, s.position p, m.payload⟩]
        position := Function.update s.position p (s.position p + 1) }

variable {c : Codec} {cfg : Config MarketEvent} {partitioner : Bytes → ℕ} {script : List Call}
  {s t : State} {a : Party}

/-- The messages among the polls. -/
def State.messages (s : State) : List Message := s.polls.filterMap Poll.message?

/-- Each partition has the accepted events of its symbols, and the consumer the first ones
of its log. -/
structure Delivered (c : Codec) (partitioner : Bytes → ℕ) (s : State) : Prop where
  given : ∀ p, s.broker.given p =
    ((published s.pipeline).filter (partitioner ·.symbol = p)).map (entry c)
  polled : ∀ p, (s.messages.filter (·.partition = p)).map (·.payload) =
    ((s.broker.log p).take (s.position p)).map (·.payload)
  position : ∀ p, s.position p ≤ (s.broker.log p).length

theorem delivered_step (h : Step c cfg partitioner s a t) (hf : Flow cfg s.pipeline)
    (ho : Offered s.pipeline) (hs : Delivered c partitioner s) : Delivered c partitioner t := by
  obtain ⟨hg, hpoll, hpos⟩ := hs
  cases h with
  | @pipeline a u hstep hres =>
    have hpub : published u = published s.pipeline := by
      rcases IngestionPipeline.published_step hstep hf ho with ⟨-, h⟩ | ⟨e, ok, -, h, -⟩
      · exact h
      · simp [hres] at h
    exact ⟨by simpa [hpub] using hg, hpoll, hpos⟩
  | @publish e ok b u hi hp hstep hres =>
    have hpub : published u = published s.pipeline ++ if ok then [e] else [] := by
      rcases IngestionPipeline.published_step hstep hf ho with ⟨h, -⟩ | ⟨e', ok', hi', h, hpub⟩
      · simp [h] at hres
      · obtain rfl : e = e' := by simpa [hi] using hi'
        obtain rfl : ok = ok' := by simpa [hres] using h
        exact hpub
    obtain ⟨-, rfl⟩ := publish_ok hp
    cases ok with
    | false => exact ⟨by simpa [hpub] using hg, hpoll, hpos⟩
    | true =>
      refine ⟨?_, hpoll, hpos⟩
      intro p
      simp only [hpub, if_true, List.filter_append, List.map_append, ← hg p]
      by_cases hq : partitioner e.symbol = p
      · subst hq
        simp [Broker.given_produce_self]
      · rw [Broker.given_produce_of_ne _ _ (Ne.symm hq)]
        simp [hq]
  | @append p hne =>
    refine ⟨fun q => (s.broker.given_append p q).trans (hg q), ?_, ?_⟩
    · intro q
      obtain ⟨ext, hext⟩ := s.broker.append_log_prefix p q
      rw [← hext, List.take_append_of_le_length (hpos q)]
      exact hpoll q
    · exact fun q => (hpos q).trans (s.broker.append_log_prefix p q).length_le
  | @pollNothing p hp =>
    refine ⟨hg, ?_, hpos⟩
    simpa [State.messages, hp] using hpoll
  | @pollMessage p m hm =>
    have hmsgs : State.messages { s with
        polls := s.polls ++ [.message ⟨p, s.position p, m.payload⟩]
        position := Function.update s.position p (s.position p + 1) } =
        s.messages ++ [⟨p, s.position p, m.payload⟩] := by
      simp [State.messages, Poll.message?]
    refine ⟨hg, ?_, ?_⟩
    · intro q
      rw [hmsgs, List.filter_append, List.map_append, hpoll q]
      by_cases hq : q = p
      · subst hq
        simp [List.take_add_one, hm]
      · simp [Ne.symm hq, hq]
    · intro q
      by_cases hq : q = p
      · subst hq
        have := (List.getElem?_eq_some_iff.mp hm).1
        simp
        omega
      · simpa [hq] using hpos q

theorem step_pipeline (h : Step c cfg partitioner s a t) :
    t.pipeline = s.pipeline ∨ ∃ b, IngestionPipeline.Step cfg s.pipeline b t.pipeline := by
  cases h with
  | pipeline hstep _ => exact Or.inr ⟨_, hstep⟩
  | publish _ _ hstep _ => exact Or.inr ⟨_, hstep⟩
  | _ => exact Or.inl rfl

theorem delivered_reachable (ho : OneStart script)
    (h : Reachable (Step c cfg partitioner) (initial cfg script) s) :
    Flow cfg s.pipeline ∧ Delivered c partitioner s := by
  have hinv := h.invariant (P := fun s => Flow cfg s.pipeline ∧ Offered s.pipeline ∧
      Delivered c partitioner s)
    ⟨IngestionPipeline.flow_initial ho, by simp [Offered, initial, IngestionPipeline.initial], ?_⟩ ?_
  · exact ⟨hinv.1, hinv.2.2⟩
  · exact ⟨fun p => rfl, fun p => rfl, fun p => Nat.le_refl _⟩
  · rintro s a t ⟨hf, hoff, hd⟩ hstep
    rcases step_pipeline hstep with heq | ⟨b, hpipe⟩
    · exact ⟨heq ▸ hf, heq ▸ hoff, delivered_step hstep hf hoff hd⟩
    · exact ⟨IngestionPipeline.flow_step hpipe hf, IngestionPipeline.offered_step hpipe hoff,
        delivered_step hstep hf hoff hd⟩

theorem decodeEvent_entry (hc : c.Lawful) {e : MarketEvent} (he : e.Encodable) :
    decodeEvent c (entry c e).payload = some e.timeless := by
  simp [decodeEvent, entry, decodeRecord_text hc he, Except.toOption]

/-- Every polled message is an accepted event of its partition. -/
theorem Delivered.message (hs : Delivered c partitioner s) {m : Message} (hm : m ∈ s.messages) :
    ∃ e ∈ published s.pipeline, partitioner e.symbol = m.partition ∧
      m.payload = (entry c e).payload := by
  have hmem : m.payload ∈ (s.messages.filter (·.partition = m.partition)).map (·.payload) :=
    List.mem_map_of_mem (List.mem_filter.mpr ⟨hm, by simp⟩)
  rw [hs.polled] at hmem
  obtain ⟨x, hx, hpay⟩ := List.mem_map.mp hmem
  have hgiven : x ∈ s.broker.given m.partition :=
    List.mem_append_left _ (List.mem_of_mem_take hx)
  rw [hs.given] at hgiven
  obtain ⟨e, he, rfl⟩ := List.mem_map.mp hgiven
  obtain ⟨hpub, hpart⟩ := List.mem_filter.mp he
  exact ⟨e, hpub, by simpa using hpart, hpay.symm⟩

/-- What the consumer has of one partition is the first accepted events of its symbols. -/
theorem Delivered.partition_events (hs : Delivered c partitioner s) (hc : c.Lawful)
    (henc : ∀ e ∈ published s.pipeline, e.Encodable) (p : ℕ) :
    ((s.messages.filter (·.partition = p)).map (·.payload)).filterMap (decodeEvent c) =
      (((published s.pipeline).filter (partitioner ·.symbol = p)).take (s.position p)).map
        MarketEvent.timeless := by
  have hlog : (s.broker.log p).take (s.position p) =
      (((published s.pipeline).filter (partitioner ·.symbol = p)).take (s.position p)).map
        (entry c) := by
    rw [List.map_take, ← hs.given p, Broker.given, List.take_append_of_le_length (hs.position p)]
  rw [hs.polled p, hlog, List.map_map, List.filterMap_map]
  have hall : ∀ e ∈ ((published s.pipeline).filter (partitioner ·.symbol = p)).take (s.position p),
      decodeEvent c (entry c e).payload = some e.timeless := fun e he =>
    decodeEvent_entry hc (henc e (List.mem_of_mem_filter (List.mem_of_mem_take he)))
  rw [← List.filterMap_eq_map]
  exact List.filterMap_congr fun e he => hall e he

/-- The events of one symbol all come from its partition. -/
theorem filter_symbol {ms : List Message} (symbol : Bytes)
    (h : ∀ m ∈ ms, ∀ e, decodeEvent c m.payload = some e → partitioner e.symbol = m.partition) :
    ((ms.map (·.payload)).filterMap (decodeEvent c)).filter (·.symbol = symbol) =
      (((ms.filter (·.partition = partitioner symbol)).map (·.payload)).filterMap
        (decodeEvent c)).filter (·.symbol = symbol) := by
  induction ms with
  | nil => rfl
  | cons m ms ih =>
    have hms := ih fun m hm => h m (List.mem_cons_of_mem _ hm)
    have hm := h m (by simp)
    by_cases hp : m.partition = partitioner symbol
    · cases hd : decodeEvent c m.payload with
      | none => simp_all
      | some e => simp_all [List.filter_cons]
    · cases hd : decodeEvent c m.payload with
      | none => simp_all
      | some e =>
        have hne : e.symbol ≠ symbol := by
          rintro rfl
          exact hp (hm e hd).symm
        simp_all

/-- `next()` over the polls so far returns the decoded events, and throws nothing. -/
theorem Delivered.consumed (hs : Delivered c partitioner s) (hc : c.Lawful)
    (henc : ∀ e ∈ published s.pipeline, e.Encodable) (clock : ℕ → Int64) :
    ∃ records final, KafkaEventConsumer.consume c clock (s.polls.map .poll) {} =
        .ok (records, final) ∧
      records.map (·.event.timeless) =
        (s.messages.map (·.payload)).filterMap (decodeEvent c) := by
  have hall : decodeAll c (s.messages.map (·.payload)) =
      .ok ((s.messages.map (·.payload)).map (decodeEvent c)) := by
    apply decodeAll_eq
    rw [List.forall_mem_map]
    intro m hm
    obtain ⟨e, he, -, hpay⟩ := hs.message hm
    rw [hpay]
    exact decodeRecord_total_iff.mp ⟨_, decodeRecord_text hc (henc e he)⟩
  obtain ⟨records, hcons, heq⟩ := KafkaEventConsumer.consume_ok (k := {}) clock hall
  have hmap := congrArg (List.map (·.event)) heq
  have hpairs := @KafkaEventConsumer.event_pairs s.messages
    ((s.messages.map (·.payload)).map (decodeEvent c)) (by simp)
  rw [List.map_map] at hmap
  refine ⟨records, _, hcons, hmap.trans (hpairs.trans ?_)⟩
  rw [List.reduceOption, List.filterMap_map]
  rfl

theorem filter_partition (partitioner : Bytes → ℕ) (events : List MarketEvent) (symbol : Bytes) :
    ((events.filter (partitioner ·.symbol = partitioner symbol)).map
        MarketEvent.timeless).filter (·.symbol = symbol) =
      (events.map MarketEvent.timeless).filter (·.symbol = symbol) := by
  rw [List.filter_map, List.filter_map, List.filter_filter]
  congr 1
  apply List.filter_congr
  intro e _
  simp only [Function.comp_apply, MarketEvent.timeless_symbol, Bool.and_eq_left_iff_imp,
    decide_eq_true_eq]
  exact fun h => by rw [of_decide_eq_true h]

/-- The consumer returns, for each symbol, the first of the source's events with that symbol
whose `publish()` returned true, and all of them once its partition has been read to the
end. -/
theorem symbol_order_end_to_end (hc : c.Lawful) (cfg : Config MarketEvent)
    (partitioner : Bytes → ℕ) (ho : OneStart script) {s : State}
    (h : Reachable (Step c cfg partitioner) (initial cfg script) s)
    (henc : ∀ e ∈ s.pipeline.yielded, e.Encodable) (clock : ℕ → Int64) :
    ∃ records final, KafkaEventConsumer.consume c clock (s.polls.map .poll) {} =
        .ok (records, final) ∧
      ∀ symbol,
        (records.map (·.event.timeless)).filter (·.symbol = symbol) <+:
          ((published s.pipeline).map MarketEvent.timeless).filter (·.symbol = symbol) ∧
        (s.broker.outbox (partitioner symbol) = [] →
          s.position (partitioner symbol) = (s.broker.log (partitioner symbol)).length →
          (records.map (·.event.timeless)).filter (·.symbol = symbol) =
            ((published s.pipeline).map MarketEvent.timeless).filter (·.symbol = symbol)) := by
  obtain ⟨-, hd⟩ := delivered_reachable ho h
  have henc' : ∀ e ∈ published s.pipeline, e.Encodable := by
    intro e he
    obtain ⟨x, hx, rfl⟩ := List.mem_map.mp he
    exact henc _ (List.of_mem_zip (List.mem_of_mem_filter hx)).1
  obtain ⟨records, final, hcons, hmap⟩ := hd.consumed hc henc' clock
  refine ⟨records, final, hcons, fun symbol => ?_⟩
  have hpart : ∀ m ∈ s.messages, ∀ e, decodeEvent c m.payload = some e →
      partitioner e.symbol = m.partition := by
    intro m hm e he
    obtain ⟨e', he', hp, hpay⟩ := hd.message hm
    rw [hpay, decodeEvent_entry hc (henc' e' he')] at he
    rw [← Option.some.inj he]
    exact hp
  rw [hmap, filter_symbol symbol hpart, hd.partition_events hc henc',
    ← filter_partition partitioner (published s.pipeline)]
  refine ⟨((List.take_prefix _ _).map _).filter _, ?_⟩
  intro hout hpos
  have hlen : (s.broker.log (partitioner symbol)).length =
      ((published s.pipeline).filter (partitioner ·.symbol = partitioner symbol)).length := by
    have := congrArg List.length (hd.given (partitioner symbol))
    simpa [Broker.given, hout] using this
  rw [hpos, hlen, List.take_length]

/-- Two events of one symbol. The first is appended and polled, behind a timeout, before the
second is published. -/
theorem symbol_order_end_to_end_two_events :
    ∃ records final, KafkaEventConsumer.consume compact (fun _ => 5)
        [.poll .timeout, .poll (.message ⟨1, 0, (entry compact sampleEvent).payload⟩),
          .poll (.message ⟨1, 1, (entry compact laterEvent).payload⟩)] {} =
        .ok (records, final) ∧
      (records.map (·.event.timeless)).filter (·.symbol = sampleEvent.symbol) =
        [sampleEvent, laterEvent] := by
  let cfg : Config MarketEvent := ⟨1, .ofList [sampleEvent, laterEvent], fun _ => true, false⟩
  have henc := encodable_two
  have h₁ : Reachable (Step compact cfg (·.length % 3)) (initial cfg [.start, .stop]) _ :=
    (Reachable.refl _).snoc (.pipeline (.start rfl rfl) rfl)
  have h₂ := h₁.snoc (.pipeline (.launchIngest rfl rfl) rfl)
  have h₃ := h₂.snoc (.pipeline (.launchPublish rfl rfl) rfl)
  have h₄ := h₃.snoc (.pipeline (.callNext rfl) rfl)
  have h₅ := h₄.snoc (.pipeline (.nextTrue (e := sampleEvent) rfl (Or.inl ⟨rfl, rfl⟩)) rfl)
  have h₆ := h₅.snoc (.pipeline (.countReceived rfl) rfl)
  have h₇ := h₆.snoc (.pipeline (.record rfl) rfl)
  have h₈ := h₇.snoc (.pipeline (.pushTrue rfl rfl rfl) rfl)
  have h₉ := h₈.snoc (.pipeline (.popTrue rfl rfl rfl) rfl)
  have h₁₀ := h₉.snoc (.pipeline (.callNext rfl) rfl)
  have h₁₁ := h₁₀.snoc (.pipeline (.nextTrue (e := laterEvent) rfl (Or.inl ⟨rfl, rfl⟩)) rfl)
  have h₁₂ := h₁₁.snoc (.pipeline (.publish rfl) rfl)
  have h₁₃ := h₁₂.snoc (.publish rfl
    (publish_utf8Valid (p := 1) (henc sampleEvent (by simp)).printable.1 rfl _)
    (.publishReturn rfl) rfl)
  have h₁₄ := h₁₃.snoc (.append (p := 1) (by simp [Broker.produce]))
  have h₁₅ := h₁₄.snoc (.pollNothing (p := .timeout) rfl)
  have h₁₆ := h₁₅.snoc (.pollMessage (p := 1) rfl)
  have h₁₇ := h₁₆.snoc (.pipeline (.countPublished rfl) rfl)
  have h₁₈ := h₁₇.snoc (.pipeline (.countReceived rfl) rfl)
  have h₁₉ := h₁₈.snoc (.pipeline (.record rfl) rfl)
  have h₂₀ := h₁₉.snoc (.pipeline (.pushTrue rfl rfl rfl) rfl)
  have h₂₁ := h₂₀.snoc (.pipeline (.popTrue rfl rfl rfl) rfl)
  have h₂₂ := h₂₁.snoc (.pipeline (.publish rfl) rfl)
  have h₂₃ := h₂₂.snoc (.publish rfl
    (publish_utf8Valid (p := 1) (henc laterEvent (by simp)).printable.1 rfl _)
    (.publishReturn rfl) rfl)
  have h₂₄ := h₂₃.snoc (.append (p := 1) (by simp [Broker.produce]))
  have h₂₅ := h₂₄.snoc (.pollMessage (p := 1) rfl)
  obtain ⟨records, final, hcons, hsym⟩ := symbol_order_end_to_end compact_lawful cfg _
    (by decide) h₂₅ henc (fun _ => 5)
  exact ⟨records, final, hcons, (hsym sampleEvent.symbol).2 rfl rfl⟩

/-- Between two calls of `next()`, with everything that came before published to partition 1,
appended and polled. -/
structure Settled (before : List MarketEvent) (n : ℕ) (s : State) : Prop where
  pipeline : ∃ w rs, s.pipeline = IngestionPipeline.between before n w rs
  outbox : s.broker.outbox = fun _ => []
  position : s.position 1 = (s.broker.log 1).length

variable {src : IngestionPipeline.Source MarketEvent} {events : List MarketEvent}

theorem settled_step {before : List MarketEvent} {n : ℕ} {e : MarketEvent}
    (hs : Settled before n s) (hnext : src.mayReturn n false false (some e))
    (he : (marketEventToJson e).utf8Valid = true) :
    ∃ t, Reachable (Step c (IngestionPipeline.oneSlot src) fun _ => 1) s t ∧
      Settled (before ++ [e]) (n + 1) t := by
  obtain ⟨pipeline, ⟨outbox, log⟩, polls, position⟩ := s
  obtain ⟨⟨w, rs, rfl⟩, rfl, hpos⟩ := hs
  simp only at hpos
  have h₁ := (Reachable.refl _).snoc
    (show Step c (IngestionPipeline.oneSlot src) (fun _ => 1)
      ⟨IngestionPipeline.between before n w rs, ⟨fun _ => [], log⟩, polls, position⟩ _ _ from
        .pipeline (.callNext rfl) rfl)
  have h₂ := h₁.snoc (.pipeline (.nextTrue rfl hnext) rfl)
  have h₃ := h₂.snoc (.pipeline (.countReceived rfl) rfl)
  have h₄ := h₃.snoc (.pipeline (.record rfl) rfl)
  have h₅ := h₄.snoc (.pipeline (.pushTrue rfl rfl rfl) rfl)
  have h₆ := h₅.snoc (.pipeline (.popTrue rfl rfl rfl) rfl)
  have h₇ := h₆.snoc (.pipeline (.publish rfl) rfl)
  have h₈ := h₇.snoc (.publish rfl (publish_utf8Valid (p := 1) he rfl _) (.publishReturn rfl) rfl)
  have h₉ := h₈.snoc (.append (p := 1) (by simp [Broker.produce]))
  have hlog : (log 1 ++ [entry c e])[position 1]? = some (entry c e) := by simp [hpos]
  have h₁₀ := h₉.snoc (.pollMessage (p := 1) (m := entry c e)
    (by simpa [Broker.append, Broker.produce] using hlog))
  refine ⟨_, h₁₀.snoc (.pipeline (.countPublished rfl) rfl), ⟨_, _, rfl⟩, ?_, ?_⟩
  · funext p
    by_cases hp : p = 1 <;> simp [Broker.append, Broker.produce, hp]
  · simp [Broker.append, Broker.produce, hpos]

theorem settled_reachable
    (hsrc : ∀ k ≤ events.length, src.mayReturn k false false events[k]?)
    (hevents : ∀ e ∈ events, (marketEventToJson e).utf8Valid = true) :
    ∃ s, Reachable (Step c (IngestionPipeline.oneSlot src) fun _ => 1)
        (initial (IngestionPipeline.oneSlot src) [.start, .stop]) s ∧
      Settled events events.length s := by
  have h₁ : Reachable (Step c (IngestionPipeline.oneSlot src) fun _ => 1)
      (initial (IngestionPipeline.oneSlot src) [.start, .stop]) _ :=
    (Reachable.refl _).snoc (.pipeline (.start rfl rfl) rfl)
  have h₂ := h₁.snoc (.pipeline (.launchIngest rfl rfl) rfl)
  have h₃ := h₂.snoc (.pipeline (.launchPublish rfl rfl) rfl)
  have hall : ∃ t, Reachable (Step c (IngestionPipeline.oneSlot src) fun _ => 1)
      ⟨IngestionPipeline.between [] 0 0 [], .empty, [], fun _ => 0⟩ t ∧
      Settled events events.length t := by
    refine Reachable.through (P := fun before t => Settled before before.length t) ?_
      ⟨⟨0, [], rfl⟩, rfl, rfl⟩
    rintro before e after s rfl hs
    have hnext := hsrc before.length (by simp)
    rw [List.length_append]
    exact settled_step hs (by simpa using hnext) (hevents e (by simp))
  obtain ⟨t, ht, hs⟩ := hall
  exact ⟨t, h₃.trans ht, hs⟩

/-- A source that nobody stops can be run to its end, with every event published, appended
and polled. -/
theorem whole_run (hsrc : ∀ k ≤ events.length, src.mayReturn k false false events[k]?)
    (hevents : ∀ e ∈ events, (marketEventToJson e).utf8Valid = true) :
    ∃ t, Reachable (Step c (IngestionPipeline.oneSlot src) fun _ => 1)
        (initial (IngestionPipeline.oneSlot src) [.start, .stop]) t ∧
      t.pipeline.stopped = true ∧ t.pipeline.exhausted = true ∧ t.broker.outbox 1 = [] ∧
      t.position 1 = (t.broker.log 1).length := by
  obtain ⟨⟨pipeline, broker, polls, position⟩, h, ⟨w, rs, rfl⟩, hout, hpos⟩ :=
    settled_reachable (c := c) hsrc hevents
  have hend := hsrc events.length (Nat.le_refl _)
  rw [List.getElem?_eq_none (Nat.le_refl _)] at hend
  have h₁ := h.snoc (.pipeline (.callNext rfl) rfl)
  have h₂ := h₁.snoc (.pipeline (.nextFalse rfl hend) rfl)
  have h₃ := h₂.snoc (.pipeline (.finishIngest rfl) rfl)
  have h₄ := h₃.snoc (.pipeline (.stop rfl rfl rfl) rfl)
  have h₅ := h₄.snoc (.pipeline (.joinIngest rfl fun _ => rfl) rfl)
  have h₆ := h₅.snoc (.pipeline (.shutDownQueue rfl) rfl)
  have h₇ := h₆.snoc (.pipeline (.popFalse rfl rfl rfl) rfl)
  have h₈ := h₇.snoc (.pipeline (.flush rfl) rfl)
  have h₉ := h₈.snoc (.pipeline (.joinPublish rfl fun _ => rfl) rfl)
  exact ⟨_, h₉, rfl, rfl, congrFun hout 1, hpos⟩

end TickForge.Delivery
