import TickForge.Services.Ingestion

/-! Why the ingestion service ends, and what the last line it prints says. -/
namespace TickForge.IngestionService

open Transition
open IngestionPipeline (Config Thread Call destructor)

variable {α : Type*} {cfg : Config α} {s t : State α} {a : Actor} {line : List ℕ} {events : List α}

/-- The ingest thread leaves its loop for no other reason than the end of its source. -/
structure Ended (p : IngestionPipeline.State α) : Prop where
  exhausted : p.sourceStopped = false → p.ingest.looping = false → p.exhausted = true
  finished : p.ingestFinished = true → p.ingest = .done

theorem ended_step {p q : IngestionPipeline.State α} {b : Thread}
    (h : IngestionPipeline.Step cfg p b q) (hf : IngestionPipeline.Flow cfg p) (hs : Ended p) :
    Ended q := by
  obtain ⟨hex, hfin⟩ := hs
  cases h with
  | start ho hscript =>
    have hn : p.ingest = .notStarted := by
      have hc := hf.control
      unfold IngestionPipeline.Control at hc
      rw [ho] at hc
      have hst : p.started = true → False := fun hst => hf.once.started hst (by simp [hscript])
      rcases hc with ⟨-, hc⟩ | hc | hc
      · exact IngestionPipeline.IngestPC.life_eq_notStarted.mp hc.ingest
      · exact (hst hc.started).elim
      · exact (hst hc.started).elim
    exact ⟨fun _ hl => by simp [hn, IngestionPipeline.IngestPC.looping] at hl, hfin⟩
  | launchIngest ho =>
    refine ⟨fun _ hl => by simp [IngestionPipeline.IngestPC.looping] at hl, fun hx => ?_⟩
    have := hfin hx
    simp [hf.control.ingest_notStarted ho] at this
  | nextFalse hi hr =>
    exact ⟨fun hn _ => by simpa using hn, fun hx => by simp [hfin hx] at hi⟩
  | pushFalse hi _ hp => exact (IngestionPipeline.push_not_refused hf.control hi hp).elim
  | finishIngest hi =>
    exact ⟨fun hn _ => hex hn (by rw [hi]; rfl), fun _ => rfl⟩
  | requestStop => exact ⟨fun hn hl => hex (by simp_all) hl, hfin⟩
  | callNext hi | nextTrue hi | countReceived hi | record hi | pushTrue hi =>
    exact ⟨fun _ hl => by simp [IngestionPipeline.IngestPC.looping] at hl,
      fun hx => by simp [hfin hx] at hi⟩
  | _ => exact ⟨hex, hfin⟩

/-- `main()` has left its poll loop. -/
def MainPC.pastLoop : MainPC → Bool
  | .stopping | .reading _ | .destroying _ | .returned _ => true
  | _ => false

/-- Why `main()` shuts down. -/
def Reason (s : State α) : Prop :=
  s.main.pastLoop = true → s.signalled = true ∨
    (s.pipeline.ingest = .done ∧ s.pipeline.exhausted = true)

/-- The messages `rd_kafka_producev` took are the calls of `publish()` that returned true
and the one that is still polling. -/
structure Accounted (s : State α) : Prop where
  polling : s.polling ≠ none → ∃ e, s.pipeline.publish = .inPublish e
  accepted : s.producer.accepted =
    s.pipeline.results.count true + (s.polling == some true).toNat
  flushed : s.pipeline.publish = .done → s.timedOut = false → s.producer.outstanding = 0

/-- A worker's action outside `publish()` and `flush()`. -/
theorem worker_publish {p q : IngestionPipeline.State α} {b : Thread}
    (h : IngestionPipeline.Step cfg p b q) (hb : b ≠ .owner)
    (hn : b = .publish → inProducer p.publish = false) :
    q.results = p.results ∧ (q.publish = .done → p.publish = .done) ∧
      ((∃ e, p.publish = .inPublish e) → q.publish = p.publish) := by
  cases h with
  | flush hi | publishReturn hi => simp [inProducer, hi] at hn
  | popTrue hi | popFalse hi | publish hi | countPublished hi | countFailure hi => simp [hi]
  | callNext | nextTrue | nextFalse | countReceived | record | pushTrue | pushFalse
    | finishIngest => exact ⟨rfl, id, fun _ => rfl⟩
  | _ => exact (hb rfl).elim

theorem owner_publish {p q : IngestionPipeline.State α}
    (h : IngestionPipeline.Step cfg p .owner q) :
    q.results = p.results ∧ (q.publish = .done → p.publish = .done) ∧
      (q.publish = p.publish ∨ p.owner = .launchPublish) := by
  cases h with
  | launchPublish ho => exact ⟨rfl, by simp, Or.inr ho⟩
  | _ => exact ⟨rfl, id, Or.inl rfl⟩

theorem outstanding_report {d : DeliveryReports} (h : 0 < d.inFlight) (b : Bool) :
    (d.report b).outstanding = d.outstanding := by
  simp only [DeliveryReports.outstanding, DeliveryReports.report, List.length_append,
    List.length_singleton]
  omega

theorem accounted_owner {p : IngestionPipeline.State α} {m : MainPC} (hs : Accounted s)
    (hf : IngestionPipeline.Flow cfg s.pipeline)
    (h : IngestionPipeline.Step cfg s.pipeline .owner p) :
    Accounted { s with main := m, pipeline := p } := by
  obtain ⟨hpoll, hacc, hflush⟩ := hs
  obtain ⟨hres, hdone, hpub⟩ := owner_publish h
  refine ⟨fun hn => ?_, by simpa [hres] using hacc, fun hd => hflush (hdone hd)⟩
  obtain ⟨e, he⟩ := hpoll hn
  rcases hpub with hpub | ho
  · exact ⟨e, hpub.trans he⟩
  · simp [hf.control.publish_notStarted ho] at he

theorem accounted_step (h : Step cfg s a t) (hf : IngestionPipeline.Flow cfg s.pipeline)
    (hs : Accounted s) : Accounted t := by
  cases h with
  | start _ hp | stop _ hp | destroy _ hp => exact accounted_owner hs hf hp
  | worker hb hn hp =>
    obtain ⟨hpoll, hacc, hflush⟩ := hs
    obtain ⟨hres, hdone, hpub⟩ := worker_publish hp hb hn
    refine ⟨fun hn => ?_, by simpa [hres] using hacc, fun hd => hflush (hdone hd)⟩
    obtain ⟨e, he⟩ := hpoll hn
    exact ⟨e, (hpub ⟨e, he⟩).trans he⟩
  | @produce e hi hn =>
    obtain ⟨-, hacc, -⟩ := hs
    refine ⟨fun _ => ⟨e, hi⟩, ?_, by simp [hi]⟩
    rw [DeliveryReports.accepted_produce, hacc, hn]
    cases cfg.publishReturns s.pipeline.results.length <;> rfl
  | poll hi =>
    obtain ⟨hpoll, hacc, hflush⟩ := hs
    refine ⟨hpoll, by rw [DeliveryReports.accepted_poll, hacc], fun hd => ?_⟩
    rcases hi with hi | hi
    · obtain ⟨e, he⟩ := hpoll hi
      simp [he] at hd
    · simp [hi] at hd
  | @publishReturn ok p hpoll' hp hres =>
    obtain ⟨hpoll, hacc, -⟩ := hs
    obtain ⟨e, he⟩ := hpoll (by simp [hpoll'])
    refine ⟨by simp, ?_, ?_⟩
    · simp only [hres, hacc, hpoll', List.count_append]
      cases ok <;> rfl
    · cases hp <;> simp_all
  | @flush p hi hp =>
    obtain ⟨hpoll, hacc, -⟩ := hs
    have hnone : s.polling = none := by
      by_contra hn
      obtain ⟨e, he⟩ := hpoll hn
      simp [hi] at he
    have hres : p.results = s.pipeline.results := by
      cases hp <;> simp_all
    refine ⟨by simp [hnone], by simpa [hres] using hacc, fun _ ht => by simpa using ht⟩
  | report b hpos =>
    obtain ⟨hpoll, hacc, hflush⟩ := hs
    refine ⟨hpoll, by rw [DeliveryReports.accepted_report hpos, hacc], fun hd ht => ?_⟩
    rw [outstanding_report hpos]
    exact hflush hd ht
  | _ => exact ⟨hs.polling, hs.accepted, hs.flushed⟩

/-- A finished ingest thread stays finished: nobody starts it again. -/
theorem done_step {p q : IngestionPipeline.State α} {b : Thread}
    (h : IngestionPipeline.Step cfg p b q) (hf : IngestionPipeline.Flow cfg p)
    (hd : p.ingest = .done) : q.ingest = .done ∧ q.exhausted = p.exhausted := by
  cases h with
  | launchIngest ho => simp [hf.control.ingest_notStarted ho] at hd
  | callNext hi | nextTrue hi | nextFalse hi | countReceived hi | record hi | pushTrue hi
    | pushFalse hi | finishIngest hi => simp [hi] at hd
  | _ => exact ⟨hd, rfl⟩

theorem reason_pipeline {p : IngestionPipeline.State α} {b : Thread}
    (h : IngestionPipeline.Step cfg s.pipeline b p) (hf : IngestionPipeline.Flow cfg s.pipeline)
    (hs : s.signalled = true ∨ (s.pipeline.ingest = .done ∧ s.pipeline.exhausted = true)) :
    s.signalled = true ∨ (p.ingest = .done ∧ p.exhausted = true) := by
  rcases hs with hs | ⟨hd, hx⟩
  · exact Or.inl hs
  · obtain ⟨hd', hx'⟩ := done_step h hf hd
    exact Or.inr ⟨hd', hx'.trans hx⟩

theorem reason_step (h : Step cfg s a t) (hf : IngestionPipeline.Flow cfg s.pipeline)
    (he : Ended s.pipeline) (hph : Phase s) (hs : Reason s) : Reason t := by
  intro hpast
  cases h with
  | signal => exact Or.inl rfl
  | signalSeen _ hsig => exact Or.inl hsig
  | finishedSeen hm hfin =>
    have hd := he.finished hfin
    simp only [Phase, hm] at hph
    exact Or.inr ⟨hd, he.exhausted hph.1 (by rw [hd]; rfl)⟩
  | @start p hm hp =>
    rcases afterStart_cases p with he | he | he <;> simp only [he] at hpast <;> cases hpast
  | stop hm hp | destroy hm hp => exact reason_pipeline (s := s) hp hf (hs (by rw [hm]; rfl))
  | worker _ _ hp | publishReturn _ hp | flush _ hp => exact reason_pipeline (s := s) hp hf (hs hpast)
  | noSignal | notFinished | wake => cases hpast
  | load hm | print hm => exact hs (by rw [hm]; rfl)
  | produce | poll | report => exact hs hpast

/-- Once `stop()` has returned nothing the final line reads can change. -/
theorem loads_stable (h : Step cfg s a t) (hf : IngestionPipeline.Flow cfg s.pipeline)
    (hacc : Accounted s) (hstop : s.pipeline.stopped = true) {f : State α → ℕ}
    (hmem : f ∈ finalLoads) : f t = f s := by
  obtain ⟨hi, hp, -⟩ := hf.stopped hstop
  have hpoll : s.polling = none := by
    by_contra hn
    obtain ⟨e, he⟩ := hacc.polling hn
    simp [hp] at he
  have howner : ∀ {q m}, IngestionPipeline.Step cfg s.pipeline .owner q →
      f { s with main := m, pipeline := q } = f s := by
    intro q m hq
    simp only [finalLoads, List.mem_cons, List.not_mem_nil, or_false] at hmem
    rcases hmem with rfl | rfl | rfl | rfl | rfl | rfl | rfl <;> cases hq <;> rfl
  have hmain : ∀ {m b r}, r.deliverySuccesses = s.producer.deliverySuccesses →
      r.deliveryFailures = s.producer.deliveryFailures →
      f { s with main := m, signalled := b, producer := r } = f s := by
    intro m b r hsucc hfail
    simp only [finalLoads, List.mem_cons, List.not_mem_nil, or_false] at hmem
    rcases hmem with rfl | rfl | rfl | rfl | rfl | rfl | rfl <;>
      first | rfl | exact hsucc | exact hfail
  cases h with
  | start _ hq | stop _ hq | destroy _ hq => exact howner hq
  | worker hb _ hq => cases hq <;> simp_all
  | publishReturn hn => simp [hpoll] at hn
  | produce hn | flush hn => simp [hp] at hn
  | poll hn => simp [hpoll, hp] at hn
  | signal | signalSeen | noSignal | finishedSeen | notFinished | wake | load | print
    | report => exact hmain rfl rfl

/-- The loaded part of the final line is what its loads would give now. -/
def Line (s : State α) : Prop :=
  match s.main with
  | .reading line => line = (finalLoads.take line.length).map (fun f => f s)
  | .destroying line | .returned line => line = finalLoads.map (fun f => f s)
  | _ => True

theorem Line.of_stable (hs : Line s) (hm : t.main = s.main)
    (hst : ∀ f ∈ finalLoads, s.main.pastLoop = true → s.main ≠ .stopping → f t = f s) :
    Line t := by
  unfold Line at *
  rw [hm]
  cases hpc : s.main with
  | reading line =>
    rw [hpc] at hs
    refine hs.trans (List.map_congr_left fun f hf => ?_)
    exact (hst f (List.mem_of_mem_take hf) (by rw [hpc]; rfl) (by simp [hpc])).symm
  | destroying line | returned line =>
    rw [hpc] at hs
    refine hs.trans (List.map_congr_left fun f hf => ?_)
    exact (hst f hf (by rw [hpc]; rfl) (by simp [hpc])).symm
  | _ => trivial

theorem Phase.stopped (hs : Phase s) (hl : s.main.pastLoop = true) (hn : s.main ≠ .stopping) :
    s.pipeline.stopped = true := by
  unfold Phase at hs
  cases hm : s.main with
  | reading | destroying | returned =>
    rw [hm] at hs
    exact hs.1
  | stopping => exact (hn hm).elim
  | _ => simp [hm, MainPC.pastLoop] at hl

theorem line_step (h : Step cfg s a t) (hf : IngestionPipeline.Flow cfg s.pipeline)
    (hacc : Accounted s) (hph : Phase s) (hs : Line s) : Line t := by
  have hstable : ∀ f ∈ finalLoads, s.main.pastLoop = true → s.main ≠ .stopping → f t = f s :=
    fun f hmem hl hn => loads_stable h hf hacc (hph.stopped hl hn) hmem
  cases h with
  | @start p hm hp =>
    rcases afterStart_cases p with he | he | he <;> simp only [Line, he]
  | @stop p hm hp =>
    rcases afterStop_cases p with he | he <;> simp [Line, he]
  | @load line f hm hget =>
    have hloads : ∀ g ∈ finalLoads, g { s with main := .reading (line ++ [f s]) } = g s :=
      fun g hg => hstable g hg (by rw [hm]; rfl) (by simp [hm])
    simp only [Line, hm] at hs
    simp only [Line]
    rw [List.length_append, List.length_singleton, List.take_add_one, hget, List.map_append,
      List.map_congr_left fun g hg => hloads g (List.mem_of_mem_take hg), ← hs]
    simp [hloads f (List.mem_of_getElem? hget)]
  | @print line hm hlen =>
    simp only [Line, hm, hlen, List.take_length] at hs ⊢
    exact hs
  | @destroy line p hm hp =>
    have hline : line = finalLoads.map
        (fun f => f { s with main := afterDestroy line p, pipeline := p }) := by
      simp only [Line, hm] at hs
      refine hs.trans (List.map_congr_left fun f hf => ?_)
      exact (hstable f hf (by rw [hm]; rfl) (by simp [hm])).symm
    rcases afterDestroy_cases line p with he | he | he <;> simp only [Line, he] at hline ⊢
    · exact hline
    · exact hline
  | signalSeen hm | noSignal hm | finishedSeen hm | notFinished hm | wake hm => trivial
  | _ => exact hs.of_stable rfl hstable

/-- What every state of the service satisfies. -/
structure Books (cfg : Config α) (s : State α) : Prop where
  flow : IngestionPipeline.Flow cfg s.pipeline
  threads : IngestionPipeline.Threads s.pipeline
  phase : Phase s
  ended : Ended s.pipeline
  reason : Reason s
  accounted : Accounted s
  line : Line s

theorem books_initial : Books cfg (initial cfg) where
  flow := IngestionPipeline.flow_initial calls_oneStart
  threads := IngestionPipeline.threads_initial
  phase := ⟨rfl, Or.inl ⟨rfl, rfl, rfl⟩⟩
  ended := ⟨by rintro - ⟨⟩, by rintro ⟨⟩⟩
  reason := by rintro ⟨⟩
  accounted := ⟨fun h => (h rfl).elim, rfl, by rintro ⟨⟩⟩
  line := trivial

theorem books_step (h : Step cfg s a t) (hs : Books cfg s) : Books cfg t := by
  have hpipe : ∀ {P : IngestionPipeline.State α → Prop}, P s.pipeline →
      (∀ {b q}, IngestionPipeline.Step cfg s.pipeline b q → P q) → P t.pipeline := by
    intro P hp hstep
    cases hl : pipelineLabel a with
    | none => rwa [simulates_pipeline.hidden trivial h hl]
    | some b => exact hstep (simulates_pipeline.visible trivial h hl)
  exact {
    flow := hpipe hs.flow fun hp => IngestionPipeline.flow_step hp hs.flow
    threads := hpipe hs.threads fun hp => IngestionPipeline.threads_step hp hs.threads
    phase := phase_step h hs.flow hs.threads hs.phase
    ended := hpipe hs.ended fun hp => ended_step hp hs.flow hs.ended
    reason := reason_step h hs.flow hs.ended hs.phase hs.reason
    accounted := accounted_step h hs.flow hs.accounted
    line := line_step h hs.flow hs.accounted hs.phase hs.line }

theorem books_reachable (h : Reachable (Step cfg) (initial cfg) s) : Books cfg s :=
  h.invariant books_initial fun hs hstep => books_step hstep hs

theorem Books.final (hs : Books cfg s) (hm : s.main = .returned line) :
    s.pipeline.stopped = true ∧ line = finalLoads.map (fun f => f s) := by
  have hline := hs.line
  simp only [Line, hm] at hline
  exact ⟨hs.phase.stopped (by rw [hm]; rfl) (by simp [hm]), hline⟩

/-- After `stop()` the calls of `publish()` that returned true are the messages taken by
the client library. -/
theorem Books.delivered (hs : Books cfg s) (hstop : s.pipeline.stopped = true) :
    s.pipeline.eventsPublished = s.producer.deliverySuccesses + s.producer.deliveryFailures +
      s.producer.outstanding ∧ (s.timedOut = false → s.producer.outstanding = 0) := by
  obtain ⟨-, hp, -⟩ := hs.flow.stopped hstop
  obtain ⟨hpoll, hacc, hflush⟩ := hs.accounted
  have hnone : s.polling = none := by
    by_contra hn
    obtain ⟨e, he⟩ := hpoll hn
    simp [hp] at he
  have hpub := hs.flow.counted.published
  rw [hp] at hpub
  simp only [hnone, DeliveryReports.accepted] at hacc
  simp only [IngestionPipeline.PublishPC.lag] at hpub
  refine ⟨?_, hflush hp⟩
  simp at hacc
  omega

/-- The line `main()` prints at its end adds up, for every source, every pattern of local
and broker failures, and every moment of the signal: received events are published or
failed locally, published ones delivered, failed at the broker, or given up on by a
`flush()` that timed out. -/
theorem final_line_adds_up (cfg : Config α) {s : State α} {line : List ℕ}
    (h : Reachable (Step cfg) (initial cfg) s) (hm : s.main = .returned line) :
    ∃ received published failures mark delivered failed,
      line = [received, published, failures, mark, cfg.capacity, delivered, failed] ∧
      received = s.pipeline.yielded.length ∧ s.pipeline.handed = s.pipeline.yielded ∧
      (cfg.recorder = true → s.pipeline.recorded = s.pipeline.yielded) ∧
      received = published + failures ∧
      published = delivered + failed + s.producer.outstanding ∧
      (s.timedOut = false → s.producer.outstanding = 0) ∧ mark ≤ cfg.capacity := by
  have hb := books_reachable h
  obtain ⟨hstop, hline⟩ := hb.final hm
  obtain ⟨hhand, hrecv, hsum, hrec⟩ := hb.flow.complete hstop
  obtain ⟨hdel, hout⟩ := hb.delivered hstop
  have hq := IngestionPipeline.queue_bounded (pipeline_reachable h)
  refine ⟨_, _, _, _, _, _, ?_, hrecv, hhand, hrec, hsum.symm, hdel, hout, hq.capacity ▸ hq.mark⟩
  rw [hline, ← hq.capacity]
  rfl

/-- A source with two events. -/
def twoEvents : Config ℕ := ⟨1, ⟨fun k _ _ r => r = [7, 9][k]?, false⟩, fun _ => true, false⟩

/-- Two events, received and published with no signal; the second delivery fails. -/
theorem two_events_run :
    ∃ s : State ℕ, Reachable (Step twoEvents) (initial twoEvents) s ∧
      s.main = .returned [2, 2, 0, 1, 1, 1, 1] ∧ s.signalled = false := by
  have h₁ : Reachable (Step twoEvents) (initial twoEvents) _ :=
    (Reachable.refl _).snoc (.start rfl (.start rfl rfl))
  have h₂ := h₁.snoc (.start rfl (.launchIngest rfl rfl))
  have h₃ := h₂.snoc (.start rfl (.launchPublish rfl rfl))
  have h₄ := h₃.snoc (.worker (by decide) (by rintro ⟨⟩) (.callNext rfl))
  have h₅ := h₄.snoc (.worker (by decide) (by rintro ⟨⟩) (.nextTrue (e := 7) rfl rfl))
  have h₆ := h₅.snoc (.worker (by decide) (by rintro ⟨⟩) (.countReceived rfl))
  have h₇ := h₆.snoc (.worker (by decide) (by rintro ⟨⟩) (.record rfl))
  have h₈ := h₇.snoc (.worker (by decide) (by rintro ⟨⟩) (.pushTrue rfl rfl rfl))
  have h₉ := h₈.snoc (.worker (by decide) (fun _ => rfl) (.popTrue rfl rfl rfl))
  have h₁₀ := h₉.snoc (.worker (by decide) (by rintro ⟨⟩) (.callNext rfl))
  have h₁₁ := h₁₀.snoc (.worker (by decide) (by rintro ⟨⟩) (.nextTrue (e := 9) rfl rfl))
  have h₁₂ := h₁₁.snoc (.worker (by decide) (by rintro ⟨⟩) (.countReceived rfl))
  have h₁₃ := h₁₂.snoc (.worker (by decide) (by rintro ⟨⟩) (.record rfl))
  have h₁₄ := h₁₃.snoc (.worker (by decide) (by rintro ⟨⟩) (.pushTrue rfl rfl rfl))
  have h₁₅ := h₁₄.snoc (.worker (by decide) (fun _ => rfl) (.publish rfl))
  have h₁₆ := h₁₅.snoc (.produce rfl rfl)
  have h₁₇ := h₁₆.snoc (.publishReturn rfl (.publishReturn rfl) rfl)
  have h₁₈ := h₁₇.snoc (.worker (by decide) (fun _ => rfl) (.countPublished rfl))
  have h₁₉ := h₁₈.snoc (.report true (by decide))
  have h₂₀ := h₁₉.snoc (.worker (by decide) (by rintro ⟨⟩) (.callNext rfl))
  have h₂₁ := h₂₀.snoc (.worker (by decide) (by rintro ⟨⟩) (.nextFalse rfl rfl))
  have h₂₂ := h₂₁.snoc (.worker (by decide) (by rintro ⟨⟩) (.finishIngest rfl))
  have h₂₃ := h₂₂.snoc (.worker (by decide) (fun _ => rfl) (.popTrue rfl rfl rfl))
  have h₂₄ := h₂₃.snoc (.worker (by decide) (fun _ => rfl) (.publish rfl))
  have h₂₅ := h₂₄.snoc (.produce rfl rfl)
  have h₂₆ := h₂₅.snoc (.poll (Or.inl (by simp)) (by decide))
  have h₂₇ := h₂₆.snoc (.publishReturn rfl (.publishReturn rfl) rfl)
  have h₂₈ := h₂₇.snoc (.worker (by decide) (fun _ => rfl) (.countPublished rfl))
  have h₂₉ := h₂₈.snoc (.report false (by decide))
  have h₃₀ := h₂₉.snoc (.noSignal rfl rfl)
  have h₃₁ := h₃₀.snoc (.finishedSeen rfl rfl)
  have h₃₂ := h₃₁.snoc (.stop rfl (.requestStop rfl rfl))
  have h₃₃ := h₃₂.snoc (.stop rfl (.stop rfl rfl rfl))
  have h₃₄ := h₃₃.snoc (.stop rfl (.joinIngest rfl fun _ => rfl))
  have h₃₅ := h₃₄.snoc (.stop rfl (.shutDownQueue rfl))
  have h₃₆ := h₃₅.snoc (.worker (by decide) (fun _ => rfl) (.popFalse rfl rfl rfl))
  have h₃₇ := h₃₆.snoc (.poll (Or.inr rfl) (by decide))
  have h₃₈ := h₃₇.snoc (.flush rfl (.flush rfl))
  have h₃₉ := h₃₈.snoc (.stop rfl (.joinPublish rfl fun _ => rfl))
  have h₄₀ := h₃₉.snoc (.load rfl rfl)
  have h₄₁ := h₄₀.snoc (.load rfl rfl)
  have h₄₂ := h₄₁.snoc (.load rfl rfl)
  have h₄₃ := h₄₂.snoc (.load rfl rfl)
  have h₄₄ := h₄₃.snoc (.load rfl rfl)
  have h₄₅ := h₄₄.snoc (.load rfl rfl)
  have h₄₆ := h₄₅.snoc (.load rfl rfl)
  have h₄₇ := h₄₆.snoc (.print rfl rfl)
  have h₄₈ := h₄₇.snoc (.destroy rfl (.requestStop rfl rfl))
  have h₄₉ := h₄₈.snoc (.destroy rfl (.stopIdle rfl rfl rfl))
  exact ⟨_, h₄₉, rfl, rfl⟩

/-- The line of that run. -/
theorem final_line_two_events :
    ∃ s : State ℕ, s.main = .returned [2, 2, 0, 1, 1, 1, 1] ∧
      s.pipeline.handed = s.pipeline.yielded ∧ s.pipeline.yielded.length = 2 := by
  obtain ⟨s, h, hm, -⟩ := two_events_run
  obtain ⟨received, published, failures, mark, delivered, failed, hline, hr, hh, -⟩ :=
    final_line_adds_up _ h hm
  refine ⟨s, hm, hh, ?_⟩
  rw [← hr]
  simp only [List.cons.injEq] at hline
  exact hline.1.symm

/-- As long as `next()` returns, `main()` gives up only where `start()` threw. Without a signal
it ends when the source does, so a replay is published from its first event to its last. -/
theorem unsignalled_run_is_whole (hsrc : cfg.source.Follows events)
    (h : Reachable (Step cfg) (initial cfg) s) :
    (s.main = .terminated → s.pipeline.started = false) ∧
    (s.signalled = false → ∀ line, s.main = .returned line →
      s.pipeline.handed = events ∧ line.head? = some events.length) := by
  have hb := books_reachable h
  refine ⟨fun hm => ?_, fun hn line hm => ?_⟩
  · have hph := hb.phase
    simp only [Phase, hm] at hph
    exact hph
  · obtain ⟨hstop, hline⟩ := hb.final hm
    obtain ⟨hhand, hrecv, -⟩ := hb.flow.complete hstop
    have hseq := IngestionPipeline.sequenced_reachable hsrc calls_oneStart (pipeline_reachable h)
    rcases hb.reason (by rw [hm]; rfl) with hsig | ⟨-, hex⟩
    · simp [hn] at hsig
    · have hall := hseq.exhausted hex
      refine ⟨hhand.trans hall, ?_⟩
      rw [hline, ← hall, ← hrecv]
      rfl

theorem unsignalled_run_two_events :
    ∃ s : State ℕ, s.main = .returned [2, 2, 0, 1, 1, 1, 1] ∧ s.pipeline.handed = [7, 9] := by
  obtain ⟨s, h, hm, hn⟩ := two_events_run
  have hsrc : twoEvents.source.Follows [7, 9] := ⟨fun hr => hr.symm, fun hr => hr.symm⟩
  exact ⟨s, hm, ((unsignalled_run_is_whole hsrc h).2 hn _ hm).1⟩

end TickForge.IngestionService
