import TickForge.Lib.Simulation
import TickForge.IngestionPipeline.Backpressure
import TickForge.IngestionPipeline.Destruction
import TickForge.IngestionPipeline.Sequence
import TickForge.Kafka.DeliveryReports

/-! The ingestion service: `main()`, the pipeline it owns, and the producer behind it. -/
namespace TickForge.IngestionService

open Transition
open IngestionPipeline (Config Thread Call destructor)

/-- Positions in `main()` from `pipeline.start()` on. -/
inductive MainPC where
  | starting
  | checkSignal
  | checkFinished
  | sleeping
  | stopping
  /-- The numbers of the final line that have been loaded. -/
  | reading (line : List ℕ)
  | destroying (line : List ℕ)
  | returned (line : List ℕ)
  /-- `std::terminate()`. -/
  | terminated
  deriving DecidableEq, Repr

/-- Who moves: a signal handler, `main()` itself or inside a call of the pipeline, a
worker thread, the publish thread inside the producer, the client library. -/
inductive Actor where
  | signal
  | main
  | pipeline (thread : Thread)
  | producer
  | library
  deriving DecidableEq, Repr

structure State (α : Type*) where
  main : MainPC
  /-- `g_shutdown_requested`. -/
  signalled : Bool
  pipeline : IngestionPipeline.State α
  producer : DeliveryReports
  /-- The result of `rd_kafka_producev` while `publish()` is in `rd_kafka_poll`. -/
  polling : Option Bool
  /-- `rd_kafka_flush` returned before everything was reported. -/
  timedOut : Bool

variable {α : Type*}

/-- The calls `main()` makes on its pipeline, the destructor's included. -/
def calls : List Call := .start :: .requestStop :: .stop :: destructor

def initial (cfg : Config α) : State α where
  main := .starting
  signalled := false
  pipeline := IngestionPipeline.initial cfg calls
  producer := .empty
  polling := none
  timedOut := false

/-- The loads of the final line: those of `stats()`, then the two delivery counters. -/
def finalLoads : List (State α → ℕ) :=
  [fun s => s.pipeline.eventsReceived, fun s => s.pipeline.eventsPublished,
    fun s => s.pipeline.publishFailures, fun s => s.pipeline.queue.highWaterMark,
    fun s => s.pipeline.queue.capacity, fun s => s.producer.deliverySuccesses,
    fun s => s.producer.deliveryFailures]

/-- An exception out of `start()` leaves `main()`. -/
def afterStart (p : IngestionPipeline.State α) : MainPC :=
  if p.owner ≠ .idle then .starting
  else if p.started then .checkSignal
  else .terminated

def afterStop (p : IngestionPipeline.State α) : MainPC :=
  if p.owner = .idle ∧ p.script = destructor then .reading [] else .stopping

/-- A thread member that is still joinable terminates the program. -/
def afterDestroy (line : List ℕ) (p : IngestionPipeline.State α) : MainPC :=
  if p.owner = .idle ∧ p.script = [] then
    if p.ingestJoinable || p.publishJoinable then .terminated else .returned line
  else .destroying line

/-- The publish thread is inside `publish()` or `flush()`. -/
def inProducer : IngestionPipeline.PublishPC α → Bool
  | .inPublish _ | .flushing => true
  | _ => false

/-- The calls of `next()` return; an exception that leaves one of them ends the process. -/
inductive Step (cfg : Config α) : State α → Actor → State α → Prop where
  | signal {s} : s.signalled = false → Step cfg s .signal { s with signalled := true }
  | start {s p} : s.main = .starting → IngestionPipeline.Step cfg s.pipeline .owner p →
      Step cfg s (.pipeline .owner) { s with main := afterStart p, pipeline := p }
  | signalSeen {s} : s.main = .checkSignal → s.signalled = true →
      Step cfg s .main { s with main := .stopping }
  | noSignal {s} : s.main = .checkSignal → s.signalled = false →
      Step cfg s .main { s with main := .checkFinished }
  | finishedSeen {s} : s.main = .checkFinished → s.pipeline.ingestFinished = true →
      Step cfg s .main { s with main := .stopping }
  | notFinished {s} : s.main = .checkFinished → s.pipeline.ingestFinished = false →
      Step cfg s .main { s with main := .sleeping }
  /-- The periodic report of the loop only reads. -/
  | wake {s} : s.main = .sleeping → Step cfg s .main { s with main := .checkSignal }
  | stop {s p} : s.main = .stopping → IngestionPipeline.Step cfg s.pipeline .owner p →
      Step cfg s (.pipeline .owner) { s with main := afterStop p, pipeline := p }
  | load {s line f} : s.main = .reading line → finalLoads[line.length]? = some f →
      Step cfg s .main { s with main := .reading (line ++ [f s]) }
  | print {s line} : s.main = .reading line → line.length = (finalLoads (α := α)).length →
      Step cfg s .main { s with main := .destroying line }
  | destroy {s line p} : s.main = .destroying line →
      IngestionPipeline.Step cfg s.pipeline .owner p →
      Step cfg s (.pipeline .owner) { s with main := afterDestroy line p, pipeline := p }
  | worker {s a p} : a ≠ .owner → (a = .publish → inProducer s.pipeline.publish = false) →
      IngestionPipeline.Step cfg s.pipeline a p →
      Step cfg s (.pipeline a) { s with pipeline := p }
  | produce {s e} : s.pipeline.publish = .inPublish e → s.polling = none →
      Step cfg s .producer { s with
        producer := s.producer.produce (cfg.publishReturns s.pipeline.results.length)
        polling := some (cfg.publishReturns s.pipeline.results.length) }
  | poll {s} : s.polling ≠ none ∨ s.pipeline.publish = .flushing → s.producer.reports ≠ [] →
      Step cfg s .producer { s with producer := s.producer.poll }
  | publishReturn {s ok p} : s.polling = some ok →
      IngestionPipeline.Step cfg s.pipeline .publish p →
      p.results = s.pipeline.results ++ [ok] →
      Step cfg s (.pipeline .publish) { s with pipeline := p, polling := none }
  /-- `rd_kafka_flush` returns with nothing outstanding, or after its timeout. -/
  | flush {s p} : s.pipeline.publish = .flushing →
      IngestionPipeline.Step cfg s.pipeline .publish p →
      Step cfg s (.pipeline .publish) { s with
        pipeline := p, timedOut := decide (0 < s.producer.outstanding) }
  | report {s} (delivered : Bool) : 0 < s.producer.inFlight →
      Step cfg s .library { s with producer := s.producer.report delivered }

/-- The pipeline's own action behind a label. -/
def pipelineLabel : Actor → Option Thread
  | .pipeline a => some a
  | _ => none

variable {cfg : Config α} {s t : State α} {a : Actor} {line : List ℕ} {events : List α}

theorem simulates_pipeline :
    Simulates (Step cfg) (IngestionPipeline.Step cfg) State.pipeline pipelineLabel
      fun _ => True where
  keeps _ _ := trivial
  visible _ h hl := by
    cases h with
    | start _ hp | stop _ hp | destroy _ hp | worker _ _ hp | publishReturn _ hp | flush _ hp =>
      cases hl
      exact hp
    | _ => cases hl
  hidden _ h hl := by
    cases h with
    | start | stop | destroy | worker | publishReturn | flush => cases hl
    | _ => rfl

theorem pipeline_reachable (h : Reachable (Step cfg) (initial cfg) s) :
    Reachable (IngestionPipeline.Step cfg) (IngestionPipeline.initial cfg calls) s.pipeline :=
  (simulates_pipeline.reachable trivial h).1

theorem afterStart_cases (p : IngestionPipeline.State α) :
    afterStart p = .starting ∨ afterStart p = .checkSignal ∨ afterStart p = .terminated := by
  unfold afterStart
  split
  · exact Or.inl rfl
  · split
    · exact Or.inr (Or.inl rfl)
    · exact Or.inr (Or.inr rfl)

theorem afterStop_cases (p : IngestionPipeline.State α) :
    afterStop p = .reading [] ∨ afterStop p = .stopping := by
  unfold afterStop
  split
  · exact Or.inl rfl
  · exact Or.inr rfl

theorem afterDestroy_cases (line : List ℕ) (p : IngestionPipeline.State α) :
    afterDestroy line p = .terminated ∨ afterDestroy line p = .returned line ∨
      afterDestroy line p = .destroying line := by
  unfold afterDestroy
  split
  · split
    · exact Or.inl rfl
    · exact Or.inr (Or.inl rfl)
  · exact Or.inr (Or.inr rfl)

theorem calls_oneStart : IngestionPipeline.OneStart calls := by decide

/-- What has been called on the pipeline by each position of `main()`. -/
def Phase (s : State α) : Prop :=
  match s.main with
  | .starting => s.pipeline.sourceStopped = false ∧
      ((s.pipeline.script = calls ∧ s.pipeline.owner = .idle ∧ s.pipeline.started = false) ∨
      (s.pipeline.script = calls.tail ∧ s.pipeline.started = true ∧
        s.pipeline.owner.launching = true))
  | .checkSignal | .checkFinished | .sleeping => s.pipeline.sourceStopped = false ∧
      s.pipeline.script = calls.tail ∧ s.pipeline.owner = .idle ∧ s.pipeline.started = true ∧
      s.pipeline.stopped = false
  | .stopping => s.pipeline.started = true ∧ s.pipeline.stopped = false ∧
      ((s.pipeline.sourceStopped = false ∧ s.pipeline.script = calls.tail ∧
        s.pipeline.owner = .idle) ∨
      (s.pipeline.script = .stop :: destructor ∧ s.pipeline.owner = .idle ∧
        s.pipeline.sourceStopped = true) ∨
      (s.pipeline.script = destructor ∧ s.pipeline.owner.stopping = true ∧
        s.pipeline.sourceStopped = true))
  | .reading _ => s.pipeline.stopped = true ∧ s.pipeline.ingestJoinable = false ∧
      s.pipeline.publishJoinable = false ∧ s.pipeline.owner = .idle ∧
      s.pipeline.script = destructor ∧ s.pipeline.sourceStopped = true
  | .destroying _ => s.pipeline.stopped = true ∧ s.pipeline.ingestJoinable = false ∧
      s.pipeline.publishJoinable = false ∧ s.pipeline.owner = .idle ∧
      (s.pipeline.script = destructor ∨ s.pipeline.script = [.stop]) ∧
      s.pipeline.sourceStopped = true
  | .returned _ => s.pipeline.stopped = true ∧ s.pipeline.owner = .idle ∧
      s.pipeline.script = [] ∧ s.pipeline.sourceStopped = true
  | .terminated => s.pipeline.started = false

/-- `main()` only ever touches the pipeline through the owner. -/
theorem phase_congr {p : IngestionPipeline.State α} {b : Thread} (hs : Phase s)
    (h : IngestionPipeline.Step cfg s.pipeline b p) (hb : b ≠ .owner) :
    Phase { s with pipeline := p } := by
  obtain ⟨ho, hscript, hst, hsp, hij, hpj, -, hsrc, -⟩ := IngestionPipeline.worker_frame h hb
  unfold Phase at *
  cases hm : s.main <;> rw [hm] at hs <;> dsimp only at hs ⊢ <;>
    simp only [ho, hscript, hst, hsp, hij, hpj, hsrc] <;> exact hs

theorem phase_start {p : IngestionPipeline.State α} (hs : Phase s) (hm : s.main = .starting)
    (h : IngestionPipeline.Step cfg s.pipeline .owner p)
    (hf : IngestionPipeline.Flow cfg s.pipeline) :
    Phase { s with main := afterStart p, pipeline := p } := by
  have hc := hf.control
  simp only [Phase, hm] at hs
  obtain ⟨hsrc, ⟨hscript, ho, hst⟩ | ⟨hscript, hst, ho⟩⟩ := hs
  · cases h with
    | startThrows _ _ => simp [Phase, afterStart, ho, hst]
    | start _ hs =>
      have hrest := hs.symm.trans hscript
      simp only [calls, List.cons.injEq] at hrest
      simp [Phase, afterStart, hsrc, hrest, calls, IngestionPipeline.OwnerPC.launching]
    | requestStop _ hs | stopIdle _ hs | stop _ hs => simp [hscript, calls] at hs
    | launchIngest hl | launchPublish hl | joinIngest hl | shutDownQueue hl | joinPublish hl =>
      simp [ho] at hl
  · cases h with
    | launchIngest hl =>
      simp [Phase, afterStart, hsrc, hscript, hst, IngestionPipeline.OwnerPC.launching]
    | launchPublish hl =>
      have hstopped : s.pipeline.stopped = false := by
        unfold IngestionPipeline.Control at hc
        rw [hl] at hc
        exact hc.stopped
      simp [Phase, afterStart, hsrc, hscript, hst, hstopped]
    | startThrows hl | start hl | requestStop hl | stopIdle hl | stop hl | joinIngest hl
      | shutDownQueue hl | joinPublish hl => simp [hl, IngestionPipeline.OwnerPC.launching] at ho

theorem phase_stop {p : IngestionPipeline.State α} (hs : Phase s) (hm : s.main = .stopping)
    (h : IngestionPipeline.Step cfg s.pipeline .owner p)
    (ht : IngestionPipeline.Threads s.pipeline) :
    Phase { s with main := afterStop p, pipeline := p } := by
  simp only [Phase, hm] at hs
  obtain ⟨hst, hsp, ⟨hsrc, hscript, ho⟩ | ⟨hscript, ho, hsrc⟩ | ⟨hscript, ho, hsrc⟩⟩ := hs
  · cases h with
    | requestStop _ hs =>
      have hrest := hs.symm.trans hscript
      simp only [calls, List.tail_cons, List.cons.injEq, true_and] at hrest
      simp [Phase, afterStop, ho, hst, hsp, hrest, destructor]
    | startThrows _ hs | start _ hs | stopIdle _ hs | stop _ hs => simp [hscript, calls] at hs
    | launchIngest hl | launchPublish hl | joinIngest hl | shutDownQueue hl | joinPublish hl =>
      simp [ho] at hl
  · cases h with
    | stop _ hs =>
      have hrest := hs.symm.trans hscript
      simp only [List.cons.injEq, true_and] at hrest
      simp [Phase, afterStop, hst, hsp, hsrc, hrest, IngestionPipeline.OwnerPC.stopping]
    | stopIdle _ _ hn => simp [hst, hsp] at hn
    | startThrows _ hs | start _ hs | requestStop _ hs => simp [hscript] at hs
    | launchIngest hl | launchPublish hl | joinIngest hl | shutDownQueue hl | joinPublish hl =>
      simp [ho] at hl
  · cases h with
    | joinIngest | shutDownQueue =>
      simp [Phase, afterStop, hst, hsp, hsrc, hscript, IngestionPipeline.OwnerPC.stopping]
    | joinPublish hl =>
      have hj := ht.closing (by rw [hl]; rfl)
      simp [Phase, afterStop, hsrc, hscript, hj]
    | startThrows hl | start hl | requestStop hl | stopIdle hl | stop hl | launchIngest hl
      | launchPublish hl => simp [hl, IngestionPipeline.OwnerPC.stopping] at ho

theorem phase_destroy {p : IngestionPipeline.State α} (hs : Phase s)
    (hm : s.main = .destroying line) (h : IngestionPipeline.Step cfg s.pipeline .owner p) :
    Phase { s with main := afterDestroy line p, pipeline := p } := by
  simp only [Phase, hm] at hs
  obtain ⟨hsp, hij, hpj, ho, hscript | hscript, hsrc⟩ := hs
  · cases h with
    | requestStop _ hs =>
      have hrest := hs.symm.trans hscript
      simp only [destructor, List.cons.injEq, true_and] at hrest
      simp [Phase, afterDestroy, ho, hsp, hij, hpj, hsrc, hrest]
    | startThrows _ hs | start _ hs | stopIdle _ hs | stop _ hs => simp [hscript, destructor] at hs
    | launchIngest hl | launchPublish hl | joinIngest hl | shutDownQueue hl | joinPublish hl =>
      simp [ho] at hl
  · cases h with
    | stopIdle _ hs =>
      have hrest := hs.symm.trans hscript
      simp only [List.cons.injEq, true_and] at hrest
      simp [Phase, afterDestroy, ho, hsp, hij, hpj, hsrc, hrest]
    | stop _ _ hn => simp [hsp] at hn
    | startThrows _ hs | start _ hs | requestStop _ hs => simp [hscript] at hs
    | launchIngest hl | launchPublish hl | joinIngest hl | shutDownQueue hl | joinPublish hl =>
      simp [ho] at hl

theorem phase_step (h : Step cfg s a t) (hf : IngestionPipeline.Flow cfg s.pipeline)
    (ht : IngestionPipeline.Threads s.pipeline) (hs : Phase s) : Phase t := by
  cases h with
  | start hm hp => exact phase_start hs hm hp hf
  | stop hm hp => exact phase_stop hs hm hp ht
  | destroy hm hp => exact phase_destroy hs hm hp
  | worker hb _ hp => exact phase_congr hs hp hb
  | publishReturn _ hp => exact phase_congr hs hp (by simp)
  | flush _ hp => exact phase_congr hs hp (by simp)
  | signalSeen hm | finishedSeen hm =>
    simp only [Phase, hm] at hs ⊢
    exact ⟨hs.2.2.2.1, hs.2.2.2.2, Or.inl ⟨hs.1, hs.2.1, hs.2.2.1⟩⟩
  | noSignal hm | notFinished hm | wake hm | load hm =>
    simp only [Phase, hm] at hs ⊢
    exact hs
  | print hm =>
    simp only [Phase, hm] at hs ⊢
    obtain ⟨hsp, hij, hpj, ho, hscript, hsrc⟩ := hs
    exact ⟨hsp, hij, hpj, ho, Or.inl hscript, hsrc⟩
  | signal | produce | poll | report => exact hs

end TickForge.IngestionService
