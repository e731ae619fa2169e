import TickForge.BoundedQueue.Basic

/-! The two worker threads, the queue between them, and the owner that starts and stops them. -/
namespace TickForge.IngestionPipeline

open TickForge.BoundedQueue (canPush canPop)

/-- A `MarketDataSource` as the pipeline sees it. `mayReturn k late now r` says that
the `k`-th `next()` call may return `r`, where `late` and `now` tell whether `stop()`
had been called before that call and before its return. -/
structure Source (α : Type*) where
  mayReturn : ℕ → Bool → Bool → Option α → Prop
  /-- `LiveSource::start()` clears a stale stop request, `ReplaySource::start()` does not. -/
  clearsOnStart : Bool

/-- A source with a fixed list of events, such as a replay file: a call that overlaps
`stop()` may still deliver its event, a later one may not. -/
def Source.ofList {α : Type*} (events : List α) : Source α where
  mayReturn k late now r :=
    (late = false ∧ r = events[k]?) ∨ ((late = true ∨ now = true) ∧ r = none)
  clearsOnStart := false

/-- What the constructor is given. The publisher is the results of its successive calls. -/
structure Config (α : Type*) where
  capacity : ℕ
  source : Source α
  publishReturns : ℕ → Bool
  recorder : Bool

/-- Calls of the owner thread. -/
inductive Call where
  | start
  | requestStop
  | stop
  deriving DecidableEq, Repr

inductive OwnerPC where
  /-- Between two calls. -/
  | idle
  | launchIngest
  | launchPublish
  | joinIngest
  | shutDownQueue
  | joinPublish
  deriving DecidableEq, Repr

/-- Positions in `runIngest()`. -/
inductive IngestPC (α : Type*) where
  | notStarted
  | atNext
  | inNext (late : Bool)
  | received (event : α)
  | counted (event : α)
  | pushing (event : α)
  | exiting
  | done
  deriving DecidableEq, Repr

/-- Positions in `runPublish()`. -/
inductive PublishPC (α : Type*) where
  | notStarted
  | atPop
  | popped (event : α)
  | inPublish (event : α)
  | returned (ok : Bool)
  | flushing
  | done
  deriving DecidableEq, Repr

/-- The pipeline's members, the owner's remaining calls, and what source, recorder
and publisher have seen. -/
structure State (α : Type*) where
  script : List Call
  owner : OwnerPC
  ingest : IngestPC α
  publish : PublishPC α
  ingestJoinable : Bool
  publishJoinable : Bool
  queue : BoundedQueue α
  started : Bool
  stopped : Bool
  eventsReceived : ℕ
  eventsPublished : ℕ
  publishFailures : ℕ
  ingestFinished : Bool
  sourceStopped : Bool
  /-- `next()` returned false although nobody had called `stop()` on the source. -/
  exhausted : Bool
  nextCalls : ℕ
  yielded : List α
  recorded : List α
  handed : List α
  results : List Bool
  flushed : Bool

inductive Thread where
  | owner
  | ingest
  | publish
  deriving DecidableEq, Repr

variable {α : Type*}

/-- The constructed pipeline, before its owner has called anything. -/
def initial (cfg : Config α) (script : List Call) : State α where
  script := script
  owner := .idle
  ingest := .notStarted
  publish := .notStarted
  ingestJoinable := false
  publishJoinable := false
  queue := .new cfg.capacity
  started := false
  stopped := false
  eventsReceived := 0
  eventsPublished := 0
  publishFailures := 0
  ingestFinished := false
  sourceStopped := false
  exhausted := false
  nextCalls := 0
  yielded := []
  recorded := []
  handed := []
  results := []
  flushed := false

/-- One action of one thread. Queue waits are guards, as the queue's critical sections. -/
inductive Step (cfg : Config α) : State α → Thread → State α → Prop where
  /-- `source_->start()` throws out of `start()`, before any member is written. -/
  | startThrows {s rest} : s.owner = .idle → s.script = .start :: rest →
      Step cfg s .owner { s with script := rest }
  | start {s rest} : s.owner = .idle → s.script = .start :: rest →
      Step cfg s .owner { s with
        script := rest, owner := .launchIngest, started := true
        sourceStopped := s.sourceStopped && !cfg.source.clearsOnStart }
  /-- To assign to a `std::thread` that is still joinable is `std::terminate`. -/
  | launchIngest {s} : s.owner = .launchIngest → s.ingestJoinable = false →
      Step cfg s .owner { s with
        owner := .launchPublish, ingest := .atNext, ingestJoinable := true }
  | launchPublish {s} : s.owner = .launchPublish → s.publishJoinable = false →
      Step cfg s .owner { s with
        owner := .idle, publish := .atPop, publishJoinable := true }
  | requestStop {s rest} : s.owner = .idle → s.script = .requestStop :: rest →
      Step cfg s .owner { s with
        script := rest, sourceStopped := s.sourceStopped || s.started }
  /-- `stop()` before any successful `start()`, or once more. -/
  | stopIdle {s rest} : s.owner = .idle → s.script = .stop :: rest →
      (s.stopped || !s.started) = true → Step cfg s .owner { s with script := rest }
  | stop {s rest} : s.owner = .idle → s.script = .stop :: rest →
      (s.stopped || !s.started) = false →
      Step cfg s .owner { s with script := rest, owner := .joinIngest }
  | joinIngest {s} : s.owner = .joinIngest → (s.ingestJoinable = true → s.ingest = .done) →
      Step cfg s .owner { s with owner := .shutDownQueue, ingestJoinable := false }
  | shutDownQueue {s} : s.owner = .shutDownQueue →
      Step cfg s .owner { s with owner := .joinPublish, queue := s.queue.shutdown }
  | joinPublish {s} : s.owner = .joinPublish → (s.publishJoinable = true → s.publish = .done) →
      Step cfg s .owner { s with owner := .idle, publishJoinable := false, stopped := true }
  | callNext {s} : s.ingest = .atNext →
      Step cfg s .ingest { s with ingest := .inNext s.sourceStopped }
  | nextTrue {s late e} : s.ingest = .inNext late →
      cfg.source.mayReturn s.nextCalls late s.sourceStopped (some e) →
      Step cfg s .ingest { s with
        ingest := .received e, nextCalls := s.nextCalls + 1, yielded := s.yielded ++ [e] }
  | nextFalse {s late} : s.ingest = .inNext late →
      cfg.source.mayReturn s.nextCalls late s.sourceStopped none →
      Step cfg s .ingest { s with
        ingest := .exiting, nextCalls := s.nextCalls + 1, exhausted := !s.sourceStopped }
  | countReceived {s e} : s.ingest = .received e →
      Step cfg s .ingest { s with
        ingest := .counted e, eventsReceived := s.eventsReceived + 1 }
  | record {s e} : s.ingest = .counted e →
      Step cfg s .ingest { s with
        ingest := .pushing e
        recorded := if cfg.recorder then s.recorded ++ [e] else s.recorded }
  | pushTrue {s e q} : s.ingest = .pushing e → s.queue.canPush = true →
      s.queue.push e = (true, q) → Step cfg s .ingest { s with ingest := .atNext, queue := q }
  /-- The queue was shut down out from under us. -/
  | pushFalse {s e q} : s.ingest = .pushing e → s.queue.canPush = true →
      s.queue.push e = (false, q) → Step cfg s .ingest { s with ingest := .exiting, queue := q }
  | finishIngest {s} : s.ingest = .exiting →
      Step cfg s .ingest { s with ingest := .done, ingestFinished := true }
  | popTrue {s e q} : s.publish = .atPop → s.queue.canPop = true →
      s.queue.pop = (some e, q) →
      Step cfg s .publish { s with publish := .popped e, queue := q }
  | popFalse {s q} : s.publish = .atPop → s.queue.canPop = true → s.queue.pop = (none, q) →
      Step cfg s .publish { s with publish := .flushing, queue := q }
  | publish {s e} : s.publish = .popped e →
      Step cfg s .publish { s with publish := .inPublish e, handed := s.handed ++ [e] }
  | publishReturn {s e} : s.publish = .inPublish e →
      Step cfg s .publish { s with
        publish := .returned (cfg.publishReturns s.results.length)
        results := s.results ++ [cfg.publishReturns s.results.length] }
  | countPublished {s} : s.publish = .returned true →
      Step cfg s .publish { s with
        publish := .atPop, eventsPublished := s.eventsPublished + 1 }
  | countFailure {s} : s.publish = .returned false →
      Step cfg s .publish { s with
        publish := .atPop, publishFailures := s.publishFailures + 1 }
  | flush {s} : s.publish = .flushing →
      Step cfg s .publish { s with publish := .done, flushed := true }

/-- The event the ingest thread holds outside the queue. -/
def IngestPC.held : IngestPC α → List α
  | .received e | .counted e | .pushing e => [e]
  | _ => []

/-- The event the publish thread has popped and not yet handed over. -/
def PublishPC.held : PublishPC α → List α
  | .popped e => [e]
  | _ => []

/-- `stop()` was the owner's last call and has returned. -/
def Returned (s : State α) : Prop := s.owner = .idle ∧ s.script = []

/-- The owner's calls that start the workers at most once. -/
def OneStart (script : List Call) : Prop := script.count .start ≤ 1

instance (script : List Call) : Decidable (OneStart script) :=
  inferInstanceAs (Decidable (_ ≤ _))

end TickForge.IngestionPipeline
